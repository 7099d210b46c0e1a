import PathQuery.Proofs.Automaton.Guarded
import PathQuery.Proofs.Automaton.Reach

/-!
# Proofs/Automaton/Empty — automata that accept no word

* `tryIsEmpty_iff_no_word_no_path` — the search for a final state finds none exactly where no word
  is accepted, and exactly where the closure has no entry from a start state to a final state.

The three are about the same paths in the adjacency matrix: the search follows them
(`isEmpty_iff_path`), the closure holds them, and each of them spells a word
(`exists_walk_iff_path`).
-/

namespace PathQuery.Automaton

open Relation (ReflTransGen)

universe u

variable {σ : Type u} {A : Automaton σ} {i j : Nat} {S : List Nat}

/-! ## Paths -/

theorem mem_successors_iff : j ∈ A.successors i ↔ A.adjacency.Adjacent i j := by
  rw [BoolMatrix.Adjacent, get_adjacency_iff]
  simp only [successors, List.mem_flatMap, BoolMatrix.get_eq_true_iff]

/-- **A search** reaches what paths lead to. -/
theorem reachable_successors_iff : Search.Reachable A.successors S j ↔
    ∃ i ∈ S, ReflTransGen A.adjacency.Adjacent i j := by
  constructor
  · intro h
    induction h with
    | seed hj => exact ⟨_, hj, .refl⟩
    | step _ hj ih =>
      obtain ⟨i, hi, hpath⟩ := ih
      exact ⟨i, hi, hpath.tail (mem_successors_iff.mp hj)⟩
  · rintro ⟨i, hi, hpath⟩
    induction hpath with
    | refl => exact .seed hi
    | tail _ hj ih => exact .step ih (mem_successors_iff.mpr hj)

/-- **Each path spells a word**, and each word's walk is a path. -/
theorem exists_walk_iff_path (hA : A.Separated) (hi : i < A.numStates) :
    (∃ w, A.frame.Walk i w j) ↔ ReflTransGen A.adjacency.Adjacent i j := by
  have hadjacent : ∀ {i j}, A.adjacency.Adjacent i j ↔ ∃ s, A.Moves s i j := fun {i j} => by
    rw [BoolMatrix.Adjacent, get_adjacency_iff]
    simpa using @exists_matrix_iff _ A i j hA fun _ => True
  constructor
  · rintro ⟨w, hw⟩
    induction hw with
    | nil => exact .refl
    | cons hmove _ ih => exact .head (hadjacent.mpr ⟨_, hmove⟩) (ih hmove.lt.2)
  · intro hpath
    induction hpath with
    | refl => exact ⟨[], .nil hi⟩
    | tail _ hjk ih =>
      obtain ⟨w, hw⟩ := ih
      obtain ⟨s, hmove⟩ := hadjacent.mp hjk
      exact ⟨w ++ [s], hw.append (.cons hmove (.nil hmove.lt.2))⟩

/-! ## Emptiness -/

/-- The search comes upon start states and ends of moves only. -/
theorem mem_of_reachable_successors (h : Search.Reachable A.successors A.start j) :
    j ∈ A.start ++ List.range A.numStates := by
  cases h with
  | seed hj => exact List.mem_append_left _ hj
  | step _ hj =>
    have hlt := (BoolMatrix.lt_of_get (mem_successors_iff.mp hj)).2
    exact List.mem_append_right _ (List.mem_range.mpr hlt)

/-- The search for a final state is not cut short by its bound. -/
theorem seeks_isEmpty :
    Search.Seeks A.successors A.isFinal [] (Distinct.ofList A.start).reverse (!A.isEmpty) := by
  rw [isEmpty, Bool.not_not]
  exact Search.seeks_finds (fun _ => mem_of_reachable_successors) (by simp)

/-- **The search for a final state** finds none where no path leads to one. -/
theorem isEmpty_iff_path : A.isEmpty = true ↔
    ∀ i ∈ A.start, ∀ j ∈ A.final, ¬ReflTransGen A.adjacency.Adjacent i j := by
  have hfinds : Search.finds A.successors A.isFinal (A.start.length + A.numStates) A.start = true ↔
      ∃ j, Search.Reachable A.successors A.start j ∧ A.isFinal j = true :=
    Search.finds_iff (fun _ => mem_of_reachable_successors) (by simp)
  rw [isEmpty, Bool.not_eq_true', ← Bool.not_eq_true, hfinds]
  simp only [reachable_successors_iff, isFinal, decide_eq_true_eq]
  constructor
  · exact fun h i hi j hj hpath => h ⟨j, ⟨i, hi, hpath⟩, hj⟩
  · rintro h ⟨j, ⟨i, hi, hpath⟩, hj⟩
    exact h i hi j hj hpath

theorem isEmpty_iff_accepts (hA : A.Separated) (hstart : ∀ i ∈ A.start, i < A.numStates) :
    A.isEmpty = true ↔ ∀ w, A.accepts w = false := by
  simp only [isEmpty_iff_path, ← Bool.not_eq_true, accepts_iff_walk hstart]
  constructor
  · rintro h w ⟨i, hi, j, hj, hw⟩
    exact h i hi j hj ((exists_walk_iff_path hA (hstart i hi)).mp ⟨w, hw⟩)
  · intro h i hi j hj hpath
    obtain ⟨w, hw⟩ := (exists_walk_iff_path hA (hstart i hi)).mpr hpath
    exact h w ⟨i, hi, j, hj, hw⟩

theorem isEmpty_iff_closure (hstart : ∀ i ∈ A.start, i < A.numStates) :
    A.isEmpty = true ↔ ∀ i ∈ A.start, ∀ j ∈ A.final, A.closure.get i j = false := by
  simp only [isEmpty_iff_path, ← Bool.not_eq_true, closure, BoolMatrix.get_closure_iff]
  exact forall₂_congr fun i hi => forall₂_congr fun _ _ =>
    not_congr (and_iff_right (hstart i hi)).symm

theorem tryIsEmpty_eq_ok (hstart : ∀ i ∈ A.start, i < A.numStates) :
    A.tryIsEmpty = .ok A.isEmpty := by
  rw [tryIsEmpty]
  split
  · next i hi =>
    rw [decide_eq_false (Nat.not_le.mpr (hstart i (List.mem_of_getLast? hi)))]
    rfl
  · next hnone =>
    refine congrArg _ (isEmpty_iff_path.mpr fun i hi => ?_).symm
    exact absurd (List.getLast?_eq_none_iff.mp hnone ▸ hi) List.not_mem_nil

/-- **Emptiness** of an automaton whose symbols have one matrix each and whose start states are
states.  The search for a final state is not cut short, and it finds none exactly where no word is
accepted.  The closure, which is refused exactly where there are too many states, has no entry from
a start state to a final state exactly then. -/
theorem tryIsEmpty_iff_no_word_no_path (hA : A.Separated)
    (hstart : ∀ i ∈ A.start, i < A.numStates) :
    A.tryIsEmpty = .ok A.isEmpty ∧
      Search.Seeks A.successors A.isFinal [] (Distinct.ofList A.start).reverse (!A.isEmpty) ∧
      (∀ w, A.tryAccepts w = .ok (A.accepts w)) ∧
      (A.isEmpty = true ↔ ∀ w, A.accepts w = false) ∧
      (A.numStates ≤ Word32.max → ∃ C, A.tryClosure = .ok C ∧
        C.shape = (A.numStates, A.numStates) ∧
        (A.isEmpty = true ↔ ∀ i ∈ A.start, ∀ j ∈ A.final, C.matrix.get i j = false)) ∧
      (Word32.max < A.numStates → A.tryClosure =
        .error (.dimensionMismatch (A.numStates, A.numStates) ShapedMatrix.limit)) :=
  ⟨tryIsEmpty_eq_ok hstart, seeks_isEmpty, fun _ => tryAccepts_eq_ok hstart,
    isEmpty_iff_accepts hA hstart,
    fun hn => ⟨_, tryClosure_eq hn, rfl, isEmpty_iff_closure hstart⟩, tryClosure_of_lt⟩

/-- An automaton whose final state is apart from the cycle around its start state. -/
def apartAutomaton : Automaton Nat :=
  ofMoves (.range 4) [(0, "a", 1), (1, "b", 0), (2, "a", 3)] [0] [3]

theorem tryIsEmpty_iff_no_word_no_path_apartAutomaton :
    apartAutomaton.Separated ∧ (∀ i ∈ apartAutomaton.start, i < apartAutomaton.numStates) ∧
      apartAutomaton.tryIsEmpty = .ok true ∧
      (∀ w, apartAutomaton.tryAccepts w = .ok false) ∧
      (∃ C, apartAutomaton.tryClosure = .ok C ∧ C.matrix.get 0 3 = false) ∧
      (apartAutomaton.markFinal 0).tryIsEmpty = .ok false ∧
      ∃ w, (apartAutomaton.markFinal 0).tryAccepts w = .ok true := by
  have hA : apartAutomaton.Separated := separated_ofMoves
  have hstart : ∀ i ∈ apartAutomaton.start, i < apartAutomaton.numStates := by decide
  have hempty : apartAutomaton.isEmpty = true := by decide
  obtain ⟨hok, -, haccepts, hnone, hclosure, -⟩ := tryIsEmpty_iff_no_word_no_path hA hstart
  obtain ⟨C, hC, -, hentries⟩ := hclosure (by decide)
  obtain ⟨hok', -, haccepts', -⟩ :=
    tryIsEmpty_iff_no_word_no_path (A := apartAutomaton.markFinal 0) hA hstart
  exact ⟨hA, hstart, hempty ▸ hok, fun w => hnone.mp hempty w ▸ haccepts w,
    ⟨C, hC, hentries.mp hempty 0 (by decide) 3 (by decide)⟩, hok', [], haccepts' []⟩

end PathQuery.Automaton
