import Mathlib.Data.List.Induction
import Mathlib.Data.List.Nodup
import Mathlib.Data.List.ProdSigma
import PathQuery.Automaton.Reach
import PathQuery.Proofs.Automaton.Product

/-!
# Proofs/Automaton/Reach — reachability along words

* `mem_hitsFrom_iff` — the search from a state finds the final states that nonempty words of the
  other automaton lead to.
* `exists_mem_reach_iff` — the entry of a start state lists these states.
* `tryReach_entries` — no fault occurs, and each start state has one entry.

The search visits the pairs of states that one word leads to (`reachable_jointSuccessors_iff`).  It
reports the pairs behind a visited one, so that the word of a reported pair is not empty.
-/

namespace PathQuery.Automaton

universe u v

variable {σ : Type u} {τ : Type v} {A G : Automaton σ} {C : Automaton τ} {i j c d : Nat}
  {s : String} {w : List String} {S : List Nat}

/-! ## Words and walks -/

theorem mem_row_matrix_iff : j ∈ (A.matrix s).row i ↔ A.Moves s i j :=
  BoolMatrix.get_eq_true_iff.symm

theorem hasSymbol_iff_mem_symbols : A.hasSymbol s = true ↔ s ∈ A.symbols := by
  rw [symbols, Ascending.mem_ofList, hasSymbol, matrix?, Option.isSome_iff_exists]
  constructor
  · rintro ⟨M, hM⟩
    exact List.mem_map.mpr ⟨_, mem_of_lookup_eq_some hM, rfl⟩
  · intro hs
    obtain ⟨e, he, rfl⟩ := List.mem_map.mp hs
    cases hM : A.matrices.lookup e.1 with
    | none =>
      have := List.lookup_eq_none_iff.mp hM e he
      simp at this
    | some M => exact ⟨M, rfl⟩

/-- Moves are on symbols that have a matrix. -/
theorem Moves.hasSymbol (h : A.Moves s i j) : A.hasSymbol s = true := by
  obtain ⟨M, hM, -⟩ := exists_matrix?_iff.mpr h
  rw [Automaton.hasSymbol, hM, Option.isSome_some]

theorem mem_run_iff (hS : ∀ i ∈ S, i < A.numStates) :
    j ∈ A.run S w ↔ ∃ i ∈ S, A.frame.Walk i w j := by
  induction w generalizing S with
  | nil =>
    simp only [Frame.walk_nil_iff]
    constructor
    · exact fun hj => ⟨j, hj, rfl, hS j hj⟩
    · rintro ⟨i, hi, rfl, -⟩
      exact hi
  | cons s w ih =>
    simp only [Frame.walk_cons_iff]
    rw [run]
    cases hM : A.matrix? s with
    | none =>
      refine iff_of_false List.not_mem_nil ?_
      rintro ⟨i, -, k, hmove, -⟩
      obtain ⟨M, hM', -⟩ := exists_matrix?_iff.mpr hmove
      cases hM.symm.trans hM'
    | some M =>
      have hmem : ∀ k, k ∈ BoolMatrix.unions (S.map M.row) ↔ ∃ i ∈ S, A.Moves s i k := fun k => by
        simp [BoolMatrix.mem_unions, ← mem_row_matrix_iff, matrix, hM]
      rw [ih fun k hk => by obtain ⟨i, -, hmove⟩ := (hmem k).mp hk; exact hmove.lt.2]
      simp only [hmem]
      constructor
      · rintro ⟨k, ⟨i, hi, hmove⟩, hw⟩
        exact ⟨i, hi, k, hmove, hw⟩
      · rintro ⟨i, hi, k, hmove, hw⟩
        exact ⟨k, ⟨i, hi, hmove⟩, hw⟩

/-- **Acceptance**: by a walk from a start state to a final state. -/
theorem accepts_iff_walk (hA : ∀ i ∈ A.start, i < A.numStates) :
    A.accepts w = true ↔ ∃ i ∈ A.start, ∃ j ∈ A.final, A.frame.Walk i w j := by
  simp only [accepts, List.any_eq_true, isFinal, decide_eq_true_eq, mem_run_iff hA]
  constructor
  · rintro ⟨j, ⟨i, hi, hw⟩, hj⟩
    exact ⟨i, hi, j, hj, hw⟩
  · rintro ⟨i, hi, j, hj, hw⟩
    exact ⟨j, ⟨i, hi, hw⟩, hj⟩

/-! ## The search -/

theorem mem_jointSuccessors_iff :
    (d, j) ∈ jointSuccessors G C (c, i) ↔ ∃ s, C.Moves s c d ∧ G.Moves s i j := by
  simp only [jointSuccessors, commonSymbols, List.mem_flatMap, List.mem_filter, List.mem_map,
    Prod.mk.injEq, mem_row_matrix_iff]
  constructor
  · rintro ⟨s, -, d', hC, j', hG, rfl, rfl⟩
    exact ⟨s, hC, hG⟩
  · rintro ⟨s, hC, hG⟩
    exact ⟨s, ⟨hasSymbol_iff_mem_symbols.mp hG.hasSymbol, hC.hasSymbol⟩, d, hC, j, hG, rfl, rfl⟩

variable {v : Nat}

/-- Both automata can spell one word on the way to a pair of states. -/
def Meets (G : Automaton σ) (C : Automaton τ) (v : Nat) (w : List String) (c i : Nat) : Prop :=
  ∃ c₀ ∈ C.start, C.frame.Walk c₀ w c ∧ G.frame.Walk v w i

theorem Meets.concat (h : Meets G C v w c i) (hC : C.Moves s c d) (hG : G.Moves s i j) :
    Meets G C v (w ++ [s]) d j := by
  obtain ⟨c₀, hc₀, hwC, hwG⟩ := h
  exact ⟨c₀, hc₀, hwC.append (.cons hC (.nil hC.lt.2)), hwG.append (.cons hG (.nil hG.lt.2))⟩

theorem meets_concat_iff :
    Meets G C v (w ++ [s]) d j ↔ ∃ c i, Meets G C v w c i ∧ C.Moves s c d ∧ G.Moves s i j := by
  constructor
  · rintro ⟨c₀, hc₀, hC, hG⟩
    obtain ⟨c, hwC, hsC⟩ := Frame.walk_append_iff.mp hC
    obtain ⟨i, hwG, hsG⟩ := Frame.walk_append_iff.mp hG
    obtain ⟨_, hmC, hd⟩ := Frame.walk_cons_iff.mp hsC
    obtain ⟨_, hmG, hj⟩ := Frame.walk_cons_iff.mp hsG
    obtain ⟨rfl, -⟩ := Frame.walk_nil_iff.mp hd
    obtain ⟨rfl, -⟩ := Frame.walk_nil_iff.mp hj
    exact ⟨c, i, ⟨c₀, hc₀, hwC, hwG⟩, hmC, hmG⟩
  · rintro ⟨c, i, h, hC, hG⟩
    exact h.concat hC hG

/-- **The search** reaches the pairs of states that one word leads to. -/
theorem reachable_jointSuccessors_iff (hv : v < G.numStates)
    (hC : ∀ c ∈ C.start, c < C.numStates) :
    Search.Reachable (jointSuccessors G C) (C.start.map fun c => (c, v)) (c, i) ↔
      ∃ w, Meets G C v w c i := by
  constructor
  · intro h
    generalize hp : (c, i) = p at h
    induction h generalizing c i with
    | seed hmem =>
      subst hp
      obtain ⟨_, hc, heq⟩ := List.mem_map.mp hmem
      cases heq
      exact ⟨[], c, hc, .nil (hC c hc), .nil hv⟩
    | step _ hmem ih =>
      subst hp
      obtain ⟨s, hmC, hmG⟩ := mem_jointSuccessors_iff.mp hmem
      obtain ⟨w, h⟩ := ih rfl
      exact ⟨w ++ [s], h.concat hmC hmG⟩
  · rintro ⟨w, h⟩
    induction w using List.reverseRecOn generalizing c i with
    | nil =>
      obtain ⟨c₀, hc₀, hwC, hwG⟩ := h
      obtain ⟨rfl, -⟩ := Frame.walk_nil_iff.mp hwC
      obtain ⟨rfl, -⟩ := Frame.walk_nil_iff.mp hwG
      exact .seed (List.mem_map.mpr ⟨c₀, hc₀, rfl⟩)
    | append_singleton w s ih =>
      obtain ⟨c', i', h, hmC, hmG⟩ := meets_concat_iff.mp h
      exact .step (ih h) (mem_jointSuccessors_iff.mpr ⟨s, hmC, hmG⟩)

/-- The pairs that the search may visit are fewer than its bound. -/
theorem mem_searched (h : Search.Reachable (jointSuccessors G C) (C.start.map fun c => (c, v))
    (c, i)) : (c, i) ∈ (C.start ++ List.range C.numStates) ×ˢ (v :: List.range G.numStates) := by
  rw [List.mem_product]
  rcases h with hmem | ⟨-, hmem⟩
  · obtain ⟨c₀, hc₀, heq⟩ := List.mem_map.mp hmem
    cases heq
    exact ⟨List.mem_append_left _ hc₀, List.mem_cons_self ..⟩
  · obtain ⟨s, hC, hG⟩ := mem_jointSuccessors_iff.mp hmem
    exact ⟨List.mem_append_right _ (List.mem_range.mpr hC.lt.2),
      List.mem_cons_of_mem _ (List.mem_range.mpr hG.lt.2)⟩

/-- **Hits** are the final states that nonempty words of `C` lead to. -/
theorem mem_hitsFrom_iff (hv : v < G.numStates) (hC : ∀ c ∈ C.start, c < C.numStates) :
    j ∈ hitsFrom G C v ↔
      j ∈ G.final ∧ ∃ w, w ≠ [] ∧ C.accepts w = true ∧ G.frame.Walk v w j := by
  have hsearch : ∀ p, p ∈ Search.reach (jointSuccessors G C)
      ((C.start.length + C.numStates) * (G.numStates + 1)) (C.start.map fun c => (c, v)) ↔
        ∃ w, Meets G C v w p.1 p.2 := fun (c, i) => by
    rw [← reachable_jointSuccessors_iff hv hC]
    refine Search.mem_reach_iff (fun (c, i) => mem_searched) ?_
    simp [List.length_product]
  simp only [hitsFrom, Ascending.mem_ofList, List.mem_filterMap, List.mem_flatMap, hsearch,
    Prod.exists, Option.ite_none_right_eq_some, Option.some.injEq, Bool.and_eq_true, isFinal,
    decide_eq_true_eq, mem_jointSuccessors_iff, accepts_iff_walk hC]
  constructor
  · rintro ⟨d, _, ⟨c, i, ⟨w, h⟩, s, hmC, hmG⟩, ⟨hd, hj⟩, rfl⟩
    obtain ⟨c₀, hc₀, hwC, hwG⟩ := h.concat hmC hmG
    exact ⟨hj, w ++ [s], by simp, ⟨c₀, hc₀, d, hd, hwC⟩, hwG⟩
  · rintro ⟨hj, w, hne, ⟨c₀, hc₀, d, hd, hwC⟩, hwG⟩
    obtain ⟨w, s, rfl⟩ := (List.eq_nil_or_concat' w).resolve_left hne
    obtain ⟨c, i, h, hmC, hmG⟩ := meets_concat_iff.mp ⟨c₀, hc₀, hwC, hwG⟩
    exact ⟨d, j, ⟨c, i, ⟨w, h⟩, s, hmC, hmG⟩, ⟨hd, hj⟩, rfl⟩

/-! ## The entries -/

/-- The members of an entry, told by the number of its state. -/
theorem mem_entry_iff [Precedes σ] [LawfulPrecedes σ] {x y : σ} (hx : G.states.get? i = some x)
    (hC : ∀ c ∈ C.start, c < C.numStates) :
    y ∈ Ascending.ofList ((hitsFrom G C i).filterMap G.states.get?) ↔
      ∃ j ∈ G.final, G.states.get? j = some y ∧
        ∃ w, w ≠ [] ∧ C.accepts w = true ∧ G.frame.Walk i w j := by
  rw [Ascending.mem_ofList, List.mem_filterMap]
  simp only [mem_hitsFrom_iff (Numbering.get?_eq_some_lt hx) hC]
  constructor
  · rintro ⟨j, ⟨hj, hw⟩, hy⟩
    exact ⟨j, hj, hy, hw⟩
  · rintro ⟨j, hj, hy, hw⟩
    exact ⟨j, ⟨hj, hw⟩, hy⟩

variable [DecidableEq σ] [Precedes σ]

theorem tryReach_eq_ok (hC : ∀ c ∈ C.start, c < C.numStates) :
    tryReach G C = .ok (reach G C) := by
  have hrange : C.startOutOfRange = false := by
    rw [startOutOfRange, List.any_eq_false]
    exact fun c hc => by simpa using hC c hc
  rw [tryReach, hrange]
  simp

variable [LawfulPrecedes σ] {x y : σ} {ys : List σ}

theorem mem_reach_iff : (x, ys) ∈ reach G C ↔ ∃ i ∈ G.start, G.states.get? i = some x ∧
    ys = Ascending.ofList ((hitsFrom G C i).filterMap G.states.get?) := by
  simp only [reach, Ascending.mem_ofList, List.mem_filterMap, Option.map_eq_some_iff,
    Prod.mk.injEq]
  constructor
  · rintro ⟨i, hi, _, hx, rfl, rfl⟩
    exact ⟨i, hi, hx, rfl⟩
  · rintro ⟨i, hi, hx, rfl⟩
    exact ⟨i, hi, x, hx, rfl, rfl⟩

/-- No state has two entries: its number is the only one that it has. -/
theorem nodup_map_fst_reach : ((reach G C).map (·.1)).Nodup := by
  refine List.Nodup.map_on (fun ⟨x, ys⟩ hys ⟨_, zs⟩ hzs heq => ?_)
    (Ascending.nodup_of_isAscending (Ascending.isAscending_ofList _))
  obtain rfl : x = _ := heq
  obtain ⟨i, -, hx, rfl⟩ := mem_reach_iff.mp hys
  obtain ⟨j, -, hx', rfl⟩ := mem_reach_iff.mp hzs
  rw [Numbering.get?_inj hx hx']

/-- **The entry of a start state** lists the final states that nonempty words of `C` lead to. -/
theorem exists_mem_reach_iff (hC : ∀ c ∈ C.start, c < C.numStates) :
    (∃ ys, (x, ys) ∈ reach G C ∧ y ∈ ys) ↔ ∃ i ∈ G.start, ∃ j ∈ G.final,
      G.states.get? i = some x ∧ G.states.get? j = some y ∧
        ∃ w, w ≠ [] ∧ C.accepts w = true ∧ G.frame.Walk i w j := by
  constructor
  · rintro ⟨_, hys, hy⟩
    obtain ⟨i, hi, hx, rfl⟩ := mem_reach_iff.mp hys
    obtain ⟨j, hj, hy, hw⟩ := (mem_entry_iff hx hC).mp hy
    exact ⟨i, hi, j, hj, hx, hy, hw⟩
  · rintro ⟨i, hi, j, hj, hx, hy, hw⟩
    exact ⟨_, mem_reach_iff.mpr ⟨i, hi, hx, rfl⟩, (mem_entry_iff hx hC).mpr ⟨j, hj, hy, hw⟩⟩

/-- **Constrained reachability**: no fault occurs where all marked states are states, and each start
state of `G` has exactly one entry.  It lists, each once, the final states that a walk from there
leads to along a nonempty word of `C`.  So the empty word alone lists nothing, while a start state
is listed where a walk back to it and one of `C` back to a start state spell the same word. -/
theorem tryReach_entries (hG : G.Marks) (hC : C.Marks) :
    ∃ R, tryReach G C = .ok R ∧ (R.map (·.1)).Nodup ∧
      (∀ x, x ∈ R.map (·.1) ↔ ∃ i ∈ G.start, G.states.get? i = some x) ∧
      (∀ i ∈ G.start, ∃ x ys, G.states.get? i = some x ∧ (x, ys) ∈ R ∧ ys.Nodup ∧
        ∀ y, y ∈ ys ↔ ∃ j ∈ G.final, G.states.get? j = some y ∧
          ∃ w, w ≠ [] ∧ C.accepts w = true ∧ G.frame.Walk i w j) ∧
      ((∀ w, C.accepts w = true → w = []) → ∀ e ∈ R, e.2 = []) ∧
      ∀ i ∈ G.start, i ∈ G.final → ∀ c ∈ C.start, c ∈ C.final → ∀ w, w ≠ [] →
        C.frame.Walk c w c → G.frame.Walk i w i →
          ∃ x ys, G.states.get? i = some x ∧ (x, ys) ∈ R ∧ x ∈ ys := by
  have hget : ∀ i ∈ G.start, ∃ x, G.states.get? i = some x := fun i hi =>
    ⟨_, List.getElem?_eq_getElem (hG.start i hi)⟩
  refine ⟨_, tryReach_eq_ok hC.start, nodup_map_fst_reach, fun x => ?_, fun i hi => ?_,
    fun hnil => ?_, fun i hi hfinal c hc hc' w hne hwC hwG => ?_⟩
  · rw [List.mem_map]
    constructor
    · rintro ⟨⟨_, ys⟩, hys, rfl⟩
      obtain ⟨i, hi, hx, -⟩ := mem_reach_iff.mp hys
      exact ⟨i, hi, hx⟩
    · rintro ⟨i, hi, hx⟩
      exact ⟨_, mem_reach_iff.mpr ⟨i, hi, hx, rfl⟩, rfl⟩
  · obtain ⟨x, hx⟩ := hget i hi
    exact ⟨x, _, hx, mem_reach_iff.mpr ⟨i, hi, hx, rfl⟩,
      Ascending.nodup_of_isAscending (Ascending.isAscending_ofList _),
      fun y => mem_entry_iff hx hC.start⟩
  · rintro ⟨x, ys⟩ hys
    obtain ⟨i, -, hx, rfl⟩ := mem_reach_iff.mp hys
    refine List.eq_nil_iff_forall_not_mem.mpr fun y hy => ?_
    obtain ⟨_, -, -, w, hne, haccepts, -⟩ := (mem_entry_iff hx hC.start).mp hy
    exact hne (hnil w haccepts)
  · obtain ⟨x, hx⟩ := hget i hi
    have haccepts : C.accepts w = true := (accepts_iff_walk hC.start).mpr ⟨c, hc, c, hc', hwC⟩
    exact ⟨x, _, hx, mem_reach_iff.mpr ⟨i, hi, hx, rfl⟩,
      (mem_entry_iff hx hC.start).mpr ⟨i, hfinal, hx, w, hne, haccepts, hwG⟩⟩

/-- Two states that the letter `a` leads back and forth between, from the first one and to it. -/
def turnAutomaton : Automaton Nat := .ofMoves (.range 2) [(0, "a", 1), (1, "a", 0)] [0] [0]

/-- One state and no moves: the empty word alone. -/
def idleAutomaton : Automaton Nat := .ofMoves (.range 1) [] [0] [0]

theorem tryReach_entries_turnAutomaton :
    turnAutomaton.Marks ∧ idleAutomaton.Marks ∧
      (∃ R, tryReach turnAutomaton turnAutomaton = .ok R ∧ ∃ x ys, (x, ys) ∈ R ∧ x ∈ ys) ∧
      ∃ R, tryReach turnAutomaton idleAutomaton = .ok R ∧ ∃ x, (x, []) ∈ R := by
  have hturn : turnAutomaton.Marks := by decide
  have hidle : idleAutomaton.Marks := by decide
  have hback : turnAutomaton.frame.Walk 0 ["a", "a"] 0 :=
    .cons (show (turnAutomaton.matrix "a").get 0 1 = true by decide)
      (.cons (show (turnAutomaton.matrix "a").get 1 0 = true by decide)
        (.nil (show 0 < turnAutomaton.numStates by decide)))
  have hnil : ∀ w, idleAutomaton.accepts w = true → w = []
    | [], _ => rfl
  obtain ⟨R, hR, -, -, -, -, hcycle⟩ := tryReach_entries hturn hturn
  obtain ⟨S, hS, -, -, hentry, hempty, -⟩ := tryReach_entries hturn hidle
  refine ⟨hturn, hidle, ⟨R, hR, ?_⟩, S, hS, ?_⟩
  · obtain ⟨x, ys, -, hys, hx⟩ := hcycle 0 (by decide) (by decide) 0 (by decide) (by decide)
      ["a", "a"] (by decide) hback hback
    exact ⟨x, ys, hys, hx⟩
  · obtain ⟨x, ys, -, hys, -⟩ := hentry 0 (by decide)
    obtain rfl : ys = [] := hempty hnil _ hys
    exact ⟨x, hys⟩

end PathQuery.Automaton
