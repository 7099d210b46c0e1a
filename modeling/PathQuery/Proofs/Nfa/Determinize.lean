import PathQuery.Proofs.Nfa.Subsets

/-!
# Proofs/Nfa/Determinize — the subset automaton

* `accepts_determinize_iff` — the subset automaton accepts the same words.

The states of the subset automaton are numbers for sets of states.  Its table holds all sets that
words lead to (`mem_subsets_iff`), the closure of the start states with the number 0
(`getElem?_subsets_zero`).  A walk of the subset automaton follows one run of the given one, set by
set (`walk_determinize`, `exists_walk_determinize`).
-/

namespace PathQuery

namespace Nfa

variable {A : Nfa} {p q i j label : Nat} {s : String} {w : List String} {S T : List Nat}

/-! ## The table -/

/-- **The table's sets**: those that words lead to from the start states. -/
theorem mem_subsets_iff :
    S ∈ A.subsets ↔ Search.Reachable A.nextSets [A.closure A.start] S := by
  rw [subsets_eq_reach]
  exact Search.mem_reach_iff (fun _ => mem_sublists_of_reachable) length_sublists_places_le

theorem nodup_subsets : A.subsets.Nodup := A.subsetSearch.table.sets.nodup

theorem getElem?_subsets_zero : A.subsets[0]? = some (A.closure A.start) := by
  obtain ⟨l, hl⟩ := (Search.loop_reach (fun _ => mem_sublists_of_reachable)
    length_sublists_places_le).exists_append
  rw [subsets_eq_reach, hl]
  rfl

theorem closure_mem_subsets (hS : S ∈ A.subsets) (hlabel : label ∈ A.labelsFrom S) :
    A.closure (A.targets S label) ∈ A.subsets := by
  refine mem_subsets_iff.mpr (.step (mem_subsets_iff.mp hS) ?_)
  exact List.mem_map.mpr ⟨_, mem_moves_iff.mpr ⟨hlabel, rfl⟩, rfl⟩

theorem mem_accepting_iff : i ∈ A.subsetSearch.table.accepting ↔
    ∃ S, A.subsets[i]? = some S ∧ ∃ q ∈ S, q ∈ A.final := by
  simp only [SubsetTable.accepting, List.mem_filter, List.mem_range, decide_eq_true_eq,
    SubsetTable.flag?, flags_subsetSearch, meetsFinal, List.getElem?_map, Option.map_eq_some_iff,
    List.any_eq_true]
  refine and_iff_right_of_imp ?_
  rintro ⟨S, hS, -⟩
  exact (List.getElem?_eq_some_iff.mp hS).1

/-! ## The subset automaton -/

theorem determinize_of_isEmpty (h : A.start.isEmpty = true) :
    A.determinize = { empty with symbols := A.symbols } := by
  rw [determinize, if_pos h]

theorem determinize_of_isEmpty_eq_false (h : A.start.isEmpty = false) :
    A.determinize = ⟨A.subsetSearch.table.size, [0], A.subsetSearch.table.accepting,
      A.subsetSearch.arcs, A.symbols⟩ := by
  rw [determinize, if_neg (by simp [h])]

/-- Each arc of the subset automaton is a move of a set. -/
theorem mem_arcs_determinize (h : A.start.isEmpty = false) {a : Arc} :
    a ∈ A.determinize.arcs ↔ ∃ i S label j, a = ⟨i, some label, j⟩ ∧ A.subsets[i]? = some S ∧
      label ∈ A.labelsFrom S ∧ A.subsets[j]? = some (A.closure (A.targets S label)) := by
  rw [determinize_of_isEmpty_eq_false h]
  simp only [arcs_subsetSearch, SubsetSearch.arcsTo, List.mem_flatMap, List.mem_map, Prod.exists,
    mem_moves_iff, List.mk_mem_zipIdx_iff_getElem?]
  constructor
  · rintro ⟨S, i, hS, label, T, ⟨hlabel, rfl⟩, rfl⟩
    obtain ⟨j, hj⟩ := List.mem_iff_getElem?.mp
      (closure_mem_subsets (List.mem_of_getElem? hS) hlabel)
    rw [SubsetTable.number_eq hj]
    exact ⟨i, S, label, j, rfl, hS, hlabel, hj⟩
  · rintro ⟨i, S, label, j, rfl, hS, hlabel, hj⟩
    refine ⟨S, i, hS, label, _, ⟨hlabel, rfl⟩, ?_⟩
    rw [SubsetTable.number_eq hj]

theorem symbols_determinize : A.determinize.symbols = A.symbols := by
  rw [determinize]
  split <;> rfl

theorem hasEpsilon_determinize : A.determinize.hasEpsilon = false := by
  refine List.any_eq_false.mpr fun a ha => ?_
  cases h : A.start.isEmpty with
  | true =>
    rw [determinize_of_isEmpty h] at ha
    cases ha
  | false =>
    obtain ⟨_, _, _, _, rfl, -⟩ := (mem_arcs_determinize h).mp ha
    exact Bool.false_ne_true

theorem deterministic_determinize : A.determinize.Deterministic := by
  refine ⟨hasEpsilon_determinize, fun a ha b hb hsrc hlabel => ?_⟩
  cases h : A.start.isEmpty with
  | true =>
    rw [determinize_of_isEmpty h] at ha
    cases ha
  | false =>
    obtain ⟨i, S, x, j, rfl, hS, -, hj⟩ := (mem_arcs_determinize h).mp ha
    obtain ⟨i', S', x', j', rfl, hS', -, hj'⟩ := (mem_arcs_determinize h).mp hb
    obtain rfl : i = i' := hsrc
    obtain rfl : x = x' := Option.some.inj hlabel
    obtain rfl : S = S' := Option.some.inj (hS.symm.trans hS')
    have hlt := (List.getElem?_eq_some_iff.mp hj).1
    exact (List.getElem?_inj hlt nodup_subsets).mp (hj.trans hj'.symm)

/-- The subset automaton lists at most one arc for a state and a label. -/
theorem nodup_arcs_determinize :
    (A.determinize.arcs.map fun a => (a.src, a.label)).Nodup := by
  cases h : A.start.isEmpty with
  | true =>
    rw [determinize_of_isEmpty h]
    exact List.nodup_nil
  | false =>
    rw [determinize_of_isEmpty_eq_false h, arcs_subsetSearch]
    refine List.pairwise_map.mpr (List.pairwise_flatMap.mpr ⟨fun (S, i) _ => ?_, ?_⟩)
    · have hlabels : (A.labelsFrom S).Nodup :=
        Ascending.nodup_of_isAscending (Ascending.isAscending_ofList _)
      refine List.pairwise_map.mpr (List.pairwise_map.mpr (hlabels.imp fun hne heq => hne ?_))
      exact Option.some.inj (Prod.ext_iff.mp heq).2
    · have hnumbers : (A.subsets.zipIdx.map (·.2)).Nodup := by
        rw [List.zipIdx_map_snd]
        exact List.nodup_range'
      refine (List.pairwise_map.mp hnumbers).imp fun hne a ha b hb heq => hne ?_
      obtain ⟨_, _, rfl⟩ := List.mem_map.mp ha
      obtain ⟨_, _, rfl⟩ := List.mem_map.mp hb
      exact (Prod.ext_iff.mp heq).1

theorem isDeterministic_determinize : A.determinize.isDeterministic = true := by
  have hstart : A.determinize.start.length ≤ 1 := by
    rw [determinize]
    split
    · exact Nat.zero_le 1
    · exact Nat.le_refl 1
  simp only [isDeterministic, hasEpsilon_determinize, nodup_arcs_determinize, hstart, decide_true,
    Bool.not_false, Bool.and_self]

theorem wellFormed_determinize : A.determinize.wellFormed = true := by
  cases h : A.start.isEmpty with
  | true =>
    rw [determinize_of_isEmpty h]
    rfl
  | false =>
    have hlt : ∀ {i S}, A.subsets[i]? = some S → i < A.determinize.numStates := fun hS => by
      rw [determinize_of_isEmpty_eq_false h]
      exact (List.getElem?_eq_some_iff.mp hS).1
    rw [wellFormed_iff]
    refine ⟨fun q hq => ?_, fun q hq => ?_, fun a ha => ?_⟩
    · rw [determinize_of_isEmpty_eq_false h] at hq
      rw [List.mem_singleton.mp hq]
      exact hlt getElem?_subsets_zero
    · rw [determinize_of_isEmpty_eq_false h] at hq
      obtain ⟨S, hS, -⟩ := mem_accepting_iff.mp hq
      exact hlt hS
    · obtain ⟨i, S, x, j, rfl, hS, -, hj⟩ := (mem_arcs_determinize h).mp ha
      exact ⟨hlt hS, hlt hj⟩

/-! ## Walks of sets -/

theorem move_determinize_iff (h : A.start.isEmpty = false) :
    A.determinize.Move i s j ↔ ∃ S label, A.subsets[i]? = some S ∧ label ∈ A.labelsFrom S ∧
      A.symbols.get? label = some s ∧ A.subsets[j]? = some (A.closure (A.targets S label)) := by
  simp only [Move, symbols_determinize, mem_arcs_determinize h]
  constructor
  · rintro ⟨label, ⟨_, S, _, _, heq, hS, hlabel, hj⟩, hs⟩
    cases heq
    exact ⟨S, label, hS, hlabel, hs, hj⟩
  · rintro ⟨S, label, hS, hlabel, hs, hj⟩
    exact ⟨label, ⟨i, S, label, j, rfl, hS, hlabel, hj⟩, hs⟩

/-- A walk of the subset automaton leads to the set that the word leads to. -/
theorem walk_determinize (h : A.start.isEmpty = false) (hw : A.determinize.frame.Walk i w j)
    (hS : A.subsets[i]? = some S) : A.subsets[j]? = some (A.run S w) := by
  induction hw generalizing S with
  | nil => exact hS
  | cons hm _ ih =>
    obtain ⟨S', label, hS', -, hs, hk⟩ := (move_determinize_iff h).mp hm
    obtain rfl : S = S' := Option.some.inj (hS.symm.trans hS')
    rw [run, Numbering.index?_eq_some_iff.mpr hs]
    exact ih hk

/-- A word that leads somewhere has a walk in the subset automaton. -/
theorem exists_walk_determinize (h : A.start.isEmpty = false) (hS : A.subsets[i]? = some S)
    (hq : q ∈ A.run S w) : ∃ j, A.determinize.frame.Walk i w j := by
  induction w generalizing i S with
  | nil => exact ⟨i, .nil trivial⟩
  | cons s w ih =>
    rw [run] at hq
    cases hs : A.symbols.index? s with
    | none =>
      rw [hs] at hq
      cases hq
    | some label =>
      rw [hs] at hq
      obtain ⟨p, hp, -⟩ := mem_run_closure_iff.mp hq
      obtain ⟨p', hp', ha⟩ := mem_targets_iff.mp hp
      have hlabel : label ∈ A.labelsFrom S := mem_labelsFrom_iff.mpr ⟨p', hp', p, ha⟩
      obtain ⟨k, hk⟩ := List.mem_iff_getElem?.mp
        (closure_mem_subsets (List.mem_of_getElem? hS) hlabel)
      obtain ⟨j, hj⟩ := ih hk hq
      rw [Numbering.index?_eq_some_iff] at hs
      exact ⟨j, .cons ((move_determinize_iff h).mpr ⟨S, label, hS, hlabel, hs, hk⟩) hj⟩

/-- **Determinization** keeps the words that are accepted. -/
theorem accepts_determinize_iff : A.determinize.accepts w = true ↔ A.accepts w = true := by
  rw [accepts_iff_walk hasEpsilon_determinize]
  cases h : A.start.isEmpty with
  | true =>
    rw [determinize_of_isEmpty h, accepts_iff, List.isEmpty_iff.mp h]
    simp [empty]
  | false =>
    have hD : A.determinize.start = [0] ∧
        A.determinize.final = A.subsetSearch.table.accepting := by
      rw [determinize_of_isEmpty_eq_false h]
      exact ⟨rfl, rfl⟩
    rw [hD.1, hD.2]
    simp only [List.mem_singleton, exists_eq_left, mem_accepting_iff, accepts, List.any_eq_true,
      decide_eq_true_eq]
    constructor
    · rintro ⟨j, ⟨S, hS, q, hq, hfinal⟩, hw⟩
      have := walk_determinize h hw getElem?_subsets_zero
      rw [hS] at this
      exact ⟨q, Option.some.inj this ▸ hq, hfinal⟩
    · rintro ⟨q, hq, hfinal⟩
      obtain ⟨j, hw⟩ := exists_walk_determinize h getElem?_subsets_zero hq
      exact ⟨j, ⟨_, walk_determinize h hw getElem?_subsets_zero, q, hq, hfinal⟩, hw⟩

end Nfa

end PathQuery
