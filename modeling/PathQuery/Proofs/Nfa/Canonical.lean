import PathQuery.Proofs.Nfa.Shape

/-!
# Proofs/Nfa/Canonical — the subset automaton depends on the moves of the sets alone

* `tryDeterminize_canonical` — determinizing again changes nothing, nor does listing the same start
  states, final states and arcs otherwise.

The numbers of the sets are those of a breadth-first search, so that two automata whose sets have
the same moves under other names (`Mirrors`) have one subset automaton (`Mirrors.determinize_eq`).
Listing the same arcs otherwise changes no set at all (`Relisted.mirrors`), and the sets of a subset
automaton hold one state each, which is the number of a set of the given automaton
(`mirrors_determinize`).
-/

namespace PathQuery.Nfa

variable {A B : Nfa} {f : List Nat → List Nat} {i q : Nat} {S T : List Nat}

/-! ## The search without a bound -/

/-- The sets are what the breadth-first search without a bound finds. -/
theorem loop_subsets : Search.Loop A.nextSets [] [A.closure A.start] A.subsets := by
  rw [subsets_eq_reach]
  exact Search.loop_reach (fun _ => mem_sublists_of_reachable) length_sublists_places_le

theorem mem_subsets_of_mem_moves {label : Nat} (hS : S ∈ A.subsets)
    (hT : (label, T) ∈ A.moves S) : T ∈ A.subsets := by
  obtain ⟨hlabel, rfl⟩ := mem_moves_iff.mp hT
  exact closure_mem_subsets hS hlabel

/-! ## Automata whose sets have the same moves -/

/-- **The same moves under other names**: `f` renames the sets of one automaton to those of
another. -/
structure Mirrors (A B : Nfa) (f : List Nat → List Nat) : Prop where
  start : B.closure B.start = f (A.closure A.start)
  moves : ∀ S ∈ A.subsets, B.moves (f S) = (A.moves S).map fun (x, T) => (x, f T)
  meetsFinal : ∀ S ∈ A.subsets, B.meetsFinal (f S) = A.meetsFinal S
  inj : ∀ S ∈ A.subsets, ∀ T ∈ A.subsets, f S = f T → S = T

namespace Mirrors

variable (h : Mirrors A B f)

include h

/-- The sets are numbered in the same order. -/
theorem subsets : B.subsets = A.subsets.map f := by
  have hloop : Search.Loop B.nextSets [] [f (A.closure A.start)] (A.subsets.map f) :=
    loop_subsets.map h.inj fun S hS => by
      rw [nextSets, h.moves S hS, nextSets, List.map_map, List.map_map]
      rfl
  rw [← h.start] at hloop
  exact loop_subsets.unique hloop

theorem number (hS : S ∈ A.subsets) :
    B.subsetSearch.table.number (f S) = A.subsetSearch.table.number S := by
  obtain ⟨i, hi⟩ := List.mem_iff_getElem?.mp hS
  have hi' : B.subsets[i]? = some (f S) := by rw [h.subsets, List.getElem?_map, hi, Option.map_some]
  rw [SubsetTable.number_eq hi, SubsetTable.number_eq hi']

theorem flags : B.subsetSearch.table.flags = A.subsetSearch.table.flags := by
  rw [flags_subsetSearch, flags_subsetSearch, h.subsets, List.map_map]
  exact List.map_congr_left h.meetsFinal

theorem size : B.subsetSearch.table.size = A.subsetSearch.table.size :=
  calc B.subsets.length = (A.subsets.map f).length := by rw [h.subsets]
    _ = A.subsets.length := List.length_map _

theorem accepting : B.subsetSearch.table.accepting = A.subsetSearch.table.accepting := by
  rw [SubsetTable.accepting, SubsetTable.accepting, h.size]
  refine List.filter_congr fun i _ => ?_
  rw [SubsetTable.flag?, SubsetTable.flag?, h.flags]

theorem arcs : B.subsetSearch.arcs = A.subsetSearch.arcs := by
  rw [arcs_subsetSearch, arcs_subsetSearch, h.subsets, List.zipIdx_map, List.flatMap_map]
  refine List.flatMap_congr fun e he => ?_
  have hS := List.fst_mem_of_mem_zipIdx he
  simp only [Prod.map, id_eq, SubsetSearch.arcsTo, h.moves e.1 hS, List.map_map]
  refine List.map_congr_left fun move hmove => ?_
  exact congrArg (Arc.mk e.2 (some move.1)) (h.number (mem_subsets_of_mem_moves hS hmove))

/-- **One subset automaton** for both. -/
theorem determinize_eq (hstart : B.start.isEmpty = A.start.isEmpty)
    (hsymbols : B.symbols = A.symbols) : B.determinize = A.determinize := by
  rw [determinize, determinize, hstart, hsymbols]
  simp only [h.size, h.accepting, h.arcs]

end Mirrors

/-! ## The same arcs in another list -/

/-- What one automaton lists, another one lists too, in some order and any number of times. -/
structure Relisted (A B : Nfa) : Prop where
  numStates : B.numStates = A.numStates
  symbols : B.symbols = A.symbols
  start : ∀ q, q ∈ B.start ↔ q ∈ A.start
  final : ∀ q, q ∈ B.final ↔ q ∈ A.final
  arcs : ∀ a, a ∈ B.arcs ↔ a ∈ A.arcs

namespace Relisted

variable (h : Relisted A B)

include h

theorem wellFormed (hA : A.wellFormed = true) : B.wellFormed = true := by
  obtain ⟨hstart, hfinal, harcs⟩ := wellFormed_iff.mp hA
  rw [wellFormed_iff, h.numStates]
  exact ⟨fun q hq => hstart q ((h.start q).mp hq), fun q hq => hfinal q ((h.final q).mp hq),
    fun a ha => harcs a ((h.arcs a).mp ha)⟩

theorem path_iff {p : Nat} {w : List String} : B.Path p w q ↔ A.Path p w q := by
  have key : ∀ {A B : Nfa}, Relisted A B → B.Path p w q → A.Path p w q := by
    intro A B h hpath
    induction hpath with
    | nil => exact .nil _
    | silent ha _ ih => exact .silent ((h.arcs _).mp ha) ih
    | move hm _ ih =>
      obtain ⟨label, ha, hs⟩ := hm
      exact .move ⟨label, (h.arcs _).mp ha, h.symbols ▸ hs⟩ ih
  have hsymm : Relisted B A := ⟨h.numStates.symm, h.symbols.symm, fun q => (h.start q).symm,
    fun q => (h.final q).symm, fun a => (h.arcs a).symm⟩
  exact ⟨key h, key hsymm⟩

/-- Closed sets do not depend on the order in which anything is listed. -/
theorem closure_eq (hST : ∀ q, q ∈ T ↔ q ∈ S) : B.closure T = A.closure S :=
  Ascending.eq_of_mem_iff (Ascending.isAscending_ofList _) (Ascending.isAscending_ofList _)
    fun q => by simp only [mem_closure_iff, hST, h.path_iff]

theorem labelsFrom_eq (S : List Nat) : B.labelsFrom S = A.labelsFrom S :=
  Ascending.eq_of_mem_iff (Ascending.isAscending_ofList _) (Ascending.isAscending_ofList _)
    fun x => by simp only [mem_labelsFrom_iff, h.arcs]

theorem moves_eq (S : List Nat) : B.moves S = A.moves S := by
  rw [moves, moves, h.labelsFrom_eq]
  refine List.map_congr_left fun x _ => congrArg (Prod.mk x) (h.closure_eq fun q => ?_)
  simp only [mem_targets_iff, h.arcs]

theorem mirrors : Mirrors A B id where
  start := h.closure_eq h.start
  moves S _ := (h.moves_eq S).trans (List.map_id _).symm
  meetsFinal S _ := by simp only [meetsFinal, h.final, id_eq]
  inj _ _ _ _ := id

theorem determinize_eq : B.determinize = A.determinize := by
  refine h.mirrors.determinize_eq ?_ h.symbols
  rw [Bool.eq_iff_iff, List.isEmpty_iff, List.isEmpty_iff, List.eq_nil_iff_forall_not_mem,
    List.eq_nil_iff_forall_not_mem]
  simp only [h.start]

end Relisted

/-! ## The subset automaton of a subset automaton -/

/-- Without empty moves closing a set sorts it. -/
theorem closure_eq_ofList (hA : A.hasEpsilon = false) (S : List Nat) :
    A.closure S = Ascending.ofList S := by
  refine Ascending.eq_of_mem_iff (Ascending.isAscending_ofList _) (Ascending.isAscending_ofList _)
    fun q => ?_
  simp only [mem_closure_iff, path_iff_walk hA, Frame.walk_nil_iff, Ascending.mem_ofList]
  constructor
  · rintro ⟨p, hp, rfl, -⟩
    exact hp
  · exact fun hq => ⟨q, hq, rfl, trivial⟩

section Twice

variable (h : A.start.isEmpty = false)

include h

theorem start_determinize : A.determinize.start = [0] := by
  rw [determinize_of_isEmpty_eq_false h]

theorem labelsFrom_determinize (hS : A.subsets[i]? = some S) :
    A.determinize.labelsFrom [i] = A.labelsFrom S := by
  refine Ascending.eq_of_mem_iff (Ascending.isAscending_ofList _) (Ascending.isAscending_ofList _)
    fun x => ?_
  rw [mem_labelsFrom_iff]
  simp only [List.mem_singleton, exists_eq_left, mem_arcs_determinize h, Arc.mk.injEq,
    Option.some.injEq]
  constructor
  · rintro ⟨j, _, S', _, _, ⟨rfl, rfl, rfl⟩, hS', hx, -⟩
    obtain rfl : S = S' := Option.some.inj (hS.symm.trans hS')
    exact hx
  · intro hx
    obtain ⟨j, hj⟩ := List.mem_iff_getElem?.mp (closure_mem_subsets (List.mem_of_getElem? hS) hx)
    exact ⟨j, i, S, x, j, ⟨rfl, rfl, rfl⟩, hS, hx, hj⟩

/-- A move of a set is the only move on its label of the set's number. -/
theorem closure_targets_determinize {x : Nat} (hS : A.subsets[i]? = some S)
    (hx : x ∈ A.labelsFrom S) : A.determinize.closure (A.determinize.targets [i] x) =
      [A.subsetSearch.table.number (A.closure (A.targets S x))] := by
  obtain ⟨j, hj⟩ := List.mem_iff_getElem?.mp (closure_mem_subsets (List.mem_of_getElem? hS) hx)
  rw [SubsetTable.number_eq hj, closure_eq_ofList hasEpsilon_determinize]
  refine Ascending.eq_of_mem_iff (Ascending.isAscending_ofList _) (by simp) fun k => ?_
  simp only [Ascending.mem_ofList, mem_targets_iff, List.mem_singleton, exists_eq_left,
    mem_arcs_determinize h, Arc.mk.injEq, Option.some.injEq]
  constructor
  · rintro ⟨_, S', _, _, ⟨rfl, rfl, rfl⟩, hS', -, hk⟩
    obtain rfl : S = S' := Option.some.inj (hS.symm.trans hS')
    exact (List.getElem?_inj (List.getElem?_eq_some_iff.mp hk).1 nodup_subsets).mp
      (hk.trans hj.symm)
  · rintro rfl
    exact ⟨i, S, x, k, ⟨rfl, rfl, rfl⟩, hS, hx, hj⟩

/-- **The sets of a subset automaton** hold one number each. -/
theorem mirrors_determinize :
    Mirrors A A.determinize fun S => [A.subsetSearch.table.number S] where
  start := by
    rw [closure_eq_ofList hasEpsilon_determinize, start_determinize h,
      SubsetTable.number_eq getElem?_subsets_zero]
    rfl
  moves S hS := by
    obtain ⟨i, hi⟩ := List.mem_iff_getElem?.mp hS
    rw [SubsetTable.number_eq hi, moves, labelsFrom_determinize h hi, moves, List.map_map]
    exact List.map_congr_left fun x hx =>
      congrArg (Prod.mk x) (closure_targets_determinize h hi hx)
  meetsFinal S hS := by
    obtain ⟨i, hi⟩ := List.mem_iff_getElem?.mp hS
    have hfinal : A.determinize.final = A.subsetSearch.table.accepting := by
      rw [determinize_of_isEmpty_eq_false h]
    rw [SubsetTable.number_eq hi, Bool.eq_iff_iff]
    simp only [meetsFinal, List.any_eq_true, List.mem_singleton, exists_eq_left,
      decide_eq_true_eq, hfinal, mem_accepting_iff, hi, Option.some.injEq, exists_eq_left']
  inj S hS T hT hST := by
    obtain ⟨i, hi⟩ := List.mem_iff_getElem?.mp hS
    obtain ⟨j, hj⟩ := List.mem_iff_getElem?.mp hT
    rw [SubsetTable.number_eq hi, SubsetTable.number_eq hj] at hST
    obtain rfl := List.singleton_inj.mp hST
    exact Option.some.inj (hi.symm.trans hj)

end Twice

/-- **Determinizing again** changes nothing. -/
theorem determinize_determinize : A.determinize.determinize = A.determinize := by
  cases h : A.start.isEmpty with
  | true =>
    rw [determinize_of_isEmpty h]
    rfl
  | false =>
    refine (mirrors_determinize h).determinize_eq ?_ symbols_determinize
    rw [start_determinize h, h]
    rfl

/-- **Determinization is canonical.**  The subset automaton of a well-formed automaton is its own
subset automaton, and that of each automaton with the same states and symbols that lists the same
start states, final states and arcs, in any order and any number of times. -/
theorem tryDeterminize_canonical (hA : A.wellFormed = true) :
    A.tryDeterminize = .ok A.determinize ∧
      A.determinize.tryDeterminize = .ok A.determinize ∧
      ∀ B : Nfa, B.numStates = A.numStates → B.symbols = A.symbols →
        (∀ q, q ∈ B.start ↔ q ∈ A.start) → (∀ q, q ∈ B.final ↔ q ∈ A.final) →
        (∀ a, a ∈ B.arcs ↔ a ∈ A.arcs) → B.tryDeterminize = .ok A.determinize := by
  refine ⟨tryDeterminize_eq_ok hA, ?_, fun B hnum hsymbols hstart hfinal harcs => ?_⟩
  · rw [tryDeterminize_eq_ok wellFormed_determinize, determinize_determinize]
  · have h : Relisted A B := ⟨hnum, hsymbols, hstart, hfinal, harcs⟩
    rw [tryDeterminize_eq_ok (h.wellFormed hA), h.determinize_eq]

/-- An automaton with two arcs for one state and label, an empty move around a cycle and an arc whose
label no symbol has. -/
def forkedNfa : Nfa where
  numStates := 4
  start := [0]
  final := [2, 3]
  arcs := [⟨0, some 1, 1⟩, ⟨0, some 1, 2⟩, ⟨1, none, 0⟩, ⟨2, some 0, 3⟩, ⟨0, some 7, 3⟩]
  symbols := .ofList ["b", "a"]

/-- The same automaton with its arcs listed backwards and then forwards. -/
def relistedNfa : Nfa :=
  { forkedNfa with
    start := [0, 0]
    final := [3, 2, 3]
    arcs := forkedNfa.arcs.reverse ++ forkedNfa.arcs }

theorem tryDeterminize_canonical_forkedNfa :
    forkedNfa.wellFormed = true ∧ forkedNfa ≠ relistedNfa ∧
      relistedNfa.tryDeterminize = forkedNfa.tryDeterminize ∧
      forkedNfa.determinize.tryDeterminize = .ok forkedNfa.determinize ∧
      forkedNfa.determinize.arcs = [⟨0, some 1, 1⟩, ⟨0, some 7, 2⟩, ⟨1, some 0, 2⟩,
        ⟨1, some 1, 1⟩, ⟨1, some 7, 2⟩] := by
  have hA : forkedNfa.wellFormed = true := by decide
  obtain ⟨hok, htwice, hrelisted⟩ := tryDeterminize_canonical hA
  refine ⟨hA, by decide, ?_, htwice, by decide⟩
  rw [hok]
  refine hrelisted relistedNfa rfl rfl (fun q => ?_) (fun q => ?_) fun a => ?_
  · simp [relistedNfa, forkedNfa]
  · simp only [relistedNfa, forkedNfa, List.mem_cons, List.not_mem_nil, or_false]
    tauto
  · simp [relistedNfa]

end PathQuery.Nfa
