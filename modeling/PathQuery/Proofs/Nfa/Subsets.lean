import Mathlib.Data.List.Sublists
import PathQuery.Proofs.Data
import PathQuery.Proofs.Nfa.Path

/-!
# Proofs/Nfa/Subsets — the search for the sets that words lead to

* `subsets_eq_reach` — the search numbers the sets in breadth-first order.
* `loop_subsetSearch` — its bound does not cut it short.

The sets that words lead to are finitely many because they are sublists of one list
(`mem_sublists_of_reachable`).  One step of the search adds the new sets that the moves of a set
lead to, their numbers to the pending ones and an arc for each move (`adds_takeUp`).  So the table,
the pending numbers and the arcs all follow one breadth-first search (`Numbers.run`), in which the
sets with one member are no different from the others.
-/

namespace PathQuery

universe u

/-- Ascending lists are sublists where they are subsets. -/
theorem Ascending.sublist_of_subset {α : Type u} [DecidableEq α] [Precedes α] [LawfulPrecedes α]
    {s t : List α} (hs : IsAscending s) (ht : IsAscending t) (h : s ⊆ t) : s.Sublist t := by
  have heq : s = t.filter (· ∈ s) := by
    refine eq_of_mem_iff hs (ht.filter _) fun x => ?_
    rw [List.mem_filter, decide_eq_true_eq]
    exact ⟨fun hx => ⟨h hx, hx⟩, And.right⟩
  rw [heq]
  exact List.filter_sublist

namespace SubsetTable

variable {T T' : SubsetTable} {new : List (List Nat)} {S : List Nat} {i : Nat}

/-- The number of a set. -/
def number (T : SubsetTable) (S : List Nat) : Nat := (T.sets.index? S).getD 0

theorem number_eq (h : T.sets.states[i]? = some S) : T.number S = i := by
  rw [number, Numbering.index?_eq_some_iff.mpr h, Option.getD_some]

/-- New sets change no number. -/
theorem number_congr (h : T'.sets.states = T.sets.states ++ new) (hS : S ∈ T.sets.states) :
    T'.number S = T.number S := by
  obtain ⟨j, hj⟩ := List.mem_iff_getElem?.mp hS
  have hj' : T'.sets.states[j]? = some S := by
    rw [h, List.getElem?_append_left (List.getElem?_eq_some_iff.mp hj).1, hj]
  rw [number_eq hj, number_eq hj']

end SubsetTable

namespace Nfa

variable {A : Nfa} {p q i label : Nat} {w : List String} {S T : List Nat}

/-! ## The sets that words lead to -/

theorem mem_labelsFrom_iff :
    label ∈ A.labelsFrom S ↔ ∃ p ∈ S, ∃ q, ⟨p, some label, q⟩ ∈ A.arcs := by
  simp only [labelsFrom, Ascending.mem_ofList, List.mem_filterMap, Option.ite_none_right_eq_some]
  constructor
  · rintro ⟨⟨p, _, q⟩, ha, hp, rfl⟩
    exact ⟨p, hp, q, ha⟩
  · rintro ⟨p, hp, q, ha⟩
    exact ⟨_, ha, hp, rfl⟩

theorem mem_moves_iff :
    (label, T) ∈ A.moves S ↔ label ∈ A.labelsFrom S ∧ T = A.closure (A.targets S label) := by
  simp only [moves, List.mem_map, Prod.mk.injEq]
  constructor
  · rintro ⟨x, hx, rfl, rfl⟩
    exact ⟨hx, rfl⟩
  · rintro ⟨hx, rfl⟩
    exact ⟨label, hx, rfl, rfl⟩

/-- The sets that moves lead to from a set. -/
abbrev nextSets (A : Nfa) (S : List Nat) : List (List Nat) := (A.moves S).map (·.2)

/-- The start states and the targets of arcs, in ascending order. -/
def places (A : Nfa) : List Nat := Ascending.ofList (A.start ++ A.arcs.map (·.dst))

theorem Path.mem_targets (h : A.Path p w q) : p = q ∨ q ∈ A.arcs.map (·.dst) := by
  induction h with
  | nil => exact .inl rfl
  | silent ha _ ih =>
    rcases ih with rfl | hq
    · exact .inr (List.mem_map.mpr ⟨_, ha, rfl⟩)
    · exact .inr hq
  | move hm _ ih =>
    rcases ih with rfl | hq
    · obtain ⟨label, ha, -⟩ := hm
      exact .inr (List.mem_map.mpr ⟨_, ha, rfl⟩)
    · exact .inr hq

theorem closure_mem_sublists (hS : S ⊆ A.places) : A.closure S ∈ A.places.sublists := by
  rw [List.mem_sublists]
  refine Ascending.sublist_of_subset (Ascending.isAscending_ofList _)
    (Ascending.isAscending_ofList _) fun q hq => ?_
  obtain ⟨p, hp, hpath⟩ := mem_closure_iff.mp hq
  rcases hpath.mem_targets with rfl | hq
  · exact hS hp
  · exact Ascending.mem_ofList.mpr (List.mem_append_right _ hq)

theorem mem_sublists_of_reachable (h : Search.Reachable A.nextSets [A.closure A.start] S) :
    S ∈ A.places.sublists := by
  cases h with
  | seed hS =>
    rw [List.mem_singleton.mp hS]
    exact closure_mem_sublists fun q hq => Ascending.mem_ofList.mpr (List.mem_append_left _ hq)
  | step _ hS =>
    obtain ⟨⟨label, T⟩, hT, rfl⟩ := List.mem_map.mp hS
    rw [(mem_moves_iff.mp hT).2]
    refine closure_mem_sublists fun q hq => Ascending.mem_ofList.mpr (List.mem_append_right _ ?_)
    obtain ⟨p, -, ha⟩ := mem_targets_iff.mp hq
    exact List.mem_map.mpr ⟨_, ha, rfl⟩

theorem length_sublists_places_le :
    A.places.sublists.length ≤ Nat.pow 2 (A.start.length + A.arcs.length) := by
  rw [List.length_sublists]
  refine Nat.pow_le_pow_right (by omega) ?_
  have := Ascending.length_ofList_le (A.start ++ A.arcs.map (·.dst))
  rwa [List.length_append, List.length_map] at this

/-! ## One step of the search -/

namespace SubsetSearch

variable {s s' s'' : SubsetSearch} {moves moves' : List (Nat × List Nat)}
  {new new' done pending : List (List Nat)}

/-- The sets that a search has numbered, in the order of their numbers. -/
abbrev sets (s : SubsetSearch) : List (List Nat) := s.table.sets.states

/-- The arcs of some moves of the set with number `i`, with the numbers of a table. -/
def arcsTo (T : SubsetTable) (i : Nat) (moves : List (Nat × List Nat)) : List Arc :=
  moves.map fun (x, S) => ⟨i, some x, T.number S⟩

/-- New sets change no arc to a set that has a number. -/
theorem arcsTo_congr {T T' : SubsetTable} (h : T'.sets.states = T.sets.states ++ new)
    (hmoves : ∀ S ∈ moves.map (·.2), S ∈ T.sets.states) : arcsTo T' i moves = arcsTo T i moves :=
  List.map_congr_left fun m hm => congrArg (Arc.mk i (some m.1))
    (SubsetTable.number_congr h (hmoves m.2 (List.mem_map.mpr ⟨m, hm, rfl⟩)))

/-- What some moves of the set with number `i` add to a search: the new sets among those that they
lead to, which are pending, and an arc for each move. -/
structure Adds (A : Nfa) (i : Nat) (moves : List (Nat × List Nat)) (new : List (List Nat))
    (s s' : SubsetSearch) : Prop where
  new_eq : new = Distinct.unseen s.sets (moves.map (·.2))
  sets : s'.sets = s.sets ++ new
  flags : s'.table.flags = s.table.flags ++ new.map A.meetsFinal
  pending : s'.pending = s.pending ++ List.range' s.sets.length new.length
  arcs : s'.arcs = s.arcs ++ arcsTo s'.table i moves

theorem Adds.nil : Adds A i [] [] s s where
  new_eq := rfl
  sets := (List.append_nil _).symm
  flags := (List.append_nil _).symm
  pending := (List.append_nil _).symm
  arcs := (List.append_nil _).symm

theorem Adds.mem_sets (h : Adds A i moves new s s') (hS : S ∈ moves.map (·.2)) : S ∈ s'.sets := by
  rw [h.sets, List.mem_append, h.new_eq, Distinct.mem_unseen]
  exact (em (S ∈ s.sets)).imp id fun hnot => ⟨hS, hnot⟩

/-- Moves one after another: the later ones change no number that the earlier ones give. -/
theorem Adds.append (h : Adds A i moves new s s') (h' : Adds A i moves' new' s' s'') :
    Adds A i (moves ++ moves') (new ++ new') s s'' where
  new_eq := by rw [List.map_append, Distinct.unseen_append, ← h.new_eq, ← h.sets, ← h'.new_eq]
  sets := by rw [h'.sets, h.sets, List.append_assoc]
  flags := by rw [h'.flags, h.flags, List.map_append, List.append_assoc]
  pending := by
    rw [h'.pending, h.pending, h.sets, List.length_append, List.length_append, List.append_assoc,
      List.range'_append_1]
  arcs := by
    rw [h'.arcs, h.arcs, ← arcsTo_congr h'.sets fun S => h.mem_sets, List.append_assoc, arcsTo,
      arcsTo, arcsTo, List.map_append]

theorem addMove_of_getElem? {x j : Nat} (hj : s.sets[j]? = some S) :
    addMove A i s (x, S) = { s with arcs := s.arcs ++ [⟨i, some x, j⟩] } := by
  rw [addMove, SubsetTable.intern_of_index? (Numbering.index?_eq_some_iff.mpr hj)]
  rfl

theorem addMove_of_notMem {x : Nat} (hS : S ∉ s.sets) :
    addMove A i s (x, S) = ⟨s.table.add S (A.meetsFinal S) hS, s.pending ++ [s.sets.length],
      s.arcs ++ [⟨i, some x, s.sets.length⟩]⟩ := by
  rw [addMove, SubsetTable.intern_of_notMem hS]
  rfl

theorem exists_adds_addMove (s : SubsetSearch) (move : Nat × List Nat) :
    ∃ new, Adds A i [move] new s (addMove A i s move) := by
  obtain ⟨x, S⟩ := move
  by_cases hS : S ∈ s.sets
  · obtain ⟨j, hj⟩ := List.mem_iff_getElem?.mp hS
    rw [addMove_of_getElem? hj]
    have hnil : ∀ {α : Type} (l : List α), l = l ++ [] := fun l => (List.append_nil l).symm
    refine ⟨[], ?_, hnil _, hnil _, hnil _, ?_⟩
    · simp [Distinct.unseen, hS]
    · exact congrArg (fun j => s.arcs ++ [⟨i, some x, j⟩]) (SubsetTable.number_eq hj).symm
  · have hsets : (s.table.add S (A.meetsFinal S) hS).sets.states = s.sets ++ [S] := by
      simp [SubsetTable.add, Numbering.intern, hS]
    have hj : (s.table.add S (A.meetsFinal S) hS).sets.states[s.sets.length]? = some S := by
      rw [hsets, List.getElem?_concat_length]
    rw [addMove_of_notMem hS]
    refine ⟨[S], ?_, hsets, rfl, rfl, ?_⟩
    · simp [Distinct.unseen, hS]
    · exact congrArg (fun j => s.arcs ++ [⟨i, some x, j⟩]) (SubsetTable.number_eq hj).symm

theorem exists_adds_foldl (s : SubsetSearch) (moves : List (Nat × List Nat)) :
    ∃ new, Adds A i moves new s (moves.foldl (addMove A i) s) := by
  induction moves generalizing s with
  | nil => exact ⟨[], .nil⟩
  | cons move moves ih =>
    obtain ⟨new, h⟩ := exists_adds_addMove (A := A) (i := i) s move
    obtain ⟨new', h'⟩ := ih (addMove A i s move)
    exact ⟨new ++ new', h.append h'⟩

/-- **One step** adds what the moves of the set that it takes up add. -/
theorem adds_takeUp (hS : s.table.sets.get? i = some S) :
    Adds A i (A.moves S) (Distinct.unseen s.sets (A.nextSets S)) s (takeUp A s i) := by
  obtain ⟨new, h⟩ := exists_adds_foldl (A := A) (i := i) s (A.moves S)
  rw [takeUp, hS, Option.getD_some]
  exact h.new_eq ▸ h

/-! ## All steps of the search -/

/-- **The numbers** of a search that has taken up some sets and holds others pending: the sets are
numbered in this order, as are their flags, and the arcs are those out of the sets taken up. -/
structure Numbers (A : Nfa) (s : SubsetSearch) (done pending : List (List Nat)) : Prop where
  sets : s.sets = done ++ pending
  flags : s.table.flags = (done ++ pending).map A.meetsFinal
  pending : s.pending = List.range' done.length pending.length
  arcs : s.arcs = done.zipIdx.flatMap fun (S, i) => arcsTo s.table i (A.moves S)

theorem numbers_startSearch : Numbers A A.startSearch [] [A.closure A.start] := by
  have hnew : A.closure A.start ∉ SubsetTable.empty.sets.states := List.not_mem_nil
  rw [startSearch, SubsetTable.intern_of_notMem hnew]
  exact ⟨rfl, rfl, rfl, rfl⟩

/-- **The step lemma**: taking up the first pending set is one visit of a breadth-first search. -/
theorem Numbers.takeUp (h : Numbers A s done (S :: pending))
    (hclosed : ∀ T ∈ done, ∀ T' ∈ A.nextSets T, T' ∈ done ++ S :: pending) :
    Numbers A (takeUp A { s with pending := List.range' (done.length + 1) pending.length }
      done.length) (done ++ [S])
        (pending ++ Distinct.unseen (done ++ S :: pending) (A.nextSets S)) := by
  have hS : s.table.sets.get? done.length = some S := by
    rw [Numbering.get?, show s.table.sets.states = _ from h.sets]
    simp
  set s₀ : SubsetSearch := { s with pending := List.range' (done.length + 1) pending.length }
  have hadds : Adds A done.length (A.moves S) _ s₀ (SubsetSearch.takeUp A s₀ done.length) :=
    adds_takeUp hS
  have hsets₀ : s₀.sets = done ++ S :: pending := h.sets
  rw [← hsets₀] at hclosed ⊢
  constructor
  · rw [hadds.sets, hsets₀]
    simp
  · rw [hadds.flags, show s₀.table.flags = _ from h.flags]
    simp
  · have hnext : s₀.sets.length = done.length + 1 + pending.length := by
      rw [hsets₀, List.length_append, List.length_cons]
      omega
    rw [hadds.pending, hnext, List.range'_append_1, List.length_append, List.length_append]
    rfl
  · rw [hadds.arcs, show s₀.arcs = _ from h.arcs, List.zipIdx_append, List.flatMap_append]
    congr 1
    · refine List.flatMap_congr fun e he => ?_
      exact (arcsTo_congr hadds.sets (hclosed e.1 (List.fst_mem_of_mem_zipIdx he))).symm
    · simp

/-- **The loop** of the search, without a bound: it ends where nothing is pending. -/
inductive Loop (A : Nfa) : SubsetSearch → SubsetSearch → Prop where
  | stop {s : SubsetSearch} : s.pending = [] → Loop A s s
  | takeUp {s s' : SubsetSearch} {i : Nat} {pending : List Nat} : s.pending = i :: pending →
      Loop A (takeUp A { s with pending } i) s' → Loop A s s'

theorem run_of_nil {bound : Nat} (h : s.pending = []) : run A (bound + 1) s = s := by
  rw [run, h]

theorem run_of_cons {bound : Nat} {rest : List Nat} (h : s.pending = i :: rest) :
    run A (bound + 1) s = run A bound (SubsetSearch.takeUp A { s with pending := rest } i) := by
  rw [run, h]

/-- **The run lemma**: the search is a breadth-first search for the sets that moves lead to. -/
theorem Numbers.run {univ seeds : List (List Nat)} {bound : Nat}
    (huniv : ∀ S, Search.Reachable A.nextSets seeds S → S ∈ univ)
    (h : Numbers A s done pending) (hs : Search.Holds A.nextSets seeds done pending)
    (hb : univ.length ≤ done.length + bound) :
    Loop A s (run A bound s) ∧
      Numbers A (run A bound s) (Search.visit A.nextSets bound done pending) [] := by
  induction bound generalizing s done pending with
  | zero =>
    obtain rfl := hs.pending_eq_nil huniv hb
    exact ⟨.stop h.pending, h⟩
  | succ bound ih =>
    cases pending with
    | nil =>
      rw [run_of_nil h.pending]
      exact ⟨.stop h.pending, h⟩
    | cons S pending =>
      have hpending : s.pending = done.length :: List.range' (done.length + 1) pending.length :=
        h.pending
      have hlen : univ.length ≤ (done ++ [S]).length + bound := by
        rw [List.length_append, List.length_singleton]
        omega
      rw [run_of_cons hpending]
      obtain ⟨hloop, hN⟩ := ih (h.takeUp hs.closed) hs.visit_one hlen
      exact ⟨.takeUp hpending hloop, hN⟩

end SubsetSearch

/-! ## The search from the start -/

/-- The visits of the sets in breadth-first order. -/
theorem run_startSearch : SubsetSearch.Loop A A.startSearch A.subsetSearch ∧
    SubsetSearch.Numbers A A.subsetSearch (Search.reach A.nextSets
      (Nat.pow 2 (A.start.length + A.arcs.length)) [A.closure A.start]) [] :=
  SubsetSearch.numbers_startSearch.run (fun _ => mem_sublists_of_reachable)
    (Search.Holds.ofSeeds A.nextSets [A.closure A.start])
    (length_sublists_places_le.trans (Nat.le_add_left ..))

/-- **The search** is not cut short by its bound. -/
theorem loop_subsetSearch : SubsetSearch.Loop A A.startSearch A.subsetSearch := run_startSearch.1

theorem subsets_eq_reach : A.subsets = Search.reach A.nextSets
    (Nat.pow 2 (A.start.length + A.arcs.length)) [A.closure A.start] := by
  rw [subsets, show A.subsetSearch.table.sets.states = _ from run_startSearch.2.sets,
    List.append_nil]

theorem flags_subsetSearch : A.subsetSearch.table.flags = A.subsets.map A.meetsFinal := by
  rw [run_startSearch.2.flags, List.append_nil, subsets_eq_reach]

theorem arcs_subsetSearch : A.subsetSearch.arcs =
    A.subsets.zipIdx.flatMap fun (S, i) =>
      SubsetSearch.arcsTo A.subsetSearch.table i (A.moves S) := by
  rw [run_startSearch.2.arcs, subsets_eq_reach]

end Nfa

end PathQuery
