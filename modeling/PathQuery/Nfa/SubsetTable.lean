import PathQuery.Numbering

/-!
# Nfa/SubsetTable — numbered sets of states

The states of a determinized automaton are sets of states. A `SubsetTable` numbers different sets in
the order in which they were first seen and keeps for each whether it was seen as an accepting one.
It finds the number of a set in a `SubsetIndex`, which holds the sets with one member apart from all
others. The numbers have no upper limit.
-/

namespace PathQuery

/-- The numbers of some sets: of those with one member by that member, of the others by the set. -/
structure SubsetIndex where
  singletons : List (Nat × Nat)
  others : List (List Nat × Nat)

namespace SubsetIndex

/-- The index of no sets. -/
def empty : SubsetIndex := ⟨[], []⟩

/-- The number of a set. -/
def find? (I : SubsetIndex) : List Nat → Option Nat
  | [q] => I.singletons.lookup q
  | set => I.others.lookup set

/-- The index with the number of another set. -/
def add (I : SubsetIndex) (set : List Nat) (i : Nat) : SubsetIndex :=
  match set with
  | [q] => { I with singletons := (q, i) :: I.singletons }
  | set => { I with others := (set, i) :: I.others }

theorem lookup_cons_eq_ite {α : Type} [BEq α] [LawfulBEq α] [DecidableEq α] (a b : α) (i : Nat)
    (l : List (α × Nat)) :
    List.lookup a ((b, i) :: l) = if a = b then some i else List.lookup a l := by
  rw [List.lookup_cons]
  by_cases h : a = b
  · simp [h]
  · simp [h, beq_eq_false_iff_ne.mpr h]

/-- The two ways to find a number do not get in each other's way. -/
theorem find?_add (I : SubsetIndex) (set S : List Nat) (i : Nat) :
    (I.add set i).find? S = if S = set then some i else I.find? S := by
  match set, S with
  | [q], [p] => simp [add, find?, lookup_cons_eq_ite]
  | [q], [] | [q], _ :: _ :: _ => simp [add, find?]
  | [], [p] | _ :: _ :: _, [p] => simp [add, find?]
  | [], [] | [], _ :: _ :: _ | _ :: _ :: _, [] | _ :: _ :: _, _ :: _ :: _ =>
    simp [add, find?, lookup_cons_eq_ite]

end SubsetIndex

/-- Numbered sets of states, each with the flag that it was first seen with. -/
structure SubsetTable where
  sets : Numbering (List Nat)
  flags : List Bool
  index : SubsetIndex
  length_flags : flags.length = sets.size
  find?_eq : ∀ set, index.find? set = sets.index? set

namespace SubsetTable

/-- No sets. -/
def empty : SubsetTable where
  sets := .empty
  flags := []
  index := .empty
  length_flags := rfl
  find?_eq set := by
    match set with
    | [] => rfl
    | [q] => rfl
    | _ :: _ :: _ => rfl

/-- The number of sets. -/
def size (T : SubsetTable) : Nat := T.sets.size

/-- Whether the set with a number was first seen as an accepting one. -/
def flag? (T : SubsetTable) (i : Nat) : Option Bool := T.flags[i]?

/-- The table with a new set, which gets the next number. -/
def add (T : SubsetTable) (set : List Nat) (accepting : Bool) (h : set ∉ T.sets.states) :
    SubsetTable where
  sets := (T.sets.intern set).1
  flags := T.flags ++ [accepting]
  index := T.index.add set T.size
  length_flags := by simp [Numbering.intern, h, Numbering.size, T.length_flags]
  find?_eq S := by rw [SubsetIndex.find?_add, T.find?_eq, Numbering.index?_intern h]; rfl

/-- The table with a set added, if it is new, the number of the set, and whether it was new. -/
def intern (T : SubsetTable) (set : List Nat) (accepting : Bool) : SubsetTable × Nat × Bool :=
  match h : T.index.find? set with
  | some i => (T, i, false)
  | none =>
    (T.add set accepting (Numbering.index?_eq_none_iff.mp (T.find?_eq set ▸ h)), T.size, true)

theorem intern_of_index? {T : SubsetTable} {set : List Nat} {accepting : Bool} {i : Nat}
    (h : T.sets.index? set = some i) : T.intern set accepting = (T, i, false) := by
  rw [← T.find?_eq] at h
  unfold intern
  split
  · next j hj => rw [Option.some.inj (hj.symm.trans h)]
  · next hnone => cases hnone.symm.trans h

theorem intern_of_notMem {T : SubsetTable} {set : List Nat} {accepting : Bool}
    (h : set ∉ T.sets.states) : T.intern set accepting = (T.add set accepting h, T.size, true) := by
  have hfind : T.index.find? set = none := by rw [T.find?_eq, Numbering.index?_eq_none_iff.mpr h]
  unfold intern
  split
  · next i hi => cases hi.symm.trans hfind
  · rfl

/-- The numbers of the accepting sets, in ascending order. -/
def accepting (T : SubsetTable) : List Nat :=
  (List.range T.size).filter fun i => T.flag? i = some true

end SubsetTable

end PathQuery
