import PathQuery.Ascending
import PathQuery.Error
import PathQuery.Word32

/-!
# Numbering — numbers for states in first-seen order

A `Numbering` gives the numbers `0, 1, 2, …` to different states in the order in which they were
first seen. `index?` and `get?` are inverse to each other (`index?_eq_some_iff`), and numbering one
more state moves no number already given (`get?_intern`).
-/

namespace PathQuery

universe u v

/-- Different states, each numbered by its place in the list. -/
structure Numbering (α : Type u) where
  states : List α
  nodup : states.Nodup
  deriving DecidableEq

namespace Numbering

variable {α : Type u} {β : Type v}

/-- No states. -/
def empty : Numbering α := ⟨[], List.nodup_nil⟩

instance : Inhabited (Numbering α) := ⟨empty⟩

/-- The number of states. -/
def size (N : Numbering α) : Nat := N.states.length

/-- The state with a number. -/
def get? (N : Numbering α) (i : Nat) : Option α := N.states[i]?

theorem get?_eq_some_lt {N : Numbering α} {i : Nat} {s : α} (h : N.get? i = some s) :
    i < N.size := (List.getElem?_eq_some_iff.mp h).1

/-- The numbers `0, …, n - 1` as states. -/
def range (n : Nat) : Numbering Nat := ⟨List.range n, List.nodup_range⟩

@[simp] theorem size_range (n : Nat) : (range n).size = n := List.length_range

theorem get?_range_eq_some_iff {n i q : Nat} : (range n).get? i = some q ↔ i = q ∧ q < n := by
  rw [get?, range, List.getElem?_eq_some_iff]
  simp only [List.length_range, List.getElem_range, exists_prop]
  exact ⟨fun ⟨hi, hq⟩ => ⟨hq, hq ▸ hi⟩, fun ⟨hi, hq⟩ => ⟨hi ▸ hq, hi⟩⟩

/-- All pairs of states, those with the same first component next to each other. -/
def product (N : Numbering α) (P : Numbering β) : Numbering (α × β) :=
  ⟨N.states.flatMap fun a => P.states.map fun b => (a, b), by
    refine List.pairwise_flatMap.mpr ⟨fun a _ => ?_, N.nodup.imp fun hab => ?_⟩
    · exact List.pairwise_map.mpr (P.nodup.imp fun h h' => h (Prod.ext_iff.mp h').2)
    · simp only [List.mem_map]
      rintro _ ⟨x, _, rfl⟩ _ ⟨y, _, rfl⟩ h
      exact hab (Prod.ext_iff.mp h).1⟩

@[simp] theorem size_product (N : Numbering α) (P : Numbering β) :
    (N.product P).size = N.size * P.size := by
  simp [product, size, List.length_flatMap, List.map_const']

/-- All pairs of states, or a refusal where the numbers run out. -/
def tryProduct (N : Numbering α) (P : Numbering β) : Except Error (Numbering (α × β)) :=
  if N.size * P.size ≤ Word32.max + 1 then .ok (N.product P)
  else .error (.dimensionMismatch (Word32.max + 2, Word32.max + 2) (Word32.max, Word32.max))

variable [DecidableEq α]

/-- The number of a state. -/
def index? (N : Numbering α) (s : α) : Option Nat :=
  if s ∈ N.states then some (N.states.idxOf s) else none

/-- Looking up a number and looking up a state are inverse to each other. -/
theorem index?_eq_some_iff {N : Numbering α} {s : α} {i : Nat} :
    N.index? s = some i ↔ N.get? i = some s := by
  unfold index? get?
  constructor
  · intro h
    split at h
    · next hs =>
      obtain rfl := Option.some.inj h
      rw [List.getElem?_eq_getElem (List.idxOf_lt_length_of_mem hs), List.getElem_idxOf]
    · simp at h
  · intro h
    obtain ⟨hi, rfl⟩ := List.getElem?_eq_some_iff.mp h
    rw [if_pos (List.getElem_mem hi), N.nodup.idxOf_getElem]

/-- The numbering with a state added, if it is new, and the number of that state. -/
def intern (N : Numbering α) (s : α) : Numbering α × Nat :=
  if h : s ∈ N.states then (N, N.states.idxOf s)
  else (⟨N.states ++ [s], by
    refine List.nodup_append.mpr ⟨N.nodup, by simp, fun a ha b hb hab => ?_⟩
    exact h (List.mem_singleton.mp hb ▸ hab ▸ ha)⟩, N.size)

/-- A number already given stays. -/
theorem get?_intern {N : Numbering α} {s t : α} {i : Nat} (h : N.get? i = some s) :
    (N.intern t).1.get? i = some s := by
  unfold intern
  split
  · exact h
  · exact (List.getElem?_append_left (get?_eq_some_lt h)).trans h

theorem index?_eq_none_iff {N : Numbering α} {s : α} : N.index? s = none ↔ s ∉ N.states := by
  rw [index?, ite_eq_right_iff]
  exact imp_congr_right fun _ => iff_of_false nofun id

/-- A new state gets the next number, and all others keep theirs. -/
theorem index?_intern {N : Numbering α} {s t : α} (hs : s ∉ N.states) :
    (N.intern s).1.index? t = if t = s then some N.size else N.index? t := by
  have hstates : (N.intern s).1.states = N.states ++ [s] := by rw [intern, dif_neg hs]
  rw [index?, hstates]
  by_cases h : t = s
  · subst h
    rw [if_pos (by simp), if_pos rfl, List.idxOf_append, if_neg hs]
    simp [size]
  · rw [if_neg h, index?]
    by_cases ht : t ∈ N.states
    · rw [if_pos (List.mem_append_left _ ht), if_pos ht, List.idxOf_append, if_pos ht]
    · rw [if_neg (by simp [ht, h]), if_neg ht]

/-- Adds a state, or refuses it where the numbers run out. -/
def tryIntern (N : Numbering α) (s : α) : Except Error (Numbering α × Nat) :=
  if s ∈ N.states ∨ N.size ≤ Word32.max then .ok (N.intern s)
  else .error (.dimensionMismatch (N.size + 1, N.size + 1) (Word32.max, Word32.max))

/-- Numbers the states of a list in first-seen order. -/
def ofList (l : List α) : Numbering α := l.foldl (fun N s => (N.intern s).1) empty

/-- Numbers the states of a list in first-seen order, or refuses it where the numbers run out. -/
def tryOfList (l : List α) : Except Error (Numbering α) :=
  l.foldlM (fun N s => (N.tryIntern s).map (·.1)) empty

/-- Different states are numbered in their order as long as there are numbers. -/
theorem foldlM_tryIntern_of_nodup {N : Numbering α} {l : List α} (h : (N.states ++ l).Nodup)
    (hN : N.size ≤ Word32.max + 1) :
    l.foldlM (fun N s => (N.tryIntern s).map (·.1)) N =
      if N.size + l.length ≤ Word32.max + 1 then .ok ⟨N.states ++ l, h⟩
      else .error
        (.dimensionMismatch (Word32.max + 2, Word32.max + 2) (Word32.max, Word32.max)) := by
  induction l generalizing N with
  | nil =>
    refine .trans ?_ (if_pos hN).symm
    exact congrArg Except.ok (by cases N; simp)
  | cons s l ih =>
    have hs : s ∉ N.states := fun hs =>
      (List.nodup_append.mp h).2.2 s hs s (List.mem_cons_self ..) rfl
    rw [List.foldlM_cons]
    by_cases hmax : N.size ≤ Word32.max
    · have hintern : (N.tryIntern s).map (·.1) = .ok (N.intern s).1 := by
        rw [tryIntern, if_pos (.inr hmax)]
        rfl
      have hstates : (N.intern s).1.states = N.states ++ [s] := by rw [intern, dif_neg hs]
      have hsize : (N.intern s).1.size = N.size + 1 := by simp [size, hstates]
      have hnext : ((N.intern s).1.states ++ l).Nodup := by
        rwa [hstates, List.append_assoc]
      rw [hintern]
      refine (ih hnext (by omega)).trans ?_
      simp only [hsize, hstates, List.length_cons, List.append_assoc, List.singleton_append,
        Nat.add_assoc, Nat.add_comm 1]
    · have hintern : (N.tryIntern s).map (·.1) = .error (.dimensionMismatch
          (Word32.max + 2, Word32.max + 2) (Word32.max, Word32.max)) := by
        have hfull : N.size = Word32.max + 1 := by omega
        rw [tryIntern, if_neg (by simp [hs, hmax]), hfull]
        rfl
      rw [hintern, if_neg (by rw [List.length_cons]; omega)]
      rfl

/-- Numbers the states of a list for which there are numbers enough: that they run out is a fault. -/
def collect (l : List α) : Except Error (Numbering α) := (tryOfList l).mapError Error.asFault

theorem tryOfList_of_nodup {l : List α} (h : l.Nodup) : tryOfList l =
    if l.length ≤ Word32.max + 1 then .ok ⟨l, h⟩
    else .error (.dimensionMismatch (Word32.max + 2, Word32.max + 2) (Word32.max, Word32.max)) := by
  have hlength : (empty : Numbering α).size + l.length = l.length := Nat.zero_add _
  have h' : ((empty : Numbering α).states ++ l).Nodup := h
  refine (foldlM_tryIntern_of_nodup h' (Nat.zero_le _)).trans ?_
  rw [hlength]
  rfl

/-- All pairs are numbered by numbering them one after another. -/
theorem tryOfList_product [DecidableEq β] (N : Numbering α) (P : Numbering β) :
    tryOfList (N.product P).states = N.tryProduct P := by
  have hlength : (N.product P).states.length = N.size * P.size := size_product N P
  rw [tryOfList_of_nodup (N.product P).nodup, hlength, tryProduct]

end Numbering

end PathQuery
