import Mathlib.Data.List.Induction
import PathQuery.Nfa.SubsetTable
import PathQuery.Proofs.Data

/-!
# Proofs/Nfa/SubsetTable — sets are numbered as they are first seen

* `SubsetTable.internAll_answers` — over any calls, a table numbers different sets `0, 1, 2, …` in
  the order in which they first occur, and each call is answered with the number of its set.

`SubsetTable.Records` says what a table and its answers are after some calls.  One more call keeps
it (`Records.intern`), whether its set has one member or not and whether it is new or not; all calls
follow by induction (`records_internAll`).
-/

namespace PathQuery.SubsetTable

variable {T T' : SubsetTable} {calls : List (List Nat × Bool)} {answers : List (Nat × Bool)}
  {call : List Nat × Bool} {set : List Nat} {accepting new : Bool} {i : Nat}

/-- The table after some calls, each with a set and a flag, and the answer to each of them: the
number of the set, and whether the set was new. -/
def internAll (calls : List (List Nat × Bool)) : SubsetTable × List (Nat × Bool) :=
  calls.foldl
    (fun (T, answers) (set, accepting) =>
      ((T.intern set accepting).1, answers ++ [(T.intern set accepting).2]))
    (empty, [])

theorem internAll_concat : internAll (calls ++ [call]) =
    (((internAll calls).1.intern call.1 call.2).1,
      (internAll calls).2 ++ [((internAll calls).1.intern call.1 call.2).2]) :=
  List.foldl_append

/-- **What a table and its answers are** after some calls.  The table holds the sets of the calls in
the order in which they first occur, each with the flag of its first call and found by its number.
The numbers of the new sets are `0, 1, 2, …`.  The answer to a call is the number of its set, which
is new unless an earlier call had it. -/
structure Records (calls : List (List Nat × Bool)) (T : SubsetTable)
    (answers : List (Nat × Bool)) : Prop where
  sets : T.sets.states = Distinct.ofList (calls.map (·.1))
  flags : ∀ i set, T.sets.get? i = some set → T.flag? i = calls.lookup set
  length_flags : T.flags.length = T.sets.size
  index : ∀ i set, T.index.find? set = some i ↔ T.sets.get? i = some set
  numbers : (answers.filter (·.2)).map (·.1) = List.range T.sets.size
  length : answers.length = calls.length
  answer : ∀ k call i new, calls[k]? = some call → answers[k]? = some (i, new) →
    T.sets.get? i = some call.1 ∧ (new = true ↔ call.1 ∉ (calls.take k).map (·.1))

/-! ## One call -/

theorem index_iff (T : SubsetTable) (i : Nat) (set : List Nat) :
    T.index.find? set = some i ↔ T.sets.get? i = some set := by
  rw [T.find?_eq, Numbering.index?_eq_some_iff]

theorem states_add (h : set ∉ T.sets.states) :
    (T.add set accepting h).sets.states = T.sets.states ++ [set] := by
  show (T.sets.intern set).1.states = _
  rw [Numbering.intern, dif_neg h]

/-- An entry of a list behind which one more was put. -/
theorem getElem?_concat_cases {α : Type} {l : List α} {a b : α} {k : Nat}
    (h : (l ++ [a])[k]? = some b) : l[k]? = some b ∨ k = l.length ∧ b = a := by
  rw [List.getElem?_append] at h
  split at h
  · exact .inl h
  · next hk =>
    obtain ⟨hlt, rfl⟩ := List.getElem?_eq_some_iff.mp h
    rw [List.length_singleton] at hlt
    exact .inr ⟨by omega, List.getElem_singleton ..⟩

namespace Records

/-- A set that is known keeps the flag of its first call. -/
theorem lookup_concat (h : Records calls T answers) (hi : T.sets.get? i = some set) :
    (calls ++ [call]).lookup set = T.flag? i := by
  have hlt : i < T.flags.length := h.length_flags ▸ Numbering.get?_eq_some_lt hi
  have hflag : T.flag? i = some T.flags[i] := List.getElem?_eq_getElem hlt
  rw [List.lookup_append, ← h.flags i set hi, hflag, Option.some_or]

/-- The answers so far stay right where no number changes, and the next one is right where it gives
the number that the set has from now on. -/
theorem answer_concat (h : Records calls T answers)
    (hstay : ∀ j set, T.sets.get? j = some set → T'.sets.get? j = some set)
    (hi : T'.sets.get? i = some call.1) (hnew : new = true ↔ call.1 ∉ calls.map (·.1)) :
    ∀ k c j b, (calls ++ [call])[k]? = some c → (answers ++ [(i, new)])[k]? = some (j, b) →
      T'.sets.get? j = some c.1 ∧ (b = true ↔ c.1 ∉ ((calls ++ [call]).take k).map (·.1)) := by
  intro k c j b hc hj
  rcases getElem?_concat_cases hc with hc | ⟨rfl, rfl⟩
  · have hk : k < calls.length := (List.getElem?_eq_some_iff.mp hc).1
    rw [List.getElem?_append_left (h.length ▸ hk)] at hj
    obtain ⟨hget, hb⟩ := h.answer k c j b hc hj
    rw [List.take_append_of_le_length (Nat.le_of_lt hk)]
    exact ⟨hstay j _ hget, hb⟩
  · rw [← h.length, List.getElem?_concat_length] at hj
    obtain ⟨rfl, rfl⟩ := Prod.mk.inj (Option.some.inj hj)
    rw [List.take_left]
    exact ⟨hi, hnew⟩

/-- A set that an earlier call had: nothing is added. -/
theorem intern_seen (h : Records calls T answers) (hcall : call.1 ∈ calls.map (·.1)) :
    Records (calls ++ [call]) (T.intern call.1 call.2).1
      (answers ++ [(T.intern call.1 call.2).2]) := by
  have hmem : call.1 ∈ T.sets.states := h.sets ▸ Distinct.mem_ofList.mpr hcall
  obtain ⟨i, hi⟩ := Numbering.exists_get?_iff.mpr hmem
  rw [intern_of_index? (Numbering.index?_eq_some_iff.mpr hi)]
  refine ⟨?_, fun j set hj => (h.lookup_concat hj).symm, h.length_flags, T.index_iff, ?_, ?_,
    h.answer_concat (fun _ _ => id) hi (iff_of_false Bool.false_ne_true (not_not_intro hcall))⟩
  · rw [List.map_append, List.map_singleton, Distinct.ofList_concat, if_pos hcall]
    exact h.sets
  · rw [List.filter_append, List.map_append, h.numbers]
    exact List.append_nil _
  · rw [List.length_append, List.length_append, h.length]
    rfl

/-- A set that no earlier call had: it stands behind all others, with its flag. -/
theorem intern_new (h : Records calls T answers) (hcall : call.1 ∉ calls.map (·.1)) :
    Records (calls ++ [call]) (T.intern call.1 call.2).1
      (answers ++ [(T.intern call.1 call.2).2]) := by
  have hnew : call.1 ∉ T.sets.states := h.sets ▸ fun hmem => hcall (Distinct.mem_ofList.mp hmem)
  rw [intern_of_notMem hnew]
  have hstates := @states_add T call.1 call.2 hnew
  have hsize : (T.add call.1 call.2 hnew).sets.size = T.sets.size + 1 := by
    rw [Numbering.size, hstates, List.length_append]
    rfl
  have hstay : ∀ j set, T.sets.get? j = some set →
      (T.add call.1 call.2 hnew).sets.get? j = some set := fun j set => Numbering.get?_intern
  refine ⟨?_, fun j set hj => ?_, (T.add call.1 call.2 hnew).length_flags,
    (T.add call.1 call.2 hnew).index_iff, ?_, ?_,
    h.answer_concat hstay ?_ (iff_of_true rfl hcall)⟩
  · rw [List.map_append, List.map_singleton, Distinct.ofList_concat, if_neg hcall, hstates, h.sets]
  · rw [Numbering.get?, hstates] at hj
    rcases getElem?_concat_cases hj with hj | ⟨rfl, rfl⟩
    · rw [h.lookup_concat hj]
      exact List.getElem?_append_left (h.length_flags ▸ Numbering.get?_eq_some_lt hj)
    · have hnone : calls.lookup call.1 = none := List.lookup_eq_none_iff.mpr fun c hc =>
        bne_iff_ne.mpr fun heq => hcall (heq ▸ List.mem_map_of_mem hc)
      rw [List.lookup_append, hnone, flag?, add]
      have hlength : T.sets.states.length = T.flags.length := h.length_flags.symm
      rw [hlength, List.getElem?_concat_length, Option.none_or, List.lookup_cons_self]
  · rw [hsize, List.filter_append, List.map_append, h.numbers, List.range_succ]
    rfl
  · rw [List.length_append, List.length_append, h.length]
    rfl
  · rw [Numbering.get?, hstates]
    exact List.getElem?_concat_length

/-- **One more call** keeps the records. -/
theorem intern (h : Records calls T answers) : Records (calls ++ [call])
    (T.intern call.1 call.2).1 (answers ++ [(T.intern call.1 call.2).2]) := by
  by_cases hcall : call.1 ∈ calls.map (·.1)
  · exact h.intern_seen hcall
  · exact h.intern_new hcall

end Records

/-! ## Any number of calls -/

theorem records_empty : Records [] empty [] where
  sets := rfl
  flags _ _ h := absurd h (by simp [empty, Numbering.empty, Numbering.get?])
  length_flags := rfl
  index := empty.index_iff
  numbers := rfl
  length := rfl
  answer _ _ _ _ h := absurd h (by simp)

theorem records_internAll (calls : List (List Nat × Bool)) :
    Records calls (internAll calls).1 (internAll calls).2 := by
  induction calls using List.reverseRecOn with
  | nil => exact records_empty
  | append_singleton calls call ih =>
    rw [internAll_concat]
    exact ih.intern

/-- **Interning**: whatever the sets of the calls are and however often they recur, the table holds
each of them once, in the order in which they are first seen, with the flag of its first call; the
numbers `0, 1, 2, …` are given to the new ones in this order; and two calls are answered with the
same number exactly where they are about the same set. -/
theorem internAll_answers (calls : List (List Nat × Bool)) : ∃ T answers,
    internAll calls = (T, answers) ∧ Records calls T answers ∧
      ∀ (k l : Nat) (c d : List Nat × Bool) (a b : Nat × Bool),
        calls[k]? = some c → calls[l]? = some d → answers[k]? = some a → answers[l]? = some b →
          (a.1 = b.1 ↔ c.1 = d.1) := by
  have h := records_internAll calls
  refine ⟨_, _, rfl, h, fun k l c d a b hc hd ha hb => ?_⟩
  have hc := (h.answer k c a.1 a.2 hc ha).1
  have hd := (h.answer l d b.1 b.2 hd hb).1
  exact ⟨fun hab => Option.some.inj (hc.symm.trans (hab ▸ hd)),
    fun hcd => Numbering.get?_inj hc (hcd ▸ hd)⟩

/-- Sets with one member and other sets share the numbers; only the first flag of a set counts. -/
example : (internAll [([1, 2, 3], false), ([4], true), ([1, 2, 3], true), ([], true)]).2 =
    [(0, true), (1, true), (0, false), (2, true)] ∧
      (internAll [([1, 2, 3], false), ([4], true), ([1, 2, 3], true), ([], true)]).1.flags =
        [false, true, true] := by decide

end PathQuery.SubsetTable
