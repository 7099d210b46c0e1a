import Mathlib.Data.Finset.Card
import PathQuery.Proofs.Data
import PathQuery.StateTable

/-!
# Proofs/StateTable — states are numbered as they are first seen

* `StateTable.numbers_calls` — as long as there are numbers, adding states gives different ones the
  numbers `0, 1, 2, …` in the order in which they are first seen, the two directions of the table
  are inverse to each other, and no number that was given changes any more.
* `StateTable.ofList_eq_collect` — `Numbering.collect` numbers the states of a list as a table does.

On what is kept of a numbering, adding a state in place does what adding it to the numbering does
(`runOn_tryIntern_table`), although it looks at one direction of the table only.  One call keeps the
numbers given before it (`Numbering.index?_intern_of_eq_some`), whether it is refused or not; any
number of calls follows by induction (`run_table`, `exists_run_table`).
-/

namespace PathQuery

/-! ## First occurrences -/

namespace Distinct

universe u

variable {α : Type u} [DecidableEq α] {l l₁ l₂ : List α} {a : α}

/-- The number of different values before the first occurrence of a value. -/
def before (l : List α) (a : α) : Nat := (l.take (l.idxOf a)).toFinset.card

theorem length_ofList (l : List α) : (ofList l).length = l.toFinset.card := by
  rw [← List.toFinset_card_of_nodup (nodup_ofList l)]
  refine congrArg Finset.card (Finset.ext fun a => ?_)
  rw [List.mem_toFinset, mem_ofList, List.mem_toFinset]

theorem idxOf_append_cons (ha : a ∉ l₁) : (l₁ ++ a :: l₂).idxOf a = l₁.length := by
  rw [List.idxOf_append, if_neg ha, List.idxOf_cons_self, Nat.zero_add]

/-- A value stands behind those that occur before it. -/
theorem idxOf_ofList (h : a ∈ l) : (ofList l).idxOf a = before l a := by
  obtain ⟨l₁, l₂, rfl, ha⟩ := List.eq_append_cons_of_mem h
  have ha' : a ∉ ofList l₁ := fun h => ha (mem_ofList.mp h)
  have hlist : ofList (l₁ ++ a :: l₂) = ofList l₁ ++ a :: unseen (a :: ofList l₁) l₂ := by
    have happend : ofList (l₁ ++ a :: l₂) = ofList l₁ ++ unseen (ofList l₁) (a :: l₂) :=
      unseen_append [] l₁ (a :: l₂)
    rw [happend, unseen, if_neg ha']
  rw [before, hlist, idxOf_append_cons ha', idxOf_append_cons ha, List.take_left, length_ofList]

end Distinct

/-! ## Numberings -/

namespace Numbering

variable {α : Type} [DecidableEq α] {N : Numbering α} {l : List α} {s t : α} {i : Nat}

/-- A state is found by the number that it was given. -/
theorem index?_intern_self : (N.intern s).1.index? s = some (N.intern s).2 := by
  by_cases h : s ∈ N.states
  · have hintern : N.intern s = (N, N.states.idxOf s) := dif_pos h
    rw [hintern, index?, if_pos h]
  · rw [index?_intern h, if_pos rfl, intern, dif_neg h]

/-- A number that was given stays. -/
theorem index?_intern_of_eq_some (h : N.index? t = some i) : (N.intern s).1.index? t = some i := by
  rw [index?_eq_some_iff] at h ⊢
  exact get?_intern h

theorem index?_foldl_intern_of_eq_some (h : N.index? t = some i) :
    (l.foldl (fun N s => (N.intern s).1) N).index? t = some i := by
  induction l generalizing N with
  | nil => exact h
  | cons s l ih => exact ih (index?_intern_of_eq_some h)

/-- A state has a number where the states are some of a list that has enough numbers. -/
theorem tryIntern_eq_ok (h : l.toFinset.card ≤ Word32.max + 1) (hN : ∀ t ∈ N.states, t ∈ l)
    (hs : s ∈ l) : N.tryIntern s = .ok (N.intern s) := by
  refine if_pos ((em (s ∈ N.states)).imp_right fun hnew => ?_)
  -- A new state and the states that are there are different ones of the list.
  have hnodup : (s :: N.states).Nodup := List.nodup_cons.mpr ⟨hnew, N.nodup⟩
  have hle : (s :: N.states).length ≤ l.toFinset.card := by
    rw [← List.toFinset_card_of_nodup hnodup]
    refine Finset.card_le_card fun t ht => ?_
    rw [List.mem_toFinset] at ht ⊢
    rcases List.mem_cons.mp ht with rfl | ht
    · exact hs
    · exact hN t ht
  have hsize : N.size + 1 ≤ l.toFinset.card := hle
  omega

theorem mem_of_mem_intern (hN : ∀ t ∈ N.states, t ∈ l) (hs : s ∈ l) :
    ∀ t ∈ (N.intern s).1.states, t ∈ l := fun t ht =>
  (mem_intern.mp ht).elim (hN t) fun h => h ▸ hs

theorem tryOfList_eq_ok (h : l.toFinset.card ≤ Word32.max + 1) :
    tryOfList l = .ok (ofList l) := by
  have hstep : ∀ s ∈ l, ∀ N : Numbering α, (∀ t ∈ N.states, t ∈ l) →
      (N.tryIntern s).map (·.1) = .ok (N.intern s).1 ∧ ∀ t ∈ (N.intern s).1.states, t ∈ l :=
    fun s hs N hN => ⟨by rw [tryIntern_eq_ok h hN hs]; rfl, mem_of_mem_intern hN hs⟩
  have hempty : ∀ t ∈ (empty : Numbering α).states, t ∈ l := fun t ht => absurd ht List.not_mem_nil
  exact (foldlM_eq_ok (e := id) hstep hempty).1

end Numbering

/-! ## What is kept of a numbering -/

namespace StateTable

open InPlace (putting)

variable {α : Type} {N : Numbering α} {T : StateTable α} {l : List α} {s t : α} {i : Nat}

@[simp] theorem size_table : N.table.size = N.size := rfl

@[simp] theorem get?_table : N.table.get? i = N.get? i := rfl

/-- A new state is put in by its number and the number by the state. -/
theorem table_concat {states : List α} {nodup : (states ++ [s]).Nodup} :
    Numbering.table ⟨states ++ [s], nodup⟩ =
      ⟨states ++ [s], (s, states.length) :: states.zipIdx.reverse⟩ := by
  rw [Numbering.table, List.zipIdx_append, List.reverse_append, Nat.zero_add]
  rfl

variable [DecidableEq α]

/-- Both directions agree. -/
@[simp] theorem index?_table : N.table.index? s = N.index? s := by
  refine Option.ext fun i => ?_
  -- No state is put in twice, so that its first entry is its only one.
  have hkeys : (N.table.numbers.map (·.1)).Nodup := by
    rw [Numbering.table, List.map_reverse, List.zipIdx_map_fst, List.nodup_reverse]
    exact N.nodup
  rw [index?, lookup_eq_some_iff_mem hkeys, Numbering.index?_eq_some_iff, Numbering.table,
    List.mem_reverse, List.mem_zipIdx_iff_getElem?]
  rfl

theorem runOn_tryIntern : (tryIntern s).runOn T = match T.index? s with
    | some i => (.ok i, T)
    | none =>
      if Word32.max < T.size then
        (.error (.dimensionMismatch (T.size + 1, T.size + 1) (Word32.max, Word32.max)), T)
      else (.ok T.size, ⟨T.states ++ [s], (s, T.size) :: T.numbers⟩) := by
  rw [tryIntern, InPlace.runOn_bind, InPlace.runOn_get]
  dsimp only
  cases T.index? s with
  | some i => exact InPlace.runOn_pure
  | none =>
    dsimp only
    split
    · exact InPlace.runOn_throw
    · simp only [InPlace.runOn_bind, InPlace.runOn_modify, InPlace.runOn_pure]

/-- **A state that is added in place**: what is kept then is what is kept of the numbering with it,
and a state that is refused changes nothing. -/
theorem runOn_tryIntern_table :
    (tryIntern s).runOn N.table = putting (·.table) N.table (N.tryIntern s) := by
  rw [runOn_tryIntern, index?_table, size_table]
  by_cases hs : s ∈ N.states
  · have hindex : N.index? s = some (N.states.idxOf s) := if_pos hs
    have htry : N.tryIntern s = .ok (N, N.states.idxOf s) :=
      (if_pos (.inl hs)).trans (congrArg _ (dif_pos hs))
    rw [hindex, htry]
    rfl
  have hindex : N.index? s = none := if_neg hs
  rw [hindex]
  dsimp only
  by_cases hfull : Word32.max < N.size
  · have htry : N.tryIntern s =
        .error (.dimensionMismatch (N.size + 1, N.size + 1) (Word32.max, Word32.max)) :=
      if_neg (not_or_intro hs (Nat.not_le_of_lt hfull))
    rw [if_pos hfull, htry]
    rfl
  · have htry : N.tryIntern s = .ok (N.intern s) := if_pos (.inr (Nat.le_of_not_lt hfull))
    rw [if_neg hfull, htry, Numbering.intern, dif_neg hs]
    exact congrArg _ table_concat.symm

theorem runOn_intern_table : (intern s).runOn N.table =
    putting (·.table) N.table ((N.tryIntern s).mapError Error.asFault) := by
  rw [intern, InPlace.runOn_required, runOn_tryIntern_table]
  cases N.tryIntern s <;> rfl

/-- A call that adds a state; that no number is left for it is a refusal or a fault. -/
inductive Call (α : Type) where
  | intern (s : α)
  | tryIntern (s : α)
  deriving DecidableEq, Repr

namespace Call

/-- The state that is added. -/
def state : Call α → α
  | intern s | tryIntern s => s

/-- What the call makes of a refusal. -/
def failure : Call α → Error → Error
  | intern _ => Error.asFault
  | tryIntern _ => id

/-- The call on a table. -/
def perform : Call α → InPlace (StateTable α) Nat
  | intern s => StateTable.intern s
  | tryIntern s => StateTable.tryIntern s

theorem runOn_perform_table {c : Call α} : c.perform.runOn N.table =
    putting (·.table) N.table ((N.tryIntern c.state).mapError c.failure) := by
  cases c with
  | intern s => exact runOn_intern_table
  | tryIntern s =>
    refine runOn_tryIntern_table.trans ?_
    show putting (·.table) N.table (N.tryIntern s) =
      putting (·.table) N.table ((N.tryIntern s).mapError id)
    cases N.tryIntern s <;> rfl

end Call

/-! ## The states of a list -/

/-- The states of a list are put one after another into what is kept of a numbering as they are
added to the numbering. -/
theorem on_forM_table {put : α → InPlace (StateTable α) Nat} {failure : Error → Error}
    (hput : ∀ (N : Numbering α) (s : α), (put s).runOn N.table =
      putting (·.table) N.table ((N.tryIntern s).mapError failure)) :
    (l.forM fun s => do let _ ← put s).on N.table =
      (fun N : Numbering α => (N.table, PUnit.unit)) <$>
        (l.foldlM (fun (N : Numbering α) s => (N.tryIntern s).map (·.1)) N).mapError failure := by
  induction l generalizing N with
  | nil => rfl
  | cons s l ih =>
    show ((put s >>= fun _ => pure PUnit.unit) >>= fun _ =>
      l.forM fun s => do let _ ← put s).on N.table = _
    rw [InPlace.on_bind, InPlace.on_bind, InPlace.on_of_runOn_eq (hput N s), List.foldlM_cons]
    cases N.tryIntern s with
    | error e => rfl
    | ok r => exact ih

theorem gather_eq {put : α → InPlace (StateTable α) Nat} {failure : Error → Error}
    (hput : ∀ (N : Numbering α) (s : α), (put s).runOn N.table =
      putting (·.table) N.table ((N.tryIntern s).mapError failure)) :
    gather put l = (·.table) <$> (Numbering.tryOfList l).mapError failure := by
  have hempty : (empty : StateTable α) = Numbering.empty.table := rfl
  rw [gather, hempty, on_forM_table hput, Numbering.tryOfList]
  cases l.foldlM (fun (N : Numbering α) s => (N.tryIntern s).map (·.1)) Numbering.empty <;> rfl

theorem tryOfList_eq_ok (h : l.toFinset.card ≤ Word32.max + 1) :
    tryOfList l = .ok (Numbering.ofList l).table := by
  have hput : ∀ (N : Numbering α) (s : α), (tryIntern s).runOn N.table =
      putting (·.table) N.table ((N.tryIntern s).mapError id) :=
    fun N s => @Call.runOn_perform_table _ N _ (.tryIntern s)
  rw [tryOfList, gather_eq hput, Numbering.tryOfList_eq_ok h]
  rfl

/-- A list for which there should be numbers is put into a table as it is collected. -/
theorem ofList_eq_collect (l : List α) : ofList l = (·.table) <$> Numbering.collect l :=
  gather_eq fun _ _ => runOn_intern_table

theorem ofList_eq_ok (h : l.toFinset.card ≤ Word32.max + 1) :
    ofList l = .ok (Numbering.ofList l).table := by
  rw [ofList_eq_collect, Numbering.collect, Numbering.tryOfList_eq_ok h]
  rfl

/-! ## Sequences of calls -/

/-- The answers to some calls, each of which begins with what the one before it has left, and what
the last one leaves. -/
def run : List (Call α) → StateTable α → List (Except Error Nat) × StateTable α
  | [], T => ([], T)
  | c :: calls, T =>
    let (answer, T) := c.perform.runOn T
    let (answers, T) := run calls T
    (answer :: answers, T)

/-- Calls that all find a number are answered with the numbers that their states have in the end. -/
theorem run_table {calls : List (Call α)} {P : Numbering α} {number : α → Nat}
    (h : l.toFinset.card ≤ Word32.max + 1) (hN : ∀ t ∈ N.states, t ∈ l)
    (hcalls : ∀ c ∈ calls, c.state ∈ l)
    (hP : (calls.map Call.state).foldl (fun N s => (N.intern s).1) N = P)
    (hnumber : ∀ c ∈ calls, P.index? c.state = some (number c.state)) :
    run calls N.table = (calls.map fun c => .ok (number c.state), P.table) := by
  induction calls generalizing N with
  | nil => exact hP ▸ rfl
  | cons c calls ih =>
    obtain ⟨hc, hcalls⟩ := List.forall_mem_cons.mp hcalls
    obtain ⟨hfirst, hnumber⟩ := List.forall_mem_cons.mp hnumber
    rw [List.map_cons, List.foldl_cons] at hP
    -- The number of the first call is only known from the last table, where it still stands.
    have hlast : P.index? c.state = some (N.intern c.state).2 :=
      hP ▸ Numbering.index?_foldl_intern_of_eq_some Numbering.index?_intern_self
    have hperform : c.perform.runOn N.table =
        (.ok (number c.state), (N.intern c.state).1.table) := by
      rw [Call.runOn_perform_table, Numbering.tryIntern_eq_ok h hN hc,
        ← Option.some.inj (hlast.symm.trans hfirst)]
      rfl
    rw [run, hperform]
    dsimp only
    rw [ih (Numbering.mem_of_mem_intern hN hc) hcalls hP hnumber]
    rfl

/-- Calls leave every number that was given, also where some of them find no number. -/
theorem exists_run_table (calls : List (Call α)) (N : Numbering α) :
    ∃ P : Numbering α, (run calls N.table).2 = P.table ∧
      ∀ s i, N.index? s = some i → P.index? s = some i := by
  induction calls generalizing N with
  | nil => exact ⟨N, rfl, fun s i => id⟩
  | cons c calls ih =>
    rw [run, Call.runOn_perform_table]
    by_cases hroom : c.state ∈ N.states ∨ N.size ≤ Word32.max
    · have htry : N.tryIntern c.state = .ok (N.intern c.state) := if_pos hroom
      obtain ⟨P, hP, hstay⟩ := ih (N.intern c.state).1
      rw [htry]
      exact ⟨P, hP, fun s i hi => hstay s i (Numbering.index?_intern_of_eq_some hi)⟩
    · have htry : N.tryIntern c.state =
          .error (.dimensionMismatch (N.size + 1, N.size + 1) (Word32.max, Word32.max)) :=
        if_neg hroom
      obtain ⟨P, hP, hstay⟩ := ih N
      rw [htry]
      exact ⟨P, hP, hstay⟩

/-! ## Numbers in first-seen order -/

/-- **What a table is** once the states of a list have been added.  It has each of them once, in the
order in which they are first seen; its two directions are inverse to each other, and match the
states of the list and the numbers below the size one to one; the number of a state is the number of
different states seen before it. -/
structure Numbers (T : StateTable α) (l : List α) : Prop where
  states : T.states = Distinct.ofList l
  size : T.size = l.toFinset.card
  inverse : ∀ s i, T.index? s = some i ↔ T.get? i = some s
  seen : ∀ s, s ∈ l ↔ ∃ i, T.index? s = some i
  numbers : ∀ i, i < T.size ↔ ∃ s, T.get? i = some s
  before : ∀ s ∈ l, T.index? s = some (Distinct.before l s)

theorem numbers_table (l : List α) : (Numbering.ofList l).table.Numbers l where
  states := Numbering.states_ofList l
  size := by
    rw [← Distinct.length_ofList, ← Numbering.states_ofList]
    rfl
  inverse s i := by rw [index?_table, Numbering.index?_eq_some_iff, get?_table]
  seen s := by
    simp only [index?_table, Numbering.index?_eq_some_iff]
    rw [Numbering.exists_get?_iff, Numbering.mem_states_ofList]
  numbers i := ⟨fun hi => ⟨_, List.getElem?_eq_getElem hi⟩,
    fun ⟨_, hs⟩ => (List.getElem?_eq_some_iff.mp hs).1⟩
  before s hs := by
    rw [index?_table, Numbering.index?, if_pos (Numbering.mem_states_ofList.mpr hs),
      Numbering.states_ofList, Distinct.idxOf_ofList hs]

/-- **Numbers for states**: the states of a list are put into a table and then, by whatever calls,
further ones, all in all not more different ones than there are numbers.  Then the table can be made
in either way, and every call is answered with the number of different states seen before its state
was first seen; the table numbers all states that were seen, and is what is kept of the numbering of
these; and no call after that, even one that finds no number, changes a number that was given. -/
theorem numbers_calls {l : List α} {calls : List (Call α)}
    (h : (l ++ calls.map Call.state).toFinset.card ≤ Word32.max + 1) :
    ∃ N P : Numbering α,
      Numbering.tryOfList l = .ok N ∧ tryOfList l = .ok N.table ∧ ofList l = .ok N.table ∧
      N.table.Numbers l ∧
      Numbering.tryOfList (l ++ calls.map Call.state) = .ok P ∧
      run calls N.table =
        (calls.map fun c => .ok (Distinct.before (l ++ calls.map Call.state) c.state), P.table) ∧
      P.table.Numbers (l ++ calls.map Call.state) ∧
      ∀ (later : List (Call α)) (s : α) (i : Nat),
        P.table.index? s = some i → (run later P.table).2.index? s = some i := by
  have hl : l.toFinset.card ≤ Word32.max + 1 := by
    refine Nat.le_trans (Finset.card_le_card ?_) h
    rw [List.toFinset_append]
    exact Finset.subset_union_left
  have hnumbers := numbers_table (l ++ calls.map Call.state)
  refine ⟨_, _, Numbering.tryOfList_eq_ok hl, tryOfList_eq_ok hl, ofList_eq_ok hl, numbers_table l,
    Numbering.tryOfList_eq_ok h, ?_, hnumbers, fun later s i hi => ?_⟩
  · have hmem : ∀ c ∈ calls, c.state ∈ l ++ calls.map Call.state := fun c hc =>
      List.mem_append_right _ (List.mem_map_of_mem hc)
    have hold : ∀ t ∈ (Numbering.ofList l).states, t ∈ l ++ calls.map Call.state := fun t ht =>
      List.mem_append_left _ (Numbering.mem_states_ofList.mp ht)
    refine run_table h hold hmem List.foldl_append.symm fun c hc => ?_
    rw [← index?_table]
    exact hnumbers.before _ (hmem c hc)
  · rw [index?_table] at hi
    obtain ⟨Q, hQ, hstay⟩ := exists_run_table later (Numbering.ofList (l ++ calls.map Call.state))
    rw [hQ, index?_table]
    exact hstay s i hi

/-- Calls for states that were seen and for one that was not. -/
def mixedCalls : List (Call Nat) := [.intern 7, .tryIntern 9, .tryIntern 3]

/-- The states of the list and of the calls are numbered together, and a later call gets the next
number. -/
theorem numbers_calls_mixedCalls :
    ([7, 3, 7] ++ mixedCalls.map Call.state).toFinset.card ≤ Word32.max + 1 ∧
    ∃ T U : StateTable Nat, tryOfList [7, 3, 7] = .ok T ∧ T.states = [7, 3] ∧
      run mixedCalls T = ([.ok 0, .ok 2, .ok 1], U) ∧ U.states = [7, 3, 9] ∧ U.size = 3 ∧
      U.index? 9 = some 2 ∧ U.get? 2 = some 9 ∧ (run [.tryIntern 5] U).2.index? 9 = some 2 := by
  have h : ([7, 3, 7] ++ mixedCalls.map Call.state).toFinset.card ≤ Word32.max + 1 := by decide
  obtain ⟨N, P, -, hlist, -, hN, -, hrun, hP, hlater⟩ := @numbers_calls Nat _ [7, 3, 7] mixedCalls h
  have hindex : P.table.index? 9 = some 2 := hP.before 9 (by decide)
  exact ⟨h, N.table, P.table, hlist, hN.states, hrun, hP.states, hP.size, hindex,
    (hP.inverse 9 2).mp hindex, hlater _ _ _ hindex⟩

end StateTable

end PathQuery
