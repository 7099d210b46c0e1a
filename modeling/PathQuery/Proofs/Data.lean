import PathQuery.Numbering
import PathQuery.Search

/-!
# Proofs/Data — lists, results and numberings

* `Ascending.length_ofList_of_nodup` — sorting a list without repetitions keeps its length.
* `lookup_eq_some_iff_mem` — where the keys of an association list differ, each pair is found.
* `exists_of_bind_eq_ok`, `foldlM_induction` — a computation in parts has a result where all parts
  have one; `foldlM_eq_ok` says which one a loop has.
* `Numbering.get?_inj`, `Numbering.states_ofList` — each member of a list has one number, in the
  order in which they are first seen.
-/

namespace PathQuery

universe u

namespace Ascending

variable {α : Type u} [DecidableEq α] [Precedes α] [LawfulPrecedes α] {l : List α}

theorem length_ofList_le (l : List α) : (ofList l).length ≤ l.length :=
  Search.length_le_of_nodup (nodup_of_isAscending (isAscending_ofList l)) fun _ => mem_ofList.mp

end Ascending

section Lookup

variable {α β : Type} [BEq α] [LawfulBEq α] {l : List (α × β)} {a : α} {b : β}

theorem mem_of_lookup_eq_some (h : l.lookup a = some b) : (a, b) ∈ l := by
  obtain ⟨l₁, l₂, heq, -⟩ := List.lookup_eq_some_iff.mp h
  rw [heq]
  exact List.mem_append_right _ (List.mem_cons_self ..)

/-- Where the keys differ, each pair is found by its key. -/
theorem lookup_eq_some_iff_mem (hl : (l.map (·.1)).Nodup) : l.lookup a = some b ↔ (a, b) ∈ l := by
  constructor
  · exact mem_of_lookup_eq_some
  · intro h
    obtain ⟨l₁, l₂, heq⟩ := List.append_of_mem h
    refine List.lookup_eq_some_iff.mpr ⟨l₁, l₂, heq, fun e he => ?_⟩
    rw [heq, List.map_append, List.map_cons] at hl
    have hne := (List.nodup_append.mp hl).2.2 e.1 (List.mem_map.mpr ⟨e, he, rfl⟩) a
      (List.mem_cons_self ..)
    simpa using Ne.symm hne

/-- Values that are changed with a view to their keys are found by the keys. -/
theorem lookup_map {γ : Type} {f : α → β → γ} :
    (l.map fun (s, b) => (s, f s b)).lookup a = (l.lookup a).map (f a) := by
  induction l with
  | nil => rfl
  | cons e l ih =>
    obtain ⟨s, b⟩ := e
    rw [List.map_cons, List.lookup_cons, List.lookup_cons]
    by_cases h : a = s
    · subst h
      simp
    · rw [beq_eq_false_iff_ne.mpr h]
      exact ih

/-- What is kept with a view to the keys is found as before. -/
theorem lookup_filter {p : α → Bool} :
    (l.filter fun e => p e.1).lookup a = if p a then l.lookup a else none := by
  induction l with
  | nil => exact (ite_self none).symm
  | cons e l ih =>
    obtain ⟨k, b⟩ := e
    rw [List.filter_cons, List.lookup_cons]
    by_cases h : a = k
    · subst h
      cases hp : p a <;> simp [hp, ih]
    · have hne : (a == k) = false := beq_eq_false_iff_ne.mpr h
      cases p k <;> simp [hne, ih, List.lookup_cons]

end Lookup

/-- A computation in two parts has a result where both parts have one. -/
theorem exists_of_bind_eq_ok {α β : Type} {x : Except Error α} {f : α → Except Error β} {b : β}
    (h : x >>= f = .ok b) : ∃ a, x = .ok a ∧ f a = .ok b := by
  cases x with
  | error e => cases h
  | ok a => exact ⟨a, rfl, h⟩

section FoldlM

variable {α β : Type} {f : β → α → Except Error β} {l : List α} {b b' : β}

theorem exists_foldlM_eq_ok (hf : ∀ a ∈ l, ∀ b, ∃ b', f b a = .ok b') (b : β) :
    ∃ b', l.foldlM f b = .ok b' := by
  induction l generalizing b with
  | nil => exact ⟨b, rfl⟩
  | cons a l ih =>
    obtain ⟨b', hb'⟩ := hf a (List.mem_cons_self ..) b
    obtain ⟨b'', hb''⟩ := ih (fun c hc => hf c (List.mem_cons_of_mem _ hc)) b'
    exact ⟨b'', by rw [List.foldlM_cons, hb']; exact hb''⟩

/-- A fold fails nowhere where its steps do not, each from what the steps before it keep: then it is
one without checks, over values `c` that `e` gives the form that the steps work on. -/
theorem foldlM_eq_ok {γ : Type} {e : γ → β} {g : γ → α → γ} {I : γ → Prop} {c : γ}
    (hf : ∀ a ∈ l, ∀ c, I c → f (e c) a = .ok (e (g c a)) ∧ I (g c a)) (hc : I c) :
    l.foldlM f (e c) = .ok (e (l.foldl g c)) ∧ I (l.foldl g c) := by
  induction l generalizing c with
  | nil => exact ⟨rfl, hc⟩
  | cons a l ih =>
    obtain ⟨hstep, hkeep⟩ := hf a (List.mem_cons_self ..) c hc
    rw [List.foldlM_cons, hstep]
    exact ih (fun b hb => hf b (List.mem_cons_of_mem _ hb)) hkeep

theorem mapM_eq_ok {f : α → Except Error β} {g : α → β} (hf : ∀ a ∈ l, f a = .ok (g a)) :
    l.mapM f = .ok (l.map g) := by
  induction l with
  | nil => rfl
  | cons a l ih =>
    rw [List.mapM_cons, hf a (List.mem_cons_self ..),
      ih fun b hb => hf b (List.mem_cons_of_mem _ hb)]
    rfl

theorem forM_eq_ok {f : α → Except Error Unit} (hf : ∀ a ∈ l, f a = .ok ()) :
    l.forM f = .ok () := by
  induction l with
  | nil => rfl
  | cons a l ih =>
    show (f a >>= fun _ => l.forM f) = .ok ()
    rw [hf a (List.mem_cons_self ..)]
    exact ih fun b hb => hf b (List.mem_cons_of_mem _ hb)

/-- What holds of the values and of what is left of a list holds of the last value. -/
theorem foldlM_induction {I : List α → β → Prop}
    (hf : ∀ a l b b', I (a :: l) b → f b a = .ok b' → I l b') (hb : I l b)
    (h : l.foldlM f b = .ok b') : I [] b' := by
  induction l generalizing b with
  | nil => exact Except.ok.inj h ▸ hb
  | cons a l ih =>
    rw [List.foldlM_cons] at h
    obtain ⟨c, hc, h⟩ := exists_of_bind_eq_ok h
    exact ih (hf a l b c hb hc) h

end FoldlM

namespace Numbering

variable {α : Type u} {N : Numbering α} {a b : α} {i j : Nat}

theorem exists_get?_iff : (∃ i, N.get? i = some a) ↔ a ∈ N.states := List.mem_iff_getElem?.symm

variable [DecidableEq α] {l : List α}

theorem get?_inj (hi : N.get? i = some a) (hj : N.get? j = some a) : i = j := by
  rw [← index?_eq_some_iff] at hi hj
  exact Option.some.inj (hi.symm.trans hj)

theorem mem_intern : b ∈ (N.intern a).1.states ↔ b ∈ N.states ∨ b = a := by
  rw [intern]
  split
  · next h => exact (or_iff_left_of_imp fun hb => hb ▸ h).symm
  · rw [List.mem_append, List.mem_singleton]

/-- A state is put behind those that are there, unless it is one of them. -/
theorem states_intern : (N.intern a).1.states = N.states ++ Distinct.unseen N.states [a] := by
  rw [intern, Distinct.unseen]
  split
  · exact (List.append_nil _).symm
  · rfl

theorem states_foldl_intern (N : Numbering α) (l : List α) :
    (l.foldl (fun N a => (N.intern a).1) N).states = N.states ++ Distinct.unseen N.states l := by
  induction l generalizing N with
  | nil => exact (List.append_nil _).symm
  | cons a l ih =>
    have hcons := Distinct.unseen_append N.states [a] l
    rw [List.singleton_append] at hcons
    rw [List.foldl_cons, ih, states_intern, hcons, List.append_assoc]

/-- The states of a list are numbered as they are first seen. -/
theorem states_ofList (l : List α) : (ofList l).states = Distinct.ofList l :=
  states_foldl_intern empty l

theorem mem_states_ofList : b ∈ (ofList l).states ↔ b ∈ l := by
  rw [states_ofList, Distinct.mem_ofList]

/-- A list without repetitions is numbered in its order. -/
theorem ofList_of_nodup (h : l.Nodup) : ofList l = ⟨l, h⟩ := by
  show (⟨(ofList l).states, (ofList l).nodup⟩ : Numbering α) = ⟨l, h⟩
  simp only [states_ofList, Distinct.ofList_of_nodup h]

end Numbering

end PathQuery
