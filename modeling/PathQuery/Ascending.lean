import PathQuery.Order

/-!
# Ascending — finite sets as strictly ascending lists

A finite set is kept as the list of its members in ascending order, so that equal sets are equal
lists and a listing needs no sorting. `insert`, `ofList` and `union` keep lists ascending
(`isAscending_insert`, `isAscending_ofList`, `isAscending_union`) and have the members one expects
(`mem_insert`, `mem_ofList`, `mem_union`); `eq_of_mem_iff` is extensionality.
-/

namespace PathQuery.Ascending

universe u

variable {α : Type u} [Precedes α]

/-- Each member precedes all that follow it. -/
abbrev IsAscending (s : List α) : Prop := s.Pairwise (fun a b => precedes a b = true)

/-- The set with one more member. -/
def insert (a : α) : List α → List α
  | [] => [a]
  | b :: s =>
    if precedes a b then a :: b :: s
    else if precedes b a then b :: insert a s
    else b :: s

/-- The set of a list's members. -/
def ofList (l : List α) : List α := l.foldr insert []

/-- Puts `a` into the union of the sets above it with a given set; `rest` forms the union of the
members above `a`. -/
def unionAbove (a : α) (rest : List α → List α) : List α → List α
  | [] => a :: rest []
  | b :: t =>
    if precedes a b then a :: rest (b :: t)
    else if precedes b a then b :: unionAbove a rest t
    else a :: rest t

/-- The members of either set. -/
def union : List α → List α → List α
  | [], t => t
  | a :: s, t => unionAbove a (union s) t

variable [LawfulPrecedes α]

@[simp] theorem mem_insert {a x : α} {s : List α} : x ∈ insert a s ↔ x = a ∨ x ∈ s := by
  induction s with
  | nil => simp [insert]
  | cons b s ih =>
    simp only [insert]
    split
    · simp
    · next hab =>
      split
      · simp only [List.mem_cons, ih]
        exact ⟨fun h => by rcases h with h | h | h <;> simp [h],
          fun h => by rcases h with h | h | h <;> simp [h]⟩
      · next hba =>
        obtain rfl : a = b :=
          LawfulPrecedes.connected (Bool.not_eq_true _ ▸ hab) (Bool.not_eq_true _ ▸ hba)
        simp

theorem isAscending_insert {a : α} {s : List α} (h : IsAscending s) :
    IsAscending (insert a s) := by
  induction s with
  | nil => simp [insert]
  | cons b s ih =>
    obtain ⟨hb, hs⟩ := List.pairwise_cons.mp h
    simp only [insert]
    split
    · next hab =>
      refine List.pairwise_cons.mpr ⟨fun x hx => ?_, h⟩
      rcases List.mem_cons.mp hx with rfl | hx
      · exact hab
      · exact LawfulPrecedes.trans hab (hb x hx)
    · split
      · next hba =>
        refine List.pairwise_cons.mpr ⟨fun x hx => ?_, ih hs⟩
        rcases mem_insert.mp hx with rfl | hx
        · exact hba
        · exact hb x hx
      · exact h

@[simp] theorem mem_ofList {x : α} {l : List α} : x ∈ ofList l ↔ x ∈ l := by
  induction l with
  | nil => simp [ofList]
  | cons a l ih => simpa [ofList] using or_congr_right ih

theorem isAscending_ofList (l : List α) : IsAscending (ofList l) := by
  induction l with
  | nil => simp [ofList]
  | cons a l ih => exact isAscending_insert ih

theorem mem_unionAbove {a x : α} {rest : List α → List α} {s : List α}
    (hrest : ∀ t, x ∈ rest t ↔ x ∈ s ∨ x ∈ t) (t : List α) :
    x ∈ unionAbove a rest t ↔ x = a ∨ x ∈ s ∨ x ∈ t := by
  induction t with
  | nil => simp [unionAbove, hrest]
  | cons b t ih =>
    simp only [unionAbove]
    split
    · simp [hrest]
    · next hab =>
      split
      · simp only [List.mem_cons, ih]
        exact ⟨fun h => by rcases h with h | h | h | h <;> simp [h],
          fun h => by rcases h with h | h | h | h <;> simp [h]⟩
      · next hba =>
        obtain rfl : a = b :=
          LawfulPrecedes.connected (Bool.not_eq_true _ ▸ hab) (Bool.not_eq_true _ ▸ hba)
        simp only [List.mem_cons, hrest]
        exact ⟨fun h => by rcases h with h | h | h <;> simp [h],
          fun h => by rcases h with h | h | h | h <;> simp [h]⟩

@[simp] theorem mem_union {x : α} {s t : List α} : x ∈ union s t ↔ x ∈ s ∨ x ∈ t := by
  induction s generalizing t with
  | nil => simp [union]
  | cons a s ih => rw [union, mem_unionAbove (fun _ => ih), List.mem_cons, or_assoc]

theorem isAscending_unionAbove {a : α} {s : List α} (has : IsAscending (a :: s))
    (hrest : ∀ {t}, IsAscending t → IsAscending (union s t)) {t : List α} (ht : IsAscending t) :
    IsAscending (unionAbove a (union s) t) := by
  obtain ⟨ha, _⟩ := List.pairwise_cons.mp has
  induction t with
  | nil =>
    refine List.pairwise_cons.mpr ⟨fun x hx => ?_, hrest ht⟩
    simpa using (mem_union.mp hx).elim (ha x) (by simp)
  | cons b t ih =>
    obtain ⟨hb, ht'⟩ := List.pairwise_cons.mp ht
    simp only [unionAbove]
    split
    · next hab =>
      refine List.pairwise_cons.mpr ⟨fun x hx => ?_, hrest ht⟩
      rcases mem_union.mp hx with hx | hx
      · exact ha x hx
      · rcases List.mem_cons.mp hx with rfl | hx
        · exact hab
        · exact LawfulPrecedes.trans hab (hb x hx)
    · next hab =>
      split
      · next hba =>
        refine List.pairwise_cons.mpr ⟨fun x hx => ?_, ih ht'⟩
        rcases (mem_unionAbove (fun _ => mem_union) t).mp hx with rfl | hx | hx
        · exact hba
        · exact LawfulPrecedes.trans hba (ha x hx)
        · exact hb x hx
      · next hba =>
        obtain rfl : a = b :=
          LawfulPrecedes.connected (Bool.not_eq_true _ ▸ hab) (Bool.not_eq_true _ ▸ hba)
        refine List.pairwise_cons.mpr ⟨fun x hx => ?_, hrest ht'⟩
        rcases mem_union.mp hx with hx | hx
        · exact ha x hx
        · exact hb x hx

theorem isAscending_union {s t : List α} (hs : IsAscending s) (ht : IsAscending t) :
    IsAscending (union s t) := by
  induction s generalizing t with
  | nil => exact ht
  | cons a s ih =>
    exact isAscending_unionAbove hs (fun h => ih (List.pairwise_cons.mp hs).2 h) ht

theorem nodup_of_isAscending {s : List α} (h : IsAscending s) : s.Nodup :=
  h.imp fun {a b} hab => by
    rintro rfl
    simp [LawfulPrecedes.irrefl] at hab

/-- Ascending lists with the same members are equal. -/
theorem eq_of_mem_iff : ∀ {s t : List α}, IsAscending s → IsAscending t →
    (∀ x, x ∈ s ↔ x ∈ t) → s = t
  | [], [], _, _, _ => rfl
  | [], b :: _, _, _, h => absurd ((h b).mpr (List.mem_cons_self ..)) List.not_mem_nil
  | a :: _, [], _, _, h => absurd ((h a).mp (List.mem_cons_self ..)) List.not_mem_nil
  | a :: s, b :: t, hs, ht, h => by
    obtain ⟨ha, hs'⟩ := List.pairwise_cons.mp hs
    obtain ⟨hb, ht'⟩ := List.pairwise_cons.mp ht
    have not_both : ∀ {x y : α}, precedes x y = true → precedes y x = true → False :=
      fun hxy hyx => by
        have := LawfulPrecedes.trans hxy hyx
        simp [LawfulPrecedes.irrefl] at this
    obtain rfl : a = b := by
      rcases List.mem_cons.mp ((h a).mp (List.mem_cons_self ..)) with hab | hat
      · exact hab
      · rcases List.mem_cons.mp ((h b).mpr (List.mem_cons_self ..)) with hba | hbs
        · exact hba.symm
        · exact (not_both (ha b hbs) (hb a hat)).elim
    have hmem : ∀ x, x ∈ s ↔ x ∈ t := fun x => by
      constructor <;> intro hx
      · rcases List.mem_cons.mp ((h x).mp (List.mem_cons_of_mem _ hx)) with rfl | hxt
        · exact (not_both (ha x hx) (ha x hx)).elim
        · exact hxt
      · rcases List.mem_cons.mp ((h x).mpr (List.mem_cons_of_mem _ hx)) with rfl | hxs
        · exact (not_both (hb x hx) (hb x hx)).elim
        · exact hxs
    rw [eq_of_mem_iff hs' ht' hmem]

theorem ofList_of_isAscending {l : List α} (h : IsAscending l) : ofList l = l :=
  eq_of_mem_iff (isAscending_ofList l) h fun _ => mem_ofList

end PathQuery.Ascending
