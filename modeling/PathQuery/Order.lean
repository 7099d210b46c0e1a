/-!
# Order — the strict orders that answers are listed in

Sets of nodes, names and pairs are listed in ascending order. `Precedes α` is the decidable strict
order a type is listed by, and `LawfulPrecedes α` says that it is a linear one. Numbers are ordered
by size, characters by code point, lists and pairs lexicographically, and texts as the lists of
their characters.
-/

namespace PathQuery

universe u v

/-- A decidable strict order on `α`. -/
class Precedes (α : Type u) where
  /-- Whether the first argument is listed before the second. -/
  precedes : α → α → Bool

export Precedes (precedes)

/-- The strict order is linear: irreflexive, transitive, and any two different values compare. -/
class LawfulPrecedes (α : Type u) [Precedes α] : Prop where
  irrefl : ∀ a : α, precedes a a = false
  trans : ∀ {a b c : α}, precedes a b = true → precedes b c = true → precedes a c = true
  connected : ∀ {a b : α}, precedes a b = false → precedes b a = false → a = b

/-- Numbers are listed by size. -/
instance : Precedes Nat := ⟨fun a b => Nat.blt a b⟩

@[simp] theorem precedes_nat {a b : Nat} : precedes a b = true ↔ a < b := by
  simp [precedes]

instance : LawfulPrecedes Nat where
  irrefl a := by simp [← Bool.not_eq_true]
  trans := by simp only [precedes_nat]; omega
  connected := by simp only [← Bool.not_eq_true, precedes_nat]; omega

/-- Characters are listed by code point. -/
instance : Precedes Char := ⟨fun a b => precedes a.toNat b.toNat⟩

instance : LawfulPrecedes Char where
  irrefl a := LawfulPrecedes.irrefl a.toNat
  trans {a b c} := LawfulPrecedes.trans (a := a.toNat) (b := b.toNat) (c := c.toNat)
  connected {a b} hab hba :=
    Char.toNat_inj.mp (LawfulPrecedes.connected (a := a.toNat) (b := b.toNat) hab hba)

section Lexicographic

variable {α : Type u} {β : Type v} [DecidableEq α] [Precedes α] [Precedes β]

/-- Pairs are listed by their first component, and by the second where the first ones agree. -/
instance : Precedes (α × β) :=
  ⟨fun p q => precedes p.1 q.1 || (decide (p.1 = q.1) && precedes p.2 q.2)⟩

/-- A pair precedes another at the first component that differs. -/
theorem precedes_prod {p q : α × β} :
    precedes p q = true ↔ precedes p.1 q.1 = true ∨ p.1 = q.1 ∧ precedes p.2 q.2 = true := by
  show (precedes p.1 q.1 || (decide (p.1 = q.1) && precedes p.2 q.2)) = true ↔ _
  rw [Bool.or_eq_true, Bool.and_eq_true, decide_eq_true_eq]

instance [LawfulPrecedes α] [LawfulPrecedes β] : LawfulPrecedes (α × β) where
  irrefl p := by
    rw [← Bool.not_eq_true, precedes_prod]
    simp [LawfulPrecedes.irrefl]
  trans {p q r} hpq hqr := by
    rw [precedes_prod] at hpq hqr ⊢
    rcases hpq with hpq | ⟨hpq, hpq'⟩ <;> rcases hqr with hqr | ⟨hqr, hqr'⟩
    · exact .inl (LawfulPrecedes.trans hpq hqr)
    · exact .inl (hqr ▸ hpq)
    · exact .inl (hpq ▸ hqr)
    · exact .inr ⟨hpq.trans hqr, LawfulPrecedes.trans hpq' hqr'⟩
  connected {p q} hpq hqp := by
    simp only [← Bool.not_eq_true, precedes_prod, not_or, not_and] at hpq hqp
    have h₁ : p.1 = q.1 :=
      LawfulPrecedes.connected (Bool.not_eq_true _ ▸ hpq.1) (Bool.not_eq_true _ ▸ hqp.1)
    have h₂ : p.2 = q.2 :=
      LawfulPrecedes.connected (Bool.not_eq_true _ ▸ hpq.2 h₁) (Bool.not_eq_true _ ▸ hqp.2 h₁.symm)
    exact Prod.ext h₁ h₂

/-- Whether a list comes before another in dictionary order. -/
def listPrecedes : List α → List α → Bool
  | _, [] => false
  | [], _ :: _ => true
  | a :: s, b :: t => precedes a b || (decide (a = b) && listPrecedes s t)

/-- Lists are in dictionary order. -/
instance : Precedes (List α) := ⟨listPrecedes⟩

theorem listPrecedes_irrefl [LawfulPrecedes α] : ∀ s : List α, listPrecedes s s = false
  | [] => rfl
  | a :: s => by simp [listPrecedes, LawfulPrecedes.irrefl, listPrecedes_irrefl s]

theorem listPrecedes_trans [LawfulPrecedes α] : ∀ {s t u : List α},
    listPrecedes s t = true → listPrecedes t u = true → listPrecedes s u = true
  | _, [], _, h, _ => by simp [listPrecedes] at h
  | _, _ :: _, [], _, h => by simp [listPrecedes] at h
  | [], _ :: _, _ :: _, _, _ => rfl
  | a :: s, b :: t, c :: u, h, h' => by
    simp only [listPrecedes, Bool.or_eq_true, Bool.and_eq_true, decide_eq_true_eq] at h h' ⊢
    rcases h with h | ⟨rfl, h⟩ <;> rcases h' with h' | ⟨rfl, h'⟩
    · exact .inl (LawfulPrecedes.trans h h')
    · exact .inl h
    · exact .inl h'
    · exact .inr ⟨rfl, listPrecedes_trans h h'⟩

theorem listPrecedes_connected [LawfulPrecedes α] : ∀ {s t : List α},
    listPrecedes s t = false → listPrecedes t s = false → s = t
  | [], [], _, _ => rfl
  | [], _ :: _, h, _ => by simp [listPrecedes] at h
  | _ :: _, [], _, h => by simp [listPrecedes] at h
  | a :: s, b :: t, h, h' => by
    simp only [listPrecedes, Bool.or_eq_false_iff, Bool.and_eq_false_imp, decide_eq_true_eq]
      at h h'
    obtain rfl : a = b := LawfulPrecedes.connected h.1 h'.1
    rw [listPrecedes_connected (h.2 rfl) (h'.2 rfl)]

instance [LawfulPrecedes α] : LawfulPrecedes (List α) where
  irrefl := listPrecedes_irrefl
  trans := listPrecedes_trans
  connected := listPrecedes_connected

end Lexicographic

/-- Texts are in dictionary order of their code points. -/
instance : Precedes String := ⟨fun s t => precedes s.toList t.toList⟩

instance : LawfulPrecedes String where
  irrefl s := LawfulPrecedes.irrefl s.toList
  trans {s t u} := LawfulPrecedes.trans (a := s.toList) (b := t.toList) (c := u.toList)
  connected {s t} hst hts :=
    String.toList_inj.mp (LawfulPrecedes.connected (a := s.toList) (b := t.toList) hst hts)

end PathQuery
