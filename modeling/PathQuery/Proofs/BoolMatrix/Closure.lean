import Mathlib.Logic.Relation
import PathQuery.BoolMatrix.Closure
import PathQuery.Proofs.BoolMatrix.Count

/-!
# Proofs/BoolMatrix/Closure — the closure holds all paths

* `get_closure_iff` — an entry of the closure is true where a path of true entries joins its
  indices.

Each round of squaring keeps what is there and adds compositions of it only, so that all entries
stay paths (`Sound`).  Rounds that add nothing leave a matrix that composition stays within
(`Transitive`); the counts make sure that the rounds get there (`saturate_spec`).
-/

namespace PathQuery.BoolMatrix

open Relation (ReflTransGen)

variable {n rounds : Nat} {M N : BoolMatrix n n} {i j : Nat}

/-- Two indices joined by a true entry. -/
abbrev Adjacent (M : BoolMatrix n n) (i j : Nat) : Prop := M.get i j = true

/-- All entries are paths of another matrix. -/
def Sound (M N : BoolMatrix n n) : Prop := ∀ i j, N.get i j = true → ReflTransGen M.Adjacent i j

/-- Composing true entries gives true entries. -/
def Transitive (N : BoolMatrix n n) : Prop :=
  ∀ i j k, N.get i j = true → N.get j k = true → N.get i k = true

theorem get_square_iff : (N.union (N.mul N)).get i j = true ↔
    N.get i j = true ∨ ∃ k, N.get i k = true ∧ N.get k j = true := by
  rw [get_union, Bool.or_eq_true, get_mul]

theorem Sound.square (h : M.Sound N) : M.Sound (N.union (N.mul N)) := by
  intro i j hij
  rcases get_square_iff.mp hij with hij | ⟨k, hik, hkj⟩
  · exact h i j hij
  · exact (h i k hik).trans (h k j hkj)

/-- **The rounds** end with a transitive matrix, and add paths only. -/
theorem saturate_spec (hN : M.Sound N) (hb : n * n < rounds + N.count) :
    M.Sound (saturate rounds N) ∧ (saturate rounds N).Transitive ∧ N ≤ saturate rounds N := by
  induction rounds generalizing N with
  | zero =>
    have := N.count_le
    omega
  | succ rounds ih =>
    rw [saturate]
    split
    · next hcount =>
      refine ⟨hN.square, fun i j k hij hjk => ?_, le_union⟩
      have heq := eq_of_count_le le_union (Nat.le_of_eq hcount)
      rw [← heq] at hij hjk
      exact get_square_iff.mpr (.inr ⟨j, hij, hjk⟩)
    · next hcount =>
      have hle := count_le_count (@le_union n n N (N.mul N))
      obtain ⟨hsound, htrans, hle'⟩ := ih hN.square (by omega)
      exact ⟨hsound, htrans, fun i j h => hle' i j (le_union i j h)⟩

/-- **The closure** is true where a path of true entries, possibly an empty one, joins two
indices. -/
theorem get_closure_iff : M.closure.get i j = true ↔ i < n ∧ ReflTransGen M.Adjacent i j := by
  have hbase : ∀ i j, ((identity n).union M).get i j = true ↔ i = j ∧ i < n ∨ M.get i j = true := by
    intro i j
    rw [get_union, Bool.or_eq_true, get_identity]
  have hsound : M.Sound ((identity n).union M) := by
    intro i j h
    rcases (hbase i j).mp h with ⟨rfl, -⟩ | h
    · exact .refl
    · exact .single h
  obtain ⟨hsound, htrans, hle⟩ := @saturate_spec n (n * n + 1) M _ hsound (by omega)
  constructor
  · exact fun h => ⟨(lt_of_get h).1, hsound i j h⟩
  · rintro ⟨hi, hpath⟩
    induction hpath with
    | refl => exact hle i i ((hbase i i).mpr (.inl ⟨rfl, hi⟩))
    | @tail k j _ hkj ih => exact htrans i k j ih (hle k j ((hbase k j).mpr (.inr hkj)))

end PathQuery.BoolMatrix
