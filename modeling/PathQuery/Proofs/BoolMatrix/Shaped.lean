import PathQuery.BoolMatrix.Shaped
import PathQuery.Proofs.BoolMatrix.Count

/-!
# Proofs/BoolMatrix/Shaped — checks of shapes that fit

On matrices whose types say that their shapes fit, no check fails, and each operation that checks
shapes has the result of the one that needs no check.  On others it fails with the two shapes.
-/

namespace PathQuery

theorem ShapedMatrix.fits_iff {rows columns : Nat} :
    fits rows columns = true ↔ rows ≤ Word32.max ∧ columns ≤ Word32.max := by
  rw [fits, Bool.and_eq_true, decide_eq_true_iff, decide_eq_true_iff]

namespace BoolMatrix

variable {m n p q rounds : Nat} {M N : BoolMatrix n n}

@[simp] theorem isEmpty_shaped {M : BoolMatrix m n} : M.shaped.matrix.isEmpty = M.isEmpty := rfl

@[simp] theorem count_shaped {M : BoolMatrix m n} : M.shaped.matrix.count = M.count := rfl

@[simp] theorem entries_shaped {M : BoolMatrix m n} : M.shaped.matrix.entries = M.entries := rfl

theorem reshape_cast {M : BoolMatrix m n} {N : BoolMatrix p q} (hrows : p = m)
    (hcolumns : q = n) : ShapedMatrix.reshape M.shaped N.shaped = .ok (N.cast hrows hcolumns) :=
  dif_pos ⟨hrows, hcolumns⟩

@[simp] theorem reshape_shaped {M N : BoolMatrix m n} :
    ShapedMatrix.reshape M.shaped N.shaped = .ok N := reshape_cast rfl rfl

@[simp] theorem union_shaped {M N : BoolMatrix m n} : M.shaped.union N.shaped =
    .ok ((M.union N).shaped, (M.union N).count - M.count) := by
  rw [ShapedMatrix.union, reshape_shaped]
  rfl

@[simp] theorem difference_shaped {M N : BoolMatrix m n} :
    M.shaped.difference N.shaped = .ok (M.difference N).shaped := by
  rw [ShapedMatrix.difference, reshape_shaped]
  rfl

@[simp] theorem multiply_shaped {M : BoolMatrix m n} {N : BoolMatrix n p} :
    M.shaped.multiply N.shaped = .ok (M.mul N).shaped := dif_pos rfl

theorem kron_shaped {M : BoolMatrix m n} {N : BoolMatrix p q} (hrows : m * p ≤ Word32.max)
    (hcolumns : n * q ≤ Word32.max) : M.shaped.kron N.shaped = .ok (M.kron N).shaped :=
  if_pos (ShapedMatrix.fits_iff.mpr ⟨hrows, hcolumns⟩)

theorem trySet_shaped {M : BoolMatrix m n} {i j : Nat} (hi : i < m) (hj : j < n) :
    M.shaped.trySet i j = .ok ((M.insert i j).shaped, !M.get i j) :=
  (if_neg (Nat.not_le_of_lt hj)).trans (if_neg (Nat.not_le_of_lt hi))

theorem fits_self_iff : ShapedMatrix.fits n n = true ↔ n ≤ Word32.max := by
  rw [ShapedMatrix.fits_iff, and_self]

theorem tryZero_eq (hn : n ≤ Word32.max) : ShapedMatrix.tryZero n n = .ok (zero n n).shaped :=
  if_pos (fits_self_iff.mpr hn)

theorem tryIdentity_eq (hn : n ≤ Word32.max) :
    ShapedMatrix.tryIdentity n = .ok (identity n).shaped := if_pos (fits_self_iff.mpr hn)

theorem le_of_tryZero {Z : ShapedMatrix} (h : ShapedMatrix.tryZero n n = .ok Z) :
    n ≤ Word32.max := by
  rw [ShapedMatrix.tryZero] at h
  split at h
  · next hfits => exact fits_self_iff.mp hfits
  · cases h

theorem le_of_tryIdentity {I : ShapedMatrix} (h : ShapedMatrix.tryIdentity n = .ok I) :
    n ≤ Word32.max := by
  rw [ShapedMatrix.tryIdentity] at h
  split at h
  · next hfits => exact fits_self_iff.mp hfits
  · cases h

theorem saturate_shaped : M.shaped.saturate rounds = .ok (M.saturate rounds).shaped := by
  induction rounds generalizing M with
  | zero => rfl
  | succ rounds ih =>
    have hle : M.count ≤ (M.union (M.mul M)).count := count_le_count le_union
    have hadded : (M.union (M.mul M)).count - M.count = 0 ↔
        (M.union (M.mul M)).count = M.count := by omega
    simp only [ShapedMatrix.saturate, multiply_shaped, union_shaped, saturate, Except.bind, bind,
      hadded]
    split
    · rfl
    · exact ih

/-- **The closure** of a square matrix whose size is a word. -/
theorem closure_shaped (hn : n ≤ Word32.max) : M.shaped.closure = .ok M.closure.shaped := by
  have hsquare : M.shaped.isSquare = true := beq_self_eq_true n
  have hidentity : ShapedMatrix.tryIdentity M.shaped.rows = .ok (identity n).shaped :=
    tryIdentity_eq hn
  rw [ShapedMatrix.closure, if_pos hsquare, hidentity]
  simp only [bind, Except.bind, union_shaped]
  exact saturate_shaped

end BoolMatrix

namespace ShapedMatrix

variable {M N : ShapedMatrix}

/-- A matrix with the shape of another is one of its type. -/
theorem exists_eq_shaped (h : M.shape = N.shape) :
    ∃ B : BoolMatrix M.rows M.columns, N = B.shaped := by
  obtain ⟨m, n, N⟩ := N
  obtain ⟨rfl, rfl⟩ := Prod.mk.inj h
  exact ⟨N, rfl⟩

theorem reshape_of_shape_ne (h : M.shape ≠ N.shape) : reshape M N = .error (mismatch M N) :=
  dif_neg fun h' => h (Prod.ext h'.1.symm h'.2.symm)

theorem union_of_shape_ne (h : M.shape ≠ N.shape) : M.union N = .error (mismatch M N) := by
  rw [union, reshape_of_shape_ne h]
  rfl

theorem difference_of_shape_ne (h : M.shape ≠ N.shape) :
    M.difference N = .error (mismatch M N) := by
  rw [difference, reshape_of_shape_ne h]
  rfl

theorem closure_of_rows_ne (h : M.rows ≠ M.columns) : M.closure = .error (mismatch M M) :=
  if_neg fun h' => h (beq_iff_eq.mp h')

end ShapedMatrix

end PathQuery
