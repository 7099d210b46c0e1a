import PathQuery.Proofs.BoolMatrix.Shaped

/-!
# Proofs/BoolMatrix/Kronecker — products of pairings are pairings of products

* `ShapedMatrix.kron_multiply_kron` — the mixed-product law: where two Kronecker products are formed
  and fit together, their product is the Kronecker product of the products.

Rows and columns of a Kronecker product number pairs, and division reads the pairs back
(`get_kron_iff`), also where a factor has no rows or no columns.  So an index that joins two
Kronecker products is a pair of indices that join the factors.
-/

namespace PathQuery

namespace BoolMatrix

variable {m n p q r s c d : Nat}

/-- An entry of a Kronecker product, by the pairs that its row and column number. -/
theorem get_kron_iff {M : BoolMatrix m n} {N : BoolMatrix p q} : (M.kron N).get c d = true ↔
    M.get (c / p) (d / q) = true ∧ N.get (c % p) (d % q) = true := by
  have hpairs (hp : 0 < p) (hq : 0 < q) :
      (M.kron N).get c d = (M.get (c / p) (d / q) && N.get (c % p) (d % q)) := by
    have h := @get_kron _ _ _ _ M N (c / p) (d / q) _ _ (Nat.mod_lt c hp) (Nat.mod_lt d hq)
    rwa [Nat.div_add_mod', Nat.div_add_mod'] at h
  constructor
  · intro h
    obtain ⟨hc, hd⟩ := lt_of_get h
    have hp : 0 < p := Nat.pos_of_mul_pos_left (Nat.zero_lt_of_lt hc)
    have hq : 0 < q := Nat.pos_of_mul_pos_left (Nat.zero_lt_of_lt hd)
    rwa [hpairs hp hq, Bool.and_eq_true] at h
  · intro h
    obtain ⟨hc, hd⟩ := lt_of_get h.2
    rwa [hpairs (Nat.zero_lt_of_lt hc) (Nat.zero_lt_of_lt hd), Bool.and_eq_true]

/-- An entry of a Kronecker product is true where its row and column number the rows and columns of
two true entries. -/
theorem get_kron_iff_exists {M : BoolMatrix m n} {N : BoolMatrix p q} :
    (M.kron N).get c d = true ↔ ∃ i j k l, c = i * p + k ∧ d = j * q + l ∧
      M.get i j = true ∧ N.get k l = true := by
  rw [get_kron_iff]
  constructor
  · rintro ⟨hM, hN⟩
    exact ⟨_, _, _, _, (Nat.div_add_mod' c p).symm, (Nat.div_add_mod' d q).symm, hM, hN⟩
  · rintro ⟨i, j, k, l, rfl, rfl, hM, hN⟩
    obtain ⟨hk, hl⟩ := lt_of_get hN
    rw [mul_add_div_of_lt hk, mul_add_div_of_lt hl, Nat.mul_add_mod_of_lt hk,
      Nat.mul_add_mod_of_lt hl]
    exact ⟨hM, hN⟩

/-- **The mixed-product law.** -/
theorem kron_mul_kron (A : BoolMatrix m n) (B : BoolMatrix q r) (C : BoolMatrix n p)
    (D : BoolMatrix r s) : (A.kron B).mul (C.kron D) = (A.mul C).kron (B.mul D) := by
  refine ext_get fun c d => Bool.eq_iff_iff.mpr ?_
  simp only [get_mul, get_kron_iff]
  constructor
  · rintro ⟨k, ⟨hA, hB⟩, hC, hD⟩
    exact ⟨⟨k / r, hA, hC⟩, k % r, hB, hD⟩
  · rintro ⟨⟨i, hA, hC⟩, j, hB, hD⟩
    have hj : j < r := (lt_of_get hB).2
    refine ⟨i * r + j, ?_⟩
    rw [mul_add_div_of_lt hj, Nat.mul_add_mod_of_lt hj]
    exact ⟨⟨hA, hB⟩, hC, hD⟩

end BoolMatrix

namespace ShapedMatrix

variable {A B C D K L : ShapedMatrix}

/-- A Kronecker product is formed where all its indices are words. -/
theorem kron_eq_ok_iff : A.kron B = .ok K ↔
    fits (A.rows * B.rows) (A.columns * B.columns) = true ∧
      K = (A.matrix.kron B.matrix).shaped := by
  rw [kron]
  split
  · next h => rw [and_iff_right h, Except.ok.injEq, eq_comm]; rfl
  · next h => exact iff_of_false nofun fun h' => h h'.1

/-- **The mixed-product law**, with all checks: where two Kronecker products are formed and their
factors fit together, so do they, and their product is the Kronecker product of the products. -/
theorem kron_multiply_kron (hAC : A.columns = C.rows) (hBD : B.columns = D.rows)
    (hK : A.kron B = .ok K) (hL : C.kron D = .ok L) : ∃ M N P, A.multiply C = .ok M ∧
      B.multiply D = .ok N ∧ K.multiply L = .ok P ∧ M.kron N = .ok P := by
  obtain ⟨hfitsK, rfl⟩ := kron_eq_ok_iff.mp hK
  obtain ⟨hfitsL, rfl⟩ := kron_eq_ok_iff.mp hL
  obtain ⟨m, n, A⟩ := A
  obtain ⟨q, r, B⟩ := B
  obtain ⟨n', p, C⟩ := C
  obtain ⟨r', s, D⟩ := D
  obtain rfl : n = n' := hAC
  obtain rfl : r = r' := hBD
  have hfits := fits_iff.mpr ⟨(fits_iff.mp hfitsK).1, (fits_iff.mp hfitsL).2⟩
  refine ⟨(A.mul C).shaped, (B.mul D).shaped, ((A.mul C).kron (B.mul D)).shaped,
    BoolMatrix.multiply_shaped, BoolMatrix.multiply_shaped, ?_, kron_eq_ok_iff.mpr ⟨hfits, rfl⟩⟩
  rw [← BoolMatrix.kron_mul_kron]
  exact BoolMatrix.multiply_shaped

/-- More columns than rows. -/
def wideMatrix : ShapedMatrix := (BoolMatrix.ofEntries 2 3 [(0, 1), (1, 2)]).shaped

/-- More rows than columns. -/
def tallMatrix : ShapedMatrix := (BoolMatrix.ofEntries 3 2 [(1, 0), (1, 1), (2, 1)]).shaped

/-- Rectangular factors, and factors that are joined by no index at all. -/
theorem kron_multiply_kron_wideMatrix :
    (∃ K L M N P, wideMatrix.kron tallMatrix = .ok K ∧ tallMatrix.kron wideMatrix = .ok L ∧
      wideMatrix.multiply tallMatrix = .ok M ∧ tallMatrix.multiply wideMatrix = .ok N ∧
      K.multiply L = .ok P ∧ M.kron N = .ok P ∧ P.shape = (6, 6) ∧
      P.matrix.entries = [(1, 1), (1, 2), (1, 4), (1, 5), (2, 2), (2, 5), (4, 4), (4, 5), (5, 5)]) ∧
      ∃ K L P, wideMatrix.kron (BoolMatrix.zero 2 0).shaped = .ok K ∧
        tallMatrix.kron (BoolMatrix.zero 0 3).shaped = .ok L ∧ K.multiply L = .ok P ∧
        P.shape = (4, 6) := by
  constructor
  · obtain ⟨M, N, P, hM, hN, hP, hMN⟩ := kron_multiply_kron (A := wideMatrix) (B := tallMatrix)
      (C := tallMatrix) (D := wideMatrix) rfl rfl rfl rfl
    refine ⟨_, _, M, N, P, rfl, rfl, hM, hN, hP, hMN, ?_⟩
    obtain rfl := Except.ok.inj hP
    decide
  · obtain ⟨_, _, P, _, _, hP, _⟩ := kron_multiply_kron (A := wideMatrix)
      (B := (BoolMatrix.zero 2 0).shaped) (C := tallMatrix) (D := (BoolMatrix.zero 0 3).shaped)
      rfl rfl rfl rfl
    refine ⟨_, _, P, rfl, rfl, hP, ?_⟩
    obtain rfl := Except.ok.inj hP
    decide

end ShapedMatrix

end PathQuery
