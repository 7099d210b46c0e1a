import Mathlib.Order.Bounds.Defs
import PathQuery.Proofs.BoolMatrix.Closure
import PathQuery.Proofs.BoolMatrix.Shaped

/-!
# Proofs/BoolMatrix/Least — the closure is the least relation around a matrix

The rounds of squaring are those of the loop without a bound (`ShapedMatrix.Loop`): each of them
but the last adds an entry, and there are only so many places (`loop_saturate`).  What they end with
is read as a relation between indices.  It is reflexive, transitive and holds of the true entries
(`closes_closure`), and every such relation holds of all of it (`Closes.of_closure`); a matrix that
is such a relation itself is its own closure (`Closes.closure_eq`).

* `ShapedMatrix.closure_least` — the closure of a matrix of any shape: refused where the matrix is
  not square, and the least relation around it else.
-/

namespace PathQuery

open Relation (TransGen)

/-- **The loop** without a bound on its rounds: it ends with the first round that adds nothing. -/
inductive ShapedMatrix.Loop : ShapedMatrix → ShapedMatrix → Prop where
  | stop {M S N : ShapedMatrix} : M.multiply M = .ok S → M.union S = .ok (N, 0) → Loop M N
  | round {M S N C : ShapedMatrix} {added : Nat} :
      M.multiply M = .ok S → M.union S = .ok (N, added) → added ≠ 0 → Loop N C → Loop M C

namespace BoolMatrix

/-- A relation that is reflexive on the rows of a matrix, transitive, and holds of the indices of
all true entries. -/
structure Closes {m n : Nat} (M : BoolMatrix m n) (R : Nat → Nat → Prop) : Prop where
  refl : ∀ i < m, R i i
  trans : ∀ i j k, R i j → R j k → R i k
  entry : ∀ i j, M.get i j = true → R i j

variable {n rounds : Nat} {M N : BoolMatrix n n} {R : Nat → Nat → Prop} {i j : Nat}

/-! ## The rounds -/

/-- Each round but the last adds an entry, so that one round more than there are places ends the
loop. -/
theorem loop_saturate (hb : n * n < rounds + N.count) :
    ShapedMatrix.Loop N.shaped (saturate rounds N).shaped := by
  induction rounds generalizing N with
  | zero =>
    have := N.count_le
    omega
  | succ rounds ih =>
    have hle : N.count ≤ (N.union (N.mul N)).count := count_le_count le_union
    rw [saturate]
    split
    · next hcount =>
      refine .stop multiply_shaped ?_
      rw [union_shaped, hcount, Nat.sub_self]
    · next hcount => exact .round multiply_shaped union_shaped (by omega) (ih (by omega))

theorem loop_closure : ShapedMatrix.Loop ((identity n).union M).shaped M.closure.shaped :=
  loop_saturate (by omega)

/-! ## The closure as a relation -/

/-- A path of true entries is empty or has one at least. -/
theorem get_closure_iff_transGen :
    M.closure.get i j = true ↔ (i = j ∧ i < n) ∨ TransGen M.Adjacent i j := by
  rw [get_closure_iff, Relation.reflTransGen_iff_eq_or_transGen]
  constructor
  · rintro ⟨hi, rfl | hpath⟩
    · exact .inl ⟨rfl, hi⟩
    · exact .inr hpath
  · rintro (⟨rfl, hi⟩ | hpath)
    · exact ⟨hi, .inl rfl⟩
    · obtain ⟨k, hik, -⟩ := TransGen.head'_iff.mp hpath
      exact ⟨(lt_of_get hik).1, .inr hpath⟩

theorem closes_closure : M.Closes M.closure.Adjacent where
  refl i hi := get_closure_iff.mpr ⟨hi, .refl⟩
  trans i j k hij hjk := by
    obtain ⟨hi, hpath⟩ := get_closure_iff.mp hij
    exact get_closure_iff.mpr ⟨hi, hpath.trans (get_closure_iff.mp hjk).2⟩
  entry i j h := get_closure_iff.mpr ⟨(lt_of_get h).1, .single h⟩

/-- **Leastness**: a relation around a matrix holds of the ends of every path. -/
theorem Closes.of_closure (hR : M.Closes R) (h : M.closure.get i j = true) : R i j := by
  obtain ⟨hi, hpath⟩ := get_closure_iff.mp h
  induction hpath with
  | refl => exact hR.refl i hi
  | tail hij hjk ih => exact hR.trans _ _ _ (ih (get_closure_iff.mpr ⟨hi, hij⟩)) (hR.entry _ _ hjk)

/-- A matrix that is reflexive and transitive is its own closure. -/
theorem Closes.closure_eq (hM : M.Closes M.Adjacent) : M.closure = M :=
  ext_get fun i j => Bool.eq_iff_iff.mpr ⟨hM.of_closure, closes_closure.entry i j⟩

theorem closure_closure : M.closure.closure = M.closure :=
  Closes.closure_eq ⟨closes_closure.refl, closes_closure.trans, fun _ _ h => h⟩

end BoolMatrix

/-! ## Matrices of any shape -/

namespace ShapedMatrix

open BoolMatrix (closes_closure)

/-- **The closure** of a matrix is refused exactly where the matrix is not square, with its shape as
the only error.  Otherwise the rounds of squaring end: an entry is true on the diagonal and where a
path of true entries joins its indices, which is the least relation around the matrix, and closing
the result again changes nothing. -/
theorem closure_least (M : ShapedMatrix) (hM : fits M.rows M.columns = true) :
    (∀ e, M.closure = .error e ↔
      M.rows ≠ M.columns ∧ e = .dimensionMismatch M.shape M.shape) ∧
      (M.rows = M.columns → ∃ I N added C, tryIdentity M.rows = .ok I ∧
        I.union M = .ok (N, added) ∧ Loop N C ∧ M.closure = .ok C ∧ C.shape = M.shape ∧
        (∀ i j, C.matrix.get i j = true ↔
          (i = j ∧ i < M.rows) ∨ TransGen (fun i j => M.matrix.get i j = true) i j) ∧
        IsLeast {R | M.matrix.Closes R} (fun i j => C.matrix.get i j = true) ∧
        C.closure = .ok C) := by
  obtain ⟨m, n, M⟩ := M
  dsimp only at hM ⊢
  obtain ⟨hn, -⟩ : m ≤ Word32.max ∧ n ≤ Word32.max := by simpa [fits] using hM
  by_cases hsquare : m = n
  · subst hsquare
    have hclosure : ShapedMatrix.closure ⟨m, m, M⟩ = .ok M.closure.shaped :=
      BoolMatrix.closure_shaped hn
    refine ⟨fun e => iff_of_false (fun h => ?_) fun h => h.1 rfl, fun _ => ?_⟩
    · rw [hclosure] at h
      cases h
    · refine ⟨_, _, _, _, BoolMatrix.tryIdentity_eq hn, BoolMatrix.union_shaped,
        BoolMatrix.loop_closure, hclosure, rfl, fun i j => BoolMatrix.get_closure_iff_transGen,
        ⟨closes_closure, fun R hR i j => BoolMatrix.Closes.of_closure hR⟩, ?_⟩
      rw [BoolMatrix.closure_shaped hn, BoolMatrix.closure_closure]
  · refine ⟨fun e => ?_, fun h => absurd h hsquare⟩
    have hclosure := @closure_of_rows_ne ⟨m, n, M⟩ hsquare
    rw [hclosure, and_iff_right hsquare, Except.error.injEq, eq_comm]
    rfl

/-- Two indices around a cycle, and a third one that the second leads to. -/
def cycleMatrix : BoolMatrix 3 3 := .ofEntries 3 3 [(0, 1), (1, 0), (1, 2)]

theorem closure_least_cycleMatrix :
    fits 3 3 = true ∧ fits 2 3 = true ∧
      (∃ C, cycleMatrix.shaped.closure = .ok C ∧ C.matrix.get 0 0 = true ∧
        C.matrix.get 0 2 = true ∧ C.matrix.get 2 0 ≠ true ∧ C.closure = .ok C) ∧
      (BoolMatrix.zero 2 3).shaped.closure = .error (.dimensionMismatch (2, 3) (2, 3)) := by
  have hfits : fits 3 3 = true := by decide
  have hfits' : fits 2 3 = true := by decide
  obtain ⟨_, _, _, C, -, -, -, hC, -, hget, hleast, hclosed⟩ :=
    (closure_least cycleMatrix.shaped hfits).2 rfl
  refine ⟨hfits, hfits', ⟨C, hC, (hget 0 0).mpr (.inl ⟨rfl, by decide⟩), ?_, ?_, hclosed⟩,
    ((closure_least (BoolMatrix.zero 2 3).shaped hfits').1 _).mpr ⟨by decide, rfl⟩⟩
  · exact (hget 0 2).mpr (.inr (.tail (b := 1) (.single (by decide)) (by decide)))
  · -- no entry leaves the third index, so that one more relation around the matrix keeps it alone
    have hcloses : cycleMatrix.Closes fun i j => i = 2 → j = 2 := by
      refine ⟨fun i _ h => h, fun i j k hij hjk h => hjk (hij h), ?_⟩
      rintro _ j hentry rfl
      have hrow : cycleMatrix.row 2 = [] := by decide
      rw [BoolMatrix.get_eq_true_iff, hrow] at hentry
      cases hentry
    exact fun h => absurd (hleast.2 hcloses 2 0 h rfl) (by decide)

end ShapedMatrix

end PathQuery
