import Mathlib.Data.List.Nodup
import Mathlib.Logic.Function.Basic
import PathQuery.Proofs.BoolMatrix.Closure
import PathQuery.Proofs.BoolMatrix.Kronecker
import PathQuery.Proofs.BoolMatrix.Stored

/-!
# Proofs/BoolMatrix/Pool — operations on matrices, one after another

* `Command.run_meets` — after any commands on stored matrices, refused ones among them, the stored
  rows list columns of their matrices, and a further command either is refused and changes nothing
  or gives the entries that define it and reports how many of them are new.

One command on what is stored of some matrices does what the operation on these matrices does
(`runOn_perform_stored`), and leaves shapes that words can number (`fitting_step`); by induction so
do all commands of a sequence.
-/

namespace PathQuery

open Relation (ReflTransGen)

/-! ## Entries that change -/

/-- The number of entries that are true in the second matrix and not in the first. -/
def ShapedMatrix.flips (M N : ShapedMatrix) : Nat :=
  (List.range M.rows ×ˢ List.range M.columns).countP fun e =>
    N.matrix.get e.1 e.2 && !M.matrix.get e.1 e.2

namespace BoolMatrix

variable {m n : Nat} {M N : BoolMatrix m n}

theorem count_eq_countP : M.count =
    (List.range m ×ˢ List.range n).countP fun e => M.get e.1 e.2 := by
  have hplaces : (List.range m ×ˢ List.range n).Nodup :=
    List.Nodup.product List.nodup_range List.nodup_range
  rw [← length_entries, List.countP_eq_length_filter]
  refine List.Perm.length_eq
    ((List.perm_ext_iff_of_nodup M.nodup_entries (hplaces.filter _)).mpr ?_)
  rintro ⟨i, j⟩
  rw [mem_entries, List.mem_filter, List.mem_product, List.mem_range, List.mem_range]
  exact (and_iff_right_of_imp lt_of_get).symm

/-- Where no entry is lost, the counts differ by the number of those gained. -/
theorem count_sub_count (h : M ≤ N) : N.count - M.count = M.shaped.flips N.shaped := by
  have hkept : ∀ e ∈ List.range m ×ˢ List.range n,
      (N.get e.1 e.2 && M.get e.1 e.2) = true ↔ M.get e.1 e.2 = true := fun e _ => by
    rw [Bool.and_eq_true, and_iff_right_of_imp (h e.1 e.2)]
  rw [@count_eq_countP _ _ N, @count_eq_countP _ _ M,
    List.countP_eq_countP_filter_add _ _ fun e => M.get e.1 e.2, List.countP_filter,
    List.countP_filter, List.countP_congr hkept, Nat.add_sub_cancel_left]
  rfl

end BoolMatrix

namespace ShapedMatrix

variable {M N : ShapedMatrix} {i j : Nat}

/-! ## What the operations give -/

theorem fits_of_shape_eq {rows columns : Nat} (h : M.shape = (rows, columns))
    (hfits : fits rows columns = true) : fits M.rows M.columns = true := by
  cases h
  exact hfits

theorem exists_trySet_eq_ok (hi : i < M.rows) (hj : j < M.columns) :
    ∃ U, M.trySet i j = .ok (U, !M.matrix.get i j) ∧ U.shape = M.shape ∧
      ∀ a b, U.matrix.get a b = true ↔ M.matrix.get a b = true ∨ a = i ∧ b = j := by
  refine ⟨(M.matrix.insert i j).shaped, BoolMatrix.trySet_shaped hi hj, rfl, fun a b => ?_⟩
  have hplace : i < M.rows ∧ j < M.columns := ⟨hi, hj⟩
  exact BoolMatrix.get_insert.trans
    (or_congr_right (and_congr_right fun _ => and_iff_left hplace))

theorem exists_union_eq_ok (h : M.shape = N.shape) :
    ∃ U, M.union N = .ok (U, M.flips U) ∧ U.shape = M.shape ∧
      ∀ i j, U.matrix.get i j = (M.matrix.get i j || N.matrix.get i j) := by
  obtain ⟨N, rfl⟩ := exists_eq_shaped h
  refine ⟨(M.matrix.union N).shaped, ?_, rfl, fun i j => BoolMatrix.get_union⟩
  exact BoolMatrix.count_sub_count BoolMatrix.le_union ▸ BoolMatrix.union_shaped

theorem exists_difference_eq_ok (h : M.shape = N.shape) :
    ∃ D, M.difference N = .ok D ∧ D.shape = M.shape ∧
      ∀ i j, D.matrix.get i j = (M.matrix.get i j && !N.matrix.get i j) := by
  obtain ⟨N, rfl⟩ := exists_eq_shaped h
  exact ⟨(M.matrix.difference N).shaped, BoolMatrix.difference_shaped, rfl,
    fun i j => BoolMatrix.get_difference⟩

theorem exists_multiply_eq_ok (h : N.rows = M.columns) :
    ∃ P, M.multiply N = .ok P ∧ P.shape = (M.rows, N.columns) ∧
      ∀ i j, P.matrix.get i j = true ↔
        ∃ k, M.matrix.get i k = true ∧ N.matrix.get k j = true :=
  ⟨_, dif_pos h, rfl, fun _ _ => BoolMatrix.get_mul⟩

theorem exists_kron_eq_ok (h : fits (M.rows * N.rows) (M.columns * N.columns) = true) :
    ∃ K, M.kron N = .ok K ∧ K.shape = (M.rows * N.rows, M.columns * N.columns) ∧
      ∀ a b, K.matrix.get a b = true ↔ ∃ i j k l, a = i * N.rows + k ∧ b = j * N.columns + l ∧
        M.matrix.get i j = true ∧ N.matrix.get k l = true :=
  ⟨_, if_pos h, rfl, fun _ _ => BoolMatrix.get_kron_iff_exists⟩

theorem exists_closure_eq_ok (h : M.rows = M.columns) (hM : M.rows ≤ Word32.max) :
    ∃ C, M.closure = .ok C ∧ C.shape = M.shape ∧
      ∀ i j, C.matrix.get i j = true ↔
        i < M.rows ∧ ReflTransGen (fun a b => M.matrix.get a b = true) i j := by
  obtain ⟨m, n, M⟩ := M
  obtain rfl : m = n := h
  exact ⟨M.closure.shaped, BoolMatrix.closure_shaped hM, rfl, fun _ _ => BoolMatrix.get_closure_iff⟩

end ShapedMatrix

/-! ## Commands -/

/-- An operation that makes a new matrix, from those with some names. -/
inductive Operation (ι : Type) where
  | zero (rows columns : Nat)
  | identity (n : Nat)
  | difference (x y : ι)
  | multiply (x y : ι)
  | kron (x y : ι)
  | closure (x : ι)
  deriving DecidableEq, Repr

/-- A change to the matrix with the first name: it is replaced by a new one, gets a true entry, or
gets the entries of another. -/
inductive Command (ι : Type) where
  | put (x : ι) (op : Operation ι)
  | set (x : ι) (i j : Nat)
  | union (x y : ι)
  deriving DecidableEq, Repr

/-- What a command reports. -/
inductive Reply where
  | done
  /-- Whether the entry is new. -/
  | fresh (isNew : Bool)
  /-- The number of entries that are new. -/
  | added (count : Nat)
  deriving DecidableEq, Repr

open ShapedMatrix (fits limit stored)

variable {ι : Type}

/-- The matrices have shapes that words can number. -/
def Fitting (P : ι → ShapedMatrix) : Prop := ∀ x, fits (P x).rows (P x).columns = true

namespace Operation

/-- The operation on matrices. -/
def result (P : ι → ShapedMatrix) : Operation ι → Except Error ShapedMatrix
  | zero rows columns => ShapedMatrix.tryZero rows columns
  | identity n => ShapedMatrix.tryIdentity n
  | difference x y => (P x).difference (P y)
  | multiply x y => (P x).multiply (P y)
  | kron x y => (P x).kron (P y)
  | closure x => (P x).closure

/-- The operation on stored matrices. -/
def store (S : ι → StoredMatrix) : Operation ι → Except Error StoredMatrix
  | zero rows columns => StoredMatrix.tryZero rows columns
  | identity n => StoredMatrix.tryIdentity n
  | difference x y => (S x).difference (S y)
  | multiply x y => (S x).multiply (S y)
  | kron x y => (S x).kron (S y)
  | closure x => (S x).closure

/-- Whether the shapes fit together, or are not too large. -/
def Allowed (P : ι → ShapedMatrix) : Operation ι → Prop
  | zero rows columns => fits rows columns = true
  | identity n => fits n n = true
  | difference x y => (P x).shape = (P y).shape
  | multiply x y => (P y).rows = (P x).columns
  | kron x y => fits ((P x).rows * (P y).rows) ((P x).columns * (P y).columns) = true
  | closure x => (P x).rows = (P x).columns

instance (P : ι → ShapedMatrix) : DecidablePred (Allowed P)
  | zero rows columns => inferInstanceAs (Decidable (fits rows columns = true))
  | identity n => inferInstanceAs (Decidable (fits n n = true))
  | difference x y => inferInstanceAs (Decidable ((P x).shape = (P y).shape))
  | multiply x y => inferInstanceAs (Decidable ((P y).rows = (P x).columns))
  | kron x y => inferInstanceAs
      (Decidable (fits ((P x).rows * (P y).rows) ((P x).columns * (P y).columns) = true))
  | closure x => inferInstanceAs (Decidable ((P x).rows = (P x).columns))

/-- The shapes that are reported where they do not fit. -/
def shapes (P : ι → ShapedMatrix) : Operation ι → (Nat × Nat) × (Nat × Nat)
  | zero rows columns => ((rows, columns), limit)
  | identity n => ((n, n), limit)
  | difference x y | multiply x y | kron x y => ((P x).shape, (P y).shape)
  | closure x => ((P x).shape, (P x).shape)

/-- **The definition** of each operation: the shape of the result, and its entries. -/
def Gives (P : ι → ShapedMatrix) (M : ShapedMatrix) : Operation ι → Prop
  | zero rows columns => M.shape = (rows, columns) ∧ ∀ i j, M.matrix.get i j = false
  | identity n => M.shape = (n, n) ∧ ∀ i j, M.matrix.get i j = true ↔ i = j ∧ i < n
  | difference x y => M.shape = (P x).shape ∧
    ∀ i j, M.matrix.get i j = ((P x).matrix.get i j && !(P y).matrix.get i j)
  | multiply x y => M.shape = ((P x).rows, (P y).columns) ∧
    ∀ i j, M.matrix.get i j = true ↔
      ∃ k, (P x).matrix.get i k = true ∧ (P y).matrix.get k j = true
  | kron x y => M.shape = ((P x).rows * (P y).rows, (P x).columns * (P y).columns) ∧
    ∀ a b, M.matrix.get a b = true ↔ ∃ i j k l,
      a = i * (P y).rows + k ∧ b = j * (P y).columns + l ∧
        (P x).matrix.get i j = true ∧ (P y).matrix.get k l = true
  | closure x => M.shape = (P x).shape ∧
    ∀ i j, M.matrix.get i j = true ↔
      i < (P x).rows ∧ ReflTransGen (fun a b => (P x).matrix.get a b = true) i j

variable {P : ι → ShapedMatrix} {op : Operation ι}

theorem store_stored : op.store (stored ∘ P) = stored <$> op.result P := by
  cases op with
  | zero rows columns => exact StoredMatrix.tryZero_eq
  | identity n => exact StoredMatrix.tryIdentity_eq
  | difference x y => exact StoredMatrix.difference_stored
  | multiply x y => exact StoredMatrix.multiply_stored
  | kron x y => exact StoredMatrix.kron_stored
  | closure x => exact StoredMatrix.closure_stored

/-- Shapes that do not fit are what is reported, and nothing else is. -/
theorem result_of_not_allowed (h : ¬op.Allowed P) :
    op.result P = .error (.dimensionMismatch (op.shapes P).1 (op.shapes P).2) := by
  cases op with
  | zero rows columns => exact if_neg h
  | identity n => exact if_neg h
  | difference x y => exact ShapedMatrix.difference_of_shape_ne h
  | multiply x y => exact dif_neg h
  | kron x y => exact if_neg h
  | closure x => exact ShapedMatrix.closure_of_rows_ne h

/-- Shapes that fit have a result, whose shape is one of words again. -/
theorem exists_result_eq_ok (hP : Fitting P) (h : op.Allowed P) :
    ∃ M, op.result P = .ok M ∧ op.Gives P M ∧ fits M.rows M.columns = true := by
  cases op with
  | zero rows columns =>
    exact ⟨(BoolMatrix.zero rows columns).shaped, if_pos h, ⟨rfl, BoolMatrix.get_zero⟩, h⟩
  | identity n =>
    exact ⟨(BoolMatrix.identity n).shaped, if_pos h, ⟨rfl, fun _ _ => BoolMatrix.get_identity⟩, h⟩
  | difference x y =>
    obtain ⟨D, hD, hshape, hget⟩ := ShapedMatrix.exists_difference_eq_ok h
    exact ⟨D, hD, ⟨hshape, hget⟩, ShapedMatrix.fits_of_shape_eq hshape (hP x)⟩
  | multiply x y =>
    obtain ⟨M, hM, hshape, hget⟩ := ShapedMatrix.exists_multiply_eq_ok h
    have hfits := ShapedMatrix.fits_iff.mpr
      ⟨(ShapedMatrix.fits_iff.mp (hP x)).1, (ShapedMatrix.fits_iff.mp (hP y)).2⟩
    exact ⟨M, hM, ⟨hshape, hget⟩, ShapedMatrix.fits_of_shape_eq hshape hfits⟩
  | kron x y =>
    obtain ⟨K, hK, hshape, hget⟩ := ShapedMatrix.exists_kron_eq_ok h
    exact ⟨K, hK, ⟨hshape, hget⟩, ShapedMatrix.fits_of_shape_eq hshape h⟩
  | closure x =>
    obtain ⟨hle, -⟩ := ShapedMatrix.fits_iff.mp (hP x)
    obtain ⟨C, hC, hshape, hget⟩ := ShapedMatrix.exists_closure_eq_ok h hle
    exact ⟨C, hC, ⟨hshape, hget⟩, ShapedMatrix.fits_of_shape_eq hshape (hP x)⟩

end Operation

namespace Command

/-- The name of the matrix that is changed. -/
def target : Command ι → ι
  | put x _ | set x _ _ | union x _ => x

/-- The matrix that the changed one becomes, with the report. -/
def apply (P : ι → ShapedMatrix) : Command ι → Except Error (ShapedMatrix × Reply)
  | put _ op => (·, .done) <$> op.result P
  | set x i j => (fun (M, isNew) => (M, .fresh isNew)) <$> (P x).trySet i j
  | union x y => (fun (M, count) => (M, .added count)) <$> (P x).union (P y)

/-- Whether the shapes fit, and the place of an entry is one. -/
def Allowed (P : ι → ShapedMatrix) : Command ι → Prop
  | put _ op => op.Allowed P
  | set x i j => i < (P x).rows ∧ j < (P x).columns
  | union x y => (P x).shape = (P y).shape

instance (P : ι → ShapedMatrix) : DecidablePred (Allowed P)
  | put _ op => inferInstanceAs (Decidable (op.Allowed P))
  | set x i j => inferInstanceAs (Decidable (i < (P x).rows ∧ j < (P x).columns))
  | union x y => inferInstanceAs (Decidable ((P x).shape = (P y).shape))

/-- What is reported otherwise. -/
def refusal (P : ι → ShapedMatrix) : Command ι → Error
  | put _ op => .dimensionMismatch (op.shapes P).1 (op.shapes P).2
  | set x _ j =>
    if (P x).columns ≤ j then .fault (.columnOutOfBounds j (P x).columns)
    else .fault .indexOutOfBounds
  | union x y => .dimensionMismatch (P x).shape (P y).shape

/-- **The definition** of each command: what the changed matrix becomes, and what is reported. -/
def Gives (P : ι → ShapedMatrix) (M : ShapedMatrix) (reply : Reply) : Command ι → Prop
  | put _ op => reply = .done ∧ op.Gives P M
  | set x i j => reply = .fresh (!(P x).matrix.get i j) ∧ M.shape = (P x).shape ∧
    ∀ a b, M.matrix.get a b = true ↔ (P x).matrix.get a b = true ∨ a = i ∧ b = j
  | union x y => reply = .added ((P x).flips M) ∧ M.shape = (P x).shape ∧
    ∀ i j, M.matrix.get i j = ((P x).matrix.get i j || (P y).matrix.get i j)

section

variable {P : ι → ShapedMatrix} {c : Command ι}

theorem apply_of_not_allowed (h : ¬c.Allowed P) : c.apply P = .error (c.refusal P) := by
  cases c with
  | put x op =>
    rw [apply, Operation.result_of_not_allowed h]
    rfl
  | set x i j =>
    rw [apply, ShapedMatrix.trySet, refusal]
    by_cases hj : (P x).columns ≤ j
    · rw [if_pos hj, if_pos hj]
      rfl
    · have hi : (P x).rows ≤ i :=
        Nat.le_of_not_lt fun hi => h ⟨hi, Nat.lt_of_not_le hj⟩
      rw [if_neg hj, if_neg hj, if_pos hi]
      rfl
  | union x y =>
    rw [apply, ShapedMatrix.union_of_shape_ne h]
    rfl

theorem exists_apply_eq_ok (hP : Fitting P) (h : c.Allowed P) :
    ∃ M reply, c.apply P = .ok (M, reply) ∧ c.Gives P M reply ∧ fits M.rows M.columns = true := by
  cases c with
  | put x op =>
    obtain ⟨M, hM, hgives, hfits⟩ := Operation.exists_result_eq_ok hP h
    exact ⟨M, .done, by rw [apply, hM]; rfl, ⟨rfl, hgives⟩, hfits⟩
  | set x i j =>
    obtain ⟨U, hU, hshape, hget⟩ := ShapedMatrix.exists_trySet_eq_ok h.1 h.2
    exact ⟨U, _, by rw [apply, hU]; rfl, ⟨rfl, hshape, hget⟩,
      ShapedMatrix.fits_of_shape_eq hshape (hP x)⟩
  | union x y =>
    obtain ⟨U, hU, hshape, hget⟩ := ShapedMatrix.exists_union_eq_ok h
    exact ⟨U, _, by rw [apply, hU]; rfl, ⟨rfl, hshape, hget⟩,
      ShapedMatrix.fits_of_shape_eq hshape (hP x)⟩

/-- Only a place outside of the matrix is a fault. -/
theorem exists_eq_set_of_refusal_eq_fault {f : Fault} (h : c.refusal P = .fault f) :
    ∃ x i j, c = set x i j := by
  cases c with
  | put x op => cases h
  | set x i j => exact ⟨x, i, j, rfl⟩
  | union x y => cases h

end

/-! ## Commands in place -/

variable [DecidableEq ι]

/-- The matrices after a command, which are those before it where it is refused. -/
def step (P : ι → ShapedMatrix) (c : Command ι) : ι → ShapedMatrix :=
  match c.apply P with
  | .ok (M, _) => Function.update P c.target M
  | .error _ => P

/-- Runs a computation on one of the stored matrices. -/
def within {α : Type} (x : ι) (f : InPlace StoredMatrix α) : InPlace (ι → StoredMatrix) α := do
  let (result, M) := f.runOn ((← get) x)
  modify (Function.update · x M)
  result

/-- A command on stored matrices. -/
def perform : Command ι → InPlace (ι → StoredMatrix) Reply
  | put x op => do
    let M ← op.store (← get)
    modify (Function.update · x M)
    return .done
  | set x i j => do return .fresh (← within x (StoredMatrix.setEntry i j))
  | union x y => do return .added (← within x (StoredMatrix.unionWith ((← get) y)))

/-- The stored matrices after some commands, each of which begins with what the one before it has
left, whether or not that one was refused. -/
def run (cs : List (Command ι)) (S : ι → StoredMatrix) : ι → StoredMatrix :=
  cs.foldl (fun S c => (c.perform.runOn S).2) S

section

open InPlace (putting)

variable {P : ι → ShapedMatrix} {S : ι → StoredMatrix} {c : Command ι} {x : ι}

theorem runOn_within {α : Type} {f : InPlace StoredMatrix α} {r : Except Error (ShapedMatrix × α)}
    (h : f.runOn (S x) = putting stored (S x) r) :
    (within x f).runOn S = putting (fun M => Function.update S x M.stored) S r := by
  have hrun : (within x f).runOn S =
      ((f.runOn (S x)).1, Function.update S x (f.runOn (S x)).2) := rfl
  rw [hrun, h]
  cases r with
  | ok a => rfl
  | error e => exact congrArg _ (Function.update_eq_self x S)

theorem runOn_report {α : Type} {f : InPlace (ι → StoredMatrix) α} {g : α → Reply}
    {r : Except Error (ShapedMatrix × α)}
    (h : f.runOn S = putting (fun M => Function.update S x M.stored) S r) :
    (do return g (← f) : InPlace (ι → StoredMatrix) Reply).runOn S =
      putting (fun M => Function.update S x M.stored) S ((fun (M, a) => (M, g a)) <$> r) := by
  rw [InPlace.runOn_bind, h]
  cases r <;> rfl

/-- **A command on stored matrices** does what it does on matrices. -/
theorem runOn_perform_stored : c.perform.runOn (stored ∘ P) =
    putting (fun M => Function.update (stored ∘ P) c.target M.stored) (stored ∘ P) (c.apply P) := by
  cases c with
  | put x op =>
    show (do
      let M ← op.store (stored ∘ P)
      modify (Function.update · x M)
      return .done : InPlace (ι → StoredMatrix) Reply).runOn (stored ∘ P) = _
    rw [Operation.store_stored, apply]
    cases op.result P <;> rfl
  | set x i j => exact runOn_report (runOn_within StoredMatrix.runOn_setEntry_stored)
  | union x y =>
    exact @runOn_report _ _ _ _ _ (within x (StoredMatrix.unionWith (P y).stored)) _ _
      (runOn_within StoredMatrix.runOn_unionWith_stored)

/-- **What a command does** to stored matrices.  If it is refused, all of them stay as they are.
Otherwise the matrix that it changes becomes the one that its definition gives, and all others stay
as they are.  No row is ever found missing and no word overflows: a fault can only be a place
outside of the matrix. -/
structure Meets (c : Command ι) (P : ι → ShapedMatrix) : Prop where
  refused : ¬c.Allowed P → c.apply P = .error (c.refusal P) ∧
    c.perform.runOn (stored ∘ P) = (.error (c.refusal P), stored ∘ P)
  performed : c.Allowed P → ∃ M reply, c.apply P = .ok (M, reply) ∧ c.Gives P M reply ∧
    c.perform.runOn (stored ∘ P) = (.ok reply, Function.update (stored ∘ P) c.target M.stored)
  fault : ∀ f, (c.perform.runOn (stored ∘ P)).1 = .error (.fault f) → ∃ x i j, c = set x i j

theorem meets (hP : Fitting P) : c.Meets P where
  refused h := by
    rw [runOn_perform_stored, apply_of_not_allowed h]
    exact ⟨rfl, rfl⟩
  performed h := by
    obtain ⟨M, reply, happly, hgives, -⟩ := exists_apply_eq_ok hP h
    rw [runOn_perform_stored, happly]
    exact ⟨M, reply, rfl, hgives, rfl⟩
  fault f h := by
    rw [runOn_perform_stored] at h
    by_cases hc : c.Allowed P
    · obtain ⟨M, reply, happly, -, -⟩ := exists_apply_eq_ok hP hc
      rw [happly] at h
      cases h
    · rw [apply_of_not_allowed hc] at h
      exact exists_eq_set_of_refusal_eq_fault (Except.error.inj h)

/-! ## Sequences of commands -/

theorem stored_step : (c.perform.runOn (stored ∘ P)).2 = stored ∘ step P c := by
  rw [runOn_perform_stored, step]
  cases c.apply P with
  | error e => rfl
  | ok r => exact (Function.comp_update stored P c.target r.1).symm

/-- What is stored after some commands is what is stored of the matrices after them. -/
theorem run_stored {cs : List (Command ι)} : run cs (stored ∘ P) = stored ∘ cs.foldl step P := by
  induction cs generalizing P with
  | nil => rfl
  | cons c cs ih =>
    rw [run, List.foldl_cons, stored_step]
    exact ih

theorem fitting_step (hP : Fitting P) : Fitting (step P c) := by
  by_cases h : c.Allowed P
  · obtain ⟨M, reply, happly, -, hM⟩ := exists_apply_eq_ok hP h
    rw [step, happly]
    exact (Function.forall_update_iff P fun _ N => fits N.rows N.columns = true).mpr
      ⟨hM, fun x _ => hP x⟩
  · rw [step, apply_of_not_allowed h]
    exact hP

theorem fitting_foldl_step {cs : List (Command ι)} (hP : Fitting P) :
    Fitting (cs.foldl step P) := by
  induction cs generalizing P with
  | nil => exact hP
  | cons c cs ih => exact ih (fitting_step hP)

end

/-- Matrices without rows and columns, which are there before all commands. -/
def noMatrices : ι → ShapedMatrix := fun _ => (BoolMatrix.zero 0 0).shaped

/-- The matrices that commands make, one after another. -/
def made (cs : List (Command ι)) : ι → ShapedMatrix := cs.foldl step noMatrices

/-- **Sequences of commands** on stored matrices, whatever they are and also where some of them are
refused.  What is stored then is what is stored of the matrices that they make, and the rows list
columns of these matrices only; so each further command does what it is defined to do. -/
theorem run_meets (cs : List (Command ι)) : run cs (stored ∘ noMatrices) = stored ∘ made cs ∧
    (∀ x, (made cs x).stored.Bounded) ∧ ∀ c : Command ι, c.Meets (made cs) := by
  have hnone : Fitting (@noMatrices ι) := fun _ => rfl
  have hmade : Fitting (made cs) := fitting_foldl_step hnone
  exact ⟨run_stored, fun x => StoredMatrix.bounded_stored (hmade x), fun c => meets hmade⟩

/-- Matrices with more columns than rows, and one without columns. -/
def makeMatrices : List (Command (Fin 3)) :=
  [put 0 (.zero 2 3), set 0 0 2, set 0 1 0, put 1 (.zero 3 0), put 2 (.zero 2 3), set 2 0 2,
    set 2 1 1]

/-- Shapes that do not fit, a union that adds one entry of two, an entry that is there already, a
product without columns, and a column that is not there. -/
theorem run_meets_makeMatrices : ∃ S, run makeMatrices (stored ∘ noMatrices) = S ∧
    (union 0 1).perform.runOn S = (.error (.dimensionMismatch (2, 3) (3, 0)), S) ∧
    ((union 0 2).perform.runOn S).1 = .ok (.added 1) ∧
    ((set 0 1 0).perform.runOn S).1 = .ok (.fresh false) ∧
    (∃ M, (put 1 (.multiply 0 1)).perform.runOn S =
      (.ok .done, Function.update S 1 (stored M)) ∧ M.shape = (2, 0)) ∧
    (set 1 0 0).perform.runOn S = (.error (.fault (.columnOutOfBounds 0 0)), S) := by
  obtain ⟨hrun, -, hmeets⟩ := run_meets makeMatrices
  have hreply : ∀ (c : Command (Fin 3)) (r : Reply), c.Allowed (made makeMatrices) →
      (·.2) <$> c.apply (made makeMatrices) = .ok r →
        (c.perform.runOn (stored ∘ made makeMatrices)).1 = .ok r := fun c r hc hr => by
    obtain ⟨M, reply, happly, -, hperform⟩ := (hmeets c).performed hc
    rw [happly] at hr
    rw [hperform, ← Except.ok.inj hr]
  refine ⟨_, hrun, ((hmeets (union 0 1)).refused (by decide)).2,
    hreply _ _ (by decide) (by decide), hreply _ _ (by decide) (by decide), ?_,
    ((hmeets (set 1 0 0)).refused (by decide)).2⟩
  obtain ⟨M, reply, -, ⟨rfl, hshape, -⟩, hperform⟩ :=
    (hmeets (put 1 (.multiply 0 1))).performed (by decide)
  exact ⟨M, hperform, hshape.trans (by decide)⟩

end Command

end PathQuery
