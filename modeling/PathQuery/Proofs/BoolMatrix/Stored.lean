import Mathlib.Data.List.ProdSigma
import PathQuery.InPlace
import PathQuery.Proofs.BoolMatrix.Shaped
import PathQuery.Proofs.Data

/-!
# Proofs/BoolMatrix/Stored — matrices that are changed in place

A `StoredMatrix` is a matrix as it is kept: a number of columns, and rows that know nothing of it.
Its operations look rows up with a check and number pairs of columns with machine words, and two of
them change the matrix in place.  On what is stored of a matrix each does what the operation on the
matrix does (`runOn_setEntry_stored`, `runOn_unionWith_stored`, `multiply_stored`, …), because the
columns that a row lists are below the number of columns: so no row is missing, and no word
overflows.
-/

namespace PathQuery

/-- A matrix as it is kept: a number of columns, and the columns in which each row is true. -/
structure StoredMatrix where
  columns : Nat
  rows : List (List Nat)
  deriving DecidableEq

namespace StoredMatrix

/-- The number of rows and of columns. -/
def shape (M : StoredMatrix) : Nat × Nat := (M.rows.length, M.columns)

/-- The number of columns in all rows. -/
def count (M : StoredMatrix) : Nat := M.rows.foldl (fun total r => total + r.length) 0

/-- The matrices' shapes, as the reason why they do not fit together. -/
def mismatch (M N : StoredMatrix) : Error := .dimensionMismatch M.shape N.shape

/-- The matrix of a shape without true entries. -/
def tryZero (rows columns : Nat) : Except Error StoredMatrix :=
  if ShapedMatrix.fits rows columns then .ok ⟨columns, List.replicate rows []⟩
  else .error (.dimensionMismatch (rows, columns) ShapedMatrix.limit)

/-- The square matrix of a size, with its number put into each row. -/
def tryIdentity (n : Nat) : Except Error StoredMatrix := do
  let M ← tryZero n n
  return { M with rows := List.zipWith Ascending.insert (List.range M.columns) M.rows }

/-- Puts a column into a row, and tells whether it is new there. -/
def setEntry (i j : Nat) : InPlace StoredMatrix Bool := do
  let M ← get
  if M.columns ≤ j then throw (.fault (.columnOutOfBounds j M.columns))
  else
    match M.rows[i]? with
    | none => throw (.fault .indexOutOfBounds)
    | some r =>
      set { M with rows := M.rows.set i (Ascending.insert j r) }
      return decide (j ∉ r)

/-- Joins the rows of another matrix to those in place, and tells how many columns they gain. -/
def unionWith (N : StoredMatrix) : InPlace StoredMatrix Nat := do
  let M ← get
  if M.shape ≠ N.shape then throw (mismatch M N)
  else
    set { M with rows := List.zipWith Ascending.union M.rows N.rows }
    return (← get).count - M.count

/-- The columns of the first matrix's rows that the rows of the second do not have. -/
def difference (M N : StoredMatrix) : Except Error StoredMatrix :=
  if M.shape ≠ N.shape then .error (mismatch M N)
  else .ok ⟨M.columns, List.zipWith (fun r s => r.filter fun j => decide (j ∉ s)) M.rows N.rows⟩

/-- A row; one beyond the last is a fault. -/
def tryRow (M : StoredMatrix) (i : Nat) : Except Error (List Nat) :=
  match M.rows[i]? with
  | none => .error (.fault .indexOutOfBounds)
  | some r => .ok r

/-- The product: each row is the union of the second matrix's rows that it lists. -/
def multiply (M N : StoredMatrix) : Except Error StoredMatrix :=
  if M.columns ≠ N.rows.length then .error (mismatch M N)
  else do
    let rows ← M.rows.mapM fun r =>
      r.foldlM (fun acc j => do return Ascending.union acc (← N.tryRow j)) []
    return ⟨N.columns, rows⟩

/-- The words that number the pairs of two rows' columns, the second row of a matrix with `q`
columns. -/
def tryKronRow (q : Nat) (r s : List Nat) : Except Error (List Nat) := do
  return Ascending.ofList (← (r ×ˢ s).mapM fun e => do
    Word32.tryAdd (← Word32.tryMul e.1 q) e.2)

/-- The Kronecker product. -/
def kron (M N : StoredMatrix) : Except Error StoredMatrix :=
  if ShapedMatrix.fits (M.rows.length * N.rows.length) (M.columns * N.columns) then do
    let rows ← (M.rows ×ˢ N.rows).mapM fun e => tryKronRow N.columns e.1 e.2
    return ⟨M.columns * N.columns, rows⟩
  else .error (mismatch M N)

/-- Squares a matrix until it gains nothing, in at most the given number of rounds. -/
def saturate : Nat → StoredMatrix → Except Error StoredMatrix
  | 0, M => .ok M
  | rounds + 1, M => do
    let (M, added) ← (unionWith (← M.multiply M)).on M
    if added = 0 then return M else saturate rounds M

/-- The reflexive transitive closure. -/
def closure (M : StoredMatrix) : Except Error StoredMatrix :=
  if M.rows.length ≠ M.columns then .error (mismatch M M)
  else do
    let (C, _) ← (unionWith M).on (← tryIdentity M.rows.length)
    saturate (M.rows.length * M.rows.length + 1) C

/-- **Bounds**: rows and columns have words as numbers, and the rows list columns of the matrix, in
ascending order. -/
structure Bounded (M : StoredMatrix) : Prop where
  rows_le : M.rows.length ≤ Word32.max
  columns_le : M.columns ≤ Word32.max
  ascending : ∀ r ∈ M.rows, Ascending.IsAscending r
  lt_columns : ∀ r ∈ M.rows, ∀ j ∈ r, j < M.columns

end StoredMatrix

/-- What is stored of a matrix. -/
def ShapedMatrix.stored (M : ShapedMatrix) : StoredMatrix := ⟨M.columns, M.matrix.rows⟩

namespace StoredMatrix

open InPlace (putting)

variable {M N : ShapedMatrix} {m n p q i j rounds : Nat}

@[simp] theorem rows_stored : M.stored.rows = M.matrix.rows := rfl

@[simp] theorem length_rows_stored : M.stored.rows.length = M.rows := M.matrix.length_rows

@[simp] theorem columns_stored : M.stored.columns = M.columns := rfl

@[simp] theorem shape_stored : M.stored.shape = M.shape := Prod.ext length_rows_stored rfl

@[simp] theorem mismatch_stored : mismatch M.stored N.stored = ShapedMatrix.mismatch M N := by
  rw [mismatch, shape_stored, shape_stored, ShapedMatrix.mismatch]

@[simp] theorem count_stored : M.stored.count = M.matrix.count := by
  rw [BoolMatrix.count, List.length_flatten, List.sum_eq_foldl_nat, List.foldl_map, count,
    rows_stored]

theorem bounded_stored (hM : ShapedMatrix.fits M.rows M.columns = true) : M.stored.Bounded := by
  obtain ⟨hrows, hcolumns⟩ := ShapedMatrix.fits_iff.mp hM
  exact ⟨length_rows_stored.symm ▸ hrows, hcolumns, M.matrix.ascending, M.matrix.lt_columns⟩

theorem getElem?_rows_stored (hi : i < M.rows) :
    M.stored.rows[i]? = some (M.matrix.row i) := by
  have hlt : i < M.matrix.rows.length := M.matrix.length_rows.symm ▸ hi
  rw [BoolMatrix.row, ShapedMatrix.stored, List.getElem?_eq_getElem hlt, Option.getD_some]

/-! ## New matrices -/

theorem tryZero_eq : tryZero m n = (·.stored) <$> ShapedMatrix.tryZero m n := by
  rw [tryZero, ShapedMatrix.tryZero]
  split <;> rfl

theorem tryIdentity_eq : tryIdentity n = (·.stored) <$> ShapedMatrix.tryIdentity n := by
  rw [tryIdentity, tryZero, ShapedMatrix.tryIdentity]
  split
  · have hrows : List.zipWith Ascending.insert (List.range n) (List.replicate n []) =
        (BoolMatrix.identity n).rows := by
      refine List.ext_getElem (by simp [BoolMatrix.identity]) fun i _ _ => ?_
      simp [Ascending.insert, BoolMatrix.identity]
    exact congrArg (fun rows => Except.ok (StoredMatrix.mk n rows)) hrows
  · rfl

/-! ## Changes in place -/

theorem rows_insert {M : BoolMatrix m n} (hi : i < m) (hj : j < n) :
    (M.insert i j).rows = M.rows.set i (Ascending.insert j (M.row i)) := by
  have hlt : i < M.rows.length := M.length_rows.symm ▸ hi
  refine (if_pos hj).trans ?_
  rw [List.modify_eq_set_get _ hlt, BoolMatrix.row, List.getElem?_eq_getElem hlt]
  rfl

theorem runOn_setEntry {M : StoredMatrix} : (setEntry i j).runOn M =
    if M.columns ≤ j then (.error (.fault (.columnOutOfBounds j M.columns)), M)
    else match M.rows[i]? with
      | none => (.error (.fault .indexOutOfBounds), M)
      | some r =>
        (.ok (decide (j ∉ r)), { M with rows := M.rows.set i (Ascending.insert j r) }) := by
  rw [setEntry, InPlace.runOn_bind, InPlace.runOn_get]
  dsimp only
  split
  · rfl
  · split <;> rfl

theorem runOn_setEntry_stored :
    (setEntry i j).runOn M.stored = putting (·.stored) M.stored (M.trySet i j) := by
  rw [runOn_setEntry, columns_stored, ShapedMatrix.trySet]
  by_cases hj : M.columns ≤ j
  · rw [if_pos hj, if_pos hj]
    rfl
  rw [if_neg hj, if_neg hj]
  by_cases hi : M.rows ≤ i
  · rw [if_pos hi, List.getElem?_eq_none (by rwa [length_rows_stored])]
    rfl
  · rw [if_neg hi, getElem?_rows_stored (Nat.lt_of_not_le hi)]
    have hrows := @rows_insert _ _ _ _ M.matrix (Nat.lt_of_not_le hi) (Nat.lt_of_not_le hj)
    simp only [putting, ShapedMatrix.stored, hrows, BoolMatrix.get, decide_not]

theorem runOn_unionWith {M N : StoredMatrix} : (unionWith N).runOn M =
    if M.shape ≠ N.shape then (.error (mismatch M N), M)
    else
      let U : StoredMatrix := { M with rows := List.zipWith Ascending.union M.rows N.rows }
      (.ok (U.count - M.count), U) := by
  rw [unionWith, InPlace.runOn_bind, InPlace.runOn_get]
  dsimp only
  split <;> rfl

theorem runOn_unionWith_stored :
    (unionWith N.stored).runOn M.stored = putting (·.stored) M.stored (M.union N) := by
  rw [runOn_unionWith, shape_stored, shape_stored, mismatch_stored]
  by_cases h : M.shape = N.shape
  · rw [if_neg (not_not_intro h)]
    obtain ⟨N, rfl⟩ := ShapedMatrix.exists_eq_shaped h
    have hunion : M.union N.shaped = .ok ((M.matrix.union N).shaped,
        (M.matrix.union N).count - M.matrix.count) := BoolMatrix.union_shaped
    rw [hunion, putting, count_stored]
    exact congrArg (fun c => (Except.ok (c - M.matrix.count), _))
      (@count_stored (M.matrix.union N).shaped)
  · rw [if_pos h, ShapedMatrix.union_of_shape_ne h]
    rfl

/-! ## Results -/

theorem difference_stored : M.stored.difference N.stored = (·.stored) <$> M.difference N := by
  rw [difference, shape_stored, shape_stored, mismatch_stored]
  by_cases h : M.shape = N.shape
  · rw [if_neg (not_not_intro h)]
    obtain ⟨N, rfl⟩ := ShapedMatrix.exists_eq_shaped h
    have hdifference : M.difference N.shaped = .ok (M.matrix.difference N).shaped :=
      BoolMatrix.difference_shaped
    rw [hdifference]
    rfl
  · rw [if_pos h, ShapedMatrix.difference_of_shape_ne h]
    rfl

/-- Rows are joined in either order. -/
theorem foldl_union_eq {rows : List (List Nat)} (h : ∀ r ∈ rows, Ascending.IsAscending r) :
    rows.foldl Ascending.union [] = BoolMatrix.unions rows := by
  have key : ∀ acc : List Nat, Ascending.IsAscending acc →
      Ascending.IsAscending (rows.foldl Ascending.union acc) ∧
        ∀ j, j ∈ rows.foldl Ascending.union acc ↔ j ∈ acc ∨ j ∈ BoolMatrix.unions rows := by
    induction rows with
    | nil => exact fun acc hacc => ⟨hacc, fun j => (or_iff_left List.not_mem_nil).symm⟩
    | cons r rows ih =>
      intro acc hacc
      obtain ⟨hr, hrows⟩ := List.forall_mem_cons.mp h
      obtain ⟨hasc, hmem⟩ := ih hrows _ (Ascending.isAscending_union hacc hr)
      refine ⟨hasc, fun j => ?_⟩
      rw [List.foldl_cons, hmem, Ascending.mem_union, or_assoc]
      exact or_congr_right Ascending.mem_union.symm
  obtain ⟨hasc, hmem⟩ := key [] List.Pairwise.nil
  refine Ascending.eq_of_mem_iff hasc (BoolMatrix.isAscending_unions h) fun j => ?_
  rw [hmem, or_iff_right List.not_mem_nil]

/-- Where a row lists rows of a matrix, none of them is missing. -/
theorem foldlM_tryRow_stored {r : List Nat} (hr : ∀ j ∈ r, j < N.rows) :
    r.foldlM (fun acc j => do return Ascending.union acc (← N.stored.tryRow j)) [] =
      .ok (BoolMatrix.unions (r.map N.matrix.row)) := by
  have hstep : ∀ j ∈ r, ∀ acc : List Nat, True → (do
      return Ascending.union acc (← N.stored.tryRow j) : Except Error (List Nat)) =
        .ok (Ascending.union acc (N.matrix.row j)) ∧ True := fun j hj acc _ => by
    rw [tryRow, getElem?_rows_stored (hr j hj)]
    exact ⟨rfl, trivial⟩
  have hrows : ∀ s ∈ r.map N.matrix.row, Ascending.IsAscending s := fun s hs => by
    obtain ⟨j, -, rfl⟩ := List.mem_map.mp hs
    exact N.matrix.isAscending_row j
  rw [← foldl_union_eq hrows, List.foldl_map]
  exact (foldlM_eq_ok (e := id) hstep trivial).1

theorem multiply_stored : M.stored.multiply N.stored = (·.stored) <$> M.multiply N := by
  rw [multiply, columns_stored, columns_stored, length_rows_stored, mismatch_stored,
    ShapedMatrix.multiply]
  by_cases h : N.rows = M.columns
  · have hrows := mapM_eq_ok fun r hr =>
      @foldlM_tryRow_stored N r fun j hj => h ▸ M.matrix.lt_columns r hr j hj
    rw [if_neg (not_not_intro h.symm), dif_pos h, rows_stored, hrows]
    rfl
  · rw [if_pos (Ne.symm h), dif_neg h]
    rfl

theorem map_product {α β γ : Type} (f : α → β → γ) {l : List α} {l' : List β} :
    (l ×ˢ l').map (fun e => f e.1 e.2) = l.flatMap fun a => l'.map (f a) := by
  show (l.flatMap fun a => l'.map (Prod.mk a)).map _ = _
  simp only [List.map_flatMap, List.map_map, Function.comp_def]

/-- The number of a pair of columns is a word where the product has words for its columns. -/
theorem tryKronRow_eq {r s : List Nat} (hr : Ascending.IsAscending r)
    (hs : Ascending.IsAscending s) (hn : ∀ j ∈ r, j < n) (hq : ∀ l ∈ s, l < q)
    (hle : n * q ≤ Word32.max) : tryKronRow q r s = .ok (BoolMatrix.kronRow q r s) := by
  have hword : ∀ e ∈ r ×ˢ s, (do Word32.tryAdd (← Word32.tryMul e.1 q) e.2) =
      .ok (e.1 * q + e.2) := fun e he => by
    obtain ⟨hj, hl⟩ := List.mem_product.mp he
    have hlt : e.1 * q + e.2 < n * q := BoolMatrix.lt_of_mem_kronRow hn hq
      (List.mem_flatMap.mpr ⟨e.1, hj, List.mem_map.mpr ⟨e.2, hl, rfl⟩⟩)
    rw [Word32.tryMul_of_le (by omega)]
    exact Word32.tryAdd_of_le (by omega)
  have hpairs : (r ×ˢ s).map (fun e => e.1 * q + e.2) = BoolMatrix.kronRow q r s :=
    map_product fun j l => j * q + l
  rw [tryKronRow, mapM_eq_ok hword, hpairs]
  exact congrArg Except.ok
    (Ascending.ofList_of_isAscending (BoolMatrix.isAscending_kronRow hr hs hq))

theorem kron_stored : M.stored.kron N.stored = (·.stored) <$> M.kron N := by
  rw [kron, columns_stored, columns_stored, length_rows_stored, length_rows_stored, mismatch_stored,
    ShapedMatrix.kron]
  split
  · next hfits =>
    have hrows : ∀ e ∈ M.matrix.rows ×ˢ N.matrix.rows, tryKronRow N.columns e.1 e.2 =
        .ok (BoolMatrix.kronRow N.columns e.1 e.2) := fun e he => by
      obtain ⟨hr, hs⟩ := List.mem_product.mp he
      exact tryKronRow_eq (M.matrix.ascending _ hr) (N.matrix.ascending _ hs)
        (M.matrix.lt_columns _ hr) (N.matrix.lt_columns _ hs) (ShapedMatrix.fits_iff.mp hfits).2
    rw [rows_stored, rows_stored, mapM_eq_ok hrows, map_product]
    rfl
  · rfl

theorem saturate_stored : M.stored.saturate rounds = (·.stored) <$> M.saturate rounds := by
  induction rounds generalizing M with
  | zero => rfl
  | succ rounds ih =>
    rw [saturate, multiply_stored, ShapedMatrix.saturate]
    cases M.multiply M with
    | error e => rfl
    | ok S =>
      have hunion := InPlace.on_of_runOn_eq (@runOn_unionWith_stored M S)
      simp only [Functor.map, Except.map, bind, Except.bind] at hunion ⊢
      rw [hunion]
      cases M.union S with
      | error e => rfl
      | ok U =>
        by_cases hadded : U.2 = 0
        · simp only [hadded, if_true]
          rfl
        · simp only [if_neg hadded]
          exact ih

theorem closure_stored : M.stored.closure = (·.stored) <$> M.closure := by
  rw [closure, columns_stored, length_rows_stored, mismatch_stored, tryIdentity_eq]
  by_cases h : M.rows = M.columns
  · have hsquare : M.isSquare = true := beq_iff_eq.mpr h
    rw [if_neg (not_not_intro h), ShapedMatrix.closure, if_pos hsquare]
    cases ShapedMatrix.tryIdentity M.rows with
    | error e => rfl
    | ok I =>
      have hunion := InPlace.on_of_runOn_eq (@runOn_unionWith_stored I M)
      simp only [Functor.map, Except.map, bind, Except.bind] at hunion ⊢
      rw [hunion]
      cases I.union M with
      | error e => rfl
      | ok C => exact saturate_stored
  · rw [if_pos h, ShapedMatrix.closure_of_rows_ne h]
    rfl

end StoredMatrix

end PathQuery
