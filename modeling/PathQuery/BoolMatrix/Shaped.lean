import PathQuery.BoolMatrix.Closure
import PathQuery.Error
import PathQuery.Word32

/-!
# BoolMatrix/Shaped — matrices of any shape

A `ShapedMatrix` carries its number of rows and columns as data, so that operations on it check the
shapes they are given: where those do not fit, or a result would have indices beyond the 32-bit
range, the operation fails with both shapes.
-/

namespace PathQuery

/-- A matrix with its shape. -/
structure ShapedMatrix where
  rows : Nat
  columns : Nat
  matrix : BoolMatrix rows columns
  deriving DecidableEq

/-- A matrix as one that carries its shape. -/
def BoolMatrix.shaped {m n : Nat} (M : BoolMatrix m n) : ShapedMatrix := ⟨m, n, M⟩

namespace ShapedMatrix

/-- The number of rows and of columns. -/
def shape (M : ShapedMatrix) : Nat × Nat := (M.rows, M.columns)

/-- The shape whose indices are all 32-bit words. -/
def limit : Nat × Nat := (Word32.max, Word32.max)

/-- Whether all indices of a shape are 32-bit words. -/
def fits (rows columns : Nat) : Bool :=
  decide (rows ≤ Word32.max) && decide (columns ≤ Word32.max)

/-- Whether there are as many rows as columns. -/
def isSquare (M : ShapedMatrix) : Bool := M.rows == M.columns

/-- The matrix of a shape without true entries. -/
def tryZero (rows columns : Nat) : Except Error ShapedMatrix :=
  if fits rows columns then .ok ⟨rows, columns, .zero rows columns⟩
  else .error (.dimensionMismatch (rows, columns) limit)

/-- The square matrix of a size that is true on the diagonal. -/
def tryIdentity (n : Nat) : Except Error ShapedMatrix :=
  if fits n n then .ok ⟨n, n, .identity n⟩ else .error (.dimensionMismatch (n, n) limit)

/-- A result that is only asked for where its shape fits: that it does not is a fault. -/
def required (result : Except Error ShapedMatrix) : Except Error ShapedMatrix :=
  match result with
  | .error (.dimensionMismatch shape limit) => .error (.fault (.oversizedShape shape limit))
  | result => result

/-- The matrix with one more true entry, and whether the entry was false before. An entry outside of
the matrix is a fault, of its column if that is beyond the last one and else of its row. -/
def trySet (M : ShapedMatrix) (i j : Nat) : Except Error (ShapedMatrix × Bool) :=
  if M.columns ≤ j then .error (.fault (.columnOutOfBounds j M.columns))
  else if M.rows ≤ i then .error (.fault .indexOutOfBounds)
  else .ok (⟨M.rows, M.columns, M.matrix.insert i j⟩, !M.matrix.get i j)

/-- The true columns of a row; a row beyond the last one is a fault. -/
def tryRow (M : ShapedMatrix) (i : Nat) : Except Error (List Nat) :=
  if M.rows ≤ i then .error (.fault .indexOutOfBounds) else .ok (M.matrix.row i)

/-- The matrices' shapes, as the reason why they do not fit together. -/
def mismatch (M N : ShapedMatrix) : Error := .dimensionMismatch M.shape N.shape

/-- The second of two matrices as one with the shape of the first. -/
def reshape (M N : ShapedMatrix) : Except Error (BoolMatrix M.rows M.columns) :=
  if h : N.rows = M.rows ∧ N.columns = M.columns then .ok (N.matrix.cast h.1 h.2)
  else .error (mismatch M N)

/-- The entries of either matrix, and how many of them are not of the first. -/
def union (M N : ShapedMatrix) : Except Error (ShapedMatrix × Nat) := do
  let U := M.matrix.union (← reshape M N)
  return (⟨_, _, U⟩, U.count - M.matrix.count)

/-- The entries of the first matrix that are not of the second. -/
def difference (M N : ShapedMatrix) : Except Error ShapedMatrix := do
  return ⟨_, _, M.matrix.difference (← reshape M N)⟩

/-- The product of two matrices. -/
def multiply (M N : ShapedMatrix) : Except Error ShapedMatrix :=
  if h : N.rows = M.columns then .ok ⟨_, _, M.matrix.mul (N.matrix.cast h rfl)⟩
  else .error (mismatch M N)

/-- The Kronecker product of two matrices. -/
def kron (M N : ShapedMatrix) : Except Error ShapedMatrix :=
  if fits (M.rows * N.rows) (M.columns * N.columns) then .ok ⟨_, _, M.matrix.kron N.matrix⟩
  else .error (mismatch M N)

/-- Squares a matrix until no entry becomes true, in at most the given number of rounds. -/
def saturate : Nat → ShapedMatrix → Except Error ShapedMatrix
  | 0, M => .ok M
  | rounds + 1, M => do
    let (M, added) ← M.union (← M.multiply M)
    if added = 0 then return M else saturate rounds M

/-- The reflexive transitive closure of a square matrix. -/
def closure (M : ShapedMatrix) : Except Error ShapedMatrix :=
  if M.isSquare then do
    let (C, _) ← (← tryIdentity M.rows).union M
    saturate (M.rows * M.rows + 1) C
  else .error (mismatch M M)

end ShapedMatrix

end PathQuery
