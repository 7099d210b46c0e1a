import PathQuery.BoolMatrix.Shaped

/-!
# BoolMatrix/Table — matrices of any shape, indexed by names

A `MatrixTable` is what a fixpoint over several variables works on: it holds a matrix for each of
some names, and what is done to one of them fails where the shapes do not fit. A name without a
matrix is a fault.
-/

namespace PathQuery

/-- Matrices listed by name. -/
abbrev MatrixTable := List (String × ShapedMatrix)

namespace MatrixTable

/-- The same matrix for each of some names. -/
def const (names : List String) (M : ShapedMatrix) : MatrixTable := names.map fun v => (v, M)

/-- The matrix with a name. -/
def tryGet (T : MatrixTable) (name : String) : Except Error ShapedMatrix :=
  match List.lookup name T with
  | some M => .ok M
  | none => .error (.fault .indexOutOfBounds)

/-- The table with another matrix for a name. -/
def replace (T : MatrixTable) (name : String) (M : ShapedMatrix) : MatrixTable :=
  T.map fun (s, N) => (s, if s = name then M else N)

/-- The table with one more true entry in the matrix of a name. -/
def trySet (T : MatrixTable) (name : String) (i j : Nat) : Except Error MatrixTable := do
  let (M, _) ← (← T.tryGet name).trySet i j
  return T.replace name M

/-- The table with the entries of a matrix joined to those of a name, and how many of them are
new there. -/
def tryUnion (T : MatrixTable) (name : String) (M : ShapedMatrix) :
    Except Error (MatrixTable × Nat) := do
  let (U, added) ← (← T.tryGet name).union M
  return (T.replace name U, added)

/-- The number of true entries of all matrices. -/
def count (T : MatrixTable) : Nat := T.foldl (fun total (_, M) => total + M.matrix.count) 0

end MatrixTable

end PathQuery
