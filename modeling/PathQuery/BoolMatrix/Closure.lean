import PathQuery.BoolMatrix.Product

/-!
# BoolMatrix/Closure — the reflexive transitive closure

The closure of a square matrix is true between two indices where a path of true entries, possibly an
empty one, joins them. It is found by squaring: each round doubles the length of the paths that are
accounted for, and the rounds end when no entry becomes true.
-/

namespace PathQuery.BoolMatrix

variable {n : Nat}

/-- Squares a matrix until no entry becomes true, in at most the given number of rounds. -/
def saturate : Nat → BoolMatrix n n → BoolMatrix n n
  | 0, M => M
  | rounds + 1, M =>
    let M' := M.union (M.mul M)
    if M'.count = M.count then M' else saturate rounds M'

/-- The reflexive transitive closure. -/
def closure (M : BoolMatrix n n) : BoolMatrix n n :=
  saturate (n * n + 1) ((identity n).union M)

end PathQuery.BoolMatrix
