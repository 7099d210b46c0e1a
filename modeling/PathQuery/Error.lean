import PathQuery.Grammar.Symbol
import PathQuery.Regex.Problem

/-!
# Error — the causes of failure

`Error` lists the ways in which an operation refuses its arguments, `Error.message` words them.
A `Fault` is a breach of the caller's side of a contract, such as a state number beyond the number
of states: nothing sensible can follow it, so `Error.isFault` lets a caller tell it from a refusal
that leaves its operands usable.
-/

namespace PathQuery

/-- A breach of a precondition. -/
inductive Fault where
  /-- A row or state number beyond the last one. -/
  | indexOutOfBounds
  /-- A column beyond the last one. -/
  | columnOutOfBounds (column columns : Nat)
  /-- A shape that no index range covers, with the greatest one there is. -/
  | oversizedShape (shape limit : Nat × Nat)
  /-- A sum beyond the 32-bit range. -/
  | sumOverflow
  /-- A product beyond the 32-bit range. -/
  | productOverflow
  deriving DecidableEq, Repr

/-- The reason why an operation has no result. -/
inductive Error where
  /-- A production that is not in weak normal form. -/
  | grammarForm (production : Production)
  /-- Two shapes that do not fit together. -/
  | dimensionMismatch (left right : Nat × Nat)
  /-- A name that nothing defines. -/
  | undefinedSymbol (name : String)
  /-- A text that is not a pattern, and the byte offset that shows it. -/
  | regexSyntax (position : Nat) (problem : Regex.Problem)
  /-- A breach of a precondition. -/
  | fault (fault : Fault)
  deriving DecidableEq, Repr

/-- The shape of a matrix as text. -/
def shapeText (shape : Nat × Nat) : String :=
  "(" ++ toString shape.1 ++ ", " ++ toString shape.2 ++ ")"

/-- Two shapes that disagree, as text. -/
def mismatchText (left right : Nat × Nat) : String :=
  "dimension mismatch: " ++ shapeText left ++ " vs " ++ shapeText right

/-- The wording of a fault. -/
def Fault.message : Fault → String
  | indexOutOfBounds => "index out of bounds"
  | columnOutOfBounds j n => "column " ++ toString j ++ " out of bounds (" ++ toString n ++ ")"
  | oversizedShape shape limit => mismatchText shape limit
  | sumOverflow => "attempt to add with overflow"
  | productOverflow => "attempt to multiply with overflow"

namespace Error

/-- The wording of an error. -/
def message : Error → String
  | grammarForm p => "production is not in weak normal form: " ++ p.text
  | dimensionMismatch left right => mismatchText left right
  | undefinedSymbol name => "undefined symbol: " ++ name
  | regexSyntax position problem =>
    "regex error at byte " ++ toString position ++ ": " ++ problem.message
  | fault f => f.message

/-- Whether the error is a breach of a precondition. -/
def isFault : Error → Bool
  | fault _ => true
  | _ => false

/-- The error where the caller had to rule it out. -/
def asFault : Error → Error
  | dimensionMismatch shape limit => fault (.oversizedShape shape limit)
  | e => e

end Error

end PathQuery
