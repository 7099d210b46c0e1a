/-!
# Regex/Basic — regular expressions over symbols

The tree of a pattern. Symbols are texts of any length; concatenations and unions list their parts,
and a repetition counts its copies between a least and an optional greatest number.
-/

namespace PathQuery

/-- A regular expression. -/
inductive Regex where
  /-- The empty word. -/
  | epsilon
  /-- The one-symbol word. -/
  | symbol (name : String)
  /-- The parts one after another. -/
  | concat (parts : List Regex)
  /-- Any one of the branches. -/
  | union (branches : List Regex)
  /-- Any number of copies. -/
  | star (inner : Regex)
  /-- At least `min` copies, and at most `max` where that is given. -/
  | repetition (inner : Regex) (min : Nat) (max : Option Nat)
  deriving Repr, Inhabited

namespace Regex

/-- The concatenation of parts; a single part stands for itself, and none for the empty word. -/
def ofParts : List Regex → Regex
  | [] => epsilon
  | [r] => r
  | parts => concat parts

/-- The union of branches; a single branch stands for itself. -/
def ofBranches : List Regex → Regex
  | [r] => r
  | branches => union branches

end Regex

end PathQuery
