/-!
# Regex/Problem — what can be wrong with a pattern

The ways in which a text fails to be a pattern, and their wording. Each is reported together with
the byte offset at which it was noticed.
-/

namespace PathQuery.Regex

/-- A reason to refuse a pattern. -/
inductive Problem where
  /-- A character that starts nothing. -/
  | unexpected (c : Char)
  /-- A dot without an operand on one of its sides. -/
  | loneDot
  /-- A repetition sign that follows nothing. -/
  | nothingToRepeat (c : Char)
  /-- A group without its closing parenthesis. -/
  | unclosedGroup
  /-- A quoted symbol without its closing quote. -/
  | unterminatedQuote
  /-- A quoted symbol without characters. -/
  | emptyQuote
  /-- Another character, or none, in the place of a brace. -/
  | expected (want : Char) (found : Option Char)
  /-- No number, or one beyond the 32-bit range, in the place of a repetition count. -/
  | expectedCount
  /-- A greatest repetition count below the least one. -/
  | invalidRange (min max : Nat)
  deriving DecidableEq, Repr

namespace Problem

/-- A character between single quotes. -/
def quoted (c : Char) : String := "'" ++ String.singleton c ++ "'"

/-- The wording of a problem. -/
def message : Problem → String
  | unexpected c => "unexpected " ++ quoted c
  | loneDot => "'.' needs an operand on both sides"
  | nothingToRepeat c => quoted c ++ " has nothing to repeat"
  | unclosedGroup => "unclosed group '('"
  | unterminatedQuote => "unterminated quoted symbol"
  | emptyQuote => "empty quoted symbol"
  | expected want (some c) => "expected " ++ quoted want ++ ", found " ++ quoted c
  | expected want none => "expected " ++ quoted want ++ ", found end of pattern"
  | expectedCount => "expected a repetition count"
  | invalidRange min max => "invalid range " ++ toString min ++ ".." ++ toString max

end Problem

end PathQuery.Regex
