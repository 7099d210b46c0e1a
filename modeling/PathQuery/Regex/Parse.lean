import PathQuery.Error
import PathQuery.Regex.Basic
import PathQuery.Text.Alphanumeric
import PathQuery.Text.Blank
import PathQuery.Word32

/-!
# Regex/Parse — patterns read in one pass

    union  ::= branch ('|' branch)*           branch ::= ε | part ('.'? part)*
    part   ::= atom ('*' | '+' | '?' | '^' '{' count (',' count?)? '}')*
    atom   ::= letter, number or '_' | quoted symbol | '$' | '(' union ')'

White space may stand between any two of these tokens. `Regex.parse?` reads a pattern in one pass: a
`Reader` holds the group being read, the groups around it and the token being read, and takes one
character at a time (`Reader.step`). A pattern is refused at the byte offset of the first character
that no pattern can go on with, or of the opening character of what is left unfinished.
-/

namespace PathQuery.Regex

open Text (isAlphanumeric isBlank)

/-- A group being read: the branches that are complete and the parts of the current branch, both
from the last one back. -/
structure Level where
  branches : List Regex
  parts : List Regex

namespace Level

/-- A group of which nothing is read yet. -/
def empty : Level := ⟨[], []⟩

/-- Starts another branch. -/
def branch (level : Level) : Level := ⟨ofParts level.parts.reverse :: level.branches, []⟩

/-- The expression that the group denotes where it ends here. -/
def close (level : Level) : Regex :=
  ofBranches (ofParts level.parts.reverse :: level.branches).reverse

/-- Adds a part to the current branch. -/
def push (level : Level) (part : Regex) : Level := { level with parts := part :: level.parts }

/-- Repeats the last part of the current branch. -/
def modifyLast (level : Level) (f : Regex → Regex) : Level :=
  match level.parts with
  | [] => level
  | part :: parts => { level with parts := f part :: parts }

end Level

/-- How much of a repetition bound is read. Offsets are those of the first digit of a count. -/
inductive Bound where
  /-- Nothing after the caret. -/
  | caret
  /-- The opening brace. -/
  | brace
  /-- Digits of the least count, worth `value`. -/
  | minDigits (pos value : Nat)
  /-- The least count. -/
  | min (min : Nat)
  /-- The least count and a comma. -/
  | comma (min : Nat)
  /-- Digits of the greatest count, worth `value`. -/
  | maxDigits (min pos value : Nat)
  /-- Both counts. -/
  | max (min max : Nat)

/-- The token being read. Offsets are those of its first character. -/
inductive Pending where
  /-- None: the next character starts a token. -/
  | nothing
  /-- A dot, which needs an atom after it. -/
  | dot (pos : Nat)
  /-- A quoted symbol, its characters from the last one back. -/
  | quote (pos : Nat) (characters : List Char)
  /-- The bound of a repetition. -/
  | bound (bound : Bound)

/-- What has been read of a pattern: the groups around the current one, from the innermost out, each
with the offset of its opening parenthesis and its content so far; the current group; and the
current token. -/
structure Reader where
  outer : List (Nat × Level)
  level : Level
  pending : Pending

/-- Whether a character starts an atom. -/
def startsAtom (c : Char) : Bool :=
  isAlphanumeric c || c == '_' || c == '\x22' || c == '$' || c == '('

/-- The value of a decimal digit. -/
def digit? (c : Char) : Option Nat :=
  if c.isDigit then some (c.toNat - '0'.toNat) else none

namespace Bound

/-- A count, unless it is beyond the 32-bit range. -/
def count (pos value : Nat) : Except Error Nat :=
  if value ≤ Word32.max then .ok value else .error (.regexSyntax pos .expectedCount)

/-- The greatest count after the least one, unless it is beyond the 32-bit range or below that. -/
def upperCount (min pos value : Nat) : Except Error Nat := do
  let max ← count pos value
  if max < min then .error (.regexSyntax pos (.invalidRange min max)) else .ok max

/-- Goes on with a character that is no digit of a count: either the bound is complete, with its
least and greatest count, or it goes on. -/
def afterCount (pos : Nat) (c : Char) : Bound → Except Error (Bound ⊕ Nat × Option Nat)
  | min m =>
    if isBlank c then .ok (.inl (min m))
    else if c = ',' then .ok (.inl (comma m))
    else if c = '\x7d' then .ok (.inr (m, some m))
    else .error (.regexSyntax pos (.expected '\x7d' (some c)))
  | max m n =>
    if isBlank c then .ok (.inl (max m n))
    else if c = '\x7d' then .ok (.inr (m, some n))
    else .error (.regexSyntax pos (.expected '\x7d' (some c)))
  | bound => .ok (.inl bound)

/-- Goes on with the next character: either the bound is complete, with its least and greatest
count, or it goes on. -/
def step (pos : Nat) (c : Char) : Bound → Except Error (Bound ⊕ Nat × Option Nat)
  | caret =>
    if isBlank c then .ok (.inl caret)
    else if c = '\x7b' then .ok (.inl brace)
    else .error (.regexSyntax pos (.expected '\x7b' (some c)))
  | brace =>
    if isBlank c then .ok (.inl brace)
    else match digit? c with
      | some d => .ok (.inl (minDigits pos d))
      | none => .error (.regexSyntax pos .expectedCount)
  | minDigits start value =>
    match digit? c with
    | some d => .ok (.inl (minDigits start (10 * value + d)))
    | none => do afterCount pos c (min (← count start value))
  | comma m =>
    if isBlank c then .ok (.inl (comma m))
    else if c = '\x7d' then .ok (.inr (m, none))
    else match digit? c with
      | some d => .ok (.inl (maxDigits m pos d))
      | none => .error (.regexSyntax pos .expectedCount)
  | maxDigits m start value =>
    match digit? c with
    | some d => .ok (.inl (maxDigits m start (10 * value + d)))
    | none => do afterCount pos c (max m (← upperCount m start value))
  | bound => afterCount pos c bound

/-- Why a pattern cannot end inside the bound. -/
def endError (length : Nat) : Bound → Error
  | caret => .regexSyntax length (.expected '\x7b' none)
  | brace | comma _ => .regexSyntax length .expectedCount
  | minDigits start value =>
    match count start value with
    | .ok _ => .regexSyntax length (.expected '\x7d' none)
    | .error e => e
  | maxDigits m start value =>
    match upperCount m start value with
    | .ok _ => .regexSyntax length (.expected '\x7d' none)
    | .error e => e
  | min _ | max _ _ => .regexSyntax length (.expected '\x7d' none)

end Bound

namespace Reader

/-- Nothing is read yet. -/
def start : Reader := ⟨[], .empty, .nothing⟩

/-- Adds a part to the current group, after the token that it was read from. -/
def push (reader : Reader) (part : Regex) : Reader :=
  { reader with level := reader.level.push part, pending := .nothing }

/-- Repeats the last part, or refuses the repetition sign `c` where there is none. -/
def repeatLast (reader : Reader) (pos : Nat) (c : Char) (f : Regex → Regex) :
    Except Error Reader :=
  if reader.level.parts.isEmpty then .error (.regexSyntax pos (.nothingToRepeat c))
  else .ok { reader with level := reader.level.modifyLast f }

/-- Goes on with the first character of a token. -/
def startToken (reader : Reader) (pos : Nat) (c : Char) : Except Error Reader :=
  if c = '\x22' then .ok { reader with pending := .quote pos [] }
  else if c = '$' then .ok (reader.push .epsilon)
  else if c = '(' then .ok ⟨(pos, reader.level) :: reader.outer, .empty, .nothing⟩
  else if isAlphanumeric c || c == '_' then .ok (reader.push (.symbol (String.singleton c)))
  else if c = '.' then
    if reader.level.parts.isEmpty then .error (.regexSyntax pos .loneDot)
    else .ok { reader with pending := .dot pos }
  else if c = '*' then reader.repeatLast pos c .star
  else if c = '+' then reader.repeatLast pos c (.repetition · 1 none)
  else if c = '?' then reader.repeatLast pos c (.repetition · 0 (some 1))
  else if c = '^' then do
    return { ← reader.repeatLast pos c id with pending := .bound .caret }
  else if c = '|' then .ok { reader with level := reader.level.branch }
  else match reader.outer with
    | [] => .error (.regexSyntax pos (.unexpected c))
    | (opening, level) :: outer =>
      if c = ')' then .ok ⟨outer, level.push reader.level.close, .nothing⟩
      else .error (.regexSyntax opening .unclosedGroup)

/-- Goes on with the next character, which stands at a byte offset. -/
def step (reader : Reader) (pos : Nat) (c : Char) : Except Error Reader :=
  match reader.pending with
  | .nothing => if isBlank c then .ok reader else reader.startToken pos c
  | .dot start =>
    if isBlank c then .ok reader
    else if startsAtom c then startToken { reader with pending := .nothing } pos c
    else .error (.regexSyntax start .loneDot)
  | .quote start characters =>
    if c = '\x22' then
      if characters.isEmpty then .error (.regexSyntax start .emptyQuote)
      else .ok (reader.push (.symbol (String.ofList characters.reverse)))
    else .ok { reader with pending := .quote start (c :: characters) }
  | .bound bound => do
    match ← bound.step pos c with
    | .inl bound => return { reader with pending := .bound bound }
    | .inr (min, max) =>
      return ⟨reader.outer, reader.level.modifyLast (.repetition · min max), .nothing⟩

/-- Reads characters from a byte offset on, up to the end of the pattern. -/
def run (reader : Reader) (pos : Nat) : List Char → Except Error Regex
  | [] =>
    match reader.pending with
    | .nothing =>
      match reader.outer with
      | [] => .ok reader.level.close
      | (opening, _) :: _ => .error (.regexSyntax opening .unclosedGroup)
    | .dot start => .error (.regexSyntax start .loneDot)
    | .quote start _ => .error (.regexSyntax start .unterminatedQuote)
    | .bound bound => .error (bound.endError pos)
  | c :: rest => do (← reader.step pos c).run (pos + c.utf8Size) rest

end Reader

/-- The expression that a pattern denotes. -/
def parse? (pattern : String) : Except Error Regex := Reader.start.run 0 pattern.toList

end PathQuery.Regex
