import PathQuery.Grammar.Symbol

/-!
# Machine/Label — terminals and calls

The arcs of a recursive state machine either match the label of an edge or call a box. Both are
symbols of one alphabet, told apart by the first character of their keys: `'` before a terminal and
`@` before a call. `ofKey?_key` reads a label back from its key.
-/

namespace PathQuery.Machine

/-- What an arc of a recursive state machine stands for. -/
inductive Label where
  /-- An edge with this label. -/
  | terminal (name : String)
  /-- A path through the box with this name. -/
  | call (name : String)
  deriving DecidableEq, Repr

namespace Label

/-- The symbol that stands for a label. -/
def key : Label → String
  | terminal name => "'" ++ name
  | call name => "@" ++ name

/-- The label that a symbol stands for, unless it begins with neither mark. -/
def ofKey? (key : String) : Option Label :=
  match key.toList with
  | '\x27' :: name => some (terminal (String.ofList name))
  | '@' :: name => some (call (String.ofList name))
  | _ => none

theorem ofKey?_key (label : Label) : ofKey? label.key = some label := by
  cases label <;> simp [ofKey?, key]

/-- The label of a symbol in a production's body. -/
def ofSymbol : Symbol → Label
  | .terminal t => terminal t
  | .nonterminal v => call v

/-- The symbol of a production's body that a label stands for. -/
def toSymbol : Label → Symbol
  | terminal t => .terminal t
  | call v => .nonterminal v

end Label

end PathQuery.Machine
