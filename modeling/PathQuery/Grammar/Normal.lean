import PathQuery.Error
import PathQuery.Grammar.Membership

/-!
# Grammar/Normal — grammars in weak normal form

In weak normal form every body is empty, one terminal, or two variables. `Rule.ofProduction?`
recognizes such productions, and `Rule.toProduction` writes a rule as one.
-/

namespace PathQuery

/-- The body of a rule in weak normal form. -/
inductive Rule.Body where
  | empty
  | terminal (name : String)
  | pair (left right : String)
  deriving DecidableEq, Repr

/-- A production in weak normal form. -/
structure Rule where
  head : String
  body : Rule.Body
  deriving DecidableEq, Repr

namespace Rule

/-- The rule as a production. -/
def toProduction (r : Rule) : Production :=
  ⟨r.head, match r.body with
    | .empty => []
    | .terminal t => [.terminal t]
    | .pair b c => [.nonterminal b, .nonterminal c]⟩

/-- The rule that a production in weak normal form is. -/
def ofProduction? (p : Production) : Except Error Rule :=
  match p.body with
  | [] => .ok ⟨p.head, .empty⟩
  | [.terminal t] => .ok ⟨p.head, .terminal t⟩
  | [.nonterminal b, .nonterminal c] => .ok ⟨p.head, .pair b c⟩
  | _ => .error (.grammarForm p)

theorem ofProduction?_toProduction (r : Rule) : ofProduction? r.toProduction = .ok r := by
  obtain ⟨head, body⟩ := r
  cases body <;> rfl

/-- The variables of a rule. -/
def nonterminals (r : Rule) : List String :=
  match r.body with
  | .pair b c => [r.head, b, c]
  | _ => [r.head]

end Rule

/-- A grammar in weak normal form. -/
structure NormalGrammar where
  start : String
  rules : List Rule
  deriving DecidableEq, Repr

namespace NormalGrammar

/-- Whether there are no rules. -/
def isEmpty (g : NormalGrammar) : Bool := g.rules.isEmpty

/-- The start variable and the variables of the rules, in ascending order. -/
def nonterminals (g : NormalGrammar) : List String :=
  Ascending.ofList (g.start :: g.rules.flatMap Rule.nonterminals)

/-- The grammar with the rules as productions. -/
def toGrammar (g : NormalGrammar) : Grammar := .ofList g.start (g.rules.map Rule.toProduction)

/-- The grammar in weak normal form that a grammar already is. -/
def ofGrammar? (g : Grammar) : Except Error NormalGrammar := do
  return ⟨g.start, ← g.productions.mapM Rule.ofProduction?⟩

/-- Whether the start variable derives a word. -/
def contains (g : NormalGrammar) (word : List String) : Bool := g.toGrammar.contains word

end NormalGrammar

end PathQuery
