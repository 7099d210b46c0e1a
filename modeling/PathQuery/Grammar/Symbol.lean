/-!
# Grammar/Symbol — symbols and productions

A production replaces a variable, its head, by a body of terminals and variables; the empty body
stands for the empty word. `Production.text` is the written form `A -> 'a' B`, with terminals in
single quotes and `$` for the empty body.
-/

namespace PathQuery

/-- One symbol of a production's body. -/
inductive Symbol where
  | terminal (name : String)
  | nonterminal (name : String)
  deriving DecidableEq, Repr

namespace Symbol

/-- A terminal is written in single quotes, a variable by its name. -/
def text : Symbol → String
  | terminal t => "'" ++ t ++ "'"
  | nonterminal v => v

/-- The variable's name, of a variable. -/
def nonterminal? : Symbol → Option String
  | terminal _ => none
  | nonterminal v => some v

/-- The terminal's name, of a terminal. -/
def terminal? : Symbol → Option String
  | terminal t => some t
  | nonterminal _ => none

end Symbol

/-- A replacement of the variable `head` by `body`. -/
structure Production where
  head : String
  body : List Symbol
  deriving DecidableEq, Repr

namespace Production

/-- The production as written text. -/
def text (p : Production) : String :=
  match p.body with
  | [] => p.head ++ " -> $"
  | body => body.foldl (fun s x => s ++ " " ++ x.text) (p.head ++ " ->")

/-- The variable that the body consists of, of a production whose body is one variable. -/
def unitTarget? (p : Production) : Option String :=
  match p.body with
  | [.nonterminal v] => some v
  | _ => none

end Production

end PathQuery
