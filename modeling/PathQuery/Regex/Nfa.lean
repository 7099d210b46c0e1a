import PathQuery.Nfa.Minimize
import PathQuery.Regex.Parse

/-!
# Regex/Nfa — the automaton of an expression

Each expression becomes a part of one automaton, with one entry and one exit. `Regex.compile` adds
its states, arcs and symbols to those that the automaton already has; parts are put together by
empty moves. `Regex.toNfa` compiles an expression alone, and `Regex.minimalDfa?` is the minimal
automaton of a pattern. The states are counted by `Nfa.addState`, which has no upper limit.
-/

namespace PathQuery.Regex

/-- The two states at the ends of a part of an automaton. -/
structure Ends where
  /-- The state that paths enter by. -/
  entry : Nat
  /-- The state that paths leave by. -/
  exit : Nat

/-- Adds a part to an automaton. -/
abbrev Compiler := Nfa → Nfa × Ends

namespace Compiler

/-- One arc between two new states, labelled with a symbol or with nothing. -/
def arc (label : Option String) : Compiler := fun A =>
  let (A, entry) := A.addState
  let (A, exit) := A.addState
  match label with
  | none => (A.addArc entry none exit, ⟨entry, exit⟩)
  | some name => (A.addSymbolArc entry name exit, ⟨entry, exit⟩)

/-- Parts behind one that ends in the state `exit`, each entered from the one before it, and the
state that the last one ends in. -/
def chainFrom (exit : Nat) : List Compiler → Nfa → Nfa × Nat
  | [], A => (A, exit)
  | part :: parts, A =>
    let (A, E) := part A
    chainFrom E.exit parts (A.addArc exit none E.entry)

/-- Parts one after another; none make an empty move. -/
def chain : List Compiler → Compiler
  | [] => arc none
  | part :: parts => fun A =>
    let (A, E) := part A
    let (A, exit) := chainFrom E.exit parts A
    (A, ⟨E.entry, exit⟩)

/-- Parts that are each entered from one state and left to another. -/
def branchesFrom (E : Ends) : List Compiler → Nfa → Nfa
  | [], A => A
  | branch :: branches, A =>
    let (A, F) := branch A
    branchesFrom E branches ((A.addArc E.entry none F.entry).addArc F.exit none E.exit)

/-- A choice between parts. -/
def choice (branches : List Compiler) : Compiler := fun A =>
  let (A, entry) := A.addState
  let (A, exit) := A.addState
  (branchesFrom ⟨entry, exit⟩ branches A, ⟨entry, exit⟩)

/-- A part passed any number of times. -/
def loop (inner : Compiler) : Compiler := fun A =>
  let (A, entry) := A.addState
  let (A, exit) := A.addState
  let (A, E) := inner A
  let A := (A.addArc entry none exit).addArc entry none E.entry
  ((A.addArc E.exit none E.entry).addArc E.exit none exit, ⟨entry, exit⟩)

/-- A part passed at least `min` times, and at most `max` times where that is given. -/
def copies (inner : Compiler) (min : Nat) (max : Option Nat) : Compiler :=
  chain (List.replicate min inner ++
    match max with
    | none => [loop inner]
    | some max => List.replicate (max - min) (choice [inner, arc none]))

end Compiler

mutual

/-- Adds the part of an expression to an automaton. -/
def compile : Regex → Compiler
  | epsilon => .arc none
  | symbol name => .arc (some name)
  | concat parts => .chain (compilers parts)
  | union branches => .choice (compilers branches)
  | star inner => .loop (compile inner)
  | repetition inner min max => .copies (compile inner) min max

/-- The parts of a list of expressions. -/
def compilers : List Regex → List Compiler
  | [] => []
  | e :: es => compile e :: compilers es

end

/-- An automaton for the words that an expression denotes, with one start and one final state. -/
def toNfa (e : Regex) : Nfa :=
  let (A, E) := e.compile .empty
  { A with start := [E.entry], final := [E.exit] }

/-- The minimal automaton for the words that an expression denotes. -/
def toMinimalDfa (r : Regex) : Nfa := r.toNfa.minimize

/-- The minimal automaton for the words that a pattern denotes. -/
def minimalDfa? (pattern : String) : Except Error Nfa := (·.toMinimalDfa) <$> parse? pattern

end PathQuery.Regex
