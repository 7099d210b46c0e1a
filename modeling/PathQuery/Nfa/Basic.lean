import PathQuery.Ascending
import PathQuery.Numbering
import PathQuery.Search

/-!
# Nfa/Basic — finite automata with empty moves

An `Nfa` lists its arcs between the states `0, …, numStates - 1`. An arc is labelled with the number
of a symbol or, for an empty move, with nothing; a number that no symbol has is allowed, and no
word has a letter for it. `Nfa.accepts` follows a word through sets of states that are closed under
empty moves.
-/

namespace PathQuery

/-- A move between two states, on a symbol number or on nothing. -/
structure Arc where
  src : Nat
  label : Option Nat
  dst : Nat
  deriving DecidableEq, Repr

/-- A finite automaton. -/
structure Nfa where
  numStates : Nat
  start : List Nat
  final : List Nat
  arcs : List Arc
  symbols : Numbering String
  deriving DecidableEq

namespace Nfa

/-- The automaton without states. -/
def empty : Nfa := ⟨0, [], [], [], .empty⟩

/-- The automaton with another state, and that state. -/
def addState (A : Nfa) : Nfa × Nat := ({ A with numStates := A.numStates + 1 }, A.numStates)

/-- The automaton with another arc. -/
def addArc (A : Nfa) (src : Nat) (label : Option Nat) (dst : Nat) : Nfa :=
  { A with arcs := A.arcs ++ [⟨src, label, dst⟩] }

/-- The automaton with another arc, labelled with a symbol. -/
def addSymbolArc (A : Nfa) (src : Nat) (symbol : String) (dst : Nat) : Nfa :=
  let (symbols, label) := A.symbols.intern symbol
  { A with symbols, arcs := A.arcs ++ [⟨src, some label, dst⟩] }

/-- The symbol that a label stands for. -/
def symbol? (A : Nfa) (label : Option Nat) : Option String := label.bind A.symbols.get?

/-- The arcs whose labels stand for symbols, with these symbols. -/
def symbolArcs (A : Nfa) : List (Nat × String × Nat) :=
  A.arcs.filterMap fun a => (A.symbol? a.label).map fun symbol => (a.src, symbol, a.dst)

/-- Whether some arc is an empty move. -/
def hasEpsilon (A : Nfa) : Bool := A.arcs.any (·.label.isNone)

/-- Whether a word has at most one path: one start state at most, no empty move, and no two arcs
with the same source and label. -/
def isDeterministic (A : Nfa) : Bool :=
  decide (A.start.length ≤ 1) && !A.hasEpsilon &&
    decide (A.arcs.map fun a => (a.src, a.label)).Nodup

/-- The states that one empty move leads to. -/
def epsilonTargets (A : Nfa) (q : Nat) : List Nat :=
  A.arcs.filterMap fun a => if a.src = q ∧ a.label = none then some a.dst else none

/-- The states that empty moves lead to from some states, these included, in ascending order. -/
def closure (A : Nfa) (states : List Nat) : List Nat :=
  Ascending.ofList
    (Search.reach A.epsilonTargets (states.length + A.arcs.length) states)

/-- The states that one arc with a label leads to from some states. -/
def targets (A : Nfa) (states : List Nat) (label : Nat) : List Nat :=
  A.arcs.filterMap fun a =>
    if a.label = some label ∧ a.src ∈ states then some a.dst else none

/-- The labels of the arcs out of some states, in ascending order. -/
def labelsFrom (A : Nfa) (states : List Nat) : List Nat :=
  Ascending.ofList (A.arcs.filterMap fun a => if a.src ∈ states then a.label else none)

/-- For each label out of a set of states the closed set that it leads to. -/
def moves (A : Nfa) (states : List Nat) : List (Nat × List Nat) :=
  (A.labelsFrom states).map fun x => (x, A.closure (A.targets states x))

/-- The states that a word leads to from some states. -/
def run (A : Nfa) (states : List Nat) : List String → List Nat
  | [] => states
  | symbol :: word =>
    match A.symbols.index? symbol with
    | none => []
    | some label => A.run (A.closure (A.targets states label)) word

/-- Whether a word leads from a start state to a final state. -/
def accepts (A : Nfa) (word : List String) : Bool :=
  (A.run (A.closure A.start) word).any (· ∈ A.final)

end Nfa

end PathQuery
