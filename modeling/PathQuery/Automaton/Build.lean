import PathQuery.Automaton.Guarded
import PathQuery.Graph
import PathQuery.Nfa.Guarded
import PathQuery.Regex.Nfa

/-!
# Automaton/Build — automata of graphs, arc lists and patterns

`Automaton.ofGraph` has the nodes of a graph as its states and an edge's label as the symbol of a
move, `Automaton.ofNfa?` the states and arcs of an `Nfa` after removal of empty moves, and
`Automaton.ofPattern?` is the minimal automaton of a pattern.
-/

namespace PathQuery.Automaton

/-- The automaton of a list of arcs. Empty moves are removed by determinizing, arcs whose label
stands for no symbol are left out, and ends out of range are faults. -/
def ofNfa? (A : Nfa) : Except Error (Automaton Nat) := do
  let D ← if A.hasEpsilon then A.tryDeterminize else .ok A
  let moves := D.symbolArcs
  moves.forM fun (i, _, j) => checkMove D.numStates i j
  return ofMoves (.range D.numStates) moves (Ascending.ofList D.start) (Ascending.ofList D.final)

/-- The minimal automaton of a pattern. -/
def ofPattern? (pattern : String) : Except Error (Automaton Nat) := do
  ofNfa? (← Regex.minimalDfa? pattern)

/-- The numbers of the nodes in a filter, or of all nodes where there is no filter or an empty one.
Members that are no nodes are ignored. -/
def select (states : Numbering Nat) : Option (List Nat) → List Nat
  | none | some [] => List.range states.size
  | some filter => Ascending.ofList (filter.filterMap states.index?)

/-- The automaton of a graph, with the nodes in the two filters as start and as final states. -/
def ofGraph (g : Graph) (startNodes finalNodes : Option (List Nat)) : Automaton Nat :=
  ofMoves g.numbering g.moves (select g.numbering startNodes) (select g.numbering finalNodes)

end PathQuery.Automaton
