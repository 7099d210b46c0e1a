import PathQuery.Automaton.Build
import PathQuery.Automaton.Product
import PathQuery.Engine.Fact
import PathQuery.Machine.Automaton

/-!
# Engine/Tensor — facts as paths of a product

The tensor engine runs a machine and a graph side by side. A path of the product from a start to a
final state of the same box is a path through that box, and the graph gains a move for calls of it.
With the new moves there are new paths, so the product and its closure are formed anew in each
round, until the closure has as many entries as in the round before.
-/

namespace PathQuery.Tensor

/-- The moves of the graph that a path of the product adds, where the graph has `n` nodes and the
path joins the states with numbers `i` and `j`: none, unless it passes a box. -/
def callMove? (boxes : Automaton BoxState) (names : List String) (n i j : Nat) :
    Option (Nat × String × Nat) := do
  guard (boxes.isStart (i / n) && boxes.isFinal (j / n))
  let p ← boxes.states.get? (i / n)
  let q ← boxes.states.get? (j / n)
  guard (p.box = q.box)
  return (i % n, ← names[p.box]?, j % n)

/-- The graph with a move for each path of the product through a box. -/
def tryAddCalls (boxes : Automaton BoxState) (names : List String) (paths : List (Nat × Nat))
    (graph : Automaton Nat) : Except Error (Automaton Nat) :=
  let n := graph.numStates
  paths.foldlM
    (fun graph (i, j) => match callMove? boxes names n i j with
      | some (v, name, w) => do return (← graph.tryAddMove v (Machine.Label.call name).key w).1
      | none => .ok graph)
    graph

/-- Runs rounds until the closure of the product has as many entries as in the round before, at most
the given number of them: the graph, the number of rounds, and the number of entries. -/
def run (boxes : Automaton BoxState) (names : List String) :
    Nat → Automaton Nat → Nat → Option Nat → Except Error (Automaton Nat × Nat × Nat)
  | 0, graph, rounds, last => .ok (graph, rounds, last.getD 0)
  | bound + 1, graph, rounds, last => do
    let closure ← (← boxes.tryProduct graph).tryClosure
    let entries := closure.matrix.count
    if last = some entries then return (graph, rounds + 1, entries)
    else
      let graph ← tryAddCalls boxes names closure.matrix.entries graph
      run boxes names bound graph (rounds + 1) (some entries)

/-- The graph with its edges keyed as terminals. -/
def edgeGraph (g : Graph) : Automaton Nat :=
  (Automaton.ofGraph g none none).renameSymbols fun x => (Machine.Label.terminal x).key

/-- The graph with calls of the boxes with the empty word from each node to itself. -/
def tryAddEmptyCalls (m : Machine) (graph : Automaton Nat) : Except Error (Automaton Nat) := do
  let diagonal ← ShapedMatrix.tryIdentity graph.numStates
  m.nullable.foldlM (fun graph name => graph.tryUnion (Machine.Label.call name).key diagonal) graph

/-- The facts that the call moves of a graph hold. -/
def facts (names : List String) (graph : Automaton Nat) : List Fact :=
  Ascending.ofList (names.flatMap fun name =>
    (graph.matrix (Machine.Label.call name).key).entries.filterMap fun (i, j) => do
      return ⟨← graph.states.get? i, name, ← graph.states.get? j⟩)

/-- The facts of a machine over a graph, one for each path through a box. The states of the boxes are
not counted before: that there are too many of them is a fault, that there are too many pairs of one
and a node a refusal. -/
def derive (m : Machine) (g : Graph) : Except Error Derivations :=
  let graph := edgeGraph g
  let n := graph.numStates
  if n = 0 ∨ m.isEmpty then .ok .none
  else if Word32.max < n then
    .error (.dimensionMismatch (n, n) (Word32.max, Word32.max))
  else do
    let graph ← tryAddEmptyCalls m graph
    let boxes ← m.tryToAutomaton
    let size := boxes.numStates * n
    let (graph, rounds, entries) ← run boxes m.names (size * size + 2) graph 0 none
    return ⟨facts m.names graph, rounds, entries⟩

end PathQuery.Tensor
