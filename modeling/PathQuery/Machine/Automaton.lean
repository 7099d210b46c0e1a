import PathQuery.Automaton.Guarded
import PathQuery.Machine.Basic

/-!
# Machine/Automaton — the boxes of a machine side by side

The boxes of a machine form one automaton whose states are the pairs of a box and a state of that
box, with no moves between different boxes. Its start and final states are those of all boxes.

All boxes together may have more states than words can number, even where none of them has: then
`tryToAutomaton` fails, and else it has `toAutomaton` as its result.
-/

namespace PathQuery

/-- A state of one of a machine's boxes. -/
structure BoxState where
  box : Nat
  state : Nat
  deriving DecidableEq, Repr

/-- States of boxes are listed box by box. -/
instance : Precedes BoxState :=
  ⟨fun p q => precedes (p.box, p.state) (q.box, q.state)⟩

namespace Machine

/-- The states of all boxes, box by box. -/
def boxStates (m : Machine) : List BoxState :=
  m.boxes.zipIdx.flatMap fun ((_, B), b) => (List.range B.numStates).map fun q => ⟨b, q⟩

/-- The states of all boxes with their numbers. -/
def states (m : Machine) : Numbering BoxState := .ofList m.boxStates

/-- The arcs of all boxes, with the numbers of their ends among the states of all boxes. -/
def moves (m : Machine) (states : Numbering BoxState) : List (Nat × String × Nat) :=
  m.boxes.zipIdx.flatMap fun ((_, B), b) => B.symbolArcs.filterMap fun (src, symbol, dst) => do
    return (← states.index? ⟨b, src⟩, symbol, ← states.index? ⟨b, dst⟩)

/-- The numbers of a selection of states from each box among the states of all boxes. -/
def indices (m : Machine) (states : Numbering BoxState) (selection : Nfa → List Nat) : List Nat :=
  Ascending.ofList (m.boxes.zipIdx.flatMap fun ((_, B), b) =>
    (selection B).filterMap fun q => states.index? ⟨b, q⟩)

/-- The boxes as one automaton over their numbered states. -/
def automatonOf (m : Machine) (states : Numbering BoxState) : Automaton BoxState :=
  .ofMoves states (m.moves states) (m.indices states (·.start)) (m.indices states (·.final))

/-- The boxes as one automaton. -/
def toAutomaton (m : Machine) : Automaton BoxState := m.automatonOf m.states

/-- The boxes as one automaton, for which their states are collected. A move needs a matrix for its
symbol, so that it can be a fault where no state is. -/
def tryToAutomaton (m : Machine) : Except Error (Automaton BoxState) := do
  let states ← Numbering.collect m.boxStates
  (m.moves states).forM fun _ => Automaton.checkSize states.size
  return m.automatonOf states

end Machine

end PathQuery
