import PathQuery.Nfa.Basic

/-!
# Nfa/Trim — the states on accepting paths

`Nfa.trim` keeps the states that lie on a path from a start state to a final state, numbered in the
order they had, and the arcs between them.
-/

namespace PathQuery.Nfa

/-- The states that paths lead to from the start states. -/
def reachable (A : Nfa) : List Nat :=
  Search.reach (fun q => A.arcs.filterMap fun a => if a.src = q then some a.dst else none)
    (A.start.length + A.arcs.length) A.start

/-- The states from which paths lead to the final states. -/
def coreachable (A : Nfa) : List Nat :=
  Search.reach (fun q => A.arcs.filterMap fun a => if a.dst = q then some a.src else none)
    (A.final.length + A.arcs.length) A.final

/-- The states on paths from a start state to a final state, in ascending order. -/
def live (A : Nfa) : List Nat :=
  let forth := A.reachable
  let back := A.coreachable
  (List.range A.numStates).filter fun q => decide (q ∈ forth) && decide (q ∈ back)

/-- The automaton restricted to a list of states, each numbered by its place there. -/
def restrict (A : Nfa) (states : List Nat) : Nfa :=
  let place (q : Nat) : Option Nat := if q ∈ states then some (states.idxOf q) else none
  { numStates := states.length
    start := A.start.filterMap place
    final := A.final.filterMap place
    arcs := A.arcs.filterMap fun a => do return ⟨← place a.src, a.label, ← place a.dst⟩
    symbols := A.symbols }

/-- The automaton restricted to the states on accepting paths. -/
def trim (A : Nfa) : Nfa := A.restrict A.live

end PathQuery.Nfa
