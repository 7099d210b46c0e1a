import PathQuery.Nfa.Determinize
import PathQuery.Nfa.Partition
import PathQuery.Nfa.Trim

/-!
# Nfa/Minimize — merging states with the same future

Two states of a deterministic automaton are equivalent where the same words lead from them to final
states. `Nfa.classes` finds the equivalence classes by refinement: states are first told apart by
whether they are final states, then by whether arcs lead from them into the blocks that this makes,
until no block is left to tell states apart by. Classes are numbered by their smallest members.
`Nfa.minimize` determinizes where needed, trims, and merges each class into one state.
-/

namespace PathQuery.Nfa

/-- Replaces each value of a list by the number of different values before its first occurrence. -/
def rank {α : Type} [DecidableEq α] (l : List α) : List Nat :=
  let values := Distinct.ofList l
  l.map fun a => values.idxOf a

/-- The equivalence class of each state. -/
def classes (A : Nfa) : List Nat := rank A.partition.blockOf

/-- The automaton with each class of states merged into one. -/
def merge (A : Nfa) (classes : List Nat) : Nfa :=
  let classOf (q : Nat) : Nat := (classes[q]?).getD 0
  { numStates := (Distinct.ofList classes).length
    start := Ascending.ofList (A.start.map classOf)
    final := Ascending.ofList (A.final.map classOf)
    arcs := Distinct.ofList (A.arcs.map fun a => ⟨classOf a.src, a.label, classOf a.dst⟩)
    symbols := A.symbols }

/-- The smallest automaton with the words of a deterministic one. -/
def minimizeDeterministic (A : Nfa) : Nfa :=
  let T := A.trim
  if T.numStates ≤ 1 then T else T.merge T.classes

/-- The smallest deterministic automaton with the same words. -/
def minimize (A : Nfa) : Nfa :=
  if A.isDeterministic then A.minimizeDeterministic else A.determinize.minimizeDeterministic

end PathQuery.Nfa
