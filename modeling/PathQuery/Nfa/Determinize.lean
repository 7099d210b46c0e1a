import PathQuery.Nfa.Basic
import PathQuery.Nfa.SubsetTable

/-!
# Nfa/Determinize — the subset automaton

The states of `Nfa.determinize` are the closed sets of states that some word leads to. They are
numbered as a search comes upon them, which takes them up in the order of their numbers and their
labels in ascending order; each move of a set is an arc. The automaton has one start state, no empty
moves and at most one arc for a state and a label; an automaton without start states has no sets and
no states.
-/

namespace PathQuery.Nfa

/-- What the search holds: the numbered sets, the numbers of those that it has still to take up, and
the arcs out of the others. -/
structure SubsetSearch where
  table : SubsetTable
  pending : List Nat
  arcs : List Arc

/-- Whether a set has a final state. -/
def meetsFinal (A : Nfa) (S : List Nat) : Bool := S.any (· ∈ A.final)

/-- Before the first step the start states' closure is numbered and pending. -/
def startSearch (A : Nfa) : SubsetSearch :=
  let S := A.closure A.start
  let (table, i, _) := SubsetTable.empty.intern S (A.meetsFinal S)
  ⟨table, [i], []⟩

/-- Adds an arc from the set with number `i` to a set, which is pending if it is new. -/
def SubsetSearch.addMove (A : Nfa) (i : Nat) (s : SubsetSearch) (move : Nat × List Nat) :
    SubsetSearch :=
  let (label, S) := move
  let (table, j, isNew) := s.table.intern S (A.meetsFinal S)
  ⟨table, if isNew then s.pending ++ [j] else s.pending, s.arcs ++ [⟨i, some label, j⟩]⟩

/-- Takes up the set with number `i`: all its moves become arcs. -/
def SubsetSearch.takeUp (A : Nfa) (s : SubsetSearch) (i : Nat) : SubsetSearch :=
  (A.moves ((s.table.sets.get? i).getD [])).foldl (SubsetSearch.addMove A i) s

/-- Takes up the pending sets in order, at most the given number of them. -/
def SubsetSearch.run (A : Nfa) : Nat → SubsetSearch → SubsetSearch
  | 0, s => s
  | bound + 1, s =>
    match s.pending with
    | [] => s
    | i :: pending => run A bound (SubsetSearch.takeUp A { s with pending } i)

/-- The sets of states that words lead to from the start states, and the arcs between them. -/
def subsetSearch (A : Nfa) : SubsetSearch :=
  .run A (Nat.pow 2 (A.start.length + A.arcs.length)) A.startSearch

/-- The sets of states that words lead to from the start states. -/
def subsets (A : Nfa) : List (List Nat) := A.subsetSearch.table.sets.states

/-- The automaton whose states are the sets of states that words lead to. -/
def determinize (A : Nfa) : Nfa :=
  if A.start.isEmpty then { empty with symbols := A.symbols }
  else
    let s := A.subsetSearch
    { numStates := s.table.size
      start := [0]
      final := s.table.accepting
      arcs := s.arcs
      symbols := A.symbols }

end PathQuery.Nfa
