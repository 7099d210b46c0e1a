import PathQuery.InPlace
import PathQuery.Numbering

/-!
# StateTable — a numbering that is kept in both directions

A `StateTable` keeps the states of a numbering by their numbers and, apart from that, the numbers by
their states. It is changed in place: `StateTable.tryIntern` adds a state and gives its number, or
refuses it where the numbers run out, and `StateTable.intern` is for callers that rule this out.
`Numbering.table` is what is kept of a numbering.
-/

namespace PathQuery

variable {α : Type}

/-- States by their numbers, and numbers by their states. -/
structure StateTable (α : Type) where
  states : List α
  numbers : List (α × Nat)
  deriving DecidableEq

/-- What is kept of a numbering: the last state was put in first. -/
def Numbering.table (N : Numbering α) : StateTable α := ⟨N.states, N.states.zipIdx.reverse⟩

namespace StateTable

/-- No states. -/
def empty : StateTable α := ⟨[], []⟩

/-- The number of states. -/
def size (T : StateTable α) : Nat := T.states.length

/-- The state with a number. -/
def get? (T : StateTable α) (i : Nat) : Option α := T.states[i]?

variable [DecidableEq α]

/-- The number of a state. -/
def index? (T : StateTable α) (s : α) : Option Nat := T.numbers.lookup s

/-- The number of a state, which is the next one if the state is new. A state for which no number is
left is refused. -/
def tryIntern (s : α) : InPlace (StateTable α) Nat := do
  let T ← get
  match T.index? s with
  | some i => return i
  | none =>
    if Word32.max < T.size then
      throw (.dimensionMismatch (T.size + 1, T.size + 1) (Word32.max, Word32.max))
    else
      modify fun U => { U with states := U.states ++ [s] }
      modify fun U => { U with numbers := (s, T.size) :: U.numbers }
      return T.size

/-- The number of a state for which one is left. -/
def intern (s : α) : InPlace (StateTable α) Nat := .required (tryIntern s)

/-- The table in which the states of a list are put one after another. -/
def gather (put : α → InPlace (StateTable α) Nat) (l : List α) : Except Error (StateTable α) :=
  (·.1) <$> InPlace.on (l.forM fun s => do let _ ← put s) empty

/-- The table of the states of a list, unless the numbers run out. -/
def tryOfList (l : List α) : Except Error (StateTable α) := gather tryIntern l

/-- The table of the states of a list for which there are enough numbers. -/
def ofList (l : List α) : Except Error (StateTable α) := gather intern l

end StateTable

end PathQuery
