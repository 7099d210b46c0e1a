import PathQuery.Automaton.Basic
import PathQuery.BoolMatrix.Shaped

/-!
# Automaton/Guarded — automata with state numbers and shapes out of range

Start states and the ends of moves come from an automaton's maker, so that a number can be beyond
the last state. The operations here fail where they come upon such a number, and where matrices that
are joined have different shapes or one is asked for that is too large; otherwise they are the ones
without a guard.
-/

namespace PathQuery.Automaton

universe u

variable {σ : Type u}

/-- Whether some start state is no state. -/
def startOutOfRange (A : Automaton σ) : Bool := A.start.any fun i => decide (A.numStates ≤ i)

/-- Checks the ends of a move between `n` states. A number that is no state is a fault, of the
column if the target is none and else of the row. -/
def checkMove (n i j : Nat) : Except Error Unit :=
  if n ≤ j then .error (.fault (.columnOutOfBounds j n))
  else if n ≤ i then .error (.fault .indexOutOfBounds)
  else .ok ()

/-- Checks that a symbol can get a matrix over `n` states: that they are too many is a fault. -/
def checkSize (n : Nat) : Except Error Unit := do
  let _ ← ShapedMatrix.required (ShapedMatrix.tryZero n n)

/-- The automaton with another move, and whether the move is new. -/
def tryAddMove (A : Automaton σ) (i : Nat) (symbol : String) (j : Nat) :
    Except Error (Automaton σ × Bool) :=
  match checkMove A.numStates i j with
  | .error e => .error e
  | .ok _ => .ok (A.addMove i symbol j, !(A.matrix symbol).get i j)

/-- The automaton with the entries of a matrix joined to those of a symbol. -/
def tryUnion (A : Automaton σ) (symbol : String) (M : ShapedMatrix) : Except Error (Automaton σ) :=
  match ShapedMatrix.reshape (A.matrix symbol).shaped M with
  | .error e => .error e
  | .ok N => .ok (A.modify symbol (·.union N))

/-- The matrix of the moves on any symbol. -/
def tryAdjacency (A : Automaton σ) : Except Error ShapedMatrix := do
  let zero ← ShapedMatrix.tryZero A.numStates A.numStates
  A.matrices.foldlM (fun M (_, N) => return (← M.union N.shaped).1) zero

/-- The matrix of the paths, the empty ones included. -/
def tryClosure (A : Automaton σ) : Except Error ShapedMatrix := do (← A.tryAdjacency).closure

/-- Whether a word is accepted. A start state that is no state is a fault once a move is looked up
from it. -/
def tryAccepts (A : Automaton σ) (word : List String) : Except Error Bool :=
  match word with
  | symbol :: _ =>
    if A.hasSymbol symbol && A.startOutOfRange then .error (.fault .indexOutOfBounds)
    else .ok (A.accepts word)
  | [] => .ok (A.accepts [])

/-- Whether no final state is reachable. The search takes the start states from the last one back
and ends at the first final state, so that a start state that is no state is a fault if the last
start state is not final and there are moves to look up. -/
def tryIsEmpty (A : Automaton σ) : Except Error Bool :=
  match A.start.getLast? with
  | some i =>
    if decide (A.numStates ≤ i) && !A.isFinal i && !A.matrices.isEmpty then
      .error (.fault .indexOutOfBounds)
    else .ok A.isEmpty
  | none => .ok true

end PathQuery.Automaton
