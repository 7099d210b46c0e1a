import PathQuery.Automaton.Basic
import PathQuery.BoolMatrix.Shaped

/-!
# Automaton/Product — the product of two automata

The product runs two automata side by side: its states are the pairs of their states, numbered with
the second component counting fastest (`pairIndex`), and its moves are those that both make on a
common symbol. The numbers of pairs of states are words (`tryPairIndex_of_lt`).
-/

namespace PathQuery.Automaton

universe u v

variable {σ : Type u} {τ : Type v}

/-- The number of a pair of states, where the second automaton has `n` states. -/
def pairIndex (n i j : Nat) : Nat := i * n + j

/-- All pairs of a state of one list and a state of the other, in the order of the lists. -/
def statePairs (is js : List Nat) : List (Nat × Nat) := is.flatMap fun i => js.map fun j => (i, j)

/-- The numbers of the pairs of two lists of states, in ascending order. -/
def pairIndices (n : Nat) (is js : List Nat) : List Nat :=
  Ascending.ofList ((statePairs is js).map fun (i, j) => pairIndex n i j)

/-- The matrices of the symbols that two automata have in common. -/
def commonMatrices (A : Automaton σ) (B : Automaton τ) :
    List (String × BoolMatrix (A.states.size * B.states.size) (A.states.size * B.states.size)) :=
  A.matrices.filterMap fun (symbol, M) =>
    (B.matrix? symbol).map fun N => (symbol, M.kron N)

/-- The automaton of the words that two automata both accept. -/
def product (A : Automaton σ) (B : Automaton τ) : Automaton (σ × τ) where
  states := A.states.product B.states
  matrices := (commonMatrices A B).map fun (symbol, M) =>
    (symbol, M.cast (Numbering.size_product ..).symm (Numbering.size_product ..).symm)
  start := pairIndices B.numStates A.start B.start
  final := pairIndices B.numStates A.final B.final

/-- The number of a pair of states, computed in words. -/
def tryPairIndex (n i j : Nat) : Except Error Nat := do
  Word32.tryAdd (← Word32.tryMul i n) j

/-- The numbers of some pairs of states, computed in words. -/
def tryPairIndices (n : Nat) (pairs : List (Nat × Nat)) : Except Error (List Nat) :=
  pairs.mapM fun (i, j) => tryPairIndex n i j

/-- The matrices of the symbols that two automata have in common, over `n` states. -/
def tryCommonMatrices (A : Automaton σ) (B : Automaton τ) (n : Nat) :
    Except Error (List (String × BoolMatrix n n)) :=
  (A.matrices.filter fun (symbol, _) => B.hasSymbol symbol).mapM fun (symbol, M) => do
    let K ← M.shaped.kron (B.matrix symbol).shaped
    let N ← ShapedMatrix.reshape (BoolMatrix.zero n n).shaped K
    return (symbol, (BoolMatrix.zero n n).union N)

/-- The product of two automata, unless it has more states than words can number. A start or final
state may be beyond the last state; where the number of a pair of them is no word, that is a
fault. -/
def tryProduct (A : Automaton σ) (B : Automaton τ) : Except Error (Automaton (σ × τ)) :=
  if A.numStates * B.numStates ≤ Word32.max then
    match A.states.tryProduct B.states with
    | .error e => .error e
    | .ok states =>
      match tryCommonMatrices A B states.size with
      | .error e => .error e
      | .ok matrices =>
        match tryPairIndices B.numStates
            (statePairs A.start B.start ++ statePairs A.final B.final) with
        | .error e => .error e
        | .ok _ => .ok
          { states, matrices
            start := pairIndices B.numStates A.start B.start
            final := pairIndices B.numStates A.final B.final }
  else .error
    (.dimensionMismatch (A.numStates, A.numStates) (B.numStates, B.numStates))

/-- Of two automata with a product the number of each pair of states is a word. -/
theorem tryPairIndex_of_lt {m n i j : Nat} (h : m * n ≤ Word32.max) (hi : i < m) (hj : j < n) :
    tryPairIndex n i j = .ok (pairIndex n i j) := by
  have hlt : (i + 1) * n ≤ m * n := Nat.mul_le_mul_right n hi
  rw [Nat.succ_mul] at hlt
  unfold tryPairIndex
  rw [Word32.tryMul_of_le (by omega)]
  exact Word32.tryAdd_of_le (by omega)

end PathQuery.Automaton
