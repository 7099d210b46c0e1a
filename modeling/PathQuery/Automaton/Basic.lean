import PathQuery.BoolMatrix.Closure
import PathQuery.Numbering
import PathQuery.Search

/-!
# Automaton/Basic — automata as one matrix for each symbol

An `Automaton σ` numbers its states, which are values of `σ`, and holds for each of its symbols the
matrix of the moves on that symbol. Start and final states are given by number. They are not checked
against the number of states; a number beyond the last state has no moves.
-/

namespace PathQuery

universe u v

/-- An automaton whose moves are matrices. -/
structure Automaton (σ : Type u) where
  states : Numbering σ
  /-- The symbols, each once, with their matrices. -/
  matrices : List (String × BoolMatrix states.size states.size)
  start : List Nat
  final : List Nat

namespace Automaton

variable {σ : Type u}

/-- The automaton over some states without symbols, start states and final states. -/
def ofStates (states : Numbering σ) : Automaton σ := ⟨states, [], [], []⟩

/-- The automaton with some moves, each from one state number to another on a symbol. -/
def ofMoves (states : Numbering σ) (moves : List (Nat × String × Nat)) (start final : List Nat) :
    Automaton σ where
  states := states
  matrices := (Distinct.ofList (moves.map (·.2.1))).map fun symbol =>
    (symbol, .ofEntries _ _ (moves.filterMap fun (i, s, j) =>
      if s = symbol then some (i, j) else none))
  start := start
  final := final

/-- The number of states. -/
def numStates (A : Automaton σ) : Nat := A.states.size

/-- The symbols that have a matrix, in ascending order. -/
def symbols (A : Automaton σ) : List String := Ascending.ofList (A.matrices.map (·.1))

/-- The matrix of a symbol that has one. -/
def matrix? (A : Automaton σ) (symbol : String) :
    Option (BoolMatrix A.states.size A.states.size) := A.matrices.lookup symbol

/-- Whether a symbol has a matrix. -/
def hasSymbol (A : Automaton σ) (symbol : String) : Bool := (A.matrix? symbol).isSome

/-- The matrix of a symbol, without true entries where the symbol has none. -/
def matrix (A : Automaton σ) (symbol : String) : BoolMatrix A.states.size A.states.size :=
  (A.matrix? symbol).getD (.zero _ _)

/-- Whether a state is a start state. -/
def isStart (A : Automaton σ) (i : Nat) : Bool := decide (i ∈ A.start)

/-- Whether a state is a final state. -/
def isFinal (A : Automaton σ) (i : Nat) : Bool := decide (i ∈ A.final)

/-- The automaton with another start state. -/
def markStart (A : Automaton σ) (i : Nat) : Automaton σ :=
  { A with start := Ascending.insert i A.start }

/-- The automaton with another final state. -/
def markFinal (A : Automaton σ) (i : Nat) : Automaton σ :=
  { A with final := Ascending.insert i A.final }

/-- Changes the matrix of a symbol in a list of matrices, which a new symbol joins at the end. -/
def modifyMatrix {n : Nat} (symbol : String) (f : BoolMatrix n n → BoolMatrix n n) :
    List (String × BoolMatrix n n) → List (String × BoolMatrix n n)
  | [] => [(symbol, f (.zero n n))]
  | (s, M) :: matrices =>
    if s = symbol then (s, f M) :: matrices else (s, M) :: modifyMatrix symbol f matrices

/-- The automaton with the matrix of a symbol changed; a new symbol gets one to begin with. -/
def modify (A : Automaton σ) (symbol : String)
    (f : BoolMatrix A.states.size A.states.size → BoolMatrix A.states.size A.states.size) :
    Automaton σ :=
  { A with matrices := modifyMatrix symbol f A.matrices }

/-- The automaton with another move between two of its states. -/
def addMove (A : Automaton σ) (i : Nat) (symbol : String) (j : Nat) : Automaton σ :=
  A.modify symbol (·.insert i j)

/-- The automaton with its symbols renamed, different ones differently. -/
def renameSymbols (A : Automaton σ) (f : String → String) : Automaton σ :=
  { A with matrices := A.matrices.map fun (s, M) => (f s, M) }

/-- The number of moves. -/
def count (A : Automaton σ) : Nat := (A.matrices.flatMap fun (_, M) => M.rows.flatten).length

/-- The matrix of the moves on any symbol. -/
def adjacency (A : Automaton σ) : BoolMatrix A.states.size A.states.size :=
  A.matrices.foldl (fun M (_, N) => M.union N) (.zero _ _)

/-- The matrix of the paths, the empty ones included. -/
def closure (A : Automaton σ) : BoolMatrix A.states.size A.states.size := A.adjacency.closure

/-- The states that a word leads to from some states. -/
def run (A : Automaton σ) (states : List Nat) : List String → List Nat
  | [] => states
  | symbol :: word =>
    match A.matrix? symbol with
    | none => []
    | some M => A.run (BoolMatrix.unions (states.map M.row)) word

/-- Whether a word leads from a start state to a final state. -/
def accepts (A : Automaton σ) (word : List String) : Bool := (A.run A.start word).any A.isFinal

/-- The states that one move leads to. -/
def successors (A : Automaton σ) (i : Nat) : List Nat :=
  A.matrices.flatMap fun (_, M) => M.row i

/-- Whether no path leads from a start state to a final state: the search for a final state begins
with the last start state. -/
def isEmpty (A : Automaton σ) : Bool :=
  !Search.finds A.successors A.isFinal (A.start.length + A.numStates) A.start

/-- The automaton with its states renamed, different ones differently. -/
def mapStates {τ : Type v} (f : σ → τ) (hf : ∀ {a b : σ}, f a = f b → a = b) (A : Automaton σ) :
    Automaton τ :=
  have size_eq : A.states.size = (A.states.states.map f).length := by simp [Numbering.size]
  { states := ⟨A.states.states.map f,
      List.pairwise_map.mpr (A.states.nodup.imp fun h h' => h (hf h'))⟩
    matrices := A.matrices.map fun (s, M) => (s, M.cast size_eq size_eq)
    start := A.start
    final := A.final }

end Automaton

end PathQuery
