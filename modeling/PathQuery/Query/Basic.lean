import PathQuery.Engine.Matrix
import PathQuery.Engine.Tensor
import PathQuery.Engine.Worklist
import PathQuery.Grammar.Normalize
import PathQuery.Machine.Build
import PathQuery.Machine.Grammar
import PathQuery.Query.Config

/-!
# Query/Basic — context-free path queries

A query is a grammar or a recursive state machine; over a graph it asks for the pairs of nodes that
are joined by a path whose edge labels spell a word of its start symbol. `Query.answer` has any of
the engines derive all facts, and reports those of the start symbol that pass the filters.
-/

namespace PathQuery

/-- What a query asks for. -/
inductive Query where
  | grammar (g : Grammar)
  | machine (m : Machine)
  deriving DecidableEq

namespace Query

/-- The start symbol. -/
def start : Query → String
  | grammar g => g.start
  | machine m => m.start

/-- Whether there are no productions or no boxes. -/
def isEmpty : Query → Bool
  | grammar g => g.isEmpty
  | machine m => m.isEmpty

/-- Whether the start symbol has a production or a box. -/
def definesStart : Query → Bool
  | grammar g => g.defines g.start
  | machine m => m.hasBox m.start

/-- The query as a grammar in weak normal form. -/
def normalGrammar : Query → Except Error NormalGrammar
  | grammar g => g.normalize
  | machine m => m.toGrammar.normalize

/-- The query as a machine. -/
def toMachine : Query → Machine
  | grammar g => .ofGrammar g
  | machine m => m

/-- The facts that an engine derives over a graph. -/
def derive (q : Query) (algorithm : Algorithm) (g : Graph) : Except Error Derivations :=
  match algorithm with
  | .hellings => do return Worklist.derive (← q.normalGrammar) g
  | .matrix => do MatrixEngine.derive (← q.normalGrammar) g
  | .tensor => Tensor.derive q.toMachine g

/-- The pairs of nodes that answer a query, in ascending order, and the counts of the run. -/
structure Answer where
  pairs : List (Nat × Nat)
  rounds : Nat
  derived : Nat
  deriving DecidableEq, Repr

/-- The answer to a query over a graph. The start symbol of a query that defines anything must be
defined. -/
def answer (q : Query) (g : Graph) (startNodes finalNodes : Option (List Nat)) (config : Config) :
    Except Error Answer :=
  if q.isEmpty then .ok ⟨[], 0, 0⟩
  else if q.definesStart then do
    let D ← q.derive config.algorithm g
    let filter : PairFilter := ⟨q.start, startNodes, finalNodes, config.selfPairs⟩
    return ⟨filter.apply D.facts, D.rounds, D.derived⟩
  else .error (.undefinedSymbol q.start)

end Query

end PathQuery
