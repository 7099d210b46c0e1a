import PathQuery.BoolMatrix.Table
import PathQuery.Engine.Fact
import PathQuery.Grammar.Normal
import PathQuery.Graph
import PathQuery.Numbering

/-!
# Engine/Matrix — facts multiplied as matrices

The matrix engine holds for each variable the matrix of its facts over the numbered nodes. In each
round a rule with two variables multiplies the matrices of these, where one factor is restricted to
the entries that were new in the round before; what the rules propose is added when all of them have
done so. The rounds end with the first one that adds nothing. All matrices carry their shapes, and
each operation checks those that it is given. The variables are not counted.
-/

namespace PathQuery.MatrixEngine

/-- The entry of an edge, added for each rule with its label. -/
def tryAddEdge (N : NormalGrammar) (T : MatrixTable) (e : Nat × String × Nat) :
    Except Error MatrixTable :=
  N.rules.foldlM (fun (T : MatrixTable) r =>
    if r.body = .terminal e.2.1 then T.trySet r.head e.1 e.2.2 else .ok T) T

/-- The entries of a matrix, added for each rule with an empty body. -/
def tryAddEmpty (N : NormalGrammar) (T : MatrixTable) (M : ShapedMatrix) :
    Except Error MatrixTable :=
  N.rules.foldlM (fun (T : MatrixTable) r =>
    if r.body = .empty then (T.tryUnion r.head M).map (·.1) else .ok T) T

/-- The matrices of the facts of rules without variables in their bodies, given all edges with the
numbers of their ends. -/
def trySeed (N : NormalGrammar) (n : Nat) (moves : List (Nat × String × Nat)) :
    Except Error MatrixTable := do
  let zero ← ShapedMatrix.tryZero n n
  let T ← moves.foldlM (tryAddEdge N) (MatrixTable.const N.nonterminals zero)
  tryAddEmpty N T (← ShapedMatrix.tryIdentity n)

/-- What the rounds hold: the matrices, those of the entries that the last round added, and the
number of these entries. -/
structure Tables where
  all : MatrixTable
  new : MatrixTable
  added : Nat

/-- What a rule with two variables proposes for its head: the products that have a new entry as a
factor. Where neither variable has a new entry, nothing is multiplied. -/
def tryCandidate (all new : MatrixTable) (r : Rule) :
    Except Error (Option (String × ShapedMatrix)) :=
  match r.body with
  | .pair b c => do
    let B ← new.tryGet b
    let C ← new.tryGet c
    if B.matrix.isEmpty && C.matrix.isEmpty then return none
    else
      let left ← B.multiply (← all.tryGet c)
      let right ← (← all.tryGet b).multiply C
      return some (r.head, (← left.union right).1)
  | _ => .ok none

/-- Adds those proposed entries of a variable that are not there. -/
def Tables.tryMerge (s : Tables) (v : String) (M : ShapedMatrix) : Except Error Tables := do
  let fresh ← M.difference (← s.all.tryGet v)
  let (all, added) ← s.all.tryUnion v fresh
  let (new, _) ← s.new.tryUnion v fresh
  return ⟨all, new, s.added + added⟩

/-- One round over matrices with `n` rows and columns: all rules propose entries by what was there
before it, and then these are added, rule after rule. -/
def tryRound (N : NormalGrammar) (n : Nat) (s : Tables) : Except Error Tables := do
  let candidates ← N.rules.mapM (tryCandidate s.all s.new)
  let zero ← ShapedMatrix.tryZero n n
  (candidates.filterMap id).foldlM (fun t (v, M) => t.tryMerge v M)
    ⟨s.all, MatrixTable.const N.nonterminals zero, 0⟩

/-- Runs rounds until one adds nothing, at most the given number of them. -/
def tryRun (N : NormalGrammar) (n : Nat) : Nat → Tables → Nat → Except Error (Tables × Nat)
  | 0, s, rounds => .ok (s, rounds)
  | bound + 1, s, rounds => do
    let s ← tryRound N n s
    if s.added = 0 then return (s, rounds + 1) else tryRun N n bound s (rounds + 1)

/-- The facts of some true entries, listed by variable, over numbered nodes. -/
def factsOfEntries (nodes : Numbering Nat) (entries : List (String × List (Nat × Nat))) :
    List Fact :=
  Ascending.ofList (entries.flatMap fun (v, l) => l.filterMap fun (i, j) => do
    return ⟨← nodes.get? i, v, ← nodes.get? j⟩)

/-- The facts of a grammar over a graph, unless it has more nodes than 32-bit words can number. -/
def derive (N : NormalGrammar) (g : Graph) : Except Error Derivations := do
  let n := g.nodes.length
  let T ← trySeed N n g.moves
  let (s, rounds) ← tryRun N n (N.nonterminals.length * n * n + 1) ⟨T, T, T.count⟩ 0
  return ⟨factsOfEntries g.numbering (s.all.map fun (v, M) => (v, M.matrix.entries)), rounds,
    s.all.count⟩

end PathQuery.MatrixEngine
