import PathQuery.BoolMatrix.Table
import PathQuery.Grammar.Basic

/-!
# Grammar/Membership — which words a grammar derives

For a word of length `n` each variable has a matrix over the positions `0, …, n` that is true at
`(i, j)` where the variable derives the letters between positions `i` and `j`. A body's matrix is
the product of its symbols' matrices, which is not taken any further once no entry is true. A round
applies the productions one after another, each to the matrices as the ones before it have left
them, and the rounds end with the first one that adds no entry. All matrices carry their shapes, and
each operation checks those that it is given; that positions are words is not checked.
-/

namespace PathQuery.Grammar

/-- The spans of a terminal: those of the letters that are the terminal. -/
def terminalSpans (n : Nat) (word : List String) (t : String) : BoolMatrix n n :=
  .ofEntries n n (word.zipIdx.filterMap fun (letter, i) =>
    if letter = t then some (i, i + 1) else none)

/-- The spans of a symbol over `n` positions, given those of the variables. A variable without a
matrix has none. -/
def symbolSpans (n : Nat) (word : List String) (T : MatrixTable) : Symbol → ShapedMatrix
  | .terminal t => (terminalSpans n word t).shaped
  | .nonterminal v => (List.lookup v T).getD (BoolMatrix.zero n n).shaped

/-- Multiplies a matrix by those of the symbols of a body, up to the first product without true
entries. -/
def tryBodySpans (n : Nat) (word : List String) (T : MatrixTable) :
    ShapedMatrix → List Symbol → Except Error ShapedMatrix
  | M, [] => .ok M
  | M, x :: body => do
    let N ← M.multiply (symbolSpans n word T x)
    if N.matrix.isEmpty then return N else tryBodySpans n word T N body

/-- What a round holds: the spans of the variables, and whether the round has added some. -/
structure Spans where
  table : MatrixTable
  changed : Bool

/-- The spans after one more application of a production. A head without a matrix is passed over,
and so are spans that do not fit the head's. -/
def tryApply (n : Nat) (word : List String) (s : Spans) (p : Production) : Except Error Spans :=
  match List.lookup p.head s.table with
  | none => .ok s
  | some _ => do
    let M ← tryBodySpans n word s.table (BoolMatrix.identity n).shaped p.body
    match s.table.tryUnion p.head M with
    | .ok (table, added) => return ⟨table, s.changed || decide (0 < added)⟩
    | .error _ => return s

/-- One round: the productions are applied in order. -/
def tryRound (g : Grammar) (n : Nat) (word : List String) (T : MatrixTable) : Except Error Spans :=
  g.productions.foldlM (tryApply n word) ⟨T, false⟩

/-- Runs rounds until one adds nothing, at most the given number of them. -/
def tryRun (g : Grammar) (n : Nat) (word : List String) :
    Nat → MatrixTable → Except Error MatrixTable
  | 0, T => .ok T
  | bound + 1, T => do
    let s ← g.tryRound n word T
    if s.changed then tryRun g n word bound s.table else return s.table

/-- Before the first round no variable has a span. -/
def noSpans (g : Grammar) (n : Nat) : MatrixTable :=
  .const g.nonterminals (BoolMatrix.zero n n).shaped

/-- The spans of the variables in a word. -/
def trySpans (g : Grammar) (word : List String) : Except Error MatrixTable :=
  let n := word.length + 1
  g.tryRun n word (g.nonterminals.length * n * n + 1) (g.noSpans n)

/-- Whether the start variable derives a word. A word whose spans cannot be computed counts as one
that it does not derive. -/
def contains (g : Grammar) (word : List String) : Bool :=
  match g.trySpans word with
  | .ok T => (List.lookup g.start T).any fun M => M.matrix.get 0 word.length
  | .error _ => false

end PathQuery.Grammar
