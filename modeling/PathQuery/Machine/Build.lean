import PathQuery.Grammar.Basic
import PathQuery.Machine.Basic
import PathQuery.Regex.Nfa

/-!
# Machine/Build — machines of grammars and of patterns

A grammar becomes a machine with one box for each head, whose words are the bodies of that head.
Patterns become boxes in which a symbol that names one of the boxes is a call and any other symbol a
terminal.
-/

namespace PathQuery.Machine

/-- The expression for the body of a production, over the keys of labels. -/
def bodyRegex (body : List Symbol) : Regex :=
  .ofParts (body.map fun x => .symbol (Label.ofSymbol x).key)

/-- The expression for the bodies of a head. -/
def headRegex (g : Grammar) (head : String) : Regex :=
  .ofBranches ((g.productions.filter (·.head = head)).map fun p => bodyRegex p.body)

/-- The machine with a box for each head of a grammar. -/
def ofGrammar (g : Grammar) : Machine where
  start := g.start
  boxes := (Ascending.ofList (g.productions.map (·.head))).map fun head =>
    (head, (headRegex g head).toMinimalDfa)
  ascending := by
    simpa [Function.comp_def] using Ascending.isAscending_ofList (g.productions.map (·.head))

/-- An automaton with its symbols renamed, different ones differently. -/
def renameSymbols (A : Nfa) (f : String → String) : Nfa :=
  { A with symbols := .ofList (A.symbols.states.map f) }

/-- The label of a pattern's symbol: a call where it names a box. -/
def patternLabel (names : List String) (symbol : String) : Label :=
  if symbol ∈ names then .call symbol else .terminal symbol

/-- The machine with a box for each named pattern; of two with one name the later one counts. -/
def ofPatterns? (start : String) (patterns : List (String × String)) : Except Error Machine :=
  let names := patterns.map (·.1)
  patterns.foldlM
    (fun m (name, pattern) => do
      let box ← Regex.minimalDfa? pattern
      return m.setBox name (renameSymbols box fun x => (patternLabel names x).key))
    (ofStart start)

/-- The machine with a single box. -/
def ofPattern? (start pattern : String) : Except Error Machine :=
  ofPatterns? start [(start, pattern)]

/-- The machine whose boxes are the minimal automata of arc lists over the keys of labels. -/
def ofBoxes? (start : String) (boxes : List (String × Nfa)) : Except Error Machine :=
  boxes.foldlM (fun m (name, box) => m.tryAddBox name box) (ofStart start)

end PathQuery.Machine
