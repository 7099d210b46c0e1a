import PathQuery.Ascending
import PathQuery.Distinct
import PathQuery.Grammar.Symbol

/-!
# Grammar/Basic — context-free grammars

A `Grammar` has a start variable and a list of different productions, in the order in which they
were added.
-/

namespace PathQuery

/-- A context-free grammar. -/
structure Grammar where
  start : String
  productions : List Production
  nodup : productions.Nodup
  deriving DecidableEq

namespace Grammar

/-- The grammar with a start variable and no productions. -/
def ofStart (start : String) : Grammar := ⟨start, [], List.nodup_nil⟩

/-- The grammar with another production, and whether the production is new. -/
def add (g : Grammar) (p : Production) : Grammar × Bool :=
  if h : p ∈ g.productions then (g, false)
  else (⟨g.start, g.productions ++ [p], by
    refine List.nodup_append.mpr ⟨g.nodup, by simp, fun a ha b hb hab => ?_⟩
    exact h (List.mem_singleton.mp hb ▸ hab ▸ ha)⟩, true)

/-- The grammar with some productions, each of them once. -/
def ofList (start : String) (productions : List Production) : Grammar :=
  productions.foldl (fun g p => (g.add p).1) (ofStart start)

/-- Whether there are no productions. -/
def isEmpty (g : Grammar) : Bool := g.productions.isEmpty

/-- Whether a variable has productions. -/
def defines (g : Grammar) (v : String) : Bool := g.productions.any fun p => p.head == v

/-- The variables, in ascending order: the start variable, the heads, and those in the bodies. -/
def nonterminals (g : Grammar) : List String :=
  Ascending.ofList
    (g.start :: g.productions.flatMap fun p => p.head :: p.body.filterMap Symbol.nonterminal?)

/-- The terminals in the bodies, in ascending order. -/
def terminals (g : Grammar) : List String :=
  Ascending.ofList (g.productions.flatMap fun p => p.body.filterMap Symbol.terminal?)

end Grammar

end PathQuery
