import PathQuery.Grammar.FreshName
import PathQuery.Grammar.Symbol

/-!
# Grammar/Binary — bodies of at most two variables

`isolateTerminals` replaces the terminals in bodies of two or more symbols by variables that derive
just them, one variable for each terminal. `binarize` splits a body of three or more symbols into a
chain of bodies of two. Both take the new variables from a supply of fresh names.
-/

namespace PathQuery.Production

/-- The supply of names, and the variable that stands for each terminal replaced so far. -/
structure Wrappers where
  names : NameSupply
  wrappers : List (String × String)

/-- The variable that stands for a terminal, a fresh one unless there is one already. -/
def Wrappers.wrap (W : Wrappers) (t : String) : Wrappers × String :=
  match W.wrappers.lookup t with
  | some v => (W, v)
  | none =>
    let (names, v) := W.names.fresh ("T[" ++ t ++ "]")
    (⟨names, W.wrappers ++ [(t, v)]⟩, v)

/-- A body with variables in place of its terminals. -/
def wrapBody (W : Wrappers) : List Symbol → Wrappers × List Symbol
  | [] => (W, [])
  | .terminal t :: body =>
    let (W, v) := W.wrap t
    let (W, body) := wrapBody W body
    (W, .nonterminal v :: body)
  | .nonterminal v :: body =>
    let (W, body) := wrapBody W body
    (W, .nonterminal v :: body)

/-- Productions with variables in place of the terminals in bodies of two or more symbols. -/
def wrapAll (W : Wrappers) : List Production → Wrappers × List Production
  | [] => (W, [])
  | p :: ps =>
    let (W, body) := if p.body.length < 2 then (W, p.body) else wrapBody W p.body
    let (W, ps) := wrapAll W ps
    (W, ⟨p.head, body⟩ :: ps)

/-- Productions without terminals in bodies of two or more symbols. Behind them stand the
productions of the new variables. -/
def isolateTerminals (names : NameSupply) (ps : List Production) :
    NameSupply × List Production :=
  let (W, ps) := wrapAll ⟨names, []⟩ ps
  (W.names, ps ++ W.wrappers.map fun (t, v) => ⟨v, [.terminal t]⟩)

/-- Productions of at most two symbols that derive a body from `head`, with new variables named
after `hint`. -/
def splitBody (hint : String) (names : NameSupply) (head : String) :
    List Symbol → NameSupply × List Production
  | x :: y :: z :: body =>
    let (names, rest) := names.fresh hint
    let (names, ps) := splitBody hint names rest (y :: z :: body)
    (names, ⟨head, [x, .nonterminal rest]⟩ :: ps)
  | body => (names, [⟨head, body⟩])

/-- Productions of at most two symbols that derive the same words. -/
def binarize (names : NameSupply) : List Production → NameSupply × List Production
  | [] => (names, [])
  | p :: ps =>
    let (names, chain) := splitBody p.head names p.head p.body
    let (names, ps) := binarize names ps
    (names, chain ++ ps)

end PathQuery.Production
