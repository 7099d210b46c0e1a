import PathQuery.Distinct
import PathQuery.Grammar.Symbol
import PathQuery.Search

/-!
# Grammar/Useful — productions that occur in derivations

A variable is generating where it derives some word, and reachable where the start variable derives
a text that contains it. `usefulFrom` keeps the productions all of whose variables are generating,
and of those the ones with a head that is reachable.
-/

namespace PathQuery.Production

/-- Whether every variable of a production's body is among some variables. -/
def bodyWithin (known : List String) (p : Production) : Bool :=
  (p.body.filterMap Symbol.nonterminal?).all fun v => decide (v ∈ known)

/-- Adds the heads of productions with bodies over known variables until none is new, in at most the
given number of rounds. -/
def generatingFrom (ps : List Production) : Nat → List String → List String
  | 0, known => known
  | rounds + 1, known =>
    match Distinct.unseen known ((ps.filter (bodyWithin known)).map (·.head)) with
    | [] => known
    | new => generatingFrom ps rounds (known ++ new)

/-- The variables that derive words. -/
def generating (ps : List Production) : List String := generatingFrom ps ps.length []

/-- The variables in the bodies of a variable. -/
def bodyVariables (ps : List Production) (v : String) : List String :=
  ps.flatMap fun p => if p.head = v then p.body.filterMap Symbol.nonterminal? else []

/-- The variables that derivations from a variable lead to, this one included. -/
def reachableFrom (ps : List Production) (v : String) : List String :=
  Search.reach (bodyVariables ps) ((ps.flatMap (·.body)).length + 1) [v]

/-- The productions that occur in derivations of words from the start variable. -/
def usefulFrom (start : String) (ps : List Production) : List Production :=
  let generating := generating ps
  if start ∈ generating then
    let ps := ps.filter fun p => decide (p.head ∈ generating) && p.bodyWithin generating
    let reachable := reachableFrom ps start
    ps.filter fun p => decide (p.head ∈ reachable)
  else []

end PathQuery.Production
