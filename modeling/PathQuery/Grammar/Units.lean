import PathQuery.Distinct
import PathQuery.Grammar.Symbol
import PathQuery.Search

/-!
# Grammar/Units — productions without unit bodies

A unit production's body is one variable. `withoutUnits` gives each head the bodies, other than
units, of all variables that unit productions lead to from it.
-/

namespace PathQuery.Production

/-- The variables that the unit productions of a variable lead to. -/
def unitTargets (ps : List Production) (v : String) : List String :=
  ps.filterMap fun p => if p.head = v then p.unitTarget? else none

/-- The variables that unit productions lead to from a variable, this one included. -/
def unitReach (ps : List Production) (v : String) : List String :=
  Search.reach (unitTargets ps) (ps.length + 1) [v]

/-- The bodies of a variable other than units. -/
def properBodies (ps : List Production) (v : String) : List (List Symbol) :=
  ps.filterMap fun p => if p.head = v ∧ p.unitTarget? = none then some p.body else none

/-- Productions with the same words and without units. -/
def withoutUnits (ps : List Production) : List Production :=
  Distinct.ofList ((Distinct.ofList (ps.map (·.head))).flatMap fun head =>
    (unitReach ps head).flatMap fun v => (properBodies ps v).map fun body => ⟨head, body⟩)

end PathQuery.Production
