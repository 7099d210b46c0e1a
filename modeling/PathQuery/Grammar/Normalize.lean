import PathQuery.Grammar.Binary
import PathQuery.Grammar.Normal
import PathQuery.Grammar.Units
import PathQuery.Grammar.Useful

/-!
# Grammar/Normalize — conversion to weak normal form

`Grammar.normalize` derives the same words by rules in weak normal form. Unit productions go first,
so that the removal of useless productions also removes what only units led to; then terminals leave
the longer bodies, and those are split into pairs. New variables differ from all variables of the
given grammar, also from those that were removed.
-/

namespace PathQuery.Grammar

/-- The productions of the weak normal form. -/
def normalProductions (g : Grammar) : List Production :=
  let ps := Production.usefulFrom g.start (Production.withoutUnits g.productions)
  let (names, ps) := Production.isolateTerminals (.ofTaken g.nonterminals) ps
  (Production.binarize names ps).2

/-- The grammar in weak normal form with the same words. -/
def normalize (g : Grammar) : Except Error NormalGrammar :=
  NormalGrammar.ofGrammar? (.ofList g.start g.normalProductions)

end PathQuery.Grammar
