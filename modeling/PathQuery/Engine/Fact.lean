import PathQuery.Ascending

/-!
# Engine/Fact — what an engine derives

A `Fact` says that some path between two nodes spells a word that a variable derives. An engine
answers with all facts there are and with the counts of its run.
-/

namespace PathQuery

/-- Some path from `source` to `target` spells a word that `head` derives. -/
structure Fact where
  source : Nat
  head : String
  target : Nat
  deriving DecidableEq, Repr

/-- Facts are listed by source, variable and target. -/
instance : Precedes Fact :=
  ⟨fun e f => precedes (e.source, e.head, e.target) (f.source, f.head, f.target)⟩

/-- The facts that an engine derived, in ascending order, and the counts of its run. -/
structure Derivations where
  facts : List Fact
  /-- The number of rounds to the fixpoint. -/
  rounds : Nat
  /-- The number of facts, or of true matrix entries, at the fixpoint. -/
  derived : Nat
  deriving DecidableEq, Repr

/-- Nothing derived in no rounds. -/
def Derivations.none : Derivations := ⟨[], 0, 0⟩

end PathQuery
