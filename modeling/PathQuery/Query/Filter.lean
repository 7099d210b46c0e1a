import PathQuery.Engine.Fact

/-!
# Query/Filter — the pairs of nodes that a query asks for

A `PairFilter` picks the facts of one variable whose ends are in two sets of nodes and, if asked to,
differ. An absent or empty set lets every node pass.
-/

namespace PathQuery

/-- Whether a node may be paired with itself. -/
inductive SelfPairs where
  | keep
  | exclude
  deriving DecidableEq, Repr

/-- Which facts to report as pairs of nodes. -/
structure PairFilter where
  head : String
  startNodes : Option (List Nat)
  finalNodes : Option (List Nat)
  selfPairs : SelfPairs
  deriving DecidableEq, Repr

namespace PairFilter

/-- Whether a set of nodes lets a node pass. -/
def passes : Option (List Nat) → Nat → Bool
  | none, _ => true
  | some nodes, v => nodes.isEmpty || decide (v ∈ nodes)

/-- Whether a pair of nodes is reported. -/
def admits (F : PairFilter) (v w : Nat) : Bool :=
  passes F.startNodes v && passes F.finalNodes w && !(F.selfPairs == .exclude && v == w)

/-- The pairs of nodes that are reported, in ascending order. -/
def apply (F : PairFilter) (facts : List Fact) : List (Nat × Nat) :=
  Ascending.ofList (facts.filterMap fun f =>
    if f.head = F.head ∧ F.admits f.source f.target then some (f.source, f.target) else none)

end PairFilter

end PathQuery
