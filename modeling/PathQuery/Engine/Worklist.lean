import PathQuery.Engine.Fact
import PathQuery.Grammar.Normal
import PathQuery.Graph

/-!
# Engine/Worklist — facts joined one at a time

The worklist engine starts from the facts of empty and of terminal rules and takes up one fact after
another: by the rules with two variables it is joined with every known fact that ends where it
starts, then with every one that starts where it ends, and what is new joins the end of the list.
Each fact is taken up once, which is a round.
-/

namespace PathQuery.Worklist

/-- The heads of the rules with a body. -/
def heads (rules : List Rule) (body : Rule.Body) : List String :=
  rules.filterMap fun r => if r.body = body then some r.head else none

/-- The facts of rules without variables in their bodies. -/
def seeds (rules : List Rule) (g : Graph) : List Fact :=
  (g.nodes.flatMap fun v => (heads rules .empty).map fun a => ⟨v, a, v⟩) ++
    g.edges.flatMap fun e => (heads rules (.terminal e.label)).map fun a => ⟨e.src, a, e.dst⟩

/-- The facts that follow from two, where the second starts at the end of the first. -/
def join (rules : List Rule) (e f : Fact) : List Fact :=
  if e.target = f.source then
    (heads rules (.pair e.head f.head)).map fun a => ⟨e.source, a, f.target⟩
  else []

/-- The facts that are not known and follow from a known one and `f` after it. -/
def before (rules : List Rule) (known : List Fact) (f : Fact) : List Fact :=
  Distinct.unseen known (known.flatMap fun e => join rules e f)

/-- The facts that are not known and follow from `f` and a known one after it. -/
def after (rules : List Rule) (known : List Fact) (f : Fact) : List Fact :=
  Distinct.unseen known (known.flatMap fun e => join rules f e)

/-- The facts that a fact adds to the known ones when it is taken up: those with a known one before
it are known themselves when those with a known one after it are looked for. -/
def added (rules : List Rule) (known : List Fact) (f : Fact) : List Fact :=
  let new := before rules known f
  new ++ after rules (known ++ new) f

/-- Takes up the pending facts in order, for at most the given number of rounds: what is derived,
and the number of rounds it took. -/
def run (rules : List Rule) : Nat → List Fact → List Fact → Nat → List Fact × Nat
  | 0, done, pending, rounds => (done ++ pending, rounds)
  | _ + 1, done, [], rounds => (done, rounds)
  | bound + 1, done, f :: pending, rounds =>
    run rules bound (done ++ [f]) (pending ++ added rules (done ++ f :: pending) f) (rounds + 1)

/-- The facts of a grammar over a graph. -/
def derive (N : NormalGrammar) (g : Graph) : Derivations :=
  let (facts, rounds) := run N.rules (N.rules.length * g.nodes.length * g.nodes.length) []
    (Distinct.ofList (seeds N.rules g)) 0
  ⟨Ascending.ofList facts, rounds, facts.length⟩

end PathQuery.Worklist
