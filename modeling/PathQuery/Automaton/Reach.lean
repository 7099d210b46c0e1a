import PathQuery.Automaton.Guarded

/-!
# Automaton/Reach — reachability along the words of another automaton

`Automaton.reach G C` lists, for each start state of `G`, the final states of `G` that a nonempty
path spelling a word of `C` leads to. It searches the pairs of a state of `C` and a state of `G`
that the same words lead to.
-/

namespace PathQuery.Automaton

universe u v

variable {σ : Type u} {τ : Type v}

/-- The symbols that two automata have in common, in ascending order. -/
def commonSymbols (G : Automaton σ) (C : Automaton τ) : List String :=
  G.symbols.filter C.hasSymbol

/-- The pairs of states that a common move leads to from a pair of states. -/
def jointSuccessors (G : Automaton σ) (C : Automaton τ) (p : Nat × Nat) : List (Nat × Nat) :=
  (commonSymbols G C).flatMap fun symbol =>
    ((C.matrix symbol).row p.1).flatMap fun c =>
      ((G.matrix symbol).row p.2).map fun v => (c, v)

/-- The final states of `G` that nonempty words of `C` lead to from a state. -/
def hitsFrom (G : Automaton σ) (C : Automaton τ) (v : Nat) : List Nat :=
  let pairs := Search.reach (jointSuccessors G C)
    ((C.start.length + C.numStates) * (G.numStates + 1)) (C.start.map fun c => (c, v))
  Ascending.ofList ((pairs.flatMap (jointSuccessors G C)).filterMap fun (c, w) =>
    if C.isFinal c && G.isFinal w then some w else none)

/-- For each start state of `G`, in ascending order, the final states that nonempty words of `C`
lead to, in ascending order. -/
def reach [DecidableEq σ] [Precedes σ] (G : Automaton σ) (C : Automaton τ) :
    List (σ × List σ) :=
  Ascending.ofList (G.start.filterMap fun v => (G.states.get? v).map fun s =>
    (s, Ascending.ofList ((hitsFrom G C v).filterMap G.states.get?)))

/-- The states reached from each start state. A start state of `C` that is no state is a fault once
a move is looked up from it. -/
def tryReach [DecidableEq σ] [Precedes σ] (G : Automaton σ) (C : Automaton τ) :
    Except Error (List (σ × List σ)) :=
  if !(commonSymbols G C).isEmpty && C.startOutOfRange &&
      G.start.any (fun v => decide (v < G.numStates)) then
    .error (.fault .indexOutOfBounds)
  else .ok (reach G C)

end PathQuery.Automaton
