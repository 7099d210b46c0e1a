import PathQuery.Nfa.Minimize

/-!
# Nfa/Guarded — automata with state numbers out of range

The states, final states and arcs of an `Nfa` come from its maker, so that a number can be beyond
the last state. `tryAccepts`, `tryDeterminize` and `tryMinimize` are `accepts`, `determinize` and
`minimize`, except that they fail where the operation comes upon such a number. `tryAddState` fails
where the number of states would be no 32-bit word.
-/

namespace PathQuery.Nfa

/-- The automaton with another state, and that state, unless there are as many as words. -/
def tryAddState (A : Nfa) : Except Error (Nfa × Nat) :=
  (fun _ => A.addState) <$> Word32.tryAdd A.numStates 1

/-- Whether all of some numbers are states. -/
def inRange (A : Nfa) (states : List Nat) : Bool := states.all fun q => decide (q < A.numStates)

/-- The states that the search for a word comes upon, from some states on. -/
def visited (A : Nfa) (states : List Nat) : List String → List Nat
  | [] => states
  | symbol :: word =>
    match A.symbols.index? symbol with
    | none => states
    | some label => states ++ A.visited (A.closure (A.targets states label)) word

/-- A value, unless a state number that its computation comes upon is out of range. -/
def guarded {α : Type} (inRange : Bool) (value : α) : Except Error α :=
  if inRange then .ok value else .error (.fault .indexOutOfBounds)

/-- Whether a word is accepted, unless a state number on its way is out of range. -/
def tryAccepts (A : Nfa) (word : List String) : Except Error Bool :=
  guarded (A.inRange (A.arcs.map (·.src)) && A.inRange (A.visited (A.closure A.start) word))
    (A.accepts word)

/-- The subset automaton, unless a state number that the subsets need is out of range. -/
def tryDeterminize (A : Nfa) : Except Error Nfa :=
  guarded
    (A.start.isEmpty || A.inRange (A.arcs.map (·.src)) && A.inRange A.final &&
      A.subsets.all A.inRange)
    A.determinize

/-- Whether every start state, final state and end of an arc is a state. -/
def wellFormed (A : Nfa) : Bool :=
  A.inRange A.start && A.inRange A.final &&
    A.inRange (A.arcs.map (·.src)) && A.inRange (A.arcs.map (·.dst))

/-- The minimal automaton, unless a state number that it depends on is out of range. -/
def tryMinimize (A : Nfa) : Except Error Nfa :=
  if A.isDeterministic then guarded A.wellFormed A.minimizeDeterministic
  else (·.minimizeDeterministic) <$> A.tryDeterminize

end PathQuery.Nfa
