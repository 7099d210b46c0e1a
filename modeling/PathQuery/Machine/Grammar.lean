import PathQuery.Grammar.Basic
import PathQuery.Grammar.FreshName
import PathQuery.Machine.Basic

/-!
# Machine/Grammar — the grammar of a machine

Each state of a box becomes a fresh variable that derives what paths from it to a final state spell:
the label of an arc followed by the variable of its target, and the empty word at a final state. A
box's name derives the variable of its start state.
-/

namespace PathQuery.Machine

/-- Fresh names for the states of a box, from the state `q` on. -/
def stateNames (box : String) (S : NameSupply) (q : Nat) : Nat → NameSupply × List String
  | 0 => (S, [])
  | states + 1 =>
    let (S, name) := S.fresh (box ++ "@" ++ toString q)
    let (S, names) := stateNames box S (q + 1) states
    (S, name :: names)

/-- The productions of a box with names for its states. -/
def boxProductions (name : String) (B : Nfa) (states : List String) : List Production :=
  let var (q : Nat) : String := (states[q]?).getD ""
  B.start.map (fun q => ⟨name, [.nonterminal (var q)]⟩) ++
    B.final.map (fun q => ⟨var q, []⟩) ++
    B.arcs.filterMap fun a =>
      ((B.symbol? a.label).bind Label.ofKey?).map fun label =>
        ⟨var a.src, [label.toSymbol, .nonterminal (var a.dst)]⟩

/-- The productions of some boxes, with state names from a supply. -/
def allProductions (S : NameSupply) : List (String × Nfa) → List Production
  | [] => []
  | (name, B) :: boxes =>
    let (S, states) := stateNames name S 0 B.numStates
    boxProductions name B states ++ allProductions S boxes

/-- The grammar whose words are the paths through the start box. -/
def toGrammar (m : Machine) : Grammar :=
  .ofList m.start (allProductions (.ofTaken m.names) m.boxes)

end PathQuery.Machine
