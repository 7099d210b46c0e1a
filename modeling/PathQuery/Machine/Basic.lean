import PathQuery.Machine.Label
import PathQuery.Nfa.Guarded

/-!
# Machine/Basic — recursive state machines

A recursive state machine has boxes, one for each of some names: deterministic automata over the
keys of labels (`Machine.Label`). A path through a box follows its arcs from a start to a final
state; an arc with the key of a terminal takes an edge with that label, and one with the key of a
call a path through the box of that name. A symbol that is no key matches nothing.
-/

namespace PathQuery

/-- A recursive state machine: a start box and the boxes in ascending order of their names. -/
structure Machine where
  start : String
  boxes : List (String × Nfa)
  ascending : Ascending.IsAscending (boxes.map (·.1))
  deriving DecidableEq

namespace Machine

/-- The machine without boxes. -/
def ofStart (start : String) : Machine := ⟨start, [], List.Pairwise.nil⟩

/-- Whether there are no boxes. -/
def isEmpty (m : Machine) : Bool := m.boxes.isEmpty

/-- The names of the boxes, in ascending order. -/
def names (m : Machine) : List String := m.boxes.map (·.1)

/-- The box with a name. -/
def box? (m : Machine) (name : String) : Option Nfa := m.boxes.lookup name

/-- Whether there is a box with a name. -/
def hasBox (m : Machine) (name : String) : Bool := decide (name ∈ m.names)

/-- The place of a name among the names of the boxes. -/
def boxIndex? (m : Machine) (name : String) : Option Nat :=
  if name ∈ m.names then some (m.names.idxOf name) else none

/-- Puts a box among boxes with ascending names, in the place of one with the same name. -/
def insertBox (name : String) (box : Nfa) : List (String × Nfa) → List (String × Nfa)
  | [] => [(name, box)]
  | (s, B) :: boxes =>
    if precedes name s then (name, box) :: (s, B) :: boxes
    else if precedes s name then (s, B) :: insertBox name box boxes
    else (s, box) :: boxes

theorem names_insertBox (name : String) (box : Nfa) (boxes : List (String × Nfa)) :
    (insertBox name box boxes).map (·.1) = Ascending.insert name (boxes.map (·.1)) := by
  induction boxes with
  | nil => rfl
  | cons sB boxes ih =>
    simp only [insertBox, List.map_cons, Ascending.insert]
    split
    · rfl
    · split
      · rw [List.map_cons, ih]
      · rfl

/-- The machine with a box set. -/
def setBox (m : Machine) (name : String) (box : Nfa) : Machine where
  start := m.start
  boxes := insertBox name box m.boxes
  ascending := names_insertBox name box m.boxes ▸ Ascending.isAscending_insert m.ascending

/-- The machine with a box set to the minimal automaton of an arc list. -/
def tryAddBox (m : Machine) (name : String) (box : Nfa) : Except Error Machine := do
  return m.setBox name (← box.tryMinimize)

/-- The names of the boxes with the empty word, in ascending order. -/
def nullable (m : Machine) : List String :=
  (m.boxes.filter fun (_, B) => B.start.any fun q => decide (q ∈ B.final)).map (·.1)

end Machine

end PathQuery
