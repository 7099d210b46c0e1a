import PathQuery.Numbering

/-!
# Graph — directed graphs with labelled edges

A `Graph` keeps its nodes in ascending order and its edges in the order in which they were added,
parallel ones included. The ends of an edge are always nodes.
-/

namespace PathQuery

/-- An edge with a label. -/
structure Edge where
  src : Nat
  label : String
  dst : Nat
  deriving DecidableEq, Repr

/-- A directed graph whose edges have labels. -/
structure Graph where
  nodes : List Nat
  edges : List Edge
  ascending : Ascending.IsAscending nodes
  ends_mem : ∀ e ∈ edges, e.src ∈ nodes ∧ e.dst ∈ nodes
  deriving DecidableEq

namespace Graph

/-- The graph without nodes. -/
def empty : Graph := ⟨[], [], List.Pairwise.nil, by simp⟩

/-- The graph with one more node, unless it is there already. -/
def addNode (g : Graph) (v : Nat) : Graph where
  nodes := Ascending.insert v g.nodes
  edges := g.edges
  ascending := Ascending.isAscending_insert g.ascending
  ends_mem e he := ⟨Ascending.mem_insert.mpr (.inr (g.ends_mem e he).1),
    Ascending.mem_insert.mpr (.inr (g.ends_mem e he).2)⟩

/-- The graph with one more edge, whose ends become nodes. -/
def addEdge (g : Graph) (e : Edge) : Graph where
  nodes := Ascending.insert e.dst (Ascending.insert e.src g.nodes)
  edges := g.edges ++ [e]
  ascending := Ascending.isAscending_insert (Ascending.isAscending_insert g.ascending)
  ends_mem x hx := by
    rcases List.mem_append.mp hx with hx | hx
    · simp [g.ends_mem x hx]
    · simp [List.mem_singleton.mp hx]

/-- The graph with some edges and some further nodes. -/
def ofEdges (edges : List Edge) (nodes : List Nat) : Graph :=
  nodes.foldl addNode (edges.foldl addEdge empty)

/-- The nodes, numbered in ascending order. -/
def numbering (g : Graph) : Numbering Nat :=
  ⟨g.nodes, Ascending.nodup_of_isAscending g.ascending⟩

/-- The edges, with the numbers of their ends. -/
def moves (g : Graph) : List (Nat × String × Nat) :=
  g.edges.filterMap fun e => do
    return (← g.numbering.index? e.src, e.label, ← g.numbering.index? e.dst)

/-- The labels of the edges, in ascending order. -/
def labels (g : Graph) : List String := Ascending.ofList (g.edges.map (·.label))

/-- A cycle with one label from node 0 through some nodes back to node 0. -/
def addCycle (g : Graph) (label : String) (nodes : List Nat) : Graph :=
  ((0 :: nodes).zip (nodes ++ [0])).foldl (fun g (v, w) => g.addEdge ⟨v, label, w⟩) g

/-- Two cycles that share node 0, the first through the nodes `1, …, n` and the second through the
`m` nodes after them, each with a label of its own. -/
def twoCycles (n m : Nat) (first second : String) : Graph :=
  ((empty.addNode 0).addCycle first (List.range' 1 n)).addCycle second (List.range' (n + 1) m)

/-- Two cycles that share node 0, unless the second has a bound beyond the 32-bit range. -/
def tryTwoCycles (n m : Nat) (first second : String) : Except Error Graph := do
  let _ ← Word32.tryAdd n 1
  let _ ← Word32.tryAdd n m
  return twoCycles n m first second

end Graph

end PathQuery
