import PathQuery.Proofs.Data
import PathQuery.Proofs.Path.Joins

/-!
# Proofs/Path/Numbered — graphs with numbers for their nodes

Two of the engines work on numbers of nodes.  `Graph.numbered` is the graph as they see it, and what
is joined there is joined in the graph (`joins_numbered_iff`).
-/

namespace PathQuery.Graph

variable {g : Graph} {P : Bodies} {x : List Symbol} {w : List String} {t : String} {i j u v : Nat}

theorem mem_moves_iff : (i, t, j) ∈ g.moves ↔
    ∃ u v, g.numbering.get? i = some u ∧ g.numbering.get? j = some v ∧ ⟨u, t, v⟩ ∈ g.edges := by
  rw [moves, List.mem_filterMap]
  constructor
  · rintro ⟨e, he, h⟩
    obtain ⟨i', hi, h⟩ := Option.bind_eq_some_iff.mp h
    obtain ⟨j', hj, h⟩ := Option.bind_eq_some_iff.mp h
    cases h
    rw [Numbering.index?_eq_some_iff] at hi hj
    exact ⟨_, _, hi, hj, he⟩
  · rintro ⟨u, v, hi, hj, he⟩
    refine ⟨_, he, ?_⟩
    rw [← Numbering.index?_eq_some_iff] at hi hj
    rw [hi, hj]
    rfl

/-- The numbers of the nodes, with the edges between them. -/
def numbered (g : Graph) : Frame Nat String where
  node i := i < g.numbering.size
  edge i t j := (i, t, j) ∈ g.moves
  source h := by
    obtain ⟨u, v, hi, -, -⟩ := mem_moves_iff.mp h
    exact Numbering.get?_eq_some_lt hi

theorem exists_get?_numbering_iff : (∃ i, g.numbering.get? i = some u) ↔ u ∈ g.nodes :=
  Numbering.exists_get?_iff

/-- Walks between numbers are walks between their nodes. -/
theorem walk_numbered_iff (hi : g.numbering.get? i = some u) (hj : g.numbering.get? j = some v) :
    g.numbered.Walk i w j ↔ g.frame.Walk u w v := by
  induction w generalizing i u with
  | nil =>
    rw [Frame.walk_nil_iff, Frame.walk_nil_iff]
    constructor
    · rintro ⟨rfl, -⟩
      cases hi.symm.trans hj
      exact ⟨rfl, exists_get?_numbering_iff.mp ⟨i, hi⟩⟩
    · rintro ⟨rfl, -⟩
      exact ⟨Numbering.get?_inj hi hj, Numbering.get?_eq_some_lt hi⟩
  | cons t w ih =>
    rw [Frame.walk_cons_iff, Frame.walk_cons_iff]
    constructor
    · rintro ⟨k, hmove, hw⟩
      obtain ⟨u', a, hi', hk, he⟩ := mem_moves_iff.mp hmove
      cases hi.symm.trans hi'
      exact ⟨a, he, (ih hk).mp hw⟩
    · rintro ⟨a, he, hw⟩
      obtain ⟨k, hk⟩ := exists_get?_numbering_iff.mpr (g.ends_mem _ he).2
      exact ⟨k, mem_moves_iff.mpr ⟨u, a, hi, hk, he⟩, (ih hk).mpr hw⟩

/-- **Numbers of nodes** are joined as the nodes are. -/
theorem joins_numbered_iff (hi : g.numbering.get? i = some u) (hj : g.numbering.get? j = some v) :
    Joins P g.numbered x i j ↔ Joins P g.frame x u v := by
  rw [joins_iff_exists_walk, joins_iff_exists_walk]
  exact exists_congr fun w => and_congr_right fun _ => walk_numbered_iff hi hj

end PathQuery.Graph
