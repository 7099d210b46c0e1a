import PathQuery.Graph

/-!
# Proofs/Path/Walk — walks along labelled edges

A `Frame` has nodes and labelled edges that leave them; `Frame.Walk` follows edges and collects
their labels.  Graphs, the positions of a word and the states of an automaton are frames, so that
one notion of a walk serves them all.  `walk_append_iff` cuts a walk where its word is cut.
-/

namespace PathQuery

universe u v

/-- Nodes, and labelled edges that leave nodes. -/
structure Frame (α : Type u) (β : Type v) where
  node : α → Prop
  edge : α → β → α → Prop
  source : ∀ {a b c}, edge a b c → node a

namespace Frame

variable {α : Type u} {β : Type v} {Γ : Frame α β} {a b c : α} {x : β} {w w' : List β}

/-- **Walks**: from a node to a node, along edges whose labels form a word. -/
inductive Walk (Γ : Frame α β) : α → List β → α → Prop where
  | nil {a : α} : Γ.node a → Walk Γ a [] a
  | cons {a b c : α} {x : β} {w : List β} : Γ.edge a x b → Walk Γ b w c → Walk Γ a (x :: w) c

theorem Walk.node (h : Γ.Walk a w b) : Γ.node a := by
  cases h with
  | nil ha => exact ha
  | cons hab _ => exact Γ.source hab

theorem Walk.node_target (h : Γ.Walk a w b) : Γ.node b := by
  induction h with
  | nil ha => exact ha
  | cons _ _ ih => exact ih

theorem walk_nil_iff : Γ.Walk a [] b ↔ a = b ∧ Γ.node a := by
  constructor
  · rintro ⟨ha⟩
    exact ⟨rfl, ha⟩
  · rintro ⟨rfl, ha⟩
    exact .nil ha

theorem walk_cons_iff : Γ.Walk a (x :: w) c ↔ ∃ b, Γ.edge a x b ∧ Γ.Walk b w c := by
  constructor
  · rintro (_ | ⟨hab, hw⟩)
    exact ⟨_, hab, hw⟩
  · rintro ⟨b, hab, hw⟩
    exact .cons hab hw

/-- A walk along a word in two parts has a node between them. -/
theorem walk_append_iff : Γ.Walk a (w ++ w') c ↔ ∃ b, Γ.Walk a w b ∧ Γ.Walk b w' c := by
  induction w generalizing a with
  | nil =>
    constructor
    · exact fun h => ⟨a, .nil h.node, h⟩
    · rintro ⟨b, ⟨⟩, h⟩
      exact h
  | cons x w ih =>
    rw [List.cons_append, walk_cons_iff]
    constructor
    · rintro ⟨a', hx, h⟩
      obtain ⟨b, hw, hw'⟩ := ih.mp h
      exact ⟨b, .cons hx hw, hw'⟩
    · rintro ⟨b, hw, hw'⟩
      obtain ⟨a', hx, hw⟩ := walk_cons_iff.mp hw
      exact ⟨a', hx, ih.mpr ⟨b, hw, hw'⟩⟩

theorem Walk.append (h : Γ.Walk a w b) (h' : Γ.Walk b w' c) : Γ.Walk a (w ++ w') c :=
  walk_append_iff.mpr ⟨b, h, h'⟩

theorem Walk.mono {Δ : Frame α β} (hnode : ∀ a, Γ.node a → Δ.node a)
    (hedge : ∀ a x b, Γ.edge a x b → Δ.edge a x b) (h : Γ.Walk a w b) : Δ.Walk a w b := by
  induction h with
  | nil ha => exact .nil (hnode _ ha)
  | cons hab _ ih => exact .cons (hedge _ _ _ hab) ih

end Frame

/-- The nodes of a graph and its edges. -/
def Graph.frame (g : Graph) : Frame Nat String where
  node v := v ∈ g.nodes
  edge v t w := ⟨v, t, w⟩ ∈ g.edges
  source h := (g.ends_mem _ h).1

end PathQuery
