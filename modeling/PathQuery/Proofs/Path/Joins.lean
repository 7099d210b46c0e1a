import PathQuery.Proofs.Grammar.Derivation
import PathQuery.Proofs.Path.Walk

/-!
# Proofs/Path/Joins — walks that spell derived words

`Joins P Γ x a b` says that some walk from `a` to `b` spells a word that the symbols `x` derive
(`joins_iff_exists_walk`).  Seen as a relation between nodes it is the least one that the bodies of
`P` are closed under, which is how every engine finds it:

* `joins_nonterminal_iff` — joining by a variable is linking by one of its bodies.
* `Joins.links` — whatever relation the bodies are closed under, it contains all joins.
-/

namespace PathQuery

universe u

variable {α : Type u} {P Q : Bodies} {Γ : Frame α String} {x y : List Symbol} {v t : String}
  {a b c : α} {w : List String}

/-- Nodes linked by symbols: an edge for each terminal, and for each variable a pair of nodes that
`D` has for it. -/
def Links (Γ : Frame α String) (D : String → α → α → Prop) : List Symbol → α → α → Prop
  | [], a, c => a = c ∧ Γ.node a
  | .terminal t :: x, a, c => ∃ b, Γ.edge a t b ∧ Links Γ D x b c
  | .nonterminal v :: x, a, c => ∃ b, D v a b ∧ Links Γ D x b c

/-- **Joins**: nodes linked by symbols, where a variable may be replaced by any of its bodies. -/
inductive Joins (P : Bodies) (Γ : Frame α String) : List Symbol → α → α → Prop where
  | nil {a : α} : Γ.node a → Joins P Γ [] a a
  | terminal {a b c : α} {t : String} {x : List Symbol} :
      Γ.edge a t b → Joins P Γ x b c → Joins P Γ (.terminal t :: x) a c
  | nonterminal {a b c : α} {v : String} {body x : List Symbol} :
      P v body → Joins P Γ body a b → Joins P Γ x b c → Joins P Γ (.nonterminal v :: x) a c

/-! ## Joins and words -/

theorem Joins.exists_walk (h : Joins P Γ x a b) : ∃ w, Derives P x w ∧ Γ.Walk a w b := by
  induction h with
  | nil ha => exact ⟨[], .nil, .nil ha⟩
  | terminal hab _ ih =>
    obtain ⟨w, hx, hw⟩ := ih
    exact ⟨_, .terminal hx, .cons hab hw⟩
  | nonterminal hv _ _ ihbody ihx =>
    obtain ⟨u, hbody, hu⟩ := ihbody
    obtain ⟨w, hx, hw⟩ := ihx
    exact ⟨u ++ w, .nonterminal hv hbody hx, hu.append hw⟩

theorem Derives.joins (h : Derives P x w) (hw : Γ.Walk a w b) : Joins P Γ x a b := by
  induction h generalizing a b with
  | nil =>
    obtain ⟨rfl, ha⟩ := Frame.walk_nil_iff.mp hw
    exact .nil ha
  | terminal _ ih =>
    obtain ⟨c, hac, hw⟩ := Frame.walk_cons_iff.mp hw
    exact .terminal hac (ih hw)
  | nonterminal hv _ _ ihbody ihx =>
    obtain ⟨c, hu, hw⟩ := Frame.walk_append_iff.mp hw
    exact .nonterminal hv (ihbody hu) (ihx hw)

theorem Joins.node_target (h : Joins P Γ x a b) : Γ.node b := by
  obtain ⟨w, -, hw⟩ := h.exists_walk
  exact hw.node_target

theorem Joins.node (h : Joins P Γ x a b) : Γ.node a := by
  obtain ⟨w, -, hw⟩ := h.exists_walk
  exact hw.node

theorem Joins.cons {s : Symbol} (h : Joins P Γ [s] a b) (hx : Joins P Γ x b c) :
    Joins P Γ (s :: x) a c := by
  cases h with
  | terminal hab hnil =>
    cases hnil
    exact .terminal hab hx
  | nonterminal hv hbody hnil =>
    cases hnil
    exact .nonterminal hv hbody hx

/-- **Joins are walks**: along a word that the symbols derive. -/
theorem joins_iff_exists_walk : Joins P Γ x a b ↔ ∃ w, Derives P x w ∧ Γ.Walk a w b := by
  constructor
  · exact Joins.exists_walk
  · rintro ⟨w, hx, hw⟩
    exact hx.joins hw

/-! ## The least relation -/

theorem Links.mono {D E : String → α → α → Prop} (h : ∀ v a b, D v a b → E v a b)
    (hx : Links Γ D x a b) : Links Γ E x a b := by
  induction x generalizing a with
  | nil => exact hx
  | cons s x ih =>
    cases s with
    | terminal t =>
      obtain ⟨c, hac, hx⟩ := hx
      exact ⟨c, hac, ih hx⟩
    | nonterminal v =>
      obtain ⟨c, hac, hx⟩ := hx
      exact ⟨c, h v a c hac, ih hx⟩

/-- The pairs of nodes that a variable joins. -/
abbrev JoinedBy (P : Bodies) (Γ : Frame α String) (v : String) (a b : α) : Prop :=
  Joins P Γ [.nonterminal v] a b

/-- A variable joins what one of its bodies joins. -/
theorem joins_nonterminal_iff :
    JoinedBy P Γ v a b ↔ ∃ body, P v body ∧ Joins P Γ body a b := by
  constructor
  · rintro (_ | _ | ⟨hv, hbody, ⟨hb⟩⟩)
    exact ⟨_, hv, hbody⟩
  · rintro ⟨body, hv, hbody⟩
    exact .nonterminal hv hbody (.nil hbody.node_target)

/-- Joining is linking by the pairs that variables join. -/
theorem joins_iff_links : Joins P Γ x a b ↔ Links Γ (JoinedBy P Γ) x a b := by
  constructor
  · intro h
    induction h with
    | nil ha => exact ⟨rfl, ha⟩
    | terminal hab _ ih => exact ⟨_, hab, ih⟩
    | nonterminal hv hbody _ _ ih =>
      exact ⟨_, joins_nonterminal_iff.mpr ⟨_, hv, hbody⟩, ih⟩
  · intro h
    induction x generalizing a with
    | nil =>
      obtain ⟨rfl, ha⟩ := h
      exact .nil ha
    | cons s x ih =>
      cases s with
      | terminal t =>
        obtain ⟨c, hac, hx⟩ := h
        exact .terminal hac (ih hx)
      | nonterminal v =>
        obtain ⟨c, hac, hx⟩ := h
        obtain ⟨body, hv, hbody⟩ := joins_nonterminal_iff.mp hac
        exact .nonterminal hv hbody (ih hx)

/-- **Leastness**: a relation that the bodies are closed under has all pairs that are joined. -/
theorem Joins.links {D : String → α → α → Prop}
    (hclosed : ∀ v body a b, P v body → Links Γ D body a b → D v a b) (h : Joins P Γ x a b) :
    Links Γ D x a b := by
  induction h with
  | nil ha => exact ⟨rfl, ha⟩
  | terminal hab _ ih => exact ⟨_, hab, ih⟩
  | nonterminal hv _ _ ihbody ihx => exact ⟨_, hclosed _ _ _ _ hv ihbody, ihx⟩

end PathQuery
