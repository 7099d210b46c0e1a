import PathQuery.Engine.Fact
import PathQuery.Proofs.Data
import PathQuery.Proofs.Path.Joins

/-!
# Proofs/Engine/Fact — the facts that rules derive

Facts are listed in a linear order, so that a list of facts has the members it was made of.  The
facts of a grammar in weak normal form are the least relation that its rules are closed under:

* `closed_joinedBy` — the rules are closed under the pairs of nodes that variables join.
* `Closed.of_joinedBy` — a relation that they are closed under has all these pairs.
-/

namespace PathQuery

universe u

instance : LawfulPrecedes Fact where
  irrefl e := LawfulPrecedes.irrefl (e.source, e.head, e.target)
  trans {e f h} hef hfh := @LawfulPrecedes.trans _ _ _ (e.source, e.head, e.target)
    (f.source, f.head, f.target) (h.source, h.head, h.target) hef hfh
  connected {e f} hef hfe := by
    have heq : (e.source, e.head, e.target) = (f.source, f.head, f.target) :=
      LawfulPrecedes.connected hef hfe
    cases e
    cases f
    simpa using heq

namespace NormalGrammar

variable {α : Type u} {N : NormalGrammar} {Γ : Frame α String} {D : String → α → α → Prop}
  {v : String} {a b : α} {body : List Symbol}

theorem bodies_iff : N.bodies v body ↔ ∃ r ∈ N.rules, r.head = v ∧ r.toProduction.body = body := by
  rw [bodies, Production.bodies, List.mem_map]
  refine exists_congr fun r => and_congr_right fun _ => ?_
  constructor
  · intro h
    exact ⟨congrArg Production.head h, congrArg Production.body h⟩
  · rintro ⟨rfl, rfl⟩
    rfl

/-- **Closure under rules**: what a rule derives from edges and related nodes is related. -/
structure Closed (N : NormalGrammar) (Γ : Frame α String) (D : String → α → α → Prop) : Prop where
  empty : ∀ {v a}, ⟨v, .empty⟩ ∈ N.rules → Γ.node a → D v a a
  terminal : ∀ {v t a b}, ⟨v, .terminal t⟩ ∈ N.rules → Γ.edge a t b → D v a b
  pair : ∀ {v u w a b c}, ⟨v, .pair u w⟩ ∈ N.rules → D u a b → D w b c → D v a c

/-- The rules are closed under the pairs that variables join. -/
theorem closed_joinedBy (hΓ : ∀ {a t b}, Γ.edge a t b → Γ.node b) :
    N.Closed Γ (JoinedBy N.bodies Γ) where
  empty hr ha := joins_nonterminal_iff.mpr ⟨_, bodies_iff.mpr ⟨_, hr, rfl, rfl⟩, .nil ha⟩
  terminal hr hab := joins_nonterminal_iff.mpr
    ⟨_, bodies_iff.mpr ⟨_, hr, rfl, rfl⟩, .terminal hab (.nil (hΓ hab))⟩
  pair hr hab hbc := joins_nonterminal_iff.mpr
    ⟨_, bodies_iff.mpr ⟨_, hr, rfl, rfl⟩, hab.cons hbc⟩

theorem Closed.of_links (hD : N.Closed Γ D) (hv : N.bodies v body) (h : Links Γ D body a b) :
    D v a b := by
  obtain ⟨⟨_, rule⟩, hr, rfl, rfl⟩ := bodies_iff.mp hv
  cases rule with
  | empty =>
    obtain ⟨rfl, ha⟩ := h
    exact hD.empty hr ha
  | terminal t =>
    obtain ⟨_, hab, rfl, -⟩ := h
    exact hD.terminal hr hab
  | pair u w =>
    obtain ⟨c, hac, _, hcb, rfl, -⟩ := h
    exact hD.pair hr hac hcb

/-- A relation that the rules are closed under has all pairs that variables join. -/
theorem Closed.of_joinedBy (hD : N.Closed Γ D) (h : JoinedBy N.bodies Γ v a b) : D v a b := by
  obtain ⟨_, hab, rfl, -⟩ := h.links fun v body a b => hD.of_links
  exact hab

/-- Variables that join nodes are heads of rules. -/
theorem exists_rule_of_joinedBy (h : JoinedBy N.bodies Γ v a b) : ∃ r ∈ N.rules, r.head = v := by
  obtain ⟨body, hv, -⟩ := joins_nonterminal_iff.mp h
  obtain ⟨r, hr, hhead, -⟩ := bodies_iff.mp hv
  exact ⟨r, hr, hhead⟩

end NormalGrammar

end PathQuery
