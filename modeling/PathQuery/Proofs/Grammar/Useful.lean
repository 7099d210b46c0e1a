import Mathlib.Data.List.Perm.Subperm
import PathQuery.Grammar.Useful
import PathQuery.Proofs.Grammar.Basic

/-!
# Proofs/Grammar/Useful — dropped productions occur in no derivation

A derivation of a word mentions generating variables only, from the leaves up
(`derives_generatingOnly`), and variables that can be reached only, from the root down
(`derives_reachableOnly`).  Hence dropping all other productions, in this order, keeps the words
of the start variable (`derives_usefulFrom_iff`).
-/

namespace PathQuery.Production

variable {ps : List Production} {p : Production} {known : List String} {v start : String}
  {x : List Symbol} {w : List String}

theorem bodyWithin_iff : p.bodyWithin known = true ↔ ∀ v, .nonterminal v ∈ p.body → v ∈ known := by
  simp only [bodyWithin, List.all_eq_true, decide_eq_true_eq, mem_filterMap_nonterminal?]

/-! ## Generating variables -/

/-- Variables are closed where they contain the head of each production whose body they contain. -/
def Closed (ps : List Production) (known : List String) : Prop :=
  ∀ p ∈ ps, p.bodyWithin known = true → p.head ∈ known

/-- The rounds end with closed variables: each round but the last adds another head. -/
theorem closed_generatingFrom (rounds : Nat) (hnodup : known.Nodup)
    (hheads : ∀ v ∈ known, v ∈ ps.map (·.head)) (hb : ps.length ≤ known.length + rounds) :
    Closed ps (generatingFrom ps rounds known) := by
  induction rounds generalizing known with
  | zero =>
    have hperm := (List.subperm_of_subset hnodup hheads).perm_of_length_le (by simpa using hb)
    exact fun p hp _ => hperm.mem_iff.mpr (List.mem_map.mpr ⟨p, hp, rfl⟩)
  | succ rounds ih =>
    rw [generatingFrom]
    split
    · next hnone =>
      intro p hp hbody
      refine Decidable.byContradiction fun hhead => ?_
      have hmem : p.head ∈ Distinct.unseen known ((ps.filter (bodyWithin known)).map (·.head)) :=
        Distinct.mem_unseen.mpr
          ⟨List.mem_map.mpr ⟨p, List.mem_filter.mpr ⟨hp, hbody⟩, rfl⟩, hhead⟩
      rw [hnone] at hmem
      cases hmem
    · next hne =>
      have hnew : ∀ v ∈ Distinct.unseen known ((ps.filter (bodyWithin known)).map (·.head)),
          v ∈ ps.map (·.head) ∧ v ∉ known := fun v hv => by
        obtain ⟨hv, hvk⟩ := Distinct.mem_unseen.mp hv
        obtain ⟨p, hp, rfl⟩ := List.mem_map.mp hv
        exact ⟨List.mem_map.mpr ⟨p, (List.mem_filter.mp hp).1, rfl⟩, hvk⟩
      refine ih ?_ ?_ ?_
      · exact List.nodup_append.mpr ⟨hnodup, Distinct.nodup_unseen .., fun a ha b hb hab =>
          (hnew b hb).2 (hab ▸ ha)⟩
      · exact fun v hv => (List.mem_append.mp hv).elim (hheads v) fun hv => (hnew v hv).1
      · have := List.length_pos_iff.mpr hne
        rw [List.length_append]
        omega

theorem closed_generating : Closed ps (generating ps) :=
  closed_generatingFrom _ List.nodup_nil (by simp) (by simp)

/-- The productions all of whose variables are generating. -/
def generatingOnly (ps : List Production) : List Production :=
  ps.filter fun p => decide (p.head ∈ generating ps) && p.bodyWithin (generating ps)

/-- **From the leaves up**: a derivation mentions generating variables only. -/
theorem derives_generatingOnly (h : Derives (bodies ps) x w) :
    (∀ v, .nonterminal v ∈ x → v ∈ generating ps) ∧ Derives (bodies (generatingOnly ps)) x w := by
  induction h with
  | nil => exact ⟨by simp, .nil⟩
  | terminal _ ih =>
    refine ⟨fun v hv => ih.1 v ?_, .terminal ih.2⟩
    simpa using hv
  | @nonterminal v body x u w hv _ _ ihu ihw =>
    have hbody : bodyWithin (Production.generating ps) ⟨v, body⟩ = true := bodyWithin_iff.mpr ihu.1
    have hhead : v ∈ Production.generating ps := closed_generating _ hv hbody
    refine ⟨fun b hb => ?_, .nonterminal ?_ ihu.2 ihw.2⟩
    · rcases List.mem_cons.mp hb with hb | hb
      · exact Symbol.nonterminal.inj hb ▸ hhead
      · exact ihw.1 b hb
    · exact List.mem_filter.mpr ⟨hv, by simp [hhead, hbody]⟩

/-! ## Reachable variables -/

theorem mem_bodyVariables {u : String} :
    u ∈ bodyVariables ps v ↔ ∃ body, ⟨v, body⟩ ∈ ps ∧ .nonterminal u ∈ body := by
  simp only [bodyVariables, List.mem_flatMap]
  constructor
  · rintro ⟨⟨head, body⟩, hp, hu⟩
    split at hu
    · next h =>
      obtain rfl : head = v := h
      exact ⟨body, hp, mem_filterMap_nonterminal?.mp hu⟩
    · cases hu
  · rintro ⟨body, hp, hu⟩
    exact ⟨_, hp, by simpa using mem_filterMap_nonterminal?.mpr hu⟩

theorem mem_reachableFrom :
    v ∈ reachableFrom ps start ↔ Search.Reachable (bodyVariables ps) [start] v := by
  have huniv : ∀ u, Search.Reachable (bodyVariables ps) [start] u →
      u ∈ start :: (ps.flatMap (·.body)).filterMap Symbol.nonterminal? := by
    rintro u (hu | ⟨_, hu⟩)
    · exact List.mem_cons.mpr (.inl (List.mem_singleton.mp hu))
    · obtain ⟨body, hp, hu⟩ := mem_bodyVariables.mp hu
      exact List.mem_cons_of_mem _
        (mem_filterMap_nonterminal?.mpr (List.mem_flatMap.mpr ⟨_, hp, hu⟩))
  refine Search.mem_reach_iff huniv ?_
  rw [List.length_cons]
  exact Nat.succ_le_succ (List.length_filterMap_le ..)

/-- **From the root down**: a derivation from reachable variables stays within them. -/
theorem derives_reachableOnly (h : Derives (bodies ps) x w)
    (hx : ∀ v, .nonterminal v ∈ x → v ∈ reachableFrom ps start) :
    Derives (bodies (ps.filter fun p => decide (p.head ∈ reachableFrom ps start))) x w := by
  induction h with
  | nil => exact .nil
  | terminal _ ih => exact .terminal (ih fun v hv => hx v (List.mem_cons_of_mem _ hv))
  | @nonterminal v body x u w hv _ _ ihu ihw =>
    have hhead : v ∈ reachableFrom ps start := hx v (List.mem_cons_self ..)
    refine .nonterminal (List.mem_filter.mpr ⟨hv, by simpa using hhead⟩) (ihu fun b hb => ?_)
      (ihw fun b hb => hx b (List.mem_cons_of_mem _ hb))
    exact mem_reachableFrom.mpr
      (.step (mem_reachableFrom.mp hhead) (mem_bodyVariables.mpr ⟨body, hv, hb⟩))

/-! ## Useful productions -/

theorem usefulFrom_eq : usefulFrom start ps =
    if start ∈ generating ps then
      (generatingOnly ps).filter fun p => decide (p.head ∈ reachableFrom (generatingOnly ps) start)
    else [] := rfl

theorem mem_of_mem_usefulFrom (h : p ∈ usefulFrom start ps) : p ∈ ps := by
  rw [usefulFrom_eq] at h
  split at h
  · exact (List.mem_filter.mp (List.mem_filter.mp h).1).1
  · cases h

/-- **Removal of useless productions** keeps the words of the start variable. -/
theorem derives_usefulFrom_iff :
    Derives (bodies (usefulFrom start ps)) [.nonterminal start] w ↔
      Derives (bodies ps) [.nonterminal start] w := by
  constructor
  · exact Derives.mono fun _ _ h => mem_of_mem_usefulFrom h
  · intro h
    obtain ⟨hgen, h⟩ := derives_generatingOnly h
    rw [usefulFrom_eq, if_pos (hgen start (List.mem_cons_self ..))]
    refine derives_reachableOnly h fun v hv => ?_
    obtain rfl : v = start := Symbol.nonterminal.inj (List.mem_singleton.mp hv)
    exact mem_reachableFrom.mpr (.seed (List.mem_singleton.mpr rfl))

end PathQuery.Production
