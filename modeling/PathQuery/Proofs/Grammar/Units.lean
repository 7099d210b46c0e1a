import Mathlib.Logic.Basic
import PathQuery.Grammar.Units
import PathQuery.Proofs.Grammar.Derivation

/-!
# Proofs/Grammar/Units — chains of units can be skipped

`withoutUnits` gives a variable the proper bodies of all variables that a chain of units leads to
from it (`mem_withoutUnits`), however the chain runs, also around a cycle.  Every list of symbols
derives the same words before and after (`derives_withoutUnits_iff`).
-/

namespace PathQuery.Production

open Search (Reachable reachable_self)

variable {ps : List Production} {a b c : String} {body x : List Symbol} {w : List String}

theorem unitTarget?_eq_some_iff {p : Production} :
    p.unitTarget? = some b ↔ p.body = [.nonterminal b] := by
  unfold unitTarget?
  split <;> simp_all

/-- A body is proper where it is no single variable. -/
theorem unitTarget?_eq_none_iff {p : Production} :
    p.unitTarget? = none ↔ ∀ b, p.body ≠ [.nonterminal b] := by
  simp only [Option.eq_none_iff_forall_ne_some, ne_eq, unitTarget?_eq_some_iff]

theorem mem_unitTargets : b ∈ unitTargets ps a ↔ ⟨a, [.nonterminal b]⟩ ∈ ps := by
  simp only [unitTargets, List.mem_filterMap, Option.ite_none_right_eq_some,
    unitTarget?_eq_some_iff]
  constructor
  · rintro ⟨⟨_, _⟩, hp, rfl, rfl⟩
    exact hp
  · exact fun h => ⟨_, h, rfl, rfl⟩

theorem mem_properBodies :
    body ∈ properBodies ps a ↔ ⟨a, body⟩ ∈ ps ∧ ∀ b, body ≠ [.nonterminal b] := by
  simp only [properBodies, List.mem_filterMap, Option.ite_none_right_eq_some, Option.some.injEq,
    unitTarget?_eq_none_iff]
  constructor
  · rintro ⟨⟨_, _⟩, hp, ⟨rfl, hproper⟩, rfl⟩
    exact ⟨hp, hproper⟩
  · exact fun ⟨h, hproper⟩ => ⟨_, h, ⟨rfl, hproper⟩, rfl⟩

/-! ## Chains of units -/

/-- A chain of units that leads anywhere else begins with a production of its first variable. -/
theorem eq_or_mem_heads (h : Reachable (unitTargets ps) [a] b) :
    b = a ∨ a ∈ ps.map (·.head) :=
  h.eq_or_exists_mem.imp_right fun ⟨_, hc⟩ => List.mem_map.mpr ⟨_, mem_unitTargets.mp hc, rfl⟩

theorem mem_unitReach : b ∈ unitReach ps a ↔ Reachable (unitTargets ps) [a] b := by
  have huniv : ∀ c, Reachable (unitTargets ps) [a] c → c ∈ a :: ps.filterMap unitTarget? := by
    rintro c (hc | ⟨_, hc⟩)
    · exact List.mem_cons.mpr (.inl (List.mem_singleton.mp hc))
    · exact List.mem_cons_of_mem _ (List.mem_filterMap.mpr
        ⟨_, mem_unitTargets.mp hc, unitTarget?_eq_some_iff.mpr rfl⟩)
  refine Search.mem_reach_iff huniv ?_
  simpa using List.length_filterMap_le unitTarget? ps

/-- **The productions without units**: a variable has the proper bodies of all variables that units
lead to. -/
theorem mem_withoutUnits : ⟨a, body⟩ ∈ withoutUnits ps ↔
    (∀ b, body ≠ [.nonterminal b]) ∧
      ∃ b, Reachable (unitTargets ps) [a] b ∧ ⟨b, body⟩ ∈ ps := by
  simp only [withoutUnits, Distinct.mem_ofList, List.mem_flatMap, List.mem_map, mem_unitReach,
    mem_properBodies, mk.injEq]
  constructor
  · rintro ⟨_, _, b, hb, body, ⟨hp, hproper⟩, rfl, rfl⟩
    exact ⟨hproper, b, hb, hp⟩
  · rintro ⟨hproper, b, hb, hp⟩
    refine ⟨a, ?_, b, hb, body, ⟨hp, hproper⟩, rfl, rfl⟩
    rcases eq_or_mem_heads hb with rfl | ha
    · exact ⟨_, hp, rfl⟩
    · exact List.mem_map.mp ha

theorem derives_of_reachable (h : Reachable (unitTargets ps) [a] b)
    (hw : Derives (bodies ps) [.nonterminal b] w) : Derives (bodies ps) [.nonterminal a] w := by
  induction h with
  | seed h => exact List.mem_singleton.mp h ▸ hw
  | step _ hb ih => exact ih (derives_nonterminal_iff.mpr ⟨_, mem_unitTargets.mp hb, hw⟩)

/-- **Unit elimination**: without units all symbols derive the same words. -/
theorem derives_withoutUnits_iff :
    Derives (bodies (withoutUnits ps)) x w ↔ Derives (bodies ps) x w := by
  constructor <;> refine Derives.transfer fun v body w hv hw => ?_
  · obtain ⟨_, b, hb, hp⟩ := mem_withoutUnits.mp hv
    exact derives_of_reachable hb (derives_nonterminal_iff.mpr ⟨body, hp, hw⟩)
  · by_cases hproper : ∀ b, body ≠ [.nonterminal b]
    · exact derives_nonterminal_iff.mpr ⟨body,
        mem_withoutUnits.mpr ⟨hproper, v, reachable_self, hv⟩, hw⟩
    · simp only [ne_eq, not_forall, not_not] at hproper
      obtain ⟨b, rfl⟩ := hproper
      obtain ⟨body, hbody, hw⟩ := derives_nonterminal_iff.mp hw
      obtain ⟨hproper, c, hc, hp⟩ := mem_withoutUnits.mp hbody
      have hb : Reachable (unitTargets ps) [v] b := .step reachable_self (mem_unitTargets.mpr hv)
      exact derives_nonterminal_iff.mpr ⟨body,
        mem_withoutUnits.mpr ⟨hproper, c, hb.trans hc, hp⟩, hw⟩

end PathQuery.Production
