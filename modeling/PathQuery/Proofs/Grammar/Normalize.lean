import PathQuery.Grammar.Normalize
import PathQuery.Proofs.Grammar.Binarization
import PathQuery.Proofs.Grammar.Conversion
import PathQuery.Proofs.Grammar.Units
import PathQuery.Proofs.Grammar.Useful

/-!
# Proofs/Grammar/Normalize — the weak normal form derives the same words

* `Grammar.exists_normalize` — every grammar has a weak normal form, with the same start variable
  and the same words.

The passes are composed in the order in which they run: without units, useful productions only,
terminals isolated, bodies binarized.  All variables of the grammar are in use from the beginning,
those of dropped productions too, which is what isolation and binarization ask for.
-/

namespace PathQuery.Grammar

open Production (bodies Over Isolated)

variable {g : Grammar} {start : String} {ps : List Production} {w : List String}

/-! ## Variables in use -/

/-- Where no unit is left, no variable is new. -/
theorem over_withoutUnits {used : List String} (hps : ∀ p ∈ ps, p.Over used) :
    ∀ p ∈ Production.withoutUnits ps, p.Over used ∧ p.unitTarget? = none := by
  rintro ⟨head, body⟩ hp
  obtain ⟨hproper, b, hb, hbody⟩ := Production.mem_withoutUnits.mp hp
  refine ⟨⟨?_, fun v hv => (hps _ hbody).body v hv⟩, ?_⟩
  · rcases Production.eq_or_mem_heads hb with rfl | hhead
    · exact (hps _ hbody).head
    · obtain ⟨q, hq, rfl⟩ := List.mem_map.mp hhead
      exact (hps q hq).head
  · exact Production.unitTarget?_eq_none_iff.mpr hproper

/-! ## The passes together -/

/-- The productions of the normal form are rules. -/
theorem exists_toProduction_of_mem {p : Production} (hp : p ∈ g.normalProductions) :
    ∃ r : Rule, r.toProduction = p := by
  refine Production.exists_toProduction_of_mem_binarize (fun q hq => ?_) hp
  refine Production.isolated_isolateTerminals (fun q hq => ?_) q hq
  exact (over_withoutUnits over_nonterminals q (Production.mem_of_mem_usefulFrom hq)).2

theorem derives_normalProductions_iff :
    Derives (bodies g.normalProductions) [.nonterminal g.start] w ↔ g.Generates w := by
  let useful := Production.usefulFrom g.start (Production.withoutUnits g.productions)
  let isolated := Production.isolateTerminals (.ofTaken g.nonterminals) useful
  have huseful : ∀ p ∈ useful, p.Over g.nonterminals := fun p hp =>
    (over_withoutUnits over_nonterminals p (Production.mem_of_mem_usefulFrom hp)).1
  have hstart : ∀ v, .nonterminal v ∈ [Symbol.nonterminal g.start] → v ∈ g.nonterminals := by
    intro v hv
    obtain rfl : v = g.start := Symbol.nonterminal.inj (List.mem_singleton.mp hv)
    exact start_mem_nonterminals
  obtain ⟨hmono, hover⟩ :=
    @Production.over_isolateTerminals (.ofTaken g.nonterminals) useful huseful
  calc Derives (bodies (Production.binarize isolated.1 isolated.2).2) [.nonterminal g.start] w
    _ ↔ Derives (bodies isolated.2) [.nonterminal g.start] w :=
      Production.derives_binarize_iff hover fun v hv => hmono v (hstart v hv)
    _ ↔ Derives (bodies useful) [.nonterminal g.start] w :=
      Production.derives_isolateTerminals_iff huseful hstart
    _ ↔ Derives (bodies (Production.withoutUnits g.productions)) [.nonterminal g.start] w :=
      Production.derives_usefulFrom_iff
    _ ↔ g.Generates w := Production.derives_withoutUnits_iff

/-- The conversion succeeds, with different rules that are the productions of the normal form. -/
theorem exists_rules (g : Grammar) :
    ∃ rules : List Rule, g.normalize = .ok ⟨g.start, rules⟩ ∧ rules.Nodup ∧
      ∀ p, p ∈ rules.map Rule.toProduction ↔ p ∈ g.normalProductions := by
  obtain ⟨rules, hmap⟩ := @Rule.exists_map_toProduction
    (ofList g.start g.normalProductions).productions fun p hp => by
      obtain ⟨r, rfl⟩ := exists_toProduction_of_mem (mem_ofList.mp hp)
      exact r.isNormal_toProduction
  refine ⟨rules, ?_, .of_map Rule.toProduction (hmap ▸ (ofList g.start _).nodup), fun p => ?_⟩
  · rw [normalize, NormalGrammar.ofGrammar?, ← hmap, Rule.mapM_ofProduction?_toProduction,
      start_ofList]
    rfl
  · rw [hmap, mem_ofList]

/-- A weak normal form of a grammar derives its words. -/
theorem generates_of_normalize {N : NormalGrammar} (h : g.normalize = .ok N) :
    N.start = g.start ∧ (N.Generates w ↔ g.Generates w) := by
  obtain ⟨rules, hok, -, hrules⟩ := exists_rules g
  cases h.symm.trans hok
  refine ⟨rfl, ?_⟩
  calc Derives (bodies (rules.map Rule.toProduction)) [.nonterminal g.start] w
    _ ↔ Derives (bodies g.normalProductions) [.nonterminal g.start] w :=
      Production.derives_congr hrules
    _ ↔ g.Generates w := derives_normalProductions_iff

/-- **Weak normal form**: every grammar has one, and it has the same start variable and derives the
same words. -/
theorem exists_normalize (g : Grammar) :
    ∃ N, g.normalize = .ok N ∧ N.start = g.start ∧ ∀ w, N.Generates w ↔ g.Generates w := by
  obtain ⟨rules, hok, -⟩ := exists_rules g
  exact ⟨⟨g.start, rules⟩, hok, rfl, fun w => (generates_of_normalize hok).2⟩

end PathQuery.Grammar
