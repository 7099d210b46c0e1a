import PathQuery.Proofs.Grammar.Trimmed

/-!
# Proofs/Grammar/Stable — normalizing a normal form reorders it

The rules of a weak normal form have no units, are trimmed, and are as short as the last passes want
them; so a second normalization takes none of them away and adds none (`normalize_toGrammar`).  All
that it does is to group them by their heads (`grouped`), which a third one finds done
(`grouped_grouped`).

* `Grammar.normalize_stable` — the second normalization permutes the rules of the first, and all
  later ones leave them as they are.
-/

namespace PathQuery

universe u v

/-! ## Lists without repetitions -/

namespace Distinct

variable {α : Type u} [DecidableEq α] {known l ks : List α} {k : α} {f : α → List α}

theorem unseen_eq_nil (h : ∀ a ∈ l, a ∈ known) : unseen known l = [] :=
  List.eq_nil_iff_forall_not_mem.mpr fun a ha =>
    (mem_unseen.mp ha).2 (h a (mem_unseen.mp ha).1)

/-- Of blocks in which one value is repeated, each has one member. -/
theorem unseen_flatMap (hks : ks.Nodup) (hknown : ∀ k ∈ ks, k ∉ known)
    (hf : ∀ k ∈ ks, f k ≠ [] ∧ ∀ a ∈ f k, a = k) : unseen known (ks.flatMap f) = ks := by
  induction ks generalizing known with
  | nil => rfl
  | cons k ks ih =>
    obtain ⟨hk, hks⟩ := List.nodup_cons.mp hks
    obtain ⟨hne, hconst⟩ := hf k (List.mem_cons_self ..)
    have hblock : unseen known (f k) = [k] := by
      obtain ⟨a, l, hfk⟩ := List.exists_cons_of_ne_nil hne
      rw [hfk] at hconst ⊢
      obtain rfl := hconst a (List.mem_cons_self ..)
      rw [unseen, if_neg (hknown a (List.mem_cons_self ..)), unseen_eq_nil fun b hb => ?_]
      rw [hconst b (List.mem_cons_of_mem _ hb)]
      exact List.mem_cons_self ..
    rw [List.flatMap_cons, unseen_append, hblock, ih hks (fun a ha => ?_)
      fun a ha => hf a (List.mem_cons_of_mem _ ha)]
    · rfl
    · rw [List.mem_append, List.mem_singleton, not_or]
      exact ⟨hknown a (List.mem_cons_of_mem _ ha), fun hak => hk (hak ▸ ha)⟩

end Distinct

/-! ## Grouping by keys -/

section Grouping

variable {α : Type u} {β : Type v} {κ : Type} [DecidableEq κ] {key : α → κ} {l : List α} {a : α}

/-- The members of a list grouped by their keys, in the order in which the keys first occur. -/
def grouped (key : α → κ) (l : List α) : List α :=
  (Distinct.ofList (l.map key)).flatMap fun k => l.filter fun a => key a = k

@[simp] theorem mem_grouped : a ∈ grouped key l ↔ a ∈ l := by
  simp only [grouped, List.mem_flatMap, Distinct.mem_ofList, List.mem_map, List.mem_filter,
    decide_eq_true_iff]
  constructor
  · rintro ⟨_, -, ha, -⟩
    exact ha
  · exact fun ha => ⟨key a, ⟨a, ha, rfl⟩, ha, rfl⟩

theorem nodup_grouped (hl : l.Nodup) : (grouped key l).Nodup := by
  refine List.pairwise_flatMap.mpr ⟨fun k _ => hl.filter _, ?_⟩
  refine (Distinct.nodup_ofList _).imp fun {k k'} hk a ha b hb hab => hk ?_
  have hka := of_decide_eq_true (List.mem_filter.mp ha).2
  have hkb := of_decide_eq_true (List.mem_filter.mp hb).2
  rw [← hka, ← hkb, hab]

theorem grouped_perm (hl : l.Nodup) : (grouped key l).Perm l :=
  (List.perm_ext_iff_of_nodup (nodup_grouped hl) hl).mpr fun _ => mem_grouped

theorem grouped_map {f : β → α} {l : List β} :
    grouped key (l.map f) = (grouped (key ∘ f) l).map f := by
  rw [grouped, grouped, List.map_map, List.map_flatMap]
  refine List.flatMap_congr fun k _ => ?_
  rw [List.filter_map]
  rfl

theorem flatMap_ite_eq {ks : List κ} {k : κ} (hks : ks.Nodup) (hk : k ∈ ks) :
    (ks.flatMap fun k' => if k' = k then l else []) = l := by
  obtain ⟨l₁, l₂, rfl⟩ := List.append_of_mem hk
  have hne : ∀ k' ∈ l₁ ++ l₂, (if k' = k then l else []) = [] := fun k' hk' => by
    refine if_neg ?_
    rintro rfl
    exact (List.nodup_cons.mp (List.perm_middle.nodup_iff.mp hks)).1 hk'
  rw [List.flatMap_append, List.flatMap_cons, if_pos rfl,
    List.flatMap_eq_nil_iff.mpr fun k' hk' => hne k' (List.mem_append_left _ hk'),
    List.flatMap_eq_nil_iff.mpr fun k' hk' => hne k' (List.mem_append_right _ hk'),
    List.nil_append, List.append_nil]

/-- **Grouping once is enough**: the keys occur in the same order, each with the same members. -/
theorem grouped_grouped : grouped key (grouped key l) = grouped key l := by
  have hkeys : Distinct.ofList ((grouped key l).map key) = Distinct.ofList (l.map key) := by
    rw [grouped, List.map_flatMap]
    refine Distinct.unseen_flatMap (Distinct.nodup_ofList _) (fun _ _ => List.not_mem_nil)
      fun k hk => ⟨?_, fun k' hk' => ?_⟩
    · obtain ⟨a, ha, rfl⟩ := List.mem_map.mp (Distinct.mem_ofList.mp hk)
      exact List.ne_nil_of_mem (List.mem_map.mpr
        ⟨a, List.mem_filter.mpr ⟨ha, decide_eq_true rfl⟩, rfl⟩)
    · obtain ⟨a, ha, rfl⟩ := List.mem_map.mp hk'
      exact of_decide_eq_true (List.mem_filter.mp ha).2
  rw [grouped, hkeys]
  refine List.flatMap_congr fun k hk => ?_
  have hblock : ∀ k', ((l.filter fun a => key a = k').filter fun a => key a = k) =
      if k' = k then l.filter fun a => key a = k else [] := fun k' => by
    rw [List.filter_filter]
    split
    · next h =>
      subst h
      simp only [Bool.and_self]
    · next h =>
      refine List.filter_eq_nil_iff.mpr fun a _ ha => h ?_
      obtain ⟨hk, hk'⟩ := Bool.and_eq_true_iff.mp ha
      exact (of_decide_eq_true hk').symm.trans (of_decide_eq_true hk)
  rw [grouped, List.filter_flatMap]
  simp only [hblock]
  exact flatMap_ite_eq (Distinct.nodup_ofList _) hk

end Grouping

/-! ## The passes over rules -/

namespace Production

variable {ps : List Production} {rules : List Rule} {head : String} {names : NameSupply}

/-- Without units, a variable leads to no other one. -/
theorem unitReach_eq (hps : ∀ p ∈ ps, p.unitTarget? = none) : unitReach ps head = [head] := by
  have htargets : ∀ v, unitTargets ps v = [] := fun v => by
    refine List.filterMap_eq_nil_iff.mpr fun p hp => ?_
    rw [hps p hp, ite_self]
  rw [unitReach, Search.reach, Distinct.ofList, Distinct.unseen, if_neg List.not_mem_nil,
    Distinct.unseen, Search.visit, htargets]
  cases ps.length <;> rfl

/-- **Without units** the productions are only grouped. -/
theorem withoutUnits_eq_grouped (hps : ∀ p ∈ ps, p.unitTarget? = none) (hnodup : ps.Nodup) :
    withoutUnits ps = grouped (·.head) ps := by
  have hblock : ∀ v, (properBodies ps v).map (fun body => ⟨v, body⟩) =
      ps.filter fun p => p.head = v := fun v => by
    rw [properBodies, List.map_filterMap, ← List.filterMap_eq_filter]
    refine List.filterMap_congr fun p hp => ?_
    simp only [hps p hp, and_true, Option.guard, decide_eq_true_eq]
    split
    · next h => exact congrArg some (h ▸ rfl)
    · rfl
  simp only [withoutUnits, unitReach_eq hps, List.flatMap_cons, List.flatMap_nil, List.append_nil,
    hblock]
  exact Distinct.ofList_of_nodup (nodup_grouped hnodup)

theorem unitTarget?_toProduction (r : Rule) : r.toProduction.unitTarget? = none := by
  obtain ⟨head, body⟩ := r
  cases body <;> rfl

theorem wrapAll_toProduction {W : Wrappers} :
    wrapAll W (rules.map Rule.toProduction) = (W, rules.map Rule.toProduction) := by
  induction rules with
  | nil => rfl
  | cons r rules ih =>
    obtain ⟨head, body⟩ := r
    rw [List.map_cons, wrapAll]
    cases body <;> simp [Rule.toProduction, wrapBody, ih]

/-- The terminals of rules stand alone. -/
theorem isolateTerminals_toProduction :
    isolateTerminals names (rules.map Rule.toProduction) =
      (names, rules.map Rule.toProduction) := by
  rw [isolateTerminals, wrapAll_toProduction]
  exact congrArg _ (List.append_nil _)

/-- The bodies of rules are short. -/
theorem binarize_toProduction :
    binarize names (rules.map Rule.toProduction) = (names, rules.map Rule.toProduction) := by
  induction rules with
  | nil => rfl
  | cons r rules ih =>
    obtain ⟨head, body⟩ := r
    rw [List.map_cons, binarize]
    cases body <;> simp [Rule.toProduction, splitBody, ih]

end Production

namespace Grammar

open Production (Trimmed)

variable {start : String} {rules : List Rule}

/-- The productions of different rules are recognized as these rules. -/
theorem ofGrammar?_toProduction (h : rules.Nodup) :
    NormalGrammar.ofGrammar? (ofList start (rules.map Rule.toProduction)) = .ok ⟨start, rules⟩ := by
  have hofGrammar := NormalGrammar.ofGrammar?_toGrammar ⟨start, rules⟩
  rwa [Distinct.ofList_of_nodup h] at hofGrammar

/-- **Normalizing a normal form** groups its rules. -/
theorem normalize_toGrammar {N : NormalGrammar} (hrules : N.rules.Nodup)
    (hN : Trimmed N.start (N.rules.map Rule.toProduction)) :
    N.toGrammar.normalize = .ok ⟨N.start, grouped (·.head) N.rules⟩ := by
  have hnodup := hrules.map Rule.toProduction_injective
  have hunits : ∀ p ∈ N.rules.map Rule.toProduction, p.unitTarget? = none := fun p hp => by
    obtain ⟨r, -, rfl⟩ := List.mem_map.mp hp
    exact Production.unitTarget?_toProduction r
  have hgrouped : grouped (·.head) (N.rules.map Rule.toProduction) =
      (grouped (·.head) N.rules).map Rule.toProduction := grouped_map
  have huseful : Production.usefulFrom N.start (grouped (·.head) (N.rules.map Rule.toProduction)) =
      grouped (·.head) (N.rules.map Rule.toProduction) :=
    (hN.congr fun p => mem_grouped.symm).usefulFrom_eq
  have hproductions : N.toGrammar.normalProductions =
      (grouped (·.head) N.rules).map Rule.toProduction := by
    rw [normalProductions, NormalGrammar.toGrammar, start_ofList, productions_ofList,
      Distinct.ofList_of_nodup hnodup, Production.withoutUnits_eq_grouped hunits hnodup, huseful,
      hgrouped, Production.isolateTerminals_toProduction]
    exact congrArg Prod.snd Production.binarize_toProduction
  rw [normalize, hproductions, NormalGrammar.toGrammar, start_ofList]
  exact ofGrammar?_toProduction (nodup_grouped hrules)

/-- The rules of a weak normal form are different and trimmed. -/
theorem exists_trimmed_rules (g : Grammar) : ∃ rules : List Rule,
    g.normalize = .ok ⟨g.start, rules⟩ ∧ rules.Nodup ∧
      Trimmed g.start (rules.map Rule.toProduction) := by
  obtain ⟨rules, hok, hrules, hmem⟩ := exists_rules g
  exact ⟨rules, hok, hrules, (trimmed_normalProductions g).congr fun p => (hmem p).symm⟩

/-- **Stability**: the rules of the weak normal form are different, and normalizing it once more
permutes them.  From then on normalization changes nothing, not even their order. -/
theorem normalize_stable (g : Grammar) : ∃ N₁ N₂,
    g.normalize = .ok N₁ ∧ N₁.toGrammar.normalize = .ok N₂ ∧ N₂.toGrammar.normalize = .ok N₂ ∧
      N₁.rules.Nodup ∧ N₂.rules.Perm N₁.rules := by
  obtain ⟨rules, hok, hrules, htrimmed⟩ := exists_trimmed_rules g
  have hgrouped : Trimmed g.start ((grouped (·.head) rules).map Rule.toProduction) :=
    htrimmed.congr fun p => by simp only [List.mem_map, mem_grouped]
  refine ⟨_, _, hok, normalize_toGrammar hrules htrimmed, ?_, hrules, grouped_perm hrules⟩
  rw [normalize_toGrammar (nodup_grouped hrules) hgrouped, grouped_grouped]

end Grammar

end PathQuery
