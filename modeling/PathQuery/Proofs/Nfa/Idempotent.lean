import PathQuery.Proofs.Nfa.Shape

/-!
# Proofs/Nfa/Idempotent — minimal automata are their own minimal automata

* `minimized_minimize`, `Minimized.tryMinimize_eq_ok` — minimizing a minimal automaton changes
  nothing, not even the order in which anything is listed.

Trimming a trimmed automaton keeps all of its states, each with its number (`trim_eq_self`).
Refining a merged automaton ends with single states: blocks of classes are blocks of states that the
refinement has left together, and those are merged already (`classes_merge`).  Merging single states
keeps the lists of an automaton that has no repetitions in them (`merge_range`).
-/

namespace PathQuery.Nfa

open Relation (ReflTransGen)

variable {A M : Nfa} {p q i j : Nat} {cs : List Nat}

/-! ## Trimming -/

theorem reachable_of_leads (hp : p ∈ A.start) (h : ReflTransGen A.Leads p q) :
    Search.Reachable A.arcTargets A.start q := by
  induction h with
  | refl => exact .seed hp
  | tail _ hqr ih =>
    obtain ⟨label, ha⟩ := hqr
    exact .step ih (mem_arcTargets.mpr ⟨_, ha, rfl, rfl⟩)

theorem coreachable_of_leads (hq : q ∈ A.final) (h : ReflTransGen A.Leads p q) :
    Search.Reachable A.arcSources A.final p := by
  induction h using ReflTransGen.head_induction_on with
  | refl => exact .seed hq
  | head hpr _ ih =>
    obtain ⟨label, ha⟩ := hpr
    exact .step ih (mem_arcSources.mpr ⟨_, ha, rfl, rfl⟩)

/-- All states of a trimmed automaton are live. -/
theorem Trimmed.live_eq (hA : A.Trimmed) : A.live = List.range A.numStates := by
  refine List.filter_eq_self.mpr fun q hq => ?_
  have hq := List.mem_range.mp hq
  obtain ⟨p, hp, hpq⟩ := hA.reachable q hq
  obtain ⟨r, hr, hqr⟩ := hA.coreachable q hq
  have hlive : q ∈ A.live :=
    mem_live_iff.mpr ⟨hq, reachable_of_leads hp hpq, coreachable_of_leads hr hqr⟩
  exact (List.mem_filter.mp hlive).2

theorem place?_range {n : Nat} (hq : q < n) : place? (List.range n) q = some q :=
  (place?_eq_some_iff List.nodup_range).mpr (List.getElem?_range hq)

theorem filterMap_place?_range {n : Nat} {l : List Nat} (hl : ∀ q ∈ l, q < n) :
    l.filterMap (place? (List.range n)) = l := by
  rw [List.filterMap_congr fun q hq => place?_range (hl q hq), List.filterMap_some]

/-- Restricting an automaton to all of its states changes nothing. -/
theorem restrict_range (hA : A.wellFormed = true) : A.restrict (List.range A.numStates) = A := by
  obtain ⟨hstart, hfinal, harcs⟩ := wellFormed_iff.mp hA
  have hrestrict : (A.restrict (List.range A.numStates)).arcs = A.arcs := by
    rw [arcs_restrict, List.filterMap_congr fun a ha => ?_, List.filterMap_some]
    rw [place?_range (harcs a ha).1, place?_range (harcs a ha).2]
    rfl
  calc A.restrict (List.range A.numStates)
      = ⟨(List.range A.numStates).length, A.start.filterMap (place? (List.range A.numStates)),
          A.final.filterMap (place? (List.range A.numStates)),
          (A.restrict (List.range A.numStates)).arcs, A.symbols⟩ := rfl
    _ = A := by
      rw [List.length_range, filterMap_place?_range hstart, filterMap_place?_range hfinal,
        hrestrict]

/-- **Trimming** a trimmed automaton changes nothing. -/
theorem trim_eq_self (hA : A.wellFormed = true) (htrim : A.Trimmed) : A.trim = A := by
  rw [trim, htrim.live_eq, restrict_range hA]

/-! ## Merging -/

/-- Different values are ranked in their order. -/
theorem rank_of_nodup {α : Type} [DecidableEq α] {l : List α} (hl : l.Nodup) :
    rank l = List.range l.length := by
  refine List.ext_getElem (by rw [length_rank, List.length_range]) fun i hi _ => ?_
  rw [length_rank] at hi
  simp only [rank, Distinct.ofList_of_nodup hl, List.getElem_map, List.getElem_range,
    hl.idxOf_getElem]

/-- States whose classes the refinement of the merged automaton leaves together form a
bisimulation. -/
theorem bisimulation_merge (hA : A.wellFormed = true) (hc : A.Congruence cs)
    (hM : (A.merge cs).wellFormed = true) (hMdet : (A.merge cs).Deterministic) :
    A.Bisimulation fun p q => p < A.numStates ∧ q < A.numStates ∧
      (A.merge cs).partition.blockOf[classOf cs p]? =
        (A.merge cs).partition.blockOf[classOf cs q]? where
  symm p q h := ⟨h.2.1, h.1, h.2.2.symm⟩
  lt p q h := h.1
  final p q h hp := by
    obtain ⟨S, hS⟩ := holds_partition hM hMdet
    obtain ⟨r, hr, hrq⟩ := mem_final_merge.mp
      (hS.final _ _ h.2.2 (mem_final_merge.mpr ⟨p, hp, rfl⟩))
    have hrlt := (wellFormed_iff.mp hA).2.1 r hr
    exact hc.final r q ((classOf_eq_iff hc.length hrlt h.2.1).mp hrq) hr
  arcs p q label r h ha := by
    have hmerged : (⟨classOf cs p, some label, classOf cs r⟩ : Arc) ∈ (A.merge cs).arcs :=
      mem_arcs_merge.mpr ⟨_, ha, rfl⟩
    obtain ⟨i, hi, hblock⟩ := exists_arc_of_same_block hM hMdet h.2.2 hmerged
    obtain ⟨⟨q', _, r'⟩, hb, heq⟩ := mem_arcs_merge.mp hi
    obtain ⟨hqq', rfl, rfl⟩ := Arc.mk.inj heq
    obtain ⟨hq', hr'⟩ := (wellFormed_iff.mp hA).2.2 _ hb
    -- the arc of the merged automaton comes from some state of the class, and so from each of them
    obtain ⟨t, ht, hrt⟩ := hc.arcs q' q label r'
      ((classOf_eq_iff hc.length hq' h.2.1).mp hqq'.symm) hb
    have htlt := ((wellFormed_iff.mp hA).2.2 _ ht).2
    refine ⟨t, ht, ((wellFormed_iff.mp hA).2.2 _ ha).2, htlt, ?_⟩
    rw [hblock, (classOf_eq_iff hc.length hr' htlt).mpr hrt]

/-- **The classes of a merged automaton** are single states. -/
theorem classes_merge (hA : A.wellFormed = true) (hdet : A.isDeterministic = true) :
    (A.merge A.classes).classes = List.range (A.merge A.classes).numStates := by
  have hc := congruence_classes hA (deterministic_of_isDeterministic hdet)
  have hM := wellFormed_merge hA hc.length compact_classes
  have hMdet := deterministic_of_isDeterministic (isDeterministic_merge hdet hA hc)
  obtain ⟨S, hS⟩ := holds_partition hM hMdet
  have hinj : ∀ i < (A.merge A.classes).numStates, ∀ j < (A.merge A.classes).numStates,
      (A.merge A.classes).partition.blockOf[i]? = (A.merge A.classes).partition.blockOf[j]? →
        i = j := fun i hi j hj h => by
    obtain ⟨p, hp, rfl⟩ := exists_classOf_eq hc hi
    obtain ⟨q, hq, rfl⟩ := exists_classOf_eq hc hj
    have hblock := blockOf_partition_of_bisimulation (bisimulation_merge hA hc hM hMdet)
      ⟨hp, hq, h⟩
    exact (classOf_eq_iff hc.length hp hq).mpr (getElem?_rank_eq_iff.mpr hblock)
  have hnodup : (A.merge A.classes).partition.blockOf.Nodup := by
    refine List.nodup_iff_getElem?_ne_getElem?.mpr fun i j hij hj h => ?_
    rw [hS.covers.length] at hj
    exact Nat.ne_of_lt hij (hinj i (hij.trans hj) j hj h)
  rw [classes, rank_of_nodup hnodup, hS.covers.length]

/-- Merging single states changes nothing where nothing is listed twice. -/
theorem merge_range (hA : A.wellFormed = true) (hstart : Ascending.IsAscending A.start)
    (hfinal : Ascending.IsAscending A.final) (harcs : A.arcs.Nodup) :
    A.merge (List.range A.numStates) = A := by
  obtain ⟨hs, hf, ha⟩ := wellFormed_iff.mp hA
  have hclass : ∀ q < A.numStates, classOf (List.range A.numStates) q = q := fun q hq => by
    rw [classOf, List.getElem?_range hq, Option.getD_some]
  have hmap : ∀ l : List Nat, (∀ q ∈ l, q < A.numStates) →
      l.map (classOf (List.range A.numStates)) = l := fun l hl =>
    (List.map_congr_left fun q hq => hclass q (hl q hq)).trans (List.map_id l)
  have hmapArcs : A.arcs.map (fun a => (⟨classOf (List.range A.numStates) a.src, a.label,
      classOf (List.range A.numStates) a.dst⟩ : Arc)) = A.arcs := by
    refine (List.map_congr_left fun a h => ?_).trans (List.map_id _)
    rw [hclass _ (ha a h).1, hclass _ (ha a h).2]
    rfl
  calc A.merge (List.range A.numStates)
      = ⟨(Distinct.ofList (List.range A.numStates)).length,
          Ascending.ofList (A.start.map (classOf (List.range A.numStates))),
          Ascending.ofList (A.final.map (classOf (List.range A.numStates))),
          Distinct.ofList (A.arcs.map fun a => ⟨classOf (List.range A.numStates) a.src, a.label,
            classOf (List.range A.numStates) a.dst⟩), A.symbols⟩ := rfl
    _ = A := by
      rw [hmap _ hs, hmap _ hf, hmapArcs, Distinct.ofList_of_nodup List.nodup_range,
        List.length_range, Ascending.ofList_of_isAscending hstart,
        Ascending.ofList_of_isAscending hfinal, Distinct.ofList_of_nodup harcs]

/-- **Merging** a merged automaton changes nothing. -/
theorem merge_merge (hA : A.wellFormed = true) (hdet : A.isDeterministic = true) :
    (A.merge A.classes).merge (A.merge A.classes).classes = A.merge A.classes := by
  have hc := congruence_classes hA (deterministic_of_isDeterministic hdet)
  rw [classes_merge hA hdet]
  exact merge_range (wellFormed_merge hA hc.length compact_classes)
    (Ascending.isAscending_ofList _) (Ascending.isAscending_ofList _) (Distinct.nodup_ofList _)

/-! ## The minimal automaton -/

theorem minimizeDeterministic_of_le (h : A.trim.numStates ≤ 1) :
    A.minimizeDeterministic = A.trim := if_pos h

theorem minimizeDeterministic_of_not_le (h : ¬A.trim.numStates ≤ 1) :
    A.minimizeDeterministic = A.trim.merge A.trim.classes := if_neg h

/-- The minimal automaton of a deterministic one is its own. -/
theorem minimizeDeterministic_minimizeDeterministic (hA : A.wellFormed = true)
    (hdet : A.isDeterministic = true) :
    A.minimizeDeterministic.minimizeDeterministic = A.minimizeDeterministic := by
  have hself : A.minimizeDeterministic.trim = A.minimizeDeterministic :=
    trim_eq_self (wellFormed_minimizeDeterministic (deterministic_of_isDeterministic hdet))
      (trimmed_minimizeDeterministic hA hdet)
  by_cases hle : A.trim.numStates ≤ 1
  · rw [minimizeDeterministic_of_le hle] at hself ⊢
    rw [minimizeDeterministic_of_le (by rwa [hself]), hself]
  · rw [minimizeDeterministic_of_not_le hle] at hself ⊢
    have hmerge := merge_merge (@wellFormed_trim A) (isDeterministic_trim hdet)
    simp only [minimizeDeterministic, hself, hmerge, ite_self]

/-- **Minimized automata**: deterministic ones that minimization leaves as they are. -/
structure Minimized (A : Nfa) : Prop where
  wellFormed : A.wellFormed = true
  isDeterministic : A.isDeterministic = true
  minimizeDeterministic_eq : A.minimizeDeterministic = A

theorem Minimized.tryMinimize_eq_ok (hA : A.Minimized) : A.tryMinimize = .ok A := by
  rw [tryMinimize, if_pos hA.isDeterministic, hA.wellFormed, hA.minimizeDeterministic_eq]
  rfl

theorem refine_withSymbols {P : Partition} {bound : Nat} (symbols : Numbering String) :
    P.refine { A with symbols } bound = P.refine A bound := by
  induction bound generalizing P with
  | zero => rfl
  | succ bound ih =>
    rw [Partition.refine, Partition.refine]
    split
    · rfl
    · exact ih

theorem classes_withSymbols (symbols : Numbering String) :
    ({ A with symbols } : Nfa).classes = A.classes :=
  congrArg (fun P : Partition => rank P.blockOf) (refine_withSymbols symbols)

/-- Which symbols the labels stand for makes no difference. -/
theorem minimizeDeterministic_withSymbols (symbols : Numbering String) :
    ({ A with symbols } : Nfa).minimizeDeterministic =
      { A.minimizeDeterministic with symbols } := by
  by_cases hle : A.trim.numStates ≤ 1
  · rw [minimizeDeterministic_of_le hle]
    exact minimizeDeterministic_of_le hle
  · rw [minimizeDeterministic_of_not_le hle, ← classes_withSymbols symbols]
    exact minimizeDeterministic_of_not_le hle

theorem Minimized.withSymbols (hA : A.Minimized) (symbols : Numbering String) :
    ({ A with symbols } : Nfa).Minimized where
  wellFormed := hA.wellFormed
  isDeterministic := hA.isDeterministic
  minimizeDeterministic_eq := by
    rw [minimizeDeterministic_withSymbols, hA.minimizeDeterministic_eq]

theorem minimized_minimizeDeterministic (hA : A.wellFormed = true)
    (hdet : A.isDeterministic = true) : A.minimizeDeterministic.Minimized where
  wellFormed := wellFormed_minimizeDeterministic (deterministic_of_isDeterministic hdet)
  isDeterministic := isDeterministic_minimizeDeterministic hdet
  minimizeDeterministic_eq := minimizeDeterministic_minimizeDeterministic hA hdet

/-- **The minimal automaton** of a well-formed one is minimized. -/
theorem minimized_minimize (hA : A.wellFormed = true) : A.minimize.Minimized := by
  rw [minimize_eq]
  exact minimized_minimizeDeterministic (wellFormed_determinized hA) isDeterministic_determinized

theorem wellFormed_determinized_of_tryMinimize (h : A.tryMinimize = .ok M) :
    A.determinized.wellFormed = true := by
  rw [tryMinimize] at h
  rw [determinized]
  split at h
  · next hdet =>
    rw [if_pos hdet]
    by_contra hA
    rw [Bool.not_eq_true] at hA
    rw [hA] at h
    cases h
  · next hdet =>
    rw [if_neg hdet]
    exact wellFormed_determinize

/-- **What minimization gives** is minimized. -/
theorem minimized_of_tryMinimize (h : A.tryMinimize = .ok M) : M.Minimized := by
  rw [eq_minimize_of_tryMinimize h, minimize_eq]
  exact minimized_minimizeDeterministic (wellFormed_determinized_of_tryMinimize h)
    isDeterministic_determinized

end PathQuery.Nfa
