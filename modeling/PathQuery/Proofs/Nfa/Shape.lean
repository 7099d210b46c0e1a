import Mathlib.Logic.Relation
import PathQuery.Proofs.Nfa.Minimize

/-!
# Proofs/Nfa/Shape — minimal automata are deterministic and trimmed

* `tryMinimize_spec` — every well-formed automaton has a minimal automaton, which is well-formed,
  accepts the same words without a fault, is deterministic, and has each state on a path from its
  start state to a final state.

`Trimmed` speaks of paths along arcs, so that also labels that no symbol has count.  Trimming makes
an automaton trimmed because the states on a path between live states are live (`trimmed_trim`), and
merging keeps it so because arcs lead on between classes (`trimmed_merge`).
-/

namespace PathQuery.Nfa

open Relation (ReflTransGen)

/-- An arc leads from one state to another. -/
def Leads (A : Nfa) (p q : Nat) : Prop := ∃ label, ⟨p, label, q⟩ ∈ A.arcs

/-- **Trimmed automata**: arcs lead to each state from a start state and on to a final state. -/
structure Trimmed (A : Nfa) : Prop where
  reachable : ∀ q < A.numStates, ∃ p ∈ A.start, ReflTransGen A.Leads p q
  coreachable : ∀ q < A.numStates, ∃ r ∈ A.final, ReflTransGen A.Leads q r

variable {A : Nfa} {p q i : Nat} {S : List Nat} {cs : List Nat}

/-! ## Trimming -/

/-- An arc between live states is an arc of the trimmed automaton. -/
theorem leads_trim {j : Nat} (hi : A.live[i]? = some p) (hj : A.live[j]? = some q)
    (hpq : q ∈ A.arcTargets p) : A.trim.Leads i j := by
  obtain ⟨⟨p, label, q⟩, ha, rfl, rfl⟩ := mem_arcTargets.mp hpq
  exact ⟨label, (mem_arcs_restrict nodup_live).mpr ⟨_, ha, rfl, hi, hj⟩⟩

theorem mem_arcTargets_iff_mem_arcSources : q ∈ A.arcTargets p ↔ p ∈ A.arcSources q := by
  rw [mem_arcTargets, mem_arcSources]
  simp only [and_comm]

theorem exists_start_leads_trim (hA : A.wellFormed = true)
    (hq : Search.Reachable A.arcTargets A.start q) (hi : A.live[i]? = some q) :
    ∃ j ∈ A.trim.start, ReflTransGen A.trim.Leads j i := by
  induction hq generalizing i with
  | seed hq => exact ⟨i, (mem_start_restrict nodup_live).mpr ⟨_, hq, hi⟩, .refl⟩
  | @step p q hp hpq ih =>
    obtain ⟨a, ha, hsrc, -⟩ := mem_arcTargets.mp hpq
    have hq := (mem_live_iff.mp (List.mem_of_getElem? hi)).2.2
    have hlive : p ∈ A.live := mem_live_iff.mpr ⟨hsrc ▸ ((wellFormed_iff.mp hA).2.2 a ha).1, hp,
      .step hq (mem_arcTargets_iff_mem_arcSources.mp hpq)⟩
    obtain ⟨k, hk⟩ := List.mem_iff_getElem?.mp hlive
    obtain ⟨j, hj, hjk⟩ := ih hk
    exact ⟨j, hj, hjk.tail (leads_trim hk hi hpq)⟩

theorem exists_leads_final_trim (hA : A.wellFormed = true)
    (hq : Search.Reachable A.arcSources A.final q) (hi : A.live[i]? = some q) :
    ∃ j ∈ A.trim.final, ReflTransGen A.trim.Leads i j := by
  induction hq generalizing i with
  | seed hq => exact ⟨i, (mem_final_restrict nodup_live).mpr ⟨_, hq, hi⟩, .refl⟩
  | @step r q hr hqr ih =>
    have hqr := mem_arcTargets_iff_mem_arcSources.mpr hqr
    obtain ⟨a, ha, -, hdst⟩ := mem_arcTargets.mp hqr
    have hq := (mem_live_iff.mp (List.mem_of_getElem? hi)).2.1
    have hlive : r ∈ A.live := mem_live_iff.mpr ⟨hdst ▸ ((wellFormed_iff.mp hA).2.2 a ha).2,
      .step hq hqr, hr⟩
    obtain ⟨k, hk⟩ := List.mem_iff_getElem?.mp hlive
    obtain ⟨j, hj, hkj⟩ := ih hk
    exact ⟨j, hj, hkj.head (leads_trim hi hk hqr)⟩

/-- **Trimming** leaves no state off the accepting paths. -/
theorem trimmed_trim (hA : A.wellFormed = true) : A.trim.Trimmed := by
  have hlive : ∀ i < A.trim.numStates, ∃ q, A.live[i]? = some q := fun i hi =>
    ⟨_, List.getElem?_eq_getElem hi⟩
  refine ⟨fun i hi => ?_, fun i hi => ?_⟩
  · obtain ⟨q, hq⟩ := hlive i hi
    exact exists_start_leads_trim hA (mem_live_iff.mp (List.mem_of_getElem? hq)).2.1 hq
  · obtain ⟨q, hq⟩ := hlive i hi
    exact exists_leads_final_trim hA (mem_live_iff.mp (List.mem_of_getElem? hq)).2.2 hq

/-! ## Merging -/

/-- Each number below the number of different ranks is a rank. -/
theorem mem_rank_of_lt {α : Type} [DecidableEq α] {l : List α}
    (hi : i < (Distinct.ofList (rank l)).length) : i ∈ rank l := by
  rw [length_ofList, card_rank, ← length_ofList] at hi
  refine List.mem_map.mpr ⟨(Distinct.ofList l)[i], Distinct.mem_ofList.mp (List.getElem_mem hi), ?_⟩
  exact (Distinct.nodup_ofList l).idxOf_getElem i hi

/-- Each state of the merged automaton is the class of some state. -/
theorem exists_classOf_eq (hc : A.Congruence A.classes)
    (hi : i < (A.merge A.classes).numStates) : ∃ q < A.numStates, classOf A.classes q = i := by
  obtain ⟨q, hq⟩ := List.mem_iff_getElem?.mp (mem_rank_of_lt hi)
  refine ⟨q, hc.length ▸ (List.getElem?_eq_some_iff.mp hq).1, ?_⟩
  rw [classOf, classes, hq, Option.getD_some]

theorem leads_merge (h : A.Leads p q) : (A.merge cs).Leads (classOf cs p) (classOf cs q) := by
  obtain ⟨label, ha⟩ := h
  exact ⟨label, mem_arcs_merge.mpr ⟨_, ha, rfl⟩⟩

theorem trimmed_merge (hA : A.Trimmed) (hc : A.Congruence A.classes) :
    (A.merge A.classes).Trimmed := by
  refine ⟨fun i hi => ?_, fun i hi => ?_⟩
  · obtain ⟨q, hq, rfl⟩ := exists_classOf_eq hc hi
    obtain ⟨p, hp, hpq⟩ := hA.reachable q hq
    exact ⟨_, mem_start_merge.mpr ⟨p, hp, rfl⟩, hpq.lift (classOf A.classes) fun _ _ => leads_merge⟩
  · obtain ⟨q, hq, rfl⟩ := exists_classOf_eq hc hi
    obtain ⟨r, hr, hqr⟩ := hA.coreachable q hq
    exact ⟨_, mem_final_merge.mpr ⟨r, hr, rfl⟩, hqr.lift (classOf A.classes) fun _ _ => leads_merge⟩

/-! ## The minimal automaton -/

/-- The deterministic automaton that is trimmed and merged. -/
def determinized (A : Nfa) : Nfa := if A.isDeterministic then A else A.determinize

theorem minimize_eq : A.minimize = A.determinized.minimizeDeterministic := by
  rw [minimize, determinized]
  split <;> rfl

theorem isDeterministic_determinized : A.determinized.isDeterministic = true := by
  rw [determinized]
  split
  · assumption
  · exact isDeterministic_determinize

theorem wellFormed_determinized (hA : A.wellFormed = true) :
    A.determinized.wellFormed = true := by
  rw [determinized]
  split
  · exact hA
  · exact wellFormed_determinize

theorem isDeterministic_minimizeDeterministic (hA : A.isDeterministic = true) :
    A.minimizeDeterministic.isDeterministic = true := by
  have htrim := isDeterministic_trim hA
  rw [minimizeDeterministic]
  split
  · exact htrim
  · exact isDeterministic_merge htrim wellFormed_trim
      (congruence_classes wellFormed_trim (deterministic_of_isDeterministic htrim))

theorem trimmed_minimizeDeterministic (hA : A.wellFormed = true)
    (hdet : A.isDeterministic = true) : A.minimizeDeterministic.Trimmed := by
  have htrim := deterministic_trim (deterministic_of_isDeterministic hdet)
  rw [minimizeDeterministic]
  split
  · exact trimmed_trim hA
  · exact trimmed_merge (trimmed_trim hA) (congruence_classes wellFormed_trim htrim)

/-- The sets that words lead to have states of the automaton only. -/
theorem inRange_of_mem_subsets (hA : A.wellFormed = true) (hS : S ∈ A.subsets) :
    A.inRange S = true := by
  obtain ⟨hstart, -, harcs⟩ := wellFormed_iff.mp hA
  have hplaces := List.mem_sublists.mp (mem_sublists_of_reachable (mem_subsets_iff.mp hS))
  refine inRange_iff.mpr fun q hq => ?_
  rcases List.mem_append.mp (Ascending.mem_ofList.mp (hplaces.subset hq)) with hq | hq
  · exact hstart q hq
  · obtain ⟨a, ha, rfl⟩ := List.mem_map.mp hq
    exact (harcs a ha).2

theorem tryDeterminize_eq_ok (hA : A.wellFormed = true) :
    A.tryDeterminize = .ok A.determinize := by
  have hsubsets : A.subsets.all A.inRange = true :=
    List.all_eq_true.mpr fun S hS => inRange_of_mem_subsets hA hS
  simp only [wellFormed, Bool.and_eq_true] at hA
  rw [tryDeterminize, hsubsets, hA.1.2, hA.1.1.2, Bool.and_self, Bool.and_self, Bool.or_true]
  rfl

theorem tryMinimize_eq_ok (hA : A.wellFormed = true) : A.tryMinimize = .ok A.minimize := by
  rw [tryMinimize, minimize]
  split
  · rw [hA]
    rfl
  · rw [tryDeterminize_eq_ok hA]
    rfl

/-- **Minimization** of a well-formed automaton succeeds: no set that a word leads to is left out,
no splitter is left over, and the result is well-formed, accepts the same words without a fault,
makes no empty moves, has at most one start state and at most one arc for a state and a label, and is
trimmed. -/
theorem tryMinimize_spec (hA : A.wellFormed = true) :
    A.tryMinimize = .ok A.minimize ∧
      (∀ S ∈ A.subsets, ∀ label ∈ A.labelsFrom S,
        A.closure (A.targets S label) ∈ A.subsets) ∧
      A.determinized.trim.partition.waiting = [] ∧
      A.minimize.wellFormed = true ∧
      (∀ w, A.tryAccepts w = .ok (A.accepts w) ∧
        A.minimize.tryAccepts w = .ok (A.accepts w)) ∧
      A.minimize.hasEpsilon = false ∧
      A.minimize.start.length ≤ 1 ∧
      (A.minimize.arcs.map fun a => (a.src, a.label)).Nodup ∧
      A.minimize.Trimmed := by
  have hdet := @isDeterministic_determinized A
  have htrim := deterministic_trim (deterministic_of_isDeterministic hdet)
  obtain ⟨hstart, heps, hnodup⟩ :=
    isDeterministic_iff.mp (isDeterministic_minimizeDeterministic hdet)
  rw [← minimize_eq] at hstart heps hnodup
  refine ⟨tryMinimize_eq_ok hA, fun S hS label => closure_mem_subsets hS,
    waiting_partition wellFormed_trim htrim, wellFormed_minimize.1, fun w => ?_, heps, hstart, hnodup,
    ?_⟩
  · have haccepts : A.minimize.accepts w = A.accepts w :=
      Bool.eq_iff_iff.mpr (accepts_minimize_iff hA)
    exact ⟨tryAccepts_eq_ok hA, haccepts ▸ tryAccepts_eq_ok wellFormed_minimize.1⟩
  · rw [minimize_eq]
    exact trimmed_minimizeDeterministic (wellFormed_determinized hA) hdet

/-- An automaton with an empty move, two start states, an arc that is listed twice and a state off
the accepting paths. -/
def tangledNfa : Nfa where
  numStates := 5
  start := [0, 1]
  final := [2, 3]
  arcs := [⟨0, none, 1⟩, ⟨0, some 0, 2⟩, ⟨1, some 0, 3⟩, ⟨1, some 0, 3⟩, ⟨2, some 1, 2⟩,
    ⟨3, some 1, 3⟩, ⟨3, some 0, 4⟩]
  symbols := .ofList ["a", "b"]

theorem tryMinimize_spec_tangledNfa :
    tangledNfa.wellFormed = true ∧ tangledNfa.isDeterministic = false ∧
      tangledNfa.tryMinimize = .ok tangledNfa.minimize ∧
      tangledNfa.determinized.trim.partition.waiting = [] ∧
      tangledNfa.minimize.wellFormed = true ∧
      (∀ w, tangledNfa.minimize.tryAccepts w = .ok (tangledNfa.accepts w)) ∧
      tangledNfa.minimize.arcs = [⟨0, some 0, 1⟩, ⟨1, some 1, 1⟩] ∧
      tangledNfa.minimize.Trimmed := by
  have hA : tangledNfa.wellFormed = true := by decide
  obtain ⟨hok, -, hwaiting, hwf, haccepts, -, -, -, htrim⟩ := tryMinimize_spec hA
  exact ⟨hA, by decide, hok, hwaiting, hwf, fun w => (haccepts w).2, by decide, htrim⟩

end PathQuery.Nfa
