import PathQuery.Proofs.Nfa.Path

/-!
# Proofs/Nfa/Trim — dropped states are on no accepting path

* `accepts_trim_iff` — the states on accepting paths accept the same words.

Restricting an automaton to some states numbers them by their place among these; its walks are the
walks of the given automaton through these states (`walk_of_walk_restrict`).  Of an accepting walk
every state is live (`walk_trim`), so that trimming loses none.
-/

namespace PathQuery.Nfa

variable {A : Nfa} {p q i j : Nat} {s : String} {w : List String} {L : List Nat} {a : Arc}

/-! ## Restriction -/

/-- The place of a state among the states of a restriction. -/
def place? (L : List Nat) (q : Nat) : Option Nat := if q ∈ L then some (L.idxOf q) else none

theorem place?_eq_some_iff (hL : L.Nodup) : place? L q = some i ↔ L[i]? = some q :=
  @Numbering.index?_eq_some_iff _ _ ⟨L, hL⟩ q i

theorem arcs_restrict : (A.restrict L).arcs = A.arcs.filterMap fun b =>
    (place? L b.src).bind fun i => (place? L b.dst).bind fun j => some ⟨i, b.label, j⟩ := rfl

theorem mem_arcs_restrict (hL : L.Nodup) :
    a ∈ (A.restrict L).arcs ↔ ∃ b ∈ A.arcs, a.label = b.label ∧ L[a.src]? = some b.src ∧
      L[a.dst]? = some b.dst := by
  simp only [arcs_restrict, List.mem_filterMap, Option.bind_eq_some_iff, place?_eq_some_iff hL,
    Option.some.injEq]
  constructor
  · rintro ⟨b, hb, i, hi, j, hj, rfl⟩
    exact ⟨b, hb, rfl, hi, hj⟩
  · rintro ⟨b, hb, hlabel, hi, hj⟩
    exact ⟨b, hb, _, hi, _, hj, by rw [← hlabel]⟩

theorem mem_start_restrict (hL : L.Nodup) :
    i ∈ (A.restrict L).start ↔ ∃ q ∈ A.start, L[i]? = some q := by
  simp only [← place?_eq_some_iff hL]
  exact List.mem_filterMap

theorem mem_final_restrict (hL : L.Nodup) :
    i ∈ (A.restrict L).final ↔ ∃ q ∈ A.final, L[i]? = some q := by
  simp only [← place?_eq_some_iff hL]
  exact List.mem_filterMap

theorem wellFormed_restrict (hL : L.Nodup) : (A.restrict L).wellFormed = true := by
  have hlt : ∀ {i q}, L[i]? = some q → i < L.length := fun h => (List.getElem?_eq_some_iff.mp h).1
  refine wellFormed_iff.mpr ⟨fun i hi => ?_, fun i hi => ?_, fun a ha => ?_⟩
  · obtain ⟨q, -, hq⟩ := (mem_start_restrict hL).mp hi
    exact hlt hq
  · obtain ⟨q, -, hq⟩ := (mem_final_restrict hL).mp hi
    exact hlt hq
  · obtain ⟨b, -, -, hsrc, hdst⟩ := (mem_arcs_restrict hL).mp ha
    exact ⟨hlt hsrc, hlt hdst⟩

theorem hasEpsilon_restrict (hL : L.Nodup) (hA : A.hasEpsilon = false) :
    (A.restrict L).hasEpsilon = false := by
  refine List.any_eq_false.mpr fun a ha => ?_
  obtain ⟨b, hb, hlabel, -⟩ := (mem_arcs_restrict hL).mp ha
  rw [hlabel]
  exact List.any_eq_false.mp hA b hb

theorem deterministic_restrict (hL : L.Nodup) (hA : A.Deterministic) :
    (A.restrict L).Deterministic := by
  refine ⟨hasEpsilon_restrict hL hA.hasEpsilon, fun a ha b hb hsrc hlabel => ?_⟩
  obtain ⟨a', ha', halabel, hasrc, hadst⟩ := (mem_arcs_restrict hL).mp ha
  obtain ⟨b', hb', hblabel, hbsrc, hbdst⟩ := (mem_arcs_restrict hL).mp hb
  have hsrc' : a'.src = b'.src := Option.some.inj (hasrc.symm.trans (hsrc ▸ hbsrc))
  have hlabel' : a'.label = b'.label := halabel.symm.trans (hlabel.trans hblabel)
  have hdst' := hA.functional a' ha' b' hb' hsrc' hlabel'
  have hlt := (List.getElem?_eq_some_iff.mp hadst).1
  exact (List.getElem?_inj hlt hL).mp (hadst.trans ((congrArg some hdst').trans hbdst.symm))

theorem isDeterministic_restrict (hL : L.Nodup) (hA : A.isDeterministic = true) :
    (A.restrict L).isDeterministic = true := by
  obtain ⟨hstart, heps, hnodup⟩ := isDeterministic_iff.mp hA
  have hlength : (A.restrict L).start.length ≤ A.start.length := List.length_filterMap_le ..
  refine isDeterministic_iff.mpr
    ⟨Nat.le_trans hlength hstart, hasEpsilon_restrict hL heps, ?_⟩
  rw [arcs_restrict]
  refine List.pairwise_map.mpr (List.pairwise_filterMap.mpr ?_)
  refine (List.pairwise_map.mp hnodup).imp fun {a b} hne a' ha b' hb heq => hne ?_
  simp only [Option.bind_eq_some_iff, place?_eq_some_iff hL, Option.some.injEq] at ha hb
  obtain ⟨i, hi, _, -, rfl⟩ := ha
  obtain ⟨i', hi', _, -, rfl⟩ := hb
  obtain ⟨rfl, hlabel⟩ := Prod.mk.inj heq
  exact Prod.ext (Option.some.inj (hi.symm.trans hi')) hlabel

theorem move_restrict_iff (hL : L.Nodup) : (A.restrict L).Move i s j ↔
    ∃ p q, L[i]? = some p ∧ L[j]? = some q ∧ A.Move p s q := by
  simp only [Move, mem_arcs_restrict hL]
  constructor
  · rintro ⟨label, ⟨b, hb, hlabel, hi, hj⟩, hs⟩
    exact ⟨_, _, hi, hj, label, by rw [hlabel]; exact hb, hs⟩
  · rintro ⟨p, q, hi, hj, label, ha, hs⟩
    exact ⟨label, ⟨_, ha, rfl, hi, hj⟩, hs⟩

theorem walk_of_walk_restrict (hL : L.Nodup) (hw : (A.restrict L).frame.Walk i w j)
    (hi : L[i]? = some p) : ∃ q, L[j]? = some q ∧ A.frame.Walk p w q := by
  induction hw generalizing p with
  | nil => exact ⟨p, hi, .nil trivial⟩
  | cons hm _ ih =>
    obtain ⟨p', k, hp', hk, hm⟩ := (move_restrict_iff hL).mp hm
    obtain rfl : p = p' := Option.some.inj (hi.symm.trans hp')
    obtain ⟨q, hj, hw⟩ := ih hk
    exact ⟨q, hj, .cons hm hw⟩

/-! ## Live states -/

/-- The states that arcs lead to from a state. -/
abbrev arcTargets (A : Nfa) (q : Nat) : List Nat :=
  A.arcs.filterMap fun a => if a.src = q then some a.dst else none

/-- The states that arcs lead from to a state. -/
abbrev arcSources (A : Nfa) (q : Nat) : List Nat :=
  A.arcs.filterMap fun a => if a.dst = q then some a.src else none

theorem mem_arcTargets : q ∈ A.arcTargets p ↔ ∃ a ∈ A.arcs, a.src = p ∧ a.dst = q := by
  simp only [List.mem_filterMap, Option.ite_none_right_eq_some, Option.some.injEq]

theorem mem_arcSources : p ∈ A.arcSources q ↔ ∃ a ∈ A.arcs, a.dst = q ∧ a.src = p := by
  simp only [List.mem_filterMap, Option.ite_none_right_eq_some, Option.some.injEq]

theorem mem_reachable_iff : q ∈ A.reachable ↔ Search.Reachable A.arcTargets A.start q := by
  have huniv : ∀ q, Search.Reachable A.arcTargets A.start q →
      q ∈ A.start ++ A.arcs.map (·.dst) := by
    rintro q (hq | ⟨_, hq⟩)
    · exact List.mem_append_left _ hq
    · obtain ⟨a, ha, -, rfl⟩ := mem_arcTargets.mp hq
      exact List.mem_append_right _ (List.mem_map.mpr ⟨a, ha, rfl⟩)
  exact Search.mem_reach_iff huniv (by simp)

theorem mem_coreachable_iff : q ∈ A.coreachable ↔ Search.Reachable A.arcSources A.final q := by
  have huniv : ∀ q, Search.Reachable A.arcSources A.final q →
      q ∈ A.final ++ A.arcs.map (·.src) := by
    rintro q (hq | ⟨_, hq⟩)
    · exact List.mem_append_left _ hq
    · obtain ⟨a, ha, -, rfl⟩ := mem_arcSources.mp hq
      exact List.mem_append_right _ (List.mem_map.mpr ⟨a, ha, rfl⟩)
  exact Search.mem_reach_iff huniv (by simp)

theorem mem_live_iff : q ∈ A.live ↔ q < A.numStates ∧
    Search.Reachable A.arcTargets A.start q ∧ Search.Reachable A.arcSources A.final q := by
  simp only [live, List.mem_filter, List.mem_range, Bool.and_eq_true, decide_eq_true_eq,
    mem_reachable_iff, mem_coreachable_iff]

theorem nodup_live : A.live.Nodup := List.nodup_range.sublist List.filter_sublist

theorem wellFormed_trim : A.trim.wellFormed = true := wellFormed_restrict nodup_live

theorem hasEpsilon_trim (hA : A.hasEpsilon = false) : A.trim.hasEpsilon = false :=
  hasEpsilon_restrict nodup_live hA

theorem deterministic_trim (hA : A.Deterministic) : A.trim.Deterministic :=
  deterministic_restrict nodup_live hA

theorem isDeterministic_trim (hA : A.isDeterministic = true) : A.trim.isDeterministic = true :=
  isDeterministic_restrict nodup_live hA

theorem reachable_of_walk (hw : A.frame.Walk p w q)
    (hp : Search.Reachable A.arcTargets A.start p) :
    Search.Reachable A.arcTargets A.start q := by
  induction hw with
  | nil => exact hp
  | cons hm _ ih =>
    obtain ⟨label, ha, -⟩ := hm
    exact ih (.step hp (mem_arcTargets.mpr ⟨_, ha, rfl, rfl⟩))

theorem coreachable_of_walk (hw : A.frame.Walk p w q)
    (hq : Search.Reachable A.arcSources A.final q) :
    Search.Reachable A.arcSources A.final p := by
  induction hw with
  | nil => exact hq
  | cons hm _ ih =>
    obtain ⟨label, ha, -⟩ := hm
    exact .step (ih hq) (mem_arcSources.mpr ⟨_, ha, rfl, rfl⟩)

/-- A walk from a reachable to a coreachable state is a walk of the trimmed automaton. -/
theorem walk_trim (hA : A.wellFormed = true) (hw : A.frame.Walk p w q)
    (hp : Search.Reachable A.arcTargets A.start p)
    (hq : Search.Reachable A.arcSources A.final q) (hi : A.live[i]? = some p) :
    ∃ j, A.live[j]? = some q ∧ A.trim.frame.Walk i w j := by
  induction hw generalizing i with
  | nil => exact ⟨i, hi, .nil trivial⟩
  | @cons p k q s w hm hw ih =>
    have hk : Search.Reachable A.arcTargets A.start k :=
      reachable_of_walk (.cons hm (.nil trivial)) hp
    have hlive := mem_live_iff.mpr ⟨(hm.lt hA).2, hk, coreachable_of_walk hw hq⟩
    obtain ⟨m, hm'⟩ := List.mem_iff_getElem?.mp hlive
    obtain ⟨j, hj, hw⟩ := ih hk hq hm'
    exact ⟨j, hj, .cons ((move_restrict_iff nodup_live).mpr ⟨p, k, hi, hm', hm⟩) hw⟩

/-- **Trimming** keeps the words that are accepted. -/
theorem accepts_trim_iff (hA : A.wellFormed = true) (heps : A.hasEpsilon = false) :
    A.trim.accepts w = true ↔ A.accepts w = true := by
  rw [accepts_iff_walk heps, accepts_iff_walk (hasEpsilon_trim heps)]
  constructor
  · rintro ⟨i, hi, j, hj, hw⟩
    obtain ⟨p, hp, hip⟩ := (mem_start_restrict nodup_live).mp hi
    obtain ⟨q, hq, hjq⟩ := (mem_final_restrict nodup_live).mp hj
    obtain ⟨q', hjq', hw⟩ := walk_of_walk_restrict nodup_live hw hip
    obtain rfl : q = q' := Option.some.inj (hjq.symm.trans hjq')
    exact ⟨p, hp, q, hq, hw⟩
  · rintro ⟨p, hp, q, hq, hw⟩
    have hlive := mem_live_iff.mpr
      ⟨(wellFormed_iff.mp hA).1 p hp, .seed hp, coreachable_of_walk hw (.seed hq)⟩
    obtain ⟨i, hi⟩ := List.mem_iff_getElem?.mp hlive
    obtain ⟨j, hj, hw⟩ := walk_trim hA hw (.seed hp) (.seed hq) hi
    exact ⟨i, (mem_start_restrict nodup_live).mpr ⟨p, hp, hi⟩, j,
      (mem_final_restrict nodup_live).mpr ⟨q, hq, hj⟩, hw⟩

end PathQuery.Nfa
