import Mathlib.Combinatorics.Enumerative.DoubleCounting
import PathQuery.Proofs.Nfa.Shape

/-!
# Proofs/Nfa/Minimal — no automaton for the same words is smaller

* `minimize_minimal` — minimal automata have the fewest states among the deterministic automata for
  their words, and different states of a minimal automaton accept different words.

The words that lead from a state to final states are its future (`Future`).  States with the same
future form a bisimulation (`bisimulation_sameFuture`), which the partition of a trimmed automaton
does not tell apart; so states of the merged automaton with the same future are equal.  A smaller
deterministic automaton would be in one state after words that lead to two of them.
-/

namespace PathQuery.Nfa

open Relation (ReflTransGen)

variable {A D : Nfa} {p q i j : Nat} {w w' : List String} {cs : List Nat}

/-! ## Futures -/

/-- A word leads from a state to a final state. -/
def Future (A : Nfa) (q : Nat) (w : List String) : Prop := ∃ r ∈ A.final, A.frame.Walk q w r

/-- The same words lead from two states to final states. -/
def SameFuture (A : Nfa) (p q : Nat) : Prop := ∀ w, A.Future p w ↔ A.Future q w

theorem accepts_iff_future (hA : A.hasEpsilon = false) :
    A.accepts w = true ↔ ∃ p ∈ A.start, A.Future p w := accepts_iff_walk hA

/-- The future of a state is what the automaton accepts that starts there. -/
theorem accepts_startAt_iff (hA : A.hasEpsilon = false) :
    ({ A with start := [q] } : Nfa).accepts w = true ↔ A.Future q w := by
  rw [accepts_iff_future (by exact hA)]
  simp only [List.mem_singleton, exists_eq_left]
  rfl

theorem mem_final_iff_future_nil : q ∈ A.final ↔ A.Future q [] := by
  constructor
  · exact fun hq => ⟨q, hq, .nil trivial⟩
  · rintro ⟨r, hr, hw⟩
    obtain ⟨rfl, -⟩ := Frame.walk_nil_iff.mp hw
    exact hr

theorem Deterministic.move_unique (hA : A.Deterministic) {s : String} {r : Nat}
    (hq : A.Move p s q) (hr : A.Move p s r) : q = r := by
  obtain ⟨label, ha, hs⟩ := hq
  obtain ⟨label', ha', hs'⟩ := hr
  obtain rfl := Numbering.get?_inj hs hs'
  exact hA.functional _ ha _ ha' rfl rfl

theorem Deterministic.walk_unique (hA : A.Deterministic) {r : Nat} (hq : A.frame.Walk p w q)
    (hr : A.frame.Walk p w r) : q = r := by
  induction hq with
  | nil => exact (Frame.walk_nil_iff.mp hr).1
  | cons hm _ ih =>
    obtain ⟨k, hm', hr⟩ := Frame.walk_cons_iff.mp hr
    exact ih (hA.move_unique hm hm' ▸ hr)

/-- After a word the future is what may follow it. -/
theorem Deterministic.future_append_iff (hA : A.Deterministic) (hw : A.frame.Walk p w q) :
    A.Future p (w ++ w') ↔ A.Future q w' := by
  constructor
  · rintro ⟨r, hr, hww'⟩
    obtain ⟨q', hw', hr'⟩ := Frame.walk_append_iff.mp hww'
    exact ⟨r, hr, hA.walk_unique hw hw' ▸ hr'⟩
  · rintro ⟨r, hr, hw'⟩
    exact ⟨r, hr, hw.append hw'⟩

theorem eq_of_mem_of_length_le_one {l : List Nat} (hl : l.length ≤ 1) (hp : p ∈ l) (hq : q ∈ l) :
    p = q := by
  obtain ⟨r, rfl⟩ := List.length_eq_one_iff.mp (Nat.le_antisymm hl (List.length_pos_of_mem hp))
  rw [List.mem_singleton.mp hp, List.mem_singleton.mp hq]

/-- After a word from the only start state the future is what may follow it. -/
theorem accepts_append_iff (hA : A.isDeterministic = true) (hp : p ∈ A.start)
    (hw : A.frame.Walk p w q) : A.accepts (w ++ w') = true ↔ A.Future q w' := by
  obtain ⟨hstart, heps, -⟩ := isDeterministic_iff.mp hA
  rw [← (deterministic_of_isDeterministic hA).future_append_iff hw, accepts_iff_future heps]
  constructor
  · rintro ⟨p', hp', hw'⟩
    exact eq_of_mem_of_length_le_one hstart hp' hp ▸ hw'
  · exact fun hw' => ⟨p, hp, hw'⟩

theorem exists_move_of_future_cons {s : String} (h : A.Future p (s :: w)) :
    ∃ q, A.Move p s q := by
  obtain ⟨r, -, hw⟩ := h
  obtain ⟨q, hm, -⟩ := Frame.walk_cons_iff.mp hw
  exact ⟨q, hm⟩

/-! ## Automata whose labels stand for symbols -/

/-- Each label of an arc is the number of a symbol. -/
def Labelled (A : Nfa) : Prop :=
  ∀ a ∈ A.arcs, ∀ label, a.label = some label → label < A.symbols.size

theorem Labelled.exists_move (hA : A.Labelled) {label : Nat} (ha : ⟨p, some label, q⟩ ∈ A.arcs) :
    ∃ s, A.symbols.get? label = some s ∧ A.Move p s q := by
  have hlt : label < A.symbols.states.length := hA _ ha label rfl
  have hs : A.symbols.get? label = some A.symbols.states[label] := List.getElem?_eq_getElem hlt
  exact ⟨_, hs, label, ha, hs⟩

theorem Labelled.exists_walk (hA : A.Labelled) (heps : A.hasEpsilon = false)
    (h : ReflTransGen A.Leads p q) : ∃ w, A.frame.Walk p w q := by
  induction h with
  | refl => exact ⟨[], .nil trivial⟩
  | tail _ hqr ih =>
    obtain ⟨w, hw⟩ := ih
    obtain ⟨_ | label, ha⟩ := hqr
    · exact absurd ha (label_ne_none heps)
    · obtain ⟨s, -, hm⟩ := hA.exists_move ha
      exact ⟨w ++ [s], hw.append (.cons hm (.nil trivial))⟩

theorem labelled_determinize (hA : A.Labelled) : A.determinize.Labelled := by
  intro a ha label hlabel
  rw [symbols_determinize]
  cases h : A.start.isEmpty with
  | true =>
    rw [determinize_of_isEmpty h] at ha
    cases ha
  | false =>
    obtain ⟨i, S, x, j, rfl, -, hx, -⟩ := (mem_arcs_determinize h).mp ha
    obtain rfl : x = label := Option.some.inj hlabel
    obtain ⟨p, -, q, hb⟩ := mem_labelsFrom_iff.mp hx
    exact hA _ hb x rfl

theorem labelled_determinized (hA : A.Labelled) : A.determinized.Labelled := by
  rw [determinized]
  split
  · exact hA
  · exact labelled_determinize hA

theorem labelled_trim (hA : A.Labelled) : A.trim.Labelled := by
  intro a ha label hlabel
  obtain ⟨b, hb, hab, -⟩ := (mem_arcs_restrict nodup_live).mp ha
  exact hA b hb label (hab.symm.trans hlabel)

theorem labelled_merge (hA : A.Labelled) : (A.merge cs).Labelled := by
  intro a ha label hlabel
  obtain ⟨b, hb, rfl⟩ := mem_arcs_merge.mp ha
  exact hA b hb label hlabel

/-! ## States with the same future are merged -/

/-- **Same future**: a bisimulation, as arcs of a trimmed automaton lead on to final states. -/
theorem bisimulation_sameFuture (hA : A.wellFormed = true) (hdet : A.Deterministic)
    (htrim : A.Trimmed) (hlabels : A.Labelled) :
    A.Bisimulation fun p q => p < A.numStates ∧ q < A.numStates ∧ A.SameFuture p q where
  symm p q h := ⟨h.2.1, h.1, fun w => (h.2.2 w).symm⟩
  lt p q h := h.1
  final p q h hp := mem_final_iff_future_nil.mpr ((h.2.2 []).mp (mem_final_iff_future_nil.mp hp))
  arcs p q label r h ha := by
    obtain ⟨s, hs, hm⟩ := hlabels.exists_move ha
    have hr := (hm.lt hA).2
    obtain ⟨t, ht, hrt⟩ := htrim.coreachable r hr
    obtain ⟨w, hw⟩ := hlabels.exists_walk hdet.hasEpsilon hrt
    obtain ⟨r', hm'⟩ := exists_move_of_future_cons ((h.2.2 (s :: w)).mp ⟨t, ht, .cons hm hw⟩)
    have hp : A.frame.Walk p [s] r := .cons hm (.nil trivial)
    have hq : A.frame.Walk q [s] r' := .cons hm' (.nil trivial)
    obtain ⟨label', ha', hs'⟩ := id hm'
    obtain rfl := Numbering.get?_inj hs hs'
    refine ⟨r', ha', hr, (hm'.lt hA).2, fun w' => ?_⟩
    calc A.Future r w' ↔ A.Future p (s :: w') := (hdet.future_append_iff hp).symm
      _ ↔ A.Future q (s :: w') := h.2.2 _
      _ ↔ A.Future r' w' := hdet.future_append_iff hq

theorem future_merge_iff (hA : A.wellFormed = true) (hc : A.Congruence cs)
    (hp : p < A.numStates) : (A.merge cs).Future (classOf cs p) w ↔ A.Future p w := by
  constructor
  · rintro ⟨i, hi, hw⟩
    obtain ⟨r, hr, hri⟩ := mem_final_merge.mp hi
    obtain ⟨q, hq, hqi, hw⟩ := exists_walk_of_walk_merge hA hc hw hp rfl
    have hrq := (classOf_eq_iff hc.length ((wellFormed_iff.mp hA).2.1 r hr) hq).mp
      (hri.trans hqi.symm)
    exact ⟨q, hc.final r q hrq hr, hw⟩
  · rintro ⟨r, hr, hw⟩
    exact ⟨_, mem_final_merge.mpr ⟨r, hr, rfl⟩, walk_merge hw⟩

/-- Different classes of a trimmed automaton have different futures. -/
theorem eq_of_sameFuture_merge (hA : A.wellFormed = true) (hdet : A.Deterministic)
    (htrim : A.Trimmed) (hlabels : A.Labelled) (hi : i < (A.merge A.classes).numStates)
    (hj : j < (A.merge A.classes).numStates) (h : (A.merge A.classes).SameFuture i j) :
    i = j := by
  have hc := congruence_classes hA hdet
  obtain ⟨p, hp, rfl⟩ := exists_classOf_eq hc hi
  obtain ⟨q, hq, rfl⟩ := exists_classOf_eq hc hj
  have hpq : A.SameFuture p q := fun w => by
    rw [← future_merge_iff hA hc hp, ← future_merge_iff hA hc hq, h w]
  have hblock := blockOf_partition_of_bisimulation
    (bisimulation_sameFuture hA hdet htrim hlabels) ⟨hp, hq, hpq⟩
  exact (classOf_eq_iff hc.length hp hq).mpr (getElem?_rank_eq_iff.mpr hblock)

theorem eq_of_sameFuture_minimizeDeterministic (hA : A.wellFormed = true)
    (hdet : A.Deterministic) (hlabels : A.Labelled) (hi : i < A.minimizeDeterministic.numStates)
    (hj : j < A.minimizeDeterministic.numStates) (h : A.minimizeDeterministic.SameFuture i j) :
    i = j := by
  rw [minimizeDeterministic] at hi hj h
  split at h
  · next hle =>
    rw [if_pos hle] at hi hj
    omega
  · next hle =>
    rw [if_neg hle] at hi hj
    exact eq_of_sameFuture_merge wellFormed_trim (deterministic_trim hdet) (trimmed_trim hA)
      (labelled_trim hlabels) hi hj h

theorem labelled_minimizeDeterministic (hA : A.Labelled) : A.minimizeDeterministic.Labelled := by
  rw [minimizeDeterministic]
  split
  · exact labelled_trim hA
  · exact labelled_merge (labelled_trim hA)

/-! ## The fewest states -/

/-- **Reduced automata**: words lead to each state and on from it to a final state, and different
states have different futures. -/
structure Reduced (A : Nfa) : Prop where
  isDeterministic : A.isDeterministic = true
  reached : ∀ q < A.numStates, ∃ p ∈ A.start, ∃ w, A.frame.Walk p w q
  live : ∀ q < A.numStates, ∃ w, A.Future q w
  separated : ∀ p < A.numStates, ∀ q < A.numStates, A.SameFuture p q → p = q

theorem reduced_minimize (hA : A.wellFormed = true) (hlabels : A.Labelled) :
    A.minimize.Reduced := by
  have hwf := wellFormed_determinized hA
  have hD := @isDeterministic_determinized A
  have hlabels := labelled_determinized hlabels
  rw [minimize_eq]
  have hM := isDeterministic_minimizeDeterministic hD
  have heps := (isDeterministic_iff.mp hM).2.1
  have htrim := trimmed_minimizeDeterministic hwf hD
  have hM' := labelled_minimizeDeterministic hlabels
  refine ⟨hM, fun q hq => ?_, fun q hq => ?_, fun p hp q hq => ?_⟩
  · obtain ⟨p, hp, hpq⟩ := htrim.reachable q hq
    exact ⟨p, hp, hM'.exists_walk heps hpq⟩
  · obtain ⟨r, hr, hqr⟩ := htrim.coreachable q hq
    obtain ⟨w, hw⟩ := hM'.exists_walk heps hqr
    exact ⟨w, r, hr, hw⟩
  · exact eq_of_sameFuture_minimizeDeterministic hwf (deterministic_of_isDeterministic hD)
      hlabels hp hq

/-- One word leads from start states of two automata to the two states. -/
def Meets (A D : Nfa) (q e : Nat) : Prop :=
  ∃ w, (∃ p ∈ A.start, A.frame.Walk p w q) ∧ ∃ d ∈ D.start, D.frame.Walk d w e

theorem Reduced.exists_meets (hA : A.Reduced) (hD : D.wellFormed = true)
    (heps : D.hasEpsilon = false) (h : ∀ w, D.accepts w = A.accepts w) (hq : q < A.numStates) :
    ∃ e < D.numStates, A.Meets D q e := by
  obtain ⟨p, hp, w, hw⟩ := hA.reached q hq
  obtain ⟨w', hw'⟩ := hA.live q hq
  have haccepts := (accepts_append_iff hA.isDeterministic hp hw).mpr hw'
  rw [← h, accepts_iff_walk heps] at haccepts
  obtain ⟨d, hd, r, hr, hww'⟩ := haccepts
  obtain ⟨e, hwe, her⟩ := Frame.walk_append_iff.mp hww'
  exact ⟨e, lt_of_walk hD hwe ((wellFormed_iff.mp hD).1 d hd), w, ⟨p, hp, hw⟩, d, hd, hwe⟩

/-- States that one word leads to in automata for the same words have the same future. -/
theorem Meets.future_iff {e : Nat} (hq : A.Meets D q e) (hA : A.isDeterministic = true)
    (hD : D.isDeterministic = true) (h : ∀ w, D.accepts w = A.accepts w) :
    A.Future q w ↔ D.Future e w := by
  obtain ⟨w', ⟨p, hp, hpq⟩, d, hd, hde⟩ := hq
  rw [← accepts_append_iff hA hp hpq, ← accepts_append_iff hD hd hde, h]

theorem Reduced.numStates_le (hA : A.Reduced) (hwf : D.wellFormed = true)
    (hD : D.isDeterministic = true) (h : ∀ w, D.accepts w = A.accepts w) :
    A.numStates ≤ D.numStates := by
  have heps := (isDeterministic_iff.mp hD).2.1
  have hcard := Finset.card_le_card_of_forall_subsingleton (s := Finset.range A.numStates)
    (t := Finset.range D.numStates) (A.Meets D) (fun q hq => ?_) fun e _ p hp q hq => ?_
  · rwa [Finset.card_range, Finset.card_range] at hcard
  · obtain ⟨e, he, hmeets⟩ := hA.exists_meets hwf heps h (Finset.mem_range.mp hq)
    exact ⟨e, Finset.mem_range.mpr he, hmeets⟩
  · refine hA.separated p (Finset.mem_range.mp hp.1) q (Finset.mem_range.mp hq.1) fun w => ?_
    rw [hp.2.future_iff hA.isDeterministic hD h, hq.2.future_iff hA.isDeterministic hD h]

/-- **Minimality**: no deterministic automaton for the same words has fewer states than the minimal
one, no two states of which accept the same words. -/
theorem minimize_minimal (hA : A.wellFormed = true)
    (hlabels : ∀ a ∈ A.arcs, ∀ label, a.label = some label → label < A.symbols.size) :
    (∀ D : Nfa, D.wellFormed = true → D.hasEpsilon = false → D.start.length ≤ 1 →
      (D.arcs.map fun a => (a.src, a.label)).Nodup → (∀ w, D.accepts w = A.accepts w) →
        A.minimize.numStates ≤ D.numStates) ∧
      ∀ p < A.minimize.numStates, ∀ q < A.minimize.numStates,
        (∀ w, ({ A.minimize with start := [p] } : Nfa).accepts w =
          ({ A.minimize with start := [q] } : Nfa).accepts w) → p = q := by
  have hM := reduced_minimize hA hlabels
  have heps := (isDeterministic_iff.mp hM.isDeterministic).2.1
  refine ⟨fun D hD hDeps hDstart hDarcs h => ?_, fun p hp q hq h => ?_⟩
  · refine hM.numStates_le hD (isDeterministic_iff.mpr ⟨hDstart, hDeps, hDarcs⟩) fun w => ?_
    rw [h, Bool.eq_iff_iff, accepts_minimize_iff hA]
  · refine hM.separated p hp q hq fun w => ?_
    rw [← accepts_startAt_iff heps, ← accepts_startAt_iff heps, h]

theorem minimize_minimal_tangledNfa :
    tangledNfa.wellFormed = true ∧
      (∀ a ∈ tangledNfa.arcs, ∀ label, a.label = some label → label < tangledNfa.symbols.size) ∧
      tangledNfa.minimize.numStates ≤ tangledNfa.determinize.numStates ∧
      ∃ w, ({ tangledNfa.minimize with start := [0] } : Nfa).accepts w ≠
        ({ tangledNfa.minimize with start := [1] } : Nfa).accepts w := by
  have hA : tangledNfa.wellFormed = true := by decide
  have hlabels : ∀ a ∈ tangledNfa.arcs, ∀ label, a.label = some label →
      label < tangledNfa.symbols.size := by decide
  obtain ⟨hle, hsep⟩ := minimize_minimal hA hlabels
  obtain ⟨hstart, heps, hnodup⟩ := isDeterministic_iff.mp (@isDeterministic_determinize tangledNfa)
  refine ⟨hA, hlabels, hle _ wellFormed_determinize heps hstart hnodup fun w => ?_, ?_⟩
  · exact Bool.eq_iff_iff.mpr accepts_determinize_iff
  · by_contra h
    push Not at h
    exact absurd (hsep 0 (by decide) 1 (by decide) h) (by decide)

end PathQuery.Nfa
