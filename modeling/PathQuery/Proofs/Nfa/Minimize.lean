import Mathlib.Data.Finset.Card
import PathQuery.Nfa.Minimize
import PathQuery.Proofs.Nfa.Determinize
import PathQuery.Proofs.Nfa.Partition
import PathQuery.Proofs.Nfa.Trim

/-!
# Proofs/Nfa/Minimize — merged states have the same future

* `accepts_minimize_iff` — the minimal automaton accepts the same words.

Classes are lists, and two states are in one class where the list has the same value at both.  The
classes that the refinement ends with form a congruence (`congruence_classes`).  Merging by the
classes of a congruence keeps the words, since a walk of the merged automaton can be followed from
any state of its first class (`exists_walk_of_walk_merge`).
-/

namespace PathQuery.Nfa

/-! ## Ranks -/

section Rank

variable {α : Type} [DecidableEq α] {l : List α} {i j : Nat}

theorem length_rank : (rank l).length = l.length := List.length_map _

theorem getElem?_rank : (rank l)[i]? = l[i]?.map (Distinct.ofList l).idxOf := List.getElem?_map

/-- Values have the same rank where they are equal. -/
theorem getElem?_rank_eq_iff : (rank l)[i]? = (rank l)[j]? ↔ l[i]? = l[j]? := by
  rw [getElem?_rank, getElem?_rank]
  constructor
  · intro h
    cases hi : l[i]? with
    | none =>
      rw [hi, Option.map_none] at h
      rw [Option.map_eq_none_iff.mp h.symm]
    | some a =>
      rw [hi, Option.map_some] at h
      obtain ⟨b, hb, hab⟩ := Option.map_eq_some_iff.mp h.symm
      have ha' := Distinct.mem_ofList.mpr (List.mem_of_getElem? hi)
      rw [hb, (List.idxOf_inj ha').mp hab.symm]
  · exact congrArg _

theorem length_ofList : (Distinct.ofList l).length = l.toFinset.card := by
  rw [← List.toFinset_card_of_nodup (Distinct.nodup_ofList l)]
  congr 1
  ext a
  rw [List.mem_toFinset, List.mem_toFinset, Distinct.mem_ofList]

theorem card_rank : (rank l).toFinset.card = l.toFinset.card := by
  have himage : (rank l).toFinset = l.toFinset.image (Distinct.ofList l).idxOf := by
    ext a
    simp only [rank, List.mem_toFinset, List.mem_map, Finset.mem_image]
  rw [himage]
  refine Finset.card_image_of_injOn fun a ha b _ hab => ?_
  exact (List.idxOf_inj (Distinct.mem_ofList.mpr (List.mem_toFinset.mp ha))).mp hab

/-- Classes are numbered without a gap. -/
def Compact (classes : List Nat) : Prop := ∀ a ∈ classes, a < (Distinct.ofList classes).length

theorem compact_rank : Compact (rank l) := by
  intro a ha
  rw [length_ofList, card_rank, ← length_ofList]
  obtain ⟨b, hb, rfl⟩ := List.mem_map.mp ha
  exact List.idxOf_lt_length_of_mem (Distinct.mem_ofList.mpr hb)

end Rank

/-! ## The classes of an automaton -/

variable {A : Nfa} {p q r i j label : Nat} {s : String} {w : List String} {cs : List Nat}

/-- The number of a state's class. -/
def classOf (cs : List Nat) (q : Nat) : Nat := (cs[q]?).getD 0

/-- **Congruence**: states of one class agree on being final and on the classes that their arcs lead
to. -/
structure Congruence (A : Nfa) (cs : List Nat) : Prop where
  length : cs.length = A.numStates
  final : ∀ p q, cs[p]? = cs[q]? → p ∈ A.final → q ∈ A.final
  arcs : ∀ p q label r, cs[p]? = cs[q]? → ⟨p, some label, r⟩ ∈ A.arcs →
    ∃ r', ⟨q, some label, r'⟩ ∈ A.arcs ∧ cs[r]? = cs[r']?

theorem compact_classes : Compact A.classes := compact_rank

/-- **The classes** of a deterministic automaton form a congruence. -/
theorem congruence_classes (hA : A.wellFormed = true) (hdet : A.Deterministic) :
    A.Congruence A.classes := by
  obtain ⟨S, h⟩ := holds_partition hA hdet
  refine ⟨length_rank.trans h.covers.length, fun p q hpq => ?_, fun p q label r hpq ha => ?_⟩
  · exact h.final p q (getElem?_rank_eq_iff.mp hpq)
  · obtain ⟨r', ha', hr⟩ := exists_arc_of_same_block hA hdet (getElem?_rank_eq_iff.mp hpq) ha
    exact ⟨r', ha', getElem?_rank_eq_iff.mpr hr⟩

/-! ## Merging -/

theorem classOf_eq_iff (hc : cs.length = A.numStates) (hp : p < A.numStates)
    (hq : q < A.numStates) : classOf cs p = classOf cs q ↔ cs[p]? = cs[q]? := by
  rw [classOf, classOf, List.getElem?_eq_getElem (hc ▸ hp), List.getElem?_eq_getElem (hc ▸ hq),
    Option.getD_some, Option.getD_some, Option.some.injEq]

theorem classOf_lt (hc : cs.length = A.numStates) (hcompact : Compact cs) (hq : q < A.numStates) :
    classOf cs q < (A.merge cs).numStates := by
  refine hcompact _ ?_
  rw [classOf, List.getElem?_eq_getElem (hc ▸ hq)]
  exact List.getElem_mem _

theorem mem_arcs_merge {a : Arc} : a ∈ (A.merge cs).arcs ↔
    ∃ b ∈ A.arcs, a = ⟨classOf cs b.src, b.label, classOf cs b.dst⟩ := by
  simp only [merge, Distinct.mem_ofList, List.mem_map, eq_comm, classOf]

theorem mem_start_merge : i ∈ (A.merge cs).start ↔ ∃ q ∈ A.start, classOf cs q = i := by
  simp only [merge, Ascending.mem_ofList, List.mem_map, classOf]

theorem mem_final_merge : i ∈ (A.merge cs).final ↔ ∃ q ∈ A.final, classOf cs q = i := by
  simp only [merge, Ascending.mem_ofList, List.mem_map, classOf]

theorem hasEpsilon_merge (hA : A.hasEpsilon = false) : (A.merge cs).hasEpsilon = false := by
  refine List.any_eq_false.mpr fun a ha => ?_
  obtain ⟨b, hb, rfl⟩ := mem_arcs_merge.mp ha
  exact List.any_eq_false.mp hA b hb

theorem isDeterministic_merge (hA : A.isDeterministic = true) (hwf : A.wellFormed = true)
    (hc : A.Congruence cs) : (A.merge cs).isDeterministic = true := by
  obtain ⟨hstart, heps, -⟩ := isDeterministic_iff.mp hA
  have hlength : (A.merge cs).start.length ≤ A.start.length :=
    Nat.le_trans (Ascending.length_ofList_le _) (List.length_map _).le
  refine isDeterministic_iff.mpr
    ⟨Nat.le_trans hlength hstart, hasEpsilon_merge heps, List.Nodup.map_on ?_
      (Distinct.nodup_ofList _)⟩
  intro a ha b hb hab
  obtain ⟨⟨p, x, r⟩, ha', rfl⟩ := mem_arcs_merge.mp ha
  obtain ⟨⟨q, y, r'⟩, hb', rfl⟩ := mem_arcs_merge.mp hb
  obtain ⟨hsrc, rfl⟩ : classOf cs p = classOf cs q ∧ x = y := Prod.mk.inj hab
  cases x with
  | none => exact absurd ha' (label_ne_none heps)
  | some label =>
    obtain ⟨hp, hr⟩ := (wellFormed_iff.mp hwf).2.2 _ ha'
    obtain ⟨hq, hr'⟩ := (wellFormed_iff.mp hwf).2.2 _ hb'
    obtain ⟨r'', hq', hsame⟩ := hc.arcs p q label r ((classOf_eq_iff hc.length hp hq).mp hsrc) ha'
    obtain rfl := (deterministic_of_isDeterministic hA).functional _ hq' _ hb' rfl rfl
    have hdst := (classOf_eq_iff hc.length hr hr').mpr hsame
    simp only [hsrc, hdst]

theorem wellFormed_merge (hA : A.wellFormed = true) (hc : cs.length = A.numStates)
    (hcompact : Compact cs) : (A.merge cs).wellFormed = true := by
  obtain ⟨hstart, hfinal, harcs⟩ := wellFormed_iff.mp hA
  refine wellFormed_iff.mpr ⟨fun i hi => ?_, fun i hi => ?_, fun a ha => ?_⟩
  · obtain ⟨q, hq, rfl⟩ := mem_start_merge.mp hi
    exact classOf_lt hc hcompact (hstart q hq)
  · obtain ⟨q, hq, rfl⟩ := mem_final_merge.mp hi
    exact classOf_lt hc hcompact (hfinal q hq)
  · obtain ⟨b, hb, rfl⟩ := mem_arcs_merge.mp ha
    exact ⟨classOf_lt hc hcompact (harcs b hb).1, classOf_lt hc hcompact (harcs b hb).2⟩

theorem move_merge_iff : (A.merge cs).Move i s j ↔
    ∃ p q, classOf cs p = i ∧ classOf cs q = j ∧ A.Move p s q := by
  simp only [Move, mem_arcs_merge]
  constructor
  · rintro ⟨label, ⟨⟨p, _, q⟩, hb, heq⟩, hs⟩
    cases heq
    exact ⟨p, q, rfl, rfl, label, hb, hs⟩
  · rintro ⟨p, q, rfl, rfl, label, hb, hs⟩
    exact ⟨label, ⟨_, hb, rfl⟩, hs⟩

theorem walk_merge (hw : A.frame.Walk p w q) :
    (A.merge cs).frame.Walk (classOf cs p) w (classOf cs q) := by
  induction hw with
  | nil => exact .nil trivial
  | cons hm _ ih => exact .cons (move_merge_iff.mpr ⟨_, _, rfl, rfl, hm⟩) ih

/-- A walk of classes can be followed from each state of its first class. -/
theorem exists_walk_of_walk_merge (hA : A.wellFormed = true) (hc : A.Congruence cs)
    (hw : (A.merge cs).frame.Walk i w j) (hp : p < A.numStates) (hi : classOf cs p = i) :
    ∃ q, q < A.numStates ∧ classOf cs q = j ∧ A.frame.Walk p w q := by
  induction hw generalizing p with
  | nil => exact ⟨p, hp, hi, .nil trivial⟩
  | cons hm _ ih =>
    obtain ⟨p', k, hp', hk, label, ha, hs⟩ := move_merge_iff.mp hm
    obtain ⟨hlt, hklt⟩ := (wellFormed_iff.mp hA).2.2 _ ha
    have hsame := (classOf_eq_iff hc.length hlt hp).mp (hp'.trans hi.symm)
    obtain ⟨r, ha', hr⟩ := hc.arcs p' p label k hsame ha
    have hrlt := ((wellFormed_iff.mp hA).2.2 _ ha').2
    have hkr := (classOf_eq_iff hc.length hklt hrlt).mpr hr
    obtain ⟨q, hq, hj, hw⟩ := ih hrlt (hkr.symm.trans hk)
    exact ⟨q, hq, hj, .cons ⟨label, ha', hs⟩ hw⟩

/-- **Merging** the classes of a congruence keeps the words that are accepted. -/
theorem accepts_merge_iff (hA : A.wellFormed = true) (heps : A.hasEpsilon = false)
    (hc : A.Congruence cs) : (A.merge cs).accepts w = true ↔ A.accepts w = true := by
  obtain ⟨hstart, hfinal, -⟩ := wellFormed_iff.mp hA
  rw [accepts_iff_walk heps, accepts_iff_walk (hasEpsilon_merge heps)]
  constructor
  · rintro ⟨i, hi, j, hj, hw⟩
    obtain ⟨p, hp, hpi⟩ := mem_start_merge.mp hi
    obtain ⟨r, hr, hrj⟩ := mem_final_merge.mp hj
    obtain ⟨q, hq, hqj, hw⟩ := exists_walk_of_walk_merge hA hc hw (hstart p hp) hpi
    have hsame := (classOf_eq_iff hc.length (hfinal r hr) hq).mp (hrj.trans hqj.symm)
    exact ⟨p, hp, q, hc.final r q hsame hr, hw⟩
  · rintro ⟨p, hp, q, hq, hw⟩
    exact ⟨_, mem_start_merge.mpr ⟨p, hp, rfl⟩, _, mem_final_merge.mpr ⟨q, hq, rfl⟩,
      walk_merge hw⟩

/-! ## The minimal automaton -/

theorem wellFormed_minimizeDeterministic (hA : A.Deterministic) :
    A.minimizeDeterministic.wellFormed = true := by
  rw [minimizeDeterministic]
  split
  · exact wellFormed_trim
  · have hc := congruence_classes wellFormed_trim (deterministic_trim hA)
    exact wellFormed_merge wellFormed_trim hc.length compact_classes

theorem hasEpsilon_minimizeDeterministic (hA : A.hasEpsilon = false) :
    A.minimizeDeterministic.hasEpsilon = false := by
  rw [minimizeDeterministic]
  split
  · exact hasEpsilon_trim hA
  · exact hasEpsilon_merge (hasEpsilon_trim hA)

theorem accepts_minimizeDeterministic_iff (hA : A.wellFormed = true) (hdet : A.Deterministic) :
    A.minimizeDeterministic.accepts w = true ↔ A.accepts w = true := by
  rw [minimizeDeterministic]
  split
  · exact accepts_trim_iff hA hdet.hasEpsilon
  · have htrim := deterministic_trim hdet
    have hc := congruence_classes wellFormed_trim htrim
    rw [accepts_merge_iff wellFormed_trim htrim.hasEpsilon hc, accepts_trim_iff hA hdet.hasEpsilon]

/-- **Minimization** keeps the words that are accepted. -/
theorem accepts_minimize_iff (hA : A.wellFormed = true) :
    A.minimize.accepts w = true ↔ A.accepts w = true := by
  rw [minimize]
  split
  · next hdet => exact accepts_minimizeDeterministic_iff hA (deterministic_of_isDeterministic hdet)
  · rw [accepts_minimizeDeterministic_iff wellFormed_determinize deterministic_determinize,
      accepts_determinize_iff]

/-- A minimal automaton mentions its own states only and makes no empty moves. -/
theorem wellFormed_minimize :
    A.minimize.wellFormed = true ∧ A.minimize.hasEpsilon = false := by
  rw [minimize]
  split
  · next hdet =>
    have hdet := deterministic_of_isDeterministic hdet
    exact ⟨wellFormed_minimizeDeterministic hdet,
      hasEpsilon_minimizeDeterministic hdet.hasEpsilon⟩
  · exact ⟨wellFormed_minimizeDeterministic deterministic_determinize,
      hasEpsilon_minimizeDeterministic hasEpsilon_determinize⟩

theorem eq_of_guarded_eq {α : Type} {inRange : Bool} {a b : α} (h : guarded inRange a = .ok b) :
    b = a := by
  rw [guarded] at h
  split at h
  · exact (Except.ok.inj h).symm
  · cases h

/-- Where the guarded minimization succeeds, it is the minimization. -/
theorem eq_minimize_of_tryMinimize {B : Nfa} (h : A.tryMinimize = .ok B) : B = A.minimize := by
  rw [tryMinimize] at h
  rw [minimize]
  split at h
  · next hdet =>
    rw [if_pos hdet]
    exact eq_of_guarded_eq h
  · next hdet =>
    rw [if_neg hdet]
    cases hD : A.tryDeterminize with
    | error e =>
      rw [hD] at h
      cases h
    | ok D =>
      rw [hD] at h
      rw [← eq_of_guarded_eq hD]
      exact (Except.ok.inj h).symm

end PathQuery.Nfa
