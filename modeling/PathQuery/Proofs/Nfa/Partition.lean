import Mathlib.Data.List.Nodup
import PathQuery.Nfa.Partition
import PathQuery.Proofs.Nfa.Path

/-!
# Proofs/Nfa/Partition — the coarsest partition that arcs respect

* `waiting_partition` — in the end no splitter waits.
* `exists_arc_of_same_block` — then the arcs of states of one block lead to the same blocks.
* `blockOf_partition_of_bisimulation` — no blocks with this property are larger.

While splitters wait, states of one block may have arcs to different blocks.  `Follows` says of two
such states what will still tell them apart: one of the two blocks waits, or the splitter that is
taken up contains just one of the targets and the label is still to come.  Moving marked states out
of a block keeps this, whichever half is put on the list (`Follows.split`): if the block waits, both
halves do, and if it does not, arcs to different halves are told apart by either of them.  Taking up
a splitter for all labels settles what waited for it (`Holds.splitBy`).
-/

namespace PathQuery.Nfa

/-- **Bisimulations**: related states agree on being final, and arcs lead from them to related
states. -/
structure Bisimulation (A : Nfa) (R : Nat → Nat → Prop) : Prop where
  symm : ∀ p q, R p q → R q p
  lt : ∀ p q, R p q → p < A.numStates
  final : ∀ p q, R p q → p ∈ A.final → q ∈ A.final
  arcs : ∀ p q label r, R p q → ⟨p, some label, r⟩ ∈ A.arcs →
    ∃ r', ⟨q, some label, r'⟩ ∈ A.arcs ∧ R r r'

variable {A : Nfa} {p q r label : Nat} {states : List Nat}

theorem mem_sources_iff :
    p ∈ A.sources states label ↔ ∃ r ∈ states, ⟨p, some label, r⟩ ∈ A.arcs := by
  simp only [sources, List.mem_filterMap, Option.ite_none_right_eq_some, Option.some.injEq]
  constructor
  · rintro ⟨⟨p, _, r⟩, ha, ⟨rfl, hr⟩, rfl⟩
    exact ⟨r, hr, ha⟩
  · rintro ⟨r, hr, ha⟩
    exact ⟨_, ha, ⟨rfl, hr⟩, rfl⟩

theorem mem_alphabet_of_mem_arcs (ha : ⟨p, some label, r⟩ ∈ A.arcs) : label ∈ A.alphabet :=
  Ascending.mem_ofList.mpr (List.mem_filterMap.mpr ⟨_, ha, rfl⟩)

namespace Partition

variable {P P' : Partition} {b c w : Nat} {marked S labels : List Nat} {R : Nat → Nat → Prop}

theorem mem_members_iff : q ∈ P.members b ↔ P.blockOf[q]? = some b := by
  rw [members, List.mem_filter, List.mem_range, beq_iff_eq]
  exact and_iff_right_of_imp fun h => (List.getElem?_eq_some_iff.mp h).1

/-! ## One split -/

/-- The states of a block are all marked if one is. -/
def Uniform (marked : List Nat) (P : Partition) (b : Nat) : Prop :=
  ∀ p q : Nat, P.blockOf[p]? = some b → P.blockOf[q]? = some b → p ∈ marked → q ∈ marked

/-- What a partition becomes when the marked states of a block move into a new one, where `w` is the
half that waits from then on. -/
structure SplitsInto (marked : List Nat) (b : Nat) (P P' : Partition) (w : Nat) : Prop where
  blockOf : ∀ q : Nat, P'.blockOf[q]? =
    P.blockOf[q]?.map fun c => if c = b ∧ q ∈ marked then P.size else c
  length : P'.blockOf.length = P.blockOf.length
  size : P'.size = P.size + 1
  waiting : P'.waiting = w :: P.waiting
  half : w = b ∨ w = P.size
  both : b ∈ P.waiting → w = P.size
  kept : ∃ q : Nat, P.blockOf[q]? = some b ∧ q ∉ marked

/-- A split changes nothing where all states of the block are marked. -/
theorem split_eq_or (marked : List Nat) (P : Partition) (b : Nat) :
    (P.split marked b = P ∧ P.Uniform marked b) ∨
      ∃ w, SplitsInto marked b P (P.split marked b) w := by
  rw [split]
  split
  · next hkept =>
    rw [List.isEmpty_iff, List.filter_eq_nil_iff] at hkept
    refine .inl ⟨rfl, fun p q _ hq _ => ?_⟩
    simpa using hkept q (mem_members_iff.mpr hq)
  · next hkept =>
    obtain ⟨q, hq⟩ := List.exists_mem_of_ne_nil _ (mt List.isEmpty_iff.mpr hkept)
    rw [List.mem_filter, mem_members_iff, decide_eq_true_eq] at hq
    refine .inr ⟨_, fun q => ?_, ?_, rfl, rfl, ?_, fun hb => if_neg fun h => h.1 hb, q, hq⟩
    · simp only [List.getElem?_map, List.getElem?_zipIdx, Option.map_map, Nat.zero_add,
        Function.comp_def]
    · rw [List.length_map, List.length_zipIdx]
    · exact ite_eq_or_eq ..

theorem length_waiting_split :
    (P.split marked b).waiting.length + P.size = P.waiting.length + (P.split marked b).size := by
  rcases split_eq_or marked P b with ⟨heq, -⟩ | ⟨w, hs⟩
  · rw [heq]
  · rw [hs.waiting, hs.size, List.length_cons]
    omega

namespace SplitsInto

variable (hs : SplitsInto marked b P P' w)

include hs

theorem of_ne (hq : P.blockOf[q]? = some c) (hc : c ≠ b) : P'.blockOf[q]? = some c := by
  rw [hs.blockOf, hq, Option.map_some, if_neg fun h => hc h.1]

theorem of_notMem (hq : q ∉ marked) : P'.blockOf[q]? = P.blockOf[q]? := by
  rw [hs.blockOf]
  cases P.blockOf[q]? with
  | none => rfl
  | some c => rw [Option.map_some, if_neg fun h => hq h.2]

theorem of_mem (hq : P.blockOf[q]? = some b) (hm : q ∈ marked) : P'.blockOf[q]? = some P.size := by
  rw [hs.blockOf, hq, Option.map_some, if_pos ⟨rfl, hm⟩]

/-- States that a split leaves in one block were in one block before it. -/
theorem same (hlt : ∀ q c : Nat, P.blockOf[q]? = some c → c < P.size)
    (h : P'.blockOf[p]? = P'.blockOf[q]?) : P.blockOf[p]? = P.blockOf[q]? := by
  rw [hs.blockOf, hs.blockOf] at h
  cases hp : P.blockOf[p]? with
  | none =>
    rw [hp, Option.map_none] at h
    exact (Option.map_eq_none_iff.mp h.symm).symm
  | some c =>
    rw [hp, Option.map_some] at h
    obtain ⟨d, hd, hcd⟩ := Option.map_eq_some_iff.mp h.symm
    have hc := hlt p c hp
    have hd' := hlt q d hd
    rw [hd]
    split_ifs at hcd with h₁ h₂ h₂
    · rw [h₁.1, h₂.1]
    · omega
    · omega
    · rw [hcd]

/-- Of two states that a split tells apart, one is in the half that waits. -/
theorem eq_or_eq (hpq : P.blockOf[p]? = P.blockOf[q]?) (hne : P'.blockOf[p]? ≠ P'.blockOf[q]?) :
    P'.blockOf[p]? = some w ∨ P'.blockOf[q]? = some w := by
  have hmem : p ∈ marked ∧ q ∉ marked ∨ p ∉ marked ∧ q ∈ marked := by
    by_contra hiff
    refine hne ?_
    rw [hs.blockOf, hs.blockOf, hpq]
    have : p ∈ marked ↔ q ∈ marked := by tauto
    simp only [this]
  have hb : P.blockOf[p]? = some b := by
    by_contra hb
    have hkeep : ∀ q : Nat, P.blockOf[q]? = P.blockOf[p]? → P'.blockOf[q]? = P.blockOf[q]? := by
      intro q hq
      rw [hs.blockOf]
      cases hc : P.blockOf[q]? with
      | none => rfl
      | some c =>
        rw [Option.map_some, if_neg]
        rintro ⟨rfl, -⟩
        exact hb (hq.symm.trans hc)
    exact hne ((hkeep p rfl).trans (hpq.trans (hkeep q hpq.symm).symm))
  rcases hmem with ⟨hp, hq⟩ | ⟨hp, hq⟩
  · rcases hs.half with rfl | rfl
    · exact .inr ((hs.of_notMem hq).trans (hpq.symm.trans hb))
    · exact .inl (hs.of_mem hb hp)
  · rcases hs.half with rfl | rfl
    · exact .inl ((hs.of_notMem hp).trans hb)
    · exact .inr (hs.of_mem (hpq.symm.trans hb) hq)

/-- A state in a waiting block stays in one. -/
theorem exists_waiting (hq : P.blockOf[q]? = some c) (hc : c ∈ P.waiting) :
    ∃ d, P'.blockOf[q]? = some d ∧ d ∈ P'.waiting := by
  rw [hs.waiting]
  by_cases hm : c = b ∧ q ∈ marked
  · obtain ⟨rfl, hm⟩ := hm
    exact ⟨P.size, hs.of_mem hq hm, hs.both hc ▸ List.mem_cons_self ..⟩
  · refine ⟨c, ?_, List.mem_cons_of_mem _ hc⟩
    rw [hs.blockOf, hq, Option.map_some, if_neg hm]

theorem uniform (hlt : ∀ q c : Nat, P.blockOf[q]? = some c → c < P.size)
    (h : c = b ∨ P.Uniform marked c) : P'.Uniform marked c := by
  intro p q hp hq hpm
  by_contra hqm
  rw [hs.of_notMem hqm] at hq
  rw [hs.blockOf] at hp
  obtain ⟨d, hd, hdc⟩ := Option.map_eq_some_iff.mp hp
  by_cases hdb : d = b
  · rw [if_pos ⟨hdb, hpm⟩] at hdc
    have := hlt q c hq
    omega
  · rw [if_neg fun h => hdb h.1] at hdc
    subst hdc
    exact hqm (h.resolve_left hdb p q hd hq hpm)

end SplitsInto

/-! ## What holds between splits -/

/-- Each state is in a block, and no block is empty. -/
structure Covers (n : Nat) (P : Partition) : Prop where
  length : P.blockOf.length = n
  lt : ∀ q b : Nat, P.blockOf[q]? = some b → b < P.size
  exists_mem : ∀ b < P.size, ∃ q : Nat, P.blockOf[q]? = some b

theorem Covers.exists_block {n : Nat} (h : P.Covers n) (hq : q < n) :
    ∃ b < P.size, P.blockOf[q]? = some b :=
  have hb := List.getElem?_eq_getElem (h.length.symm ▸ hq)
  ⟨_, h.lt q _ hb, hb⟩

theorem Covers.size_le {n : Nat} (h : P.Covers n) : P.size ≤ n := by
  rw [← h.length, ← @List.length_range P.size]
  refine Search.length_le_of_nodup List.nodup_range fun b hb => ?_
  obtain ⟨q, hq⟩ := h.exists_mem b (List.mem_range.mp hb)
  exact List.mem_of_getElem? hq

theorem Covers.split {n : Nat} (h : P.Covers n)
    (hb : ∃ q : Nat, P.blockOf[q]? = some b ∧ q ∈ marked) : (P.split marked b).Covers n := by
  rcases split_eq_or marked P b with ⟨heq, -⟩ | ⟨w, hs⟩
  · rwa [heq]
  refine ⟨hs.length.trans h.length, fun q c hq => ?_, fun c hc => ?_⟩
  · rw [hs.blockOf] at hq
    obtain ⟨d, hd, hdc⟩ := Option.map_eq_some_iff.mp hq
    have := h.lt q d hd
    rw [hs.size]
    split_ifs at hdc <;> omega
  · obtain ⟨q, hq, hqm⟩ := hb
    by_cases hnew : c = P.size
    · exact ⟨q, hnew ▸ hs.of_mem hq hqm⟩
    · obtain ⟨p, hp⟩ := h.exists_mem c (by rw [hs.size] at hc; omega)
      by_cases hcb : c = b
      · obtain ⟨p, hp, hpm⟩ := hs.kept
        exact ⟨p, (hs.of_notMem hpm).trans (hcb ▸ hp)⟩
      · exact ⟨p, hs.of_ne hp hcb⟩

/-- Why two states of one block need not be told apart yet, of which the first has an arc to `r`:
the other has one to the same block, or some waiting splitter will tell, or the splitter `S` that is
taken up will, at one of the labels left. -/
inductive Follows (A : Nfa) (P : Partition) (S labels : List Nat) (p q label r : Nat) : Prop where
  | matched {r' : Nat} : ⟨q, some label, r'⟩ ∈ A.arcs → P.blockOf[r]? = P.blockOf[r']? →
      Follows A P S labels p q label r
  | waits {b : Nat} : P.blockOf[r]? = some b → b ∈ P.waiting → Follows A P S labels p q label r
  | otherWaits {r' b : Nat} : ⟨q, some label, r'⟩ ∈ A.arcs → P.blockOf[r']? = some b →
      b ∈ P.waiting → Follows A P S labels p q label r
  | splitter : label ∈ labels → ¬(p ∈ A.sources S label ↔ q ∈ A.sources S label) →
      Follows A P S labels p q label r

/-- **A split** leaves nothing behind that no splitter will tell apart. -/
theorem Follows.split (h : Follows A P S labels p q label r) :
    Follows A (P.split marked b) S labels p q label r := by
  rcases split_eq_or marked P b with ⟨heq, -⟩ | ⟨w, hs⟩
  · rwa [heq]
  have hw : w ∈ (P.split marked b).waiting := hs.waiting ▸ List.mem_cons_self ..
  cases h with
  | @matched r' ha hr =>
    by_cases hsame : (P.split marked b).blockOf[r]? = (P.split marked b).blockOf[r']?
    · exact .matched ha hsame
    · rcases hs.eq_or_eq hr hsame with hr | hr
      · exact .waits hr hw
      · exact .otherWaits ha hr hw
  | waits hr hb =>
    obtain ⟨c, hr, hc⟩ := hs.exists_waiting hr hb
    exact .waits hr hc
  | otherWaits ha hr hb =>
    obtain ⟨c, hr, hc⟩ := hs.exists_waiting hr hb
    exact .otherWaits ha hr hc
  | splitter hlabel hiff => exact .splitter hlabel hiff

/-- What holds while the splitter `S` is taken up, with some labels left. -/
structure Holds (A : Nfa) (S labels : List Nat) (P : Partition) : Prop where
  covers : P.Covers A.numStates
  final : ∀ p q : Nat, P.blockOf[p]? = P.blockOf[q]? → p ∈ A.final → q ∈ A.final
  arcs : ∀ p q label r : Nat, P.blockOf[p]? = P.blockOf[q]? → ⟨p, some label, r⟩ ∈ A.arcs →
    Follows A P S labels p q label r

theorem Holds.split (h : Holds A S labels P)
    (hb : ∃ q : Nat, P.blockOf[q]? = some b ∧ q ∈ marked) :
    Holds A S labels (P.split marked b) := by
  have hsame : ∀ p q : Nat, (P.split marked b).blockOf[p]? = (P.split marked b).blockOf[q]? →
      P.blockOf[p]? = P.blockOf[q]? := by
    intro p q hpq
    rcases split_eq_or marked P b with ⟨heq, -⟩ | ⟨w, hs⟩
    · rwa [heq] at hpq
    · exact hs.same h.covers.lt hpq
  exact ⟨h.covers.split hb, fun p q hpq => h.final p q (hsame p q hpq),
    fun p q label r hpq ha => (h.arcs p q label r (hsame p q hpq) ha).split⟩

theorem uniform_split (hlt : ∀ q c : Nat, P.blockOf[q]? = some c → c < P.size)
    (h : c = b ∨ P.Uniform marked c) : (P.split marked b).Uniform marked c := by
  rcases split_eq_or marked P b with ⟨heq, hb⟩ | ⟨w, hs⟩
  · rw [heq]
    exact h.elim (fun h => h ▸ hb) id
  · exact hs.uniform hlt h

/-- Splitting each block with marked states leaves blocks that are marked altogether or not at
all. -/
theorem Holds.foldl_split {blocks : List Nat} (h : Holds A S labels P) (hnodup : blocks.Nodup)
    (hblocks : ∀ b ∈ blocks, ∃ q : Nat, P.blockOf[q]? = some b ∧ q ∈ marked)
    (huniform : ∀ c, c ∈ blocks ∨ P.Uniform marked c) :
    Holds A S labels (blocks.foldl (Partition.split marked) P) ∧
      ∀ c, (blocks.foldl (Partition.split marked) P).Uniform marked c := by
  induction blocks generalizing P with
  | nil => exact ⟨h, fun c => (huniform c).resolve_left List.not_mem_nil⟩
  | cons b blocks ih =>
    obtain ⟨hb, hnodup⟩ := List.nodup_cons.mp hnodup
    obtain ⟨hmarked, hblocks⟩ := List.forall_mem_cons.mp hblocks
    refine ih (h.split hmarked) hnodup (fun c hc => ?_) fun c => ?_
    · obtain ⟨q, hq, hqm⟩ := hblocks c hc
      rcases split_eq_or marked P b with ⟨heq, -⟩ | ⟨w, hs⟩
      · rw [heq]
        exact ⟨q, hq, hqm⟩
      · exact ⟨q, hs.of_ne hq fun hcb => hb (hcb ▸ hc), hqm⟩
    · rcases huniform c with hc | hc
      · rcases List.mem_cons.mp hc with hc | hc
        · exact .inr (uniform_split h.covers.lt (.inl hc))
        · exact .inl hc
      · exact .inr (uniform_split h.covers.lt (.inr hc))

/-! ## Taking up a splitter -/

theorem mem_touched_iff : b ∈ Ascending.ofList (marked.filterMap (P.blockOf[·]?)) ↔
    ∃ q : Nat, P.blockOf[q]? = some b ∧ q ∈ marked := by
  rw [Ascending.mem_ofList, List.mem_filterMap]
  exact exists_congr fun q => and_comm

theorem Holds.splitOn (hA : A.wellFormed = true) (h : Holds A S (label :: labels) P) :
    Holds A S labels (P.splitOn A S label) := by
  have huniform : ∀ c, c ∈ Ascending.ofList ((A.sources S label).filterMap (P.blockOf[·]?)) ∨
      P.Uniform (A.sources S label) c := by
    intro c
    by_cases hc : ∃ q : Nat, P.blockOf[q]? = some c ∧ q ∈ A.sources S label
    · exact .inl (mem_touched_iff.mpr hc)
    · exact .inr fun p q hp _ hpm => absurd ⟨p, hp, hpm⟩ hc
  obtain ⟨h, huniform⟩ := h.foldl_split
    (Ascending.nodup_of_isAscending (Ascending.isAscending_ofList _))
    (fun b hb => mem_touched_iff.mp hb) huniform
  refine ⟨h.covers, h.final, fun p q label' r hpq ha => ?_⟩
  cases h.arcs p q label' r hpq ha with
  | matched ha hr => exact .matched ha hr
  | waits hr hb => exact .waits hr hb
  | otherWaits ha hr hb => exact .otherWaits ha hr hb
  | splitter hlabel hiff =>
    rcases List.mem_cons.mp hlabel with rfl | hlabel
    · -- the two states are in one block, which is now marked altogether or not at all
      obtain ⟨c, -, hpc⟩ := h.covers.exists_block ((wellFormed_iff.mp hA).2.2 _ ha).1
      exact absurd ⟨huniform c p q hpc (hpq.symm.trans hpc),
        huniform c q p (hpq.symm.trans hpc) hpc⟩ hiff
    · exact .splitter hlabel hiff

theorem Holds.foldl_splitOn (hA : A.wellFormed = true) (h : Holds A S labels P) :
    Holds A S [] (labels.foldl (Partition.splitOn A S) P) := by
  induction labels generalizing P with
  | nil => exact h
  | cons label labels ih => exact ih (h.splitOn hA)

/-- The next waiting block becomes the splitter that is taken up. -/
theorem Holds.pop {waiting : List Nat} (hA : A.Deterministic) (h : Holds A S [] P)
    (hw : P.waiting = b :: waiting) : Holds A (P.members b) A.alphabet { P with waiting } := by
  refine ⟨⟨h.covers.length, h.covers.lt, h.covers.exists_mem⟩, h.final,
    fun p q label r hpq ha => ?_⟩
  have hlabel := mem_alphabet_of_mem_arcs ha
  cases h.arcs p q label r hpq ha with
  | matched ha hr => exact .matched ha hr
  | @waits c hr hc =>
    rcases List.mem_cons.mp (hw ▸ hc) with rfl | hc
    · have hp : p ∈ A.sources (P.members c) label :=
        mem_sources_iff.mpr ⟨r, mem_members_iff.mpr hr, ha⟩
      by_cases hq : q ∈ A.sources (P.members c) label
      · obtain ⟨r', hr', ha'⟩ := mem_sources_iff.mp hq
        exact .matched ha' (hr.trans (mem_members_iff.mp hr').symm)
      · exact .splitter hlabel fun hiff => hq (hiff.mp hp)
    · exact .waits hr hc
  | @otherWaits r' c ha' hr' hc =>
    rcases List.mem_cons.mp (hw ▸ hc) with rfl | hc
    · have hq : q ∈ A.sources (P.members c) label :=
        mem_sources_iff.mpr ⟨r', mem_members_iff.mpr hr', ha'⟩
      by_cases hp : p ∈ A.sources (P.members c) label
      · obtain ⟨r₁, hr₁, ha₁⟩ := mem_sources_iff.mp hp
        obtain rfl : r₁ = r := hA.functional _ ha₁ _ ha rfl rfl
        exact .matched ha' ((mem_members_iff.mp hr₁).trans hr'.symm)
      · exact .splitter hlabel fun hiff => hp (hiff.mpr hq)
    · exact .otherWaits ha' hr' hc
  | splitter hlabel => exact absurd hlabel List.not_mem_nil

/-- **Taking up a splitter** settles what waited for it. -/
theorem Holds.splitBy {waiting : List Nat} (hA : A.wellFormed = true) (hdet : A.Deterministic)
    (h : Holds A S [] P) (hw : P.waiting = b :: waiting) :
    Holds A (P.members b) [] ({ P with waiting }.splitBy A (P.members b)) :=
  (h.pop hdet hw).foldl_splitOn hA

/-! ## The whole refinement -/

theorem Holds.refine {bound : Nat} (hA : A.wellFormed = true) (hdet : A.Deterministic)
    (h : Holds A S [] P) : ∃ S, Holds A S [] (P.refine A bound) := by
  induction bound generalizing S P with
  | zero => exact ⟨S, h⟩
  | succ bound ih =>
    rw [Partition.refine]
    split
    · exact ⟨S, h⟩
    · next b waiting hw => exact ih (h.splitBy hA hdet hw)

theorem length_waiting_foldl_split {blocks : List Nat} :
    (blocks.foldl (Partition.split marked) P).waiting.length + P.size =
      P.waiting.length + (blocks.foldl (Partition.split marked) P).size := by
  induction blocks generalizing P with
  | nil => rfl
  | cons b blocks ih =>
    rw [List.foldl_cons]
    have h₁ := @ih (P.split marked b)
    have h₂ := @length_waiting_split P b marked
    omega

/-- Each split adds one block and one splitter. -/
theorem length_waiting_foldl_splitOn :
    (labels.foldl (Partition.splitOn A S) P).waiting.length + P.size =
      P.waiting.length + (labels.foldl (Partition.splitOn A S) P).size := by
  induction labels generalizing P with
  | nil => rfl
  | cons label labels ih =>
    rw [List.foldl_cons]
    have h₁ := @ih (P.splitOn A S label)
    have h₂ : (P.splitOn A S label).waiting.length + P.size =
        P.waiting.length + (P.splitOn A S label).size := length_waiting_foldl_split
    omega

/-- There are no more splitters than states, since each of them comes with a block. -/
theorem waiting_refine {bound : Nat} (hA : A.wellFormed = true) (hdet : A.Deterministic)
    (h : Holds A S [] P) (hb : P.waiting.length + A.numStates ≤ bound + P.size) :
    (P.refine A bound).waiting = [] := by
  induction bound generalizing S P with
  | zero =>
    have := h.covers.size_le
    exact List.length_eq_zero_iff.mp (by rw [Partition.refine]; omega)
  | succ bound ih =>
    rw [Partition.refine]
    split
    · next hw => exact hw
    · next b waiting hw =>
      refine ih (h.splitBy hA hdet hw) ?_
      have hlen := @length_waiting_foldl_splitOn A { P with waiting } (P.members b) A.alphabet
      rw [hw, List.length_cons] at hb
      rw [Partition.splitBy]
      dsimp only at hlen
      omega

/-! ## The first partition -/

variable {n : Nat} {final block : List Nat}

theorem mem_finalBlocks_iff : block ∈ finalBlocks n final ↔ block ≠ [] ∧
    ∃ isFinal, block = (List.range n).filter fun q => decide (q ∈ final) == isFinal := by
  simp only [finalBlocks, List.mem_filter, List.mem_map, List.mem_cons, List.not_mem_nil, or_false,
    Bool.not_eq_true', List.isEmpty_eq_false_iff]
  constructor
  · rintro ⟨⟨isFinal, -, rfl⟩, hne⟩
    exact ⟨hne, isFinal, rfl⟩
  · rintro ⟨hne, isFinal, rfl⟩
    exact ⟨⟨isFinal, by cases isFinal <;> simp, rfl⟩, hne⟩

/-- States of one of the blocks agree on being final. -/
theorem mem_final_iff_of_mem (hb : block ∈ finalBlocks n final) (hp : p ∈ block) (hq : q ∈ block) :
    p ∈ final ↔ q ∈ final := by
  obtain ⟨-, isFinal, rfl⟩ := mem_finalBlocks_iff.mp hb
  rw [List.mem_filter, beq_iff_eq] at hp hq
  rw [← decide_eq_decide, hp.2, hq.2]

theorem mem_finalBlock_of_iff (hb : block ∈ finalBlocks n final) (hq : q < n)
    (hpq : p ∈ final ↔ q ∈ final) (hp : p ∈ block) : q ∈ block := by
  obtain ⟨-, isFinal, rfl⟩ := mem_finalBlocks_iff.mp hb
  rw [List.mem_filter] at hp ⊢
  exact ⟨List.mem_range.mpr hq, by simpa only [hpq] using hp.2⟩

theorem exists_finalBlock (final : List Nat) (hq : q < n) :
    ∃ block ∈ finalBlocks n final, q ∈ block := by
  have hmem : q ∈ (List.range n).filter fun r => decide (r ∈ final) == decide (q ∈ final) :=
    List.mem_filter.mpr ⟨List.mem_range.mpr hq, beq_self_eq_true _⟩
  exact ⟨_, mem_finalBlocks_iff.mpr ⟨List.ne_nil_of_mem hmem, _, rfl⟩, hmem⟩

theorem pairwise_finalBlocks : (finalBlocks n final).Pairwise fun s t => ∀ q ∈ s, q ∉ t := by
  refine List.Pairwise.filter _ ?_
  simp only [List.map_cons, List.map_nil, List.pairwise_cons, List.mem_singleton, forall_eq,
    List.not_mem_nil, false_imp_iff, implies_true, List.Pairwise.nil, and_true, List.mem_filter]
  rintro q ⟨-, hq⟩ ⟨-, hq'⟩
  rw [beq_iff_eq] at hq hq'
  exact Bool.noConfusion (hq.symm.trans hq')

theorem getElem?_blockOf_ofFinal : (ofFinal n final).blockOf[q]? = some b ↔
    q < n ∧ ∃ block, (finalBlocks n final)[b]? = some block ∧ q ∈ block := by
  have hblockOf : (ofFinal n final).blockOf[q]? =
      (List.range n)[q]?.map fun q => (finalBlocks n final).findIdx fun block =>
        decide (q ∈ block) := List.getElem?_map ..
  by_cases hq : q < n
  · rw [hblockOf, List.getElem?_range hq, Option.map_some, Option.some.injEq,
      and_iff_right hq]
    constructor
    · rintro rfl
      obtain ⟨block, hblock, hmem⟩ := exists_finalBlock final hq
      have hlt := List.findIdx_lt_length_of_exists (p := fun block => decide (q ∈ block))
        ⟨block, hblock, decide_eq_true hmem⟩
      have hmem' := List.findIdx_getElem (w := hlt)
      exact ⟨_, List.getElem?_eq_getElem hlt, of_decide_eq_true hmem'⟩
    · rintro ⟨block, hblock, hmem⟩
      obtain ⟨hlt, rfl⟩ := List.getElem?_eq_some_iff.mp hblock
      refine (List.findIdx_eq hlt).mpr
        ⟨decide_eq_true hmem, fun j hj => decide_eq_false fun hq => ?_⟩
      exact List.pairwise_iff_getElem.mp pairwise_finalBlocks j b _ hlt hj q hq hmem
  · refine iff_of_false (fun h => ?_) fun h => hq h.1
    rw [hblockOf, List.getElem?_eq_none (by simpa using hq)] at h
    cases h

theorem covers_ofFinal (n : Nat) (final : List Nat) : (ofFinal n final).Covers n := by
  refine ⟨by simp [ofFinal], fun q b hq => ?_, fun b hb => ?_⟩
  · obtain ⟨-, block, hblock, -⟩ := getElem?_blockOf_ofFinal.mp hq
    exact (List.getElem?_eq_some_iff.mp hblock).1
  · have hblock := List.getElem_mem (l := finalBlocks n final) hb
    obtain ⟨hne, isFinal, hfilter⟩ := mem_finalBlocks_iff.mp hblock
    obtain ⟨q, hq⟩ := List.exists_mem_of_ne_nil _ hne
    have hlt : q < n := by
      rw [hfilter] at hq
      exact List.mem_range.mp (List.mem_filter.mp hq).1
    exact ⟨q, getElem?_blockOf_ofFinal.mpr ⟨hlt, _, List.getElem?_eq_getElem hb, hq⟩⟩

theorem holds_ofFinal (hA : A.wellFormed = true) :
    Holds A [] [] (ofFinal A.numStates A.final) := by
  refine ⟨covers_ofFinal .., fun p q hpq hp => ?_, fun p q label r _ ha => ?_⟩
  · obtain ⟨b, -, hpb⟩ :=
      (covers_ofFinal A.numStates A.final).exists_block ((wellFormed_iff.mp hA).2.1 p hp)
    obtain ⟨-, block, hblock, hmem⟩ := getElem?_blockOf_ofFinal.mp hpb
    obtain ⟨-, block', hblock', hmem'⟩ := getElem?_blockOf_ofFinal.mp (hpq.symm.trans hpb)
    obtain rfl : block = block' := Option.some.inj (hblock.symm.trans hblock')
    exact (mem_final_iff_of_mem (List.mem_of_getElem? hblock) hmem hmem').mp hp
  · obtain ⟨b, hlt, hrb⟩ :=
      (covers_ofFinal A.numStates A.final).exists_block ((wellFormed_iff.mp hA).2.2 _ ha).2
    exact .waits hrb (List.mem_reverse.mpr (List.mem_range.mpr hlt))

/-! ## Related states stay together -/

/-- States that a relation relates are in one block. -/
def Respects (R : Nat → Nat → Prop) (P : Partition) : Prop :=
  ∀ p q : Nat, R p q → P.blockOf[p]? = P.blockOf[q]?

theorem Respects.split (h : P.Respects R) (hm : ∀ p q, R p q → (p ∈ marked ↔ q ∈ marked)) :
    (P.split marked b).Respects R := by
  rcases split_eq_or marked P b with ⟨heq, -⟩ | ⟨w, hs⟩
  · rwa [heq]
  · intro p q hpq
    rw [hs.blockOf, hs.blockOf, h p q hpq]
    simp only [hm p q hpq]

theorem Respects.foldl_split {blocks : List Nat} (h : P.Respects R)
    (hm : ∀ p q, R p q → (p ∈ marked ↔ q ∈ marked)) :
    (blocks.foldl (Partition.split marked) P).Respects R := by
  induction blocks generalizing P with
  | nil => exact h
  | cons b blocks ih => exact ih (h.split hm)

theorem Respects.foldl_splitOn (h : P.Respects R) (hR : A.Bisimulation R)
    (hS : ∀ p q, R p q → p ∈ S → q ∈ S) : (labels.foldl (Partition.splitOn A S) P).Respects R := by
  have hm : ∀ label p q, R p q → p ∈ A.sources S label → q ∈ A.sources S label := by
    intro label p q hpq hp
    obtain ⟨r, hr, ha⟩ := mem_sources_iff.mp hp
    obtain ⟨r', ha', hrr'⟩ := hR.arcs p q label r hpq ha
    exact mem_sources_iff.mpr ⟨r', hS r r' hrr' hr, ha'⟩
  induction labels generalizing P with
  | nil => exact h
  | cons label labels ih =>
    exact ih (h.foldl_split fun p q hpq => ⟨hm label p q hpq, hm label q p (hR.symm p q hpq)⟩)

theorem Respects.refine {bound : Nat} (h : P.Respects R) (hR : A.Bisimulation R) :
    (P.refine A bound).Respects R := by
  induction bound generalizing P with
  | zero => exact h
  | succ bound ih =>
    rw [Partition.refine]
    split
    · exact h
    · next b waiting _ =>
      refine ih (Respects.foldl_splitOn (fun p q hpq => h p q hpq) hR fun p q hpq hp => ?_)
      exact mem_members_iff.mpr ((h p q hpq).symm.trans (mem_members_iff.mp hp))

theorem respects_ofFinal (hR : A.Bisimulation R) :
    (ofFinal A.numStates A.final).Respects R := by
  intro p q hpq
  have hp := hR.lt p q hpq
  have hq := hR.lt q p (hR.symm p q hpq)
  obtain ⟨b, -, hpb⟩ := (covers_ofFinal A.numStates A.final).exists_block hp
  obtain ⟨-, block, hblock, hmem⟩ := getElem?_blockOf_ofFinal.mp hpb
  have hiff : p ∈ A.final ↔ q ∈ A.final :=
    ⟨hR.final p q hpq, hR.final q p (hR.symm p q hpq)⟩
  rw [hpb, eq_comm]
  exact getElem?_blockOf_ofFinal.mpr ⟨hq, block, hblock,
    mem_finalBlock_of_iff (List.mem_of_getElem? hblock) hq hiff hmem⟩

end Partition

/-! ## The partition of an automaton -/

theorem holds_partition (hA : A.wellFormed = true) (hdet : A.Deterministic) :
    ∃ S, Partition.Holds A S [] A.partition :=
  (Partition.holds_ofFinal hA).refine hA hdet

/-- **The refinement ends**: no splitter is left over. -/
theorem waiting_partition (hA : A.wellFormed = true) (hdet : A.Deterministic) :
    A.partition.waiting = [] :=
  Partition.waiting_refine hA hdet (Partition.holds_ofFinal hA)
    (by simp [Partition.ofFinal, Nat.add_comm])

/-- **Arcs respect the partition**: those of states of one block lead to the same blocks. -/
theorem exists_arc_of_same_block (hA : A.wellFormed = true) (hdet : A.Deterministic)
    (hpq : A.partition.blockOf[p]? = A.partition.blockOf[q]?)
    (ha : ⟨p, some label, r⟩ ∈ A.arcs) :
    ∃ r', ⟨q, some label, r'⟩ ∈ A.arcs ∧
      A.partition.blockOf[r]? = A.partition.blockOf[r']? := by
  obtain ⟨S, h⟩ := holds_partition hA hdet
  have hw := waiting_partition hA hdet
  cases h.arcs p q label r hpq ha with
  | matched ha hr => exact ⟨_, ha, hr⟩
  | waits _ hb => exact absurd (hw ▸ hb) List.not_mem_nil
  | otherWaits _ _ hb => exact absurd (hw ▸ hb) List.not_mem_nil
  | splitter hlabel => exact absurd hlabel List.not_mem_nil

/-- **The partition is the coarsest one**: related states of a bisimulation are in one block. -/
theorem blockOf_partition_of_bisimulation {R : Nat → Nat → Prop} (hR : A.Bisimulation R)
    (h : R p q) : A.partition.blockOf[p]? = A.partition.blockOf[q]? :=
  (Partition.respects_ofFinal hR).refine hR p q h

end PathQuery.Nfa
