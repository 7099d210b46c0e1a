import Mathlib.Data.Finset.Card
import Mathlib.Order.Interval.Finset.Nat
import Mathlib.Tactic.Choose
import PathQuery.Grammar.FreshName
import PathQuery.Search

/-!
# Proofs/Grammar/FreshName — fresh names are not in use

* `freshAll_distinct` — names for any hints differ from each other and from all names in use, and
  the search for each of them ends without a bound.

`fresh_notMem_taken` says that a fresh name differs from all names in use, whatever these look
like, and `taken_fresh` that it is in use from then on.  A number of tests equal to the number of
names in use is enough because different numbers give different names (`numbered_inj`).  As this
holds for different hints as well, no name in use is ever passed over twice, and the counter never
exceeds the number of names in use (`Covered.counter_le`).
-/

namespace PathQuery.NameSupply

variable {S : NameSupply} {taken hints names : List String} {hint hint' : String} {k l : Nat}
  {result : NameSupply × String}

theorem toString_inj {k l : Nat} (h : toString k = toString l) : k = l := by
  have digits : Nat.toDigits 10 k = Nat.toDigits 10 l := by
    simpa only [Nat.toString_eq_repr, Nat.toList_repr] using congrArg String.toList h
  simpa using congrArg (fun ds => Nat.ofDigitChars 10 ds 0) digits

/-- The number of a name is what stands behind its last sign `#`. -/
theorem takeWhile_reverse_numbered : (numbered hint k).toList.reverse.takeWhile Char.isDigit =
    (toString k).toList.reverse := by
  have hdigits : ∀ c ∈ (toString k).toList.reverse, c.isDigit = true := fun c hc => by
    rw [List.mem_reverse, Nat.toString_eq_repr, Nat.toList_repr] at hc
    exact Nat.isDigit_of_mem_toDigits (by decide) (by decide) hc
  have hsign : ¬('#'.isDigit = true) := by decide
  have hlist : (numbered hint k).toList.reverse =
      (toString k).toList.reverse ++ '#' :: hint.toList.reverse := by
    simp [numbered]
  rw [hlist, List.takeWhile_append_of_pos hdigits, List.takeWhile_cons_of_neg hsign,
    List.append_nil]

/-- Different numbers give different names, whatever the hints. -/
theorem numbered_inj (h : numbered hint k = numbered hint' l) : k = l := by
  have hdigits := congrArg (fun name => name.toList.reverse.takeWhile Char.isDigit) h
  simp only [takeWhile_reverse_numbered, List.reverse_inj] at hdigits
  exact toString_inj (String.toList_inj.mp hdigits)

/-- The search for a free number ends at one, or all numbers that it tested are in use. -/
theorem freeNumber_or (tests k : Nat) :
    numbered hint (freeNumber taken hint tests k) ∉ taken ∨
      freeNumber taken hint tests k = k + tests ∧
        ∀ j, k ≤ j → j < k + tests → numbered hint j ∈ taken := by
  induction tests generalizing k with
  | zero =>
    right
    exact ⟨rfl, fun j _ _ => by omega⟩
  | succ tests ih =>
    rw [freeNumber]
    split
    · next hk =>
      refine (ih (k + 1)).imp_right fun ⟨heq, hmem⟩ => ⟨by omega, fun j hj hlt => ?_⟩
      rcases Nat.eq_or_lt_of_le hj with rfl | hj
      · exact hk
      · exact hmem j hj (by omega)
    · next hk => exact .inl hk

/-- Different numbers give different names, so that one number more than there are names in use is
free. -/
theorem exists_numbered_notMem (k : Nat) :
    ∃ j, k ≤ j ∧ j ≤ k + taken.length ∧ numbered hint j ∉ taken := by
  refine Classical.byContradiction fun hall => ?_
  have hmem : ∀ j, k ≤ j → j ≤ k + taken.length → numbered hint j ∈ taken :=
    fun j hj hj' => Classical.byContradiction fun h => hall ⟨j, hj, hj', h⟩
  have hrange : (List.range' k (taken.length + 1)).Nodup := List.nodup_range'
  have hnodup : ((List.range' k (taken.length + 1)).map (numbered hint)).Nodup :=
    List.pairwise_map.mpr (hrange.imp fun h h' => h (numbered_inj h'))
  have hle := Search.length_le_of_nodup hnodup fun name hname => by
    obtain ⟨j, hj, rfl⟩ := List.mem_map.mp hname
    rw [List.mem_range'_1] at hj
    exact hmem j hj.1 (by omega)
  rw [List.length_map, List.length_range'] at hle
  omega

theorem numbered_freeNumber_notMem (k : Nat) :
    numbered hint (freeNumber taken hint taken.length k) ∉ taken := by
  obtain ⟨j, hj, hj', hfree⟩ := @exists_numbered_notMem taken hint k
  rcases freeNumber_or taken.length k with h | ⟨heq, hmem⟩
  · exact h
  · rcases Nat.eq_or_lt_of_le hj' with rfl | hlt
    · exact heq ▸ hfree
    · exact absurd (hmem j hj hlt) hfree

/-- **Freshness**: a fresh name is not in use. -/
theorem fresh_notMem_taken : (S.fresh hint).2 ∉ S.taken := numbered_freeNumber_notMem _

@[simp] theorem taken_fresh : (S.fresh hint).1.taken = (S.fresh hint).2 :: S.taken := rfl

theorem taken_of_fresh_eq {S' : NameSupply} {name : String} (h : S.fresh hint = (S', name)) :
    S'.taken = name :: S.taken ∧ name ∉ S.taken := by
  cases h
  exact ⟨taken_fresh, fresh_notMem_taken⟩

/-! ## The search without a bound -/

/-- The search without a bound: the numbers behind the counter are tried one after another, each at
the cost of one more on the counter. -/
inductive Loop (hint : String) : NameSupply → NameSupply × String → Prop where
  | free {S : NameSupply} : numbered hint (S.counter + 1) ∉ S.taken →
      Loop hint S (⟨numbered hint (S.counter + 1) :: S.taken, S.counter + 1⟩,
        numbered hint (S.counter + 1))
  | taken {S : NameSupply} {result : NameSupply × String} :
      numbered hint (S.counter + 1) ∈ S.taken →
        Loop hint ⟨S.taken, S.counter + 1⟩ result → Loop hint S result

theorem loop_freeNumber {tests : Nat}
    (h : numbered hint (freeNumber taken hint tests (k + 1)) ∉ taken) :
    Loop hint ⟨taken, k⟩
      (⟨numbered hint (freeNumber taken hint tests (k + 1)) :: taken,
        freeNumber taken hint tests (k + 1)⟩,
        numbered hint (freeNumber taken hint tests (k + 1))) := by
  induction tests generalizing k with
  | zero => exact .free h
  | succ tests ih =>
    rw [freeNumber] at h ⊢
    split at h
    · next hk =>
      rw [if_pos hk]
      exact .taken hk (ih h)
    · next hk =>
      rw [if_neg hk]
      exact .free hk

theorem Loop.unique {result' : NameSupply × String} (h : Loop hint S result)
    (h' : Loop hint S result') : result = result' := by
  induction h with
  | free hfree =>
    cases h' with
    | free => rfl
    | taken hk => exact absurd hk hfree
  | taken hk _ ih =>
    cases h' with
    | free hfree => exact absurd hk hfree
    | taken _ hrest => exact ih hrest

/-- **The search ends**, and what it ends with is the fresh name. -/
theorem loop_iff : Loop hint S result ↔ result = S.fresh hint := by
  have hends : Loop hint S (S.fresh hint) := loop_freeNumber (numbered_freeNumber_notMem _)
  exact ⟨fun h => h.unique hends, fun h => h ▸ hends⟩

/-! ## Any number of names -/

/-- Names for some hints, one after another, and the supply after that. -/
def freshAll (S : NameSupply) : List String → NameSupply × List String
  | [] => (S, [])
  | hint :: hints =>
    let (S, name) := S.fresh hint
    let (S, names) := freshAll S hints
    (S, name :: names)

/-- Names for some hints, each by the search without a bound. -/
inductive Searches : NameSupply → List String → NameSupply × List String → Prop where
  | nil {S : NameSupply} : Searches S [] (S, [])
  | cons {S T U : NameSupply} {hint name : String} {hints names : List String} :
      Loop hint S (T, name) → Searches T hints (U, names) →
        Searches S (hint :: hints) (U, name :: names)

theorem searches_iff {result : NameSupply × List String} :
    Searches S hints result ↔ result = S.freshAll hints := by
  induction hints generalizing S result with
  | nil =>
    refine ⟨fun h => ?_, fun h => h ▸ .nil⟩
    cases h
    rfl
  | cons hint hints ih =>
    constructor
    · intro h
      cases h with
      | cons hname hnames =>
        rw [freshAll, ← loop_iff.mp hname]
        dsimp only
        rw [← ih.mp hnames]
    · rintro rfl
      exact .cons (loop_iff.mpr rfl) (ih.mpr rfl)

/-- Every number up to the counter is that of a name in use. -/
def Covered (S : NameSupply) : Prop :=
  ∀ k, 0 < k → k ≤ S.counter → ∃ hint, numbered hint k ∈ S.taken

theorem Loop.covered (h : Loop hint S result) (hS : S.Covered) : result.1.Covered := by
  induction h with
  | @free S hfree =>
    intro k hk hle
    rcases Nat.eq_or_lt_of_le hle with rfl | hlt
    · exact ⟨hint, List.mem_cons_self ..⟩
    · obtain ⟨hint', hmem⟩ := hS k hk (Nat.le_of_lt_succ hlt)
      exact ⟨hint', List.mem_cons_of_mem _ hmem⟩
  | taken hnext _ ih =>
    refine ih fun k hk hle => ?_
    rcases Nat.eq_or_lt_of_le hle with rfl | hlt
    · exact ⟨hint, hnext⟩
    · exact hS k hk (Nat.le_of_lt_succ hlt)

/-- Names with different numbers are different, so that there are as many as the counter says. -/
theorem Covered.counter_le (hS : S.Covered) : S.counter ≤ S.taken.toFinset.card := by
  choose! hintOf htaken using hS
  -- Each number up to the counter is sent to a name in use, from which it can be read back.
  have hmaps : Set.MapsTo (fun k => numbered (hintOf k) k) (Finset.Icc 1 S.counter)
      S.taken.toFinset := fun k hk => by
    obtain ⟨hpos, hle⟩ := Finset.mem_Icc.mp hk
    exact List.mem_toFinset.mpr (htaken k hpos hle)
  have hle := Finset.card_le_card_of_injOn _ hmaps fun k _ l _ h => numbered_inj h
  rwa [Nat.card_Icc, Nat.add_sub_cancel] at hle

/-- **What the names for some hints are** to the supply that gives them: they differ from each other
and from all names in use, each is its hint with a number, and they are in use after that, beside
those before. -/
structure Supplies (S : NameSupply) (hints names : List String) (U : NameSupply) : Prop where
  nodup : names.Nodup
  notMem : ∀ name ∈ names, name ∉ S.taken
  form : List.Forall₂ (fun hint name => ∃ k, name = numbered hint k) hints names
  taken : U.taken = names.reverse ++ S.taken
  covered : S.Covered → U.Covered

theorem Supplies.nil : Supplies S [] [] S where
  nodup := List.nodup_nil
  notMem _ h := absurd h List.not_mem_nil
  form := .nil
  taken := rfl
  covered := id

/-- One more name in front: the names after it are fresh beside it. -/
theorem Supplies.cons {T U : NameSupply} {name : String} (hname : Loop hint S (T, name))
    (h : Supplies T hints names U) : Supplies S (hint :: hints) (name :: names) U := by
  have hfresh : S.fresh hint = (T, name) := (loop_iff.mp hname).symm
  obtain ⟨htaken, hnew⟩ := taken_of_fresh_eq hfresh
  have hothers : ∀ other ∈ names, other ∉ name :: S.taken := htaken ▸ h.notMem
  refine ⟨List.nodup_cons.mpr ⟨fun hmem => ?_, h.nodup⟩, ?_,
    .cons ⟨_, (congrArg Prod.snd hfresh).symm⟩ h.form, ?_, fun hS => h.covered (hname.covered hS)⟩
  · exact hothers name hmem (List.mem_cons_self ..)
  · rintro other (_ | ⟨_, hmem⟩)
    · exact hnew
    · exact fun hused => hothers other hmem (List.mem_cons_of_mem _ hused)
  · rw [h.taken, htaken, List.reverse_cons, List.append_assoc, List.singleton_append]

theorem supplies_freshAll : Supplies S hints (S.freshAll hints).2 (S.freshAll hints).1 := by
  induction hints generalizing S with
  | nil => exact .nil
  | cons hint hints ih => exact .cons (loop_iff.mpr rfl) ih

/-- As many names come into use as there are hints. -/
theorem Supplies.card_taken_le {U : NameSupply} (h : Supplies S hints names U) :
    U.taken.toFinset.card ≤ S.taken.toFinset.card + hints.length := by
  rw [h.taken, List.toFinset_append]
  calc (names.reverse.toFinset ∪ S.taken.toFinset).card
    _ ≤ names.reverse.toFinset.card + S.taken.toFinset.card := Finset.card_union_le ..
    _ ≤ names.reverse.length + S.taken.toFinset.card :=
      Nat.add_le_add_right (List.toFinset_card_le _) _
    _ = S.taken.toFinset.card + hints.length := by
      rw [List.length_reverse, h.form.length_eq, Nat.add_comm]

/-- **Fresh names**, for whatever hints and beside whatever names in use: every search for one ends;
the names differ from each other and from those in use before, and each is its hint with a number.
The counter, which every number that is tried adds one to, stays at most the number of names in use
at last. -/
theorem freshAll_distinct (taken hints : List String) : ∃ U names,
    (∀ result, Searches (ofTaken taken) hints result ↔ result = (U, names)) ∧
      (ofTaken taken).freshAll hints = (U, names) ∧
      names.Nodup ∧ (∀ name ∈ names, name ∉ taken) ∧
      List.Forall₂ (fun hint name => ∃ k, name = numbered hint k) hints names ∧
      U.counter ≤ taken.toFinset.card + hints.length := by
  have h : Supplies (ofTaken taken) hints _ _ := supplies_freshAll
  have hstart : (ofTaken taken).Covered := fun k hk hle =>
    absurd (Nat.lt_of_lt_of_le hk hle) (Nat.lt_irrefl 0)
  exact ⟨_, _, fun result => searches_iff, rfl, h.nodup, h.notMem, h.form,
    (h.covered hstart).counter_le.trans h.card_taken_le⟩

/-- Hints and names in use that look like fresh names. -/
example : ((ofTaken ["S#1", "S", "S#2#3"]).freshAll ["S", "S#2", "S"]).2 =
    ["S#2", "S#2#4", "S#5"] := by decide

end PathQuery.NameSupply
