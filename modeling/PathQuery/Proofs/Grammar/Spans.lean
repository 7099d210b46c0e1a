import PathQuery.Grammar.Membership
import PathQuery.Proofs.BoolMatrix.Table
import PathQuery.Proofs.Grammar.Basic

/-!
# Proofs/Grammar/Spans — the rounds of the membership test without checks

The matrices of a word all have one size, so no check of their shapes fails.  Over families of
matrices the rounds need no checks (`Progress.apply`), and those of the test do what these do
(`tryRound_table`).  An application that changes something lets the number of entries grow
(`Progress.apply_cases`).
-/

namespace PathQuery.Grammar

open BoolMatrix (Family)

variable {g : Grammar} {n : Nat} {word : List String} {F : Family n} {M : BoolMatrix n n}
  {x : Symbol} {body : List Symbol} {p : Production} {v : String} {i j : Nat}

/-! ## Rounds over matrices of one size -/

/-- The spans of a symbol, given those of the variables. -/
def symbolMatrix (word : List String) (F : Family n) : Symbol → BoolMatrix n n
  | .terminal t => terminalSpans n word t
  | .nonterminal v => F.get v

/-- A matrix times those of the symbols of a body, up to the first product without true entries. -/
def bodyMatrix (word : List String) (F : Family n) : BoolMatrix n n → List Symbol → BoolMatrix n n
  | M, [] => M
  | M, x :: body =>
    let N := M.mul (symbolMatrix word F x)
    if N.isEmpty then N else bodyMatrix word F N body

/-- What a round holds: the matrices of the variables, and whether the round has added an entry. -/
@[ext]
structure Progress (n : Nat) where
  family : Family n
  changed : Bool

/-- The spans of a body, as the matrices stand. -/
def Progress.bodySpans (word : List String) (s : Progress n) (p : Production) : BoolMatrix n n :=
  bodyMatrix word s.family (.identity n) p.body

/-- One application of a production. -/
def Progress.apply (word : List String) (s : Progress n) (p : Production) : Progress n :=
  let M := s.family.get p.head
  let U := M.union (s.bodySpans word p)
  ⟨s.family.modify p.head (·.union (s.bodySpans word p)),
    s.changed || decide (0 < U.count - M.count)⟩

/-- What a round holds, as a table. -/
def Progress.spans (s : Progress n) : Spans := ⟨s.family.table, s.changed⟩

/-! ## The rounds of the test -/

theorem lookup_table : List.lookup v F.table = (List.lookup v F).map BoolMatrix.shaped :=
  lookup_map (f := fun _ => BoolMatrix.shaped)

theorem symbolSpans_table : symbolSpans n word F.table x = (symbolMatrix word F x).shaped := by
  cases x with
  | terminal t => rfl
  | nonterminal v =>
    rw [symbolSpans, symbolMatrix, lookup_table, Family.get]
    cases List.lookup v F <;> rfl

theorem tryBodySpans_table :
    tryBodySpans n word F.table M.shaped body = .ok (bodyMatrix word F M body).shaped := by
  induction body generalizing M with
  | nil => rfl
  | cons x body ih =>
    rw [tryBodySpans, symbolSpans_table, BoolMatrix.multiply_shaped, bodyMatrix]
    show (if (M.mul (symbolMatrix word F x)).isEmpty then _ else _) = _
    split
    · rfl
    · exact ih

variable {s : Progress n}

theorem tryApply_spans (hs : s.family.names.Nodup) (hp : p.head ∈ s.family.names) :
    tryApply n word s.spans p = .ok (s.apply word p).spans := by
  have hlookup : List.lookup p.head s.spans.table = some (s.family.get p.head).shaped :=
    lookup_table.trans (congrArg _ (Family.lookup_eq_some_get hp))
  have hbody : tryBodySpans n word s.spans.table (BoolMatrix.identity n).shaped p.body =
      .ok (s.bodySpans word p).shaped := tryBodySpans_table
  have hunion : s.spans.table.tryUnion p.head (s.bodySpans word p).shaped = .ok _ :=
    Family.tryUnion_table hs hp
  simp only [tryApply, hlookup, hbody, hunion, bind, Except.bind]
  rfl

theorem nodup_nonterminals : g.nonterminals.Nodup :=
  Ascending.nodup_of_isAscending (Ascending.isAscending_ofList _)

@[simp] theorem Progress.names_apply : (s.apply word p).family.names = s.family.names := by
  rw [apply, Family.names_modify]

/-- **One round** of the test is one without checks. -/
theorem tryRound_table (hF : F.names = g.nonterminals) : g.tryRound n word F.table =
    .ok (g.productions.foldl (Progress.apply word) ⟨F, false⟩).spans := by
  have hstep : ∀ p ∈ g.productions, ∀ s : Progress n, s.family.names = g.nonterminals →
      tryApply n word s.spans p = .ok (s.apply word p).spans ∧
        (s.apply word p).family.names = g.nonterminals := fun p hp s hs =>
    ⟨tryApply_spans (hs ▸ nodup_nonterminals) (hs ▸ (over_nonterminals p hp).head),
      Progress.names_apply.trans hs⟩
  exact (foldlM_eq_ok (c := ⟨F, false⟩) hstep hF).1

/-! ## What an application adds -/

theorem Progress.has_apply_iff (hp : p.head ∈ s.family.names) : (s.apply word p).family.Has v i j ↔
    s.family.Has v i j ∨ v = p.head ∧ (s.bodySpans word p).get i j = true := by
  rw [Family.Has, apply, Family.get_modify hp]
  split
  · next h =>
    subst h
    rw [BoolMatrix.get_union, Bool.or_eq_true]
    exact or_congr_right (and_iff_right rfl).symm
  · next h => exact (or_iff_left fun hv => h hv.1).symm

/-- **Applications**: either nothing changes, since all spans of the body are there, or the number
of entries grows. -/
theorem Progress.apply_cases (hs : s.family.names.Nodup) (hp : p.head ∈ s.family.names) :
    (s.apply word p = s ∧
      ∀ i j, (s.bodySpans word p).get i j = true → s.family.Has p.head i j) ∨
    (s.apply word p).changed = true ∧ s.family.count < (s.apply word p).family.count := by
  have hhas : ∀ v i j, s.family.Has v i j → (s.apply word p).family.Has v i j := fun v i j h =>
    (has_apply_iff hp).mpr (.inl h)
  have hchanged : (s.apply word p).changed = (s.changed ||
      decide (0 < ((s.apply word p).family.get p.head).count - (s.family.get p.head).count)) := by
    simp only [apply, Family.get_modify hp, if_true]
  by_cases hgrow : (s.family.get p.head).count < ((s.apply word p).family.get p.head).count
  · refine .inr ⟨?_, Nat.lt_of_not_le fun hle => ?_⟩
    · rw [hchanged, decide_eq_true (Nat.sub_pos_of_lt hgrow), Bool.or_true]
    · rw [← Family.eq_of_has_of_count_le hs names_apply hhas hle] at hgrow
      exact Nat.lt_irrefl _ hgrow
  · have hle := Nat.le_of_not_lt hgrow
    have hbody : ∀ i j, (s.bodySpans word p).get i j = true → s.family.Has p.head i j :=
      fun i j hij => BoolMatrix.get_of_count_le (hhas p.head) hle
        ((has_apply_iff hp).mpr (.inr ⟨rfl, hij⟩))
    have hfamily : s.family = (s.apply word p).family :=
      Family.ext_has hs names_apply fun v i j => by
        rw [has_apply_iff hp]
        exact (or_iff_left_of_imp fun hv => hv.1 ▸ hbody i j hv.2).symm
    rw [Nat.sub_eq_zero_of_le hle, decide_eq_false (Nat.lt_irrefl 0), Bool.or_false] at hchanged
    exact .inl ⟨Progress.ext hfamily.symm hchanged, hbody⟩

end PathQuery.Grammar
