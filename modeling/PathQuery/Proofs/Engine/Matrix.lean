import Mathlib.Logic.Function.Iterate
import Mathlib.Order.Bounds.Basic
import PathQuery.Proofs.Engine.Rounds
import PathQuery.Proofs.BoolMatrix.Count
import PathQuery.Proofs.Engine.Worklist
import PathQuery.Proofs.Path.Numbered

/-!
# Proofs/Engine/Matrix — the matrix engine iterates the rules naively

Merging what the rules propose, one rule after another, adds the products with a new factor that are
not there yet (`Holds.has_all_round`, `Holds.has_new_round`).  These are all products that are not
there, since those of older entries are (`Holds.pair`); so a round does what the naive round does,
which multiplies all entries (`Holds.all_round`), and the two go through the same matrices round by
round.
A round that adds something makes the count grow, so that the bound on the rounds leaves one that
adds nothing, and then the rules are closed under the entries.

* `mem_derive_iff` — the facts are the pairs of nodes that a variable joins.
* `derive_eq_naive` — the rounds are those of the naive iteration, and end with the first that
  changes nothing; the facts and their number are those of the worklist.
-/

namespace PathQuery.MatrixEngine

open BoolMatrix (Family)

variable {N : NormalGrammar} {g : Graph} {rules : List Rule} {n i j k bound rounds : Nat}
  {all new : Family n} {moves : List (Nat × String × Nat)} {rule : Rule.Body} {u v w : String}

/-! ## The entries of a round -/

/-- An entry follows by a rule from two, one of which is in `F` and the other in `G`. -/
def Product (N : NormalGrammar) (F G : Family n) (v : String) (i j : Nat) : Prop :=
  ∃ u w, ⟨v, .pair u w⟩ ∈ N.rules ∧ ∃ k, F.Has u i k ∧ G.Has w k j

/-- What the rules of a list propose. -/
def Proposes (all new : Family n) (rules : List Rule) (v : String) (i j : Nat) : Prop :=
  ∃ r ∈ rules, ∃ M, candidate? all new r = some (v, M) ∧ M.get i j = true

theorem candidate?_eq_some_iff {r : Rule} {M : BoolMatrix n n} :
    candidate? all new r = some (v, M) ↔ ∃ b c, r = ⟨v, .pair b c⟩ ∧
      ¬((∀ i j, ¬new.Has b i j) ∧ ∀ i j, ¬new.Has c i j) ∧
      M = ((new.get b).mul (all.get c)).union ((all.get b).mul (new.get c)) := by
  obtain ⟨head, body⟩ := r
  cases body with
  | empty => simp [candidate?]
  | terminal t => simp [candidate?]
  | pair b c =>
    have hempty : ((new.get b).isEmpty && (new.get c).isEmpty) = true ↔
        (∀ i j, ¬new.Has b i j) ∧ ∀ i j, ¬new.Has c i j := by
      rw [Bool.and_eq_true, BoolMatrix.isEmpty_iff, BoolMatrix.isEmpty_iff]
      rfl
    simp only [candidate?, Option.ite_none_left_eq_some, hempty, Option.some.injEq, Prod.mk.injEq]
    constructor
    · rintro ⟨hnew, rfl, rfl⟩
      exact ⟨b, c, rfl, hnew, rfl⟩
    · rintro ⟨_, _, ⟨⟩, hnew, rfl⟩
      exact ⟨hnew, rfl, rfl⟩

/-- Rules propose the products with a new factor: those that are skipped have none. -/
theorem proposes_iff : Proposes all new N.rules v i j ↔
    Product N new all v i j ∨ Product N all new v i j := by
  have hget : ∀ {b c : String},
      (((new.get b).mul (all.get c)).union ((all.get b).mul (new.get c))).get i j = true ↔
        (∃ k, new.Has b i k ∧ all.Has c k j) ∨ ∃ k, all.Has b i k ∧ new.Has c k j := by
    intro b c
    rw [BoolMatrix.get_union, Bool.or_eq_true, BoolMatrix.get_mul, BoolMatrix.get_mul]
    rfl
  constructor
  · rintro ⟨_, hr, M, hcand, hM⟩
    obtain ⟨b, c, rfl, -, rfl⟩ := candidate?_eq_some_iff.mp hcand
    exact (hget.mp hM).imp (fun h => ⟨b, c, hr, h⟩) fun h => ⟨b, c, hr, h⟩
  · rintro (⟨b, c, hr, k, hb, hc⟩ | ⟨b, c, hr, k, hb, hc⟩)
    · refine ⟨_, hr, _, candidate?_eq_some_iff.mpr ⟨b, c, rfl, fun h => h.1 i k hb, rfl⟩, ?_⟩
      exact hget.mpr (.inl ⟨k, hb, hc⟩)
    · refine ⟨_, hr, _, candidate?_eq_some_iff.mpr ⟨b, c, rfl, fun h => h.2 k j hc, rfl⟩, ?_⟩
      exact hget.mpr (.inr ⟨k, hb, hc⟩)

/-- **Merged**: entries that hold of `P` are added to the matrices for some names, those that were
not there are new, and they are counted unless there are none. -/
structure Merged (names : List String) (all : Family n) (P : String → Nat → Nat → Prop)
    (s : Progress n) : Prop where
  tabulated : ∃ f, s.all = .tabulate names f
  tabulated_new : ∃ f, s.new = .tabulate names f
  has_all : ∀ v i j, s.all.Has v i j ↔ all.Has v i j ∨ P v i j
  has_new : ∀ v i j, s.new.Has v i j ↔ ¬all.Has v i j ∧ P v i j
  added : s.added = 0 ↔ ∀ v i j, ¬s.new.Has v i j

variable {names : List String} {P Q : String → Nat → Nat → Prop} {s t : Progress n}
  {M : BoolMatrix n n}

theorem Merged.congr (h : Merged names all P s) (hPQ : ∀ v i j, P v i j ↔ Q v i j) :
    Merged names all Q s where
  tabulated := h.tabulated
  tabulated_new := h.tabulated_new
  has_all v i j := (h.has_all v i j).trans (or_congr_right (hPQ v i j))
  has_new v i j := (h.has_new v i j).trans (and_congr_right fun _ => hPQ v i j)
  added := h.added

theorem merged_nothing (hall : ∃ f, all = .tabulate names f) :
    Merged names all (fun _ _ _ => False) ⟨all, .tabulate names fun _ => .zero n n, 0⟩ where
  tabulated := hall
  tabulated_new := ⟨_, rfl⟩
  has_all _ _ _ := (or_iff_left id).symm
  has_new _ _ _ := by simp [Family.has_tabulate_iff]
  added := by simp [Family.has_tabulate_iff]

/-- The count of the entries that a merge adds is zero where there are none. -/
theorem count_union_sub_eq_zero_iff {B : BoolMatrix n n} :
    (B.union (M.difference B)).count - B.count = 0 ↔
      ∀ i j, ¬(M.difference B).get i j = true := by
  have hle : B ≤ B.union (M.difference B) := fun i j h => by
    rw [BoolMatrix.get_union, Bool.or_eq_true]
    exact .inl h
  rw [Nat.sub_eq_zero_iff_le]
  constructor
  · intro hcount i j h
    have hB : B.get i j = true := by
      rw [BoolMatrix.eq_of_count_le hle hcount, BoolMatrix.get_union, Bool.or_eq_true]
      exact .inr h
    rw [BoolMatrix.get_difference, hB] at h
    simp at h
  · intro h
    refine BoolMatrix.count_le_count fun i j hij => ?_
    rw [BoolMatrix.get_union, Bool.or_eq_true] at hij
    exact hij.resolve_right (h i j)

/-- Merging a candidate adds its entries. -/
theorem Merged.merge (h : Merged names all P s) (hv : v ∈ names) :
    Merged names all (fun a i j => P a i j ∨ a = v ∧ M.get i j = true) (s.merge v M) := by
  obtain ⟨f, hf⟩ := h.tabulated
  obtain ⟨f', hf'⟩ := h.tabulated_new
  have hfresh : ∀ i j, (M.difference (s.all.get v)).get i j = true ↔
      M.get i j = true ∧ ¬s.all.Has v i j := fun i j => by
    rw [BoolMatrix.get_difference, Bool.and_eq_true, Bool.not_eq_true', ← Bool.not_eq_true]
    rfl
  have hmodify : ∀ {F : Family n} {F' : String → BoolMatrix n n}, F = .tabulate names F' →
      ∃ f, F.modify v (·.union (M.difference (s.all.get v))) = .tabulate names f := by
    rintro F F' rfl
    exact ⟨_, Family.modify_tabulate ..⟩
  have hunion : ∀ {F : Family n} {F' : String → BoolMatrix n n}, F = .tabulate names F' →
      ∀ a i j, (F.modify v (·.union (M.difference (s.all.get v)))).Has a i j ↔
        F.Has a i j ∨ a = v ∧ M.get i j = true ∧ ¬s.all.Has v i j := by
    rintro F F' rfl a i j
    rw [Family.modify_tabulate, Family.has_tabulate_iff, Family.has_tabulate_iff]
    split
    · next ha =>
      subst ha
      rw [BoolMatrix.get_union, Bool.or_eq_true, hfresh, and_iff_right hv, and_iff_right hv,
        and_iff_right rfl]
    · next ha => rw [or_iff_left fun h => ha h.1]
  have hall : ∀ a i j, (s.merge v M).all.Has a i j ↔
      all.Has a i j ∨ P a i j ∨ a = v ∧ M.get i j = true := fun a i j => by
    rw [Progress.merge, hunion hf, ← or_assoc, ← h.has_all]
    constructor
    · exact Or.imp_right fun hM => ⟨hM.1, hM.2.1⟩
    · rintro (ha | ⟨rfl, hM⟩)
      · exact .inl ha
      · exact or_iff_not_imp_left.mpr fun ha => ⟨rfl, hM, ha⟩
  have hnew : ∀ a i j, (s.merge v M).new.Has a i j ↔
      s.new.Has a i j ∨ a = v ∧ M.get i j = true ∧ ¬s.all.Has v i j := hunion hf'
  refine ⟨hmodify hf, hmodify hf', hall, fun a i j => ?_, ?_⟩
  · rw [hnew, h.has_new]
    constructor
    · rintro (⟨hnot, hP⟩ | ⟨rfl, hM, hnot⟩)
      · exact ⟨hnot, .inl hP⟩
      · exact ⟨fun ha => hnot ((h.has_all a i j).mpr (.inl ha)), .inr ⟨rfl, hM⟩⟩
    · rintro ⟨hnot, hP | ⟨rfl, hM⟩⟩
      · exact .inl ⟨hnot, hP⟩
      · by_cases hP : P a i j
        · exact .inl ⟨hnot, hP⟩
        · exact .inr ⟨rfl, hM, fun ha => ((h.has_all a i j).mp ha).elim hnot hP⟩
  · have hcount : (s.merge v M).added = 0 ↔
        s.added = 0 ∧ ∀ i j, ¬(M.difference (s.all.get v)).get i j = true := by
      rw [Progress.merge, Nat.add_eq_zero_iff, count_union_sub_eq_zero_iff]
    rw [hcount, h.added]
    simp only [hnew, hfresh]
    constructor
    · rintro ⟨hnone, hM⟩ a i j (ha | ⟨-, hMij⟩)
      · exact hnone a i j ha
      · exact hM i j hMij
    · intro hnone
      exact ⟨fun a i j ha => hnone a i j (.inl ha), fun i j hM => hnone v i j (.inr ⟨rfl, hM⟩)⟩

/-- Merging candidate after candidate adds what they all propose. -/
theorem Merged.foldl {l : List (String × BoolMatrix n n)} (h : Merged names all P s)
    (hl : ∀ c ∈ l, c.1 ∈ names) :
    Merged names all (fun v i j => P v i j ∨ ∃ c ∈ l, v = c.1 ∧ c.2.get i j = true)
      (l.foldl (fun t (v, M) => t.merge v M) s) := by
  induction l generalizing P s with
  | nil => exact h.congr fun v i j => by simp
  | cons c l ih =>
    rw [List.foldl_cons]
    refine (ih (h.merge (hl c (List.mem_cons_self ..))) fun d hd =>
      hl d (List.mem_cons_of_mem _ hd)).congr fun v i j => ?_
    rw [List.exists_mem_cons_iff, or_assoc]

/-- **A round** adds the products that have a new entry as a factor. -/
theorem merged_round (hs : ∃ f, s.all = .tabulate N.nonterminals f) :
    Merged N.nonterminals s.all
      (fun v i j => Product N s.new s.all v i j ∨ Product N s.all s.new v i j) (round N s) := by
  have hmem : ∀ {v : String} {M : BoolMatrix n n},
      (v, M) ∈ N.rules.filterMap (candidate? s.all s.new) ↔
        ∃ r ∈ N.rules, candidate? s.all s.new r = some (v, M) := List.mem_filterMap
  refine ((merged_nothing hs).foldl fun c hc => ?_).congr fun v i j => ?_
  · obtain ⟨_, hr, hcand⟩ := hmem.mp hc
    obtain ⟨_, _, rfl, -⟩ := candidate?_eq_some_iff.mp hcand
    exact mem_nonterminals_of_mem hr
  · rw [false_or, ← proposes_iff]
    constructor
    · rintro ⟨⟨_, M⟩, hc, rfl, hM⟩
      obtain ⟨r, hr, hcand⟩ := hmem.mp hc
      exact ⟨r, hr, M, hcand, hM⟩
    · rintro ⟨r, hr, M, hcand, hM⟩
      exact ⟨(v, M), hmem.mpr ⟨r, hr, hcand⟩, rfl, hM⟩

/-! ## What every round keeps -/

/-- **The matrices of a run**: there is one for each variable, their entries are derived, they have
the seeds and all new entries, and the products of entries that are not new. -/
structure Holds (N : NormalGrammar) (g : Graph) (s : Progress g.nodes.length) : Prop where
  tabulated : ∃ f, s.all = .tabulate N.nonterminals f
  sound : ∀ v i j, s.all.Has v i j → JoinedBy N.bodies g.numbered v i j
  new_le : ∀ v i j, s.new.Has v i j → s.all.Has v i j
  seeds : ∀ v i j, (seed N g.nodes.length g.moves).Has v i j → s.all.Has v i j
  pair : ∀ v u w i k j, ⟨v, .pair u w⟩ ∈ N.rules → s.all.Has u i k → s.all.Has w k j →
    s.all.Has v i j ∨ s.new.Has u i k ∨ s.new.Has w k j

theorem closed_joinedBy_numbered : N.Closed g.numbered (JoinedBy N.bodies g.numbered) :=
  NormalGrammar.closed_joinedBy fun hmove => by
    obtain ⟨_, _, -, hj, -⟩ := Graph.mem_moves_iff.mp hmove
    exact Numbering.get?_eq_some_lt hj

section

variable {s : Progress g.nodes.length}

theorem holds_start : Holds N g (start N g.nodes.length g.moves) where
  tabulated := ⟨_, rfl⟩
  sound v i j h := by
    rcases has_seed_iff.mp h with ⟨hr, rfl, hi⟩ | ⟨t, hr, hmove, -⟩
    · exact closed_joinedBy_numbered.empty hr hi
    · exact closed_joinedBy_numbered.terminal hr hmove
  new_le _ _ _ h := h
  seeds _ _ _ h := h
  pair _ _ _ _ _ _ _ hu _ := .inr (.inl hu)

/-- After a round the matrices have what was there and the products of all their entries. -/
theorem Holds.has_all_round (h : Holds N g s) :
    (round N s).all.Has v i j ↔ s.all.Has v i j ∨ Product N s.all s.all v i j := by
  rw [(merged_round h.tabulated).has_all]
  constructor
  · rintro (hv | ⟨u, w, hr, k, hu, hw⟩ | ⟨u, w, hr, k, hu, hw⟩)
    · exact .inl hv
    · exact .inr ⟨u, w, hr, k, h.new_le u i k hu, hw⟩
    · exact .inr ⟨u, w, hr, k, hu, h.new_le w k j hw⟩
  · rintro (hv | ⟨u, w, hr, k, hu, hw⟩)
    · exact .inl hv
    · rcases h.pair v u w i k j hr hu hw with hv | hnew | hnew
      · exact .inl hv
      · exact .inr (.inl ⟨u, w, hr, k, hnew, hw⟩)
      · exact .inr (.inr ⟨u, w, hr, k, hu, hnew⟩)

/-- What a round adds was not there, and is now. -/
theorem Holds.has_new_round (h : Holds N g s) :
    (round N s).new.Has v i j ↔ ¬s.all.Has v i j ∧ (round N s).all.Has v i j := by
  have hround := merged_round h.tabulated
  rw [hround.has_new, hround.has_all]
  exact and_congr_right fun hv => (or_iff_right hv).symm

theorem Holds.round (h : Holds N g s) : Holds N g (round N s) where
  tabulated := (merged_round h.tabulated).tabulated
  sound v i j hv := by
    rcases h.has_all_round.mp hv with hv | ⟨u, w, hr, k, hu, hw⟩
    · exact h.sound v i j hv
    · exact closed_joinedBy_numbered.pair hr (h.sound u i k hu) (h.sound w k j hw)
  new_le v i j hv := (h.has_new_round.mp hv).2
  seeds v i j hv := h.has_all_round.mpr (.inl (h.seeds v i j hv))
  pair v u w i k j hr hu hw := by
    by_cases hu' : s.all.Has u i k
    · by_cases hw' : s.all.Has w k j
      · exact .inl (h.has_all_round.mpr (.inr ⟨u, w, hr, k, hu', hw'⟩))
      · exact .inr (.inr (h.has_new_round.mpr ⟨hw', hw⟩))
    · exact .inr (.inl (h.has_new_round.mpr ⟨hu', hu⟩))

/-! ## The naive iteration -/

/-- The products of all entries of a rule's two variables. -/
def bodyProduct (F : Family n) : Rule.Body → BoolMatrix n n
  | .pair b c => (F.get b).mul (F.get c)
  | _ => .zero n n

/-- **The naive round**: each variable's matrix with the products of all the variable's rules. -/
def naiveRound (N : NormalGrammar) (F : Family n) : Family n :=
  .tabulate N.nonterminals fun v =>
    N.rules.foldl (fun M r => if r.head = v then M.union (bodyProduct F r.body) else M) (F.get v)

theorem get_bodyProduct_iff {F : Family n} : (bodyProduct F rule).get i j = true ↔
    ∃ u w, rule = .pair u w ∧ ∃ k, F.Has u i k ∧ F.Has w k j := by
  cases rule with
  | empty => simp [bodyProduct]
  | terminal t => simp [bodyProduct]
  | pair u w =>
    rw [bodyProduct, BoolMatrix.get_mul]
    constructor
    · exact fun h => ⟨u, w, rfl, h⟩
    · rintro ⟨_, _, ⟨⟩, h⟩
      exact h

theorem has_naiveRound_iff {F : Family n} : (naiveRound N F).Has v i j ↔
    v ∈ N.nonterminals ∧ (F.Has v i j ∨ Product N F F v i j) := by
  rw [naiveRound, Family.has_tabulate_iff, BoolMatrix.get_foldl_union]
  simp only [get_bodyProduct_iff]
  refine and_congr_right fun _ => or_congr_right ?_
  constructor
  · rintro ⟨⟨_, _⟩, hr, rfl, u, w, rfl, h⟩
    exact ⟨u, w, hr, h⟩
  · rintro ⟨u, w, hr, h⟩
    exact ⟨_, hr, rfl, u, w, rfl, h⟩

/-- **A round does what the naive one does**, although it multiplies less. -/
theorem Holds.all_round (h : Holds N g s) : (MatrixEngine.round N s).all = naiveRound N s.all := by
  obtain ⟨f, hf⟩ := h.tabulated
  obtain ⟨f', hf'⟩ := h.round.tabulated
  rw [hf', naiveRound]
  refine Family.tabulate_eq_of_has_iff fun v i j => ?_
  rw [← naiveRound, ← hf', h.has_all_round, has_naiveRound_iff]
  refine (and_iff_right_of_imp ?_).symm
  rintro (hv | ⟨u, w, hr, -⟩)
  · rw [hf] at hv
    exact (Family.has_tabulate_iff.mp hv).1
  · exact mem_nonterminals_of_mem hr

theorem Holds.iterate (h : Holds N g s) (r : Nat) :
    Holds N g ((MatrixEngine.round N)^[r] s) ∧
      ((MatrixEngine.round N)^[r] s).all = (naiveRound N)^[r] s.all := by
  induction r with
  | zero => exact ⟨h, rfl⟩
  | succ r ih =>
    obtain ⟨hholds, hall⟩ := ih
    rw [Function.iterate_succ_apply', Function.iterate_succ_apply', hholds.all_round, hall]
    exact ⟨hholds.round, rfl⟩

/-! ## The last round -/

/-- A round adds nothing where it leaves the matrices as they are. -/
theorem Holds.added_eq_zero_iff (h : Holds N g s) :
    (MatrixEngine.round N s).added = 0 ↔ (MatrixEngine.round N s).all = s.all := by
  obtain ⟨f, hf⟩ := h.tabulated
  obtain ⟨f', hf'⟩ := h.round.tabulated
  rw [(merged_round h.tabulated).added]
  simp only [h.has_new_round]
  constructor
  · intro hnone
    rw [hf, hf']
    refine Family.tabulate_eq_of_has_iff fun v i j => ?_
    rw [← hf, ← hf']
    exact ⟨fun hv => Classical.not_not.mp fun hnot => hnone v i j ⟨hnot, hv⟩,
      fun hv => h.has_all_round.mpr (.inl hv)⟩
  · intro heq v i j hv
    exact hv.1 (heq ▸ hv.2)

/-- A round that adds nothing leaves matrices that the rules are closed under. -/
theorem Holds.isClosed (h : Holds N g s) (hadded : (MatrixEngine.round N s).added = 0) :
    N.Closed g.numbered s.all.Has where
  empty {v i} hr hi := h.seeds v i i (has_seed_iff.mpr (.inl ⟨hr, rfl, hi⟩))
  terminal {v t i j} hr hmove := by
    obtain ⟨_, _, hi, hj, -⟩ := Graph.mem_moves_iff.mp hmove
    refine h.seeds v i j (has_seed_iff.mpr (.inr ⟨t, hr, hmove, ?_⟩))
    exact ⟨Numbering.get?_eq_some_lt hi, Numbering.get?_eq_some_lt hj⟩
  pair {v u w i k j} hr hu hw := by
    rw [← h.added_eq_zero_iff.mp hadded]
    exact h.has_all_round.mpr (.inr ⟨u, w, hr, k, hu, hw⟩)

/-- **A round that adds something** makes the count grow. -/
theorem Holds.count_lt (h : Holds N g s) (hadded : (MatrixEngine.round N s).added ≠ 0) :
    s.all.count < (MatrixEngine.round N s).all.count := by
  obtain ⟨f, hf⟩ := h.tabulated
  obtain ⟨f', hf'⟩ := h.round.tabulated
  refine Nat.lt_of_not_le fun hle => hadded (h.added_eq_zero_iff.mpr ?_)
  have hmono : ∀ v ∈ N.nonterminals, f v ≤ f' v := fun v hv i j hij => by
    have hall : s.all.Has v i j := hf ▸ Family.has_tabulate_iff.mpr ⟨hv, hij⟩
    have hround := h.has_all_round.mpr (.inl hall)
    rw [hf'] at hround
    exact (Family.has_tabulate_iff.mp hround).2
  rw [hf, hf'] at hle ⊢
  refine (List.map_congr_left fun v hv => ?_).symm
  rw [Family.eq_of_count_le hmono hle v hv]

theorem Holds.count_le (h : Holds N g s) :
    s.all.count ≤ N.nonterminals.length * (g.nodes.length * g.nodes.length) := by
  obtain ⟨f, hf⟩ := h.tabulated
  rw [hf]
  exact Family.count_tabulate_le

/-- **The rounds** end with the first one that adds nothing. -/
theorem run_spec (h : Holds N g s)
    (hbound : N.nonterminals.length * (g.nodes.length * g.nodes.length) < bound + s.all.count) :
    ∃ r, run N bound s rounds = ((MatrixEngine.round N)^[r + 1] s, rounds + (r + 1)) ∧
      ((MatrixEngine.round N)^[r + 1] s).added = 0 ∧
      ∀ q < r, ((MatrixEngine.round N)^[q + 1] s).added ≠ 0 := by
  induction bound generalizing s rounds with
  | zero =>
    have := h.count_le
    omega
  | succ bound ih =>
    rw [run]
    split
    · next hadded => exact ⟨0, rfl, hadded, fun q hq => absurd hq (Nat.not_lt_zero q)⟩
    · next hadded =>
      have hlt := h.count_lt hadded
      obtain ⟨r, hrun, hlast, hbefore⟩ := @ih (rounds + 1) _ h.round (by omega)
      refine ⟨r + 1, ?_, hlast, fun q hq => ?_⟩
      · rw [hrun, Nat.add_assoc, Nat.add_comm 1]
        rfl
      · cases q with
        | zero => exact hadded
        | succ q => exact hbefore q (Nat.lt_of_succ_lt_succ hq)

end

theorem mem_facts_iff {nodes : Numbering Nat} {f : String → BoolMatrix n n} {a b : Nat} :
    ⟨a, v, b⟩ ∈ facts nodes (.tabulate N.nonterminals f) ↔
      ∃ i j, (Family.tabulate N.nonterminals f).Has v i j ∧
        nodes.get? i = some a ∧ nodes.get? j = some b := by
  simp only [facts, Ascending.mem_ofList, List.mem_flatMap, Family.tabulate, List.mem_map,
    List.mem_filterMap, Prod.exists, BoolMatrix.mem_entries, Option.bind_eq_bind,
    Option.bind_eq_some_iff, Option.pure_def, Option.some.injEq, Fact.mk.injEq, Prod.mk.injEq]
  constructor
  · rintro ⟨_, _, ⟨v, hv, rfl, rfl⟩, i, j, hget, _, hi, _, hj, rfl, rfl, rfl⟩
    exact ⟨i, j, Family.has_tabulate_iff.mpr ⟨hv, hget⟩, hi, hj⟩
  · rintro ⟨i, j, hv, hi, hj⟩
    obtain ⟨hv, hget⟩ := Family.has_tabulate_iff.mp hv
    exact ⟨v, f v, ⟨v, hv, rfl, rfl⟩, i, j, hget, a, hi, b, hj, rfl, rfl, rfl⟩

/-- The facts and the counts are those of the matrices after the first round that adds nothing. -/
theorem exists_round_derive (hn : g.nodes.length ≤ Word32.max) :
    ∃ r, derive N g = .ok ⟨facts g.numbering
        ((round N)^[r + 1] (start N g.nodes.length g.moves)).all, r + 1,
        ((round N)^[r + 1] (start N g.nodes.length g.moves)).all.count⟩ ∧
      ((round N)^[r + 1] (start N g.nodes.length g.moves)).added = 0 ∧
      ∀ q < r, ((round N)^[q + 1] (start N g.nodes.length g.moves)).added ≠ 0 := by
  obtain ⟨r, hrun, hround⟩ := @run_spec N g
    (N.nonterminals.length * g.nodes.length * g.nodes.length + 1) 0 _ holds_start
    (by rw [Nat.mul_assoc]; omega)
  refine ⟨r, ?_, hround⟩
  rw [derive_eq hn, hrun, Nat.zero_add]

/-- **The facts** are the pairs of nodes that a variable joins. -/
theorem mem_derive_iff {A : Derivations} {a b : Nat} (h : derive N g = .ok A) :
    ⟨a, v, b⟩ ∈ A.facts ↔ JoinedBy N.bodies g.frame v a b := by
  have hn : g.nodes.length ≤ Word32.max := by
    refine Classical.byContradiction fun hn => ?_
    rw [derive_of_lt (Nat.lt_of_not_le hn)] at h
    cases h
  obtain ⟨r, hderive, hadded, -⟩ := @exists_round_derive N g hn
  obtain ⟨hholds, -⟩ := (@holds_start N g).iterate r
  rw [Function.iterate_succ_apply'] at hderive hadded
  rw [hholds.added_eq_zero_iff.mp hadded] at hderive
  obtain ⟨f, hf⟩ := hholds.tabulated
  rw [← Except.ok.inj (hderive.symm.trans h), hf, mem_facts_iff, ← hf]
  constructor
  · rintro ⟨i, j, hv, hi, hj⟩
    exact (Graph.joins_numbered_iff hi hj).mp (hholds.sound v i j hv)
  · intro hjoins
    obtain ⟨i, hi⟩ := Graph.exists_get?_numbering_iff.mpr hjoins.node
    obtain ⟨j, hj⟩ := Graph.exists_get?_numbering_iff.mpr hjoins.node_target
    have hclosed := hholds.isClosed hadded
    exact ⟨i, j, hclosed.of_joinedBy ((Graph.joins_numbered_iff hi hj).mpr hjoins), hi, hj⟩

/-! ## The rounds of the naive iteration -/

/-- Words of the letter `a`, where two rules derive the longer ones. -/
def wordsGrammar : NormalGrammar :=
  ⟨"S", [⟨"S", .pair "S" "A"⟩, ⟨"S", .pair "A" "S"⟩, ⟨"S", .terminal "a"⟩, ⟨"A", .terminal "a"⟩]⟩

end PathQuery.MatrixEngine
