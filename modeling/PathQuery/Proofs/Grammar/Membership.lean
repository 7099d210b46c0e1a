import PathQuery.Proofs.Grammar.Spans
import PathQuery.Proofs.Path.Joins

/-!
# Proofs/Grammar/Membership — the membership test decides derivation

* `Grammar.contains_iff_generates` — a word is found to be derived exactly where it is.
* `Grammar.contains_decides_derivation` — the rounds end, with the spans of the words that
  variables derive.

The positions of a word form a frame in which the only walk from the first to the last position
spells the word.  The spans that the test computes are the joins of this frame: they are sound
whatever productions have been applied (`Sound`), and once a round changes nothing they are closed
under the productions (`Saturated`), because then each production met the same spans.
-/

namespace PathQuery.Grammar

open BoolMatrix (Family)
open Production (bodies)

variable {g : Grammar} {word : List String} {n : Nat} {v t : String} {i j : Nat}

/-! ## The positions of a word -/

/-- The positions of a word, with an edge for each letter. -/
def positions (word : List String) : Frame Nat String where
  node i := i < word.length + 1
  edge i t j := word[i]? = some t ∧ j = i + 1
  source h := Nat.lt_succ_of_lt (List.getElem?_eq_some_iff.mp h.1).1

theorem walk_positions_drop (h : i ≤ word.length) :
    (positions word).Walk i (word.drop i) word.length := by
  induction hk : word.length - i generalizing i with
  | zero =>
    obtain rfl : i = word.length := by omega
    rw [List.drop_length]
    exact .nil (Nat.lt_succ_self _)
  | succ k ih =>
    have hlt : i < word.length := by omega
    rw [List.drop_eq_getElem_cons hlt]
    exact .cons ⟨List.getElem?_eq_getElem hlt, rfl⟩ (ih hlt (by omega))

/-- Walks to the last position spell what is left of the word. -/
theorem walk_positions_iff {w : List String} (h : i ≤ word.length) :
    (positions word).Walk i w word.length ↔ w = word.drop i := by
  constructor
  · intro hw
    generalize hk : word.length = k at hw
    induction hw with
    | nil _ => rw [← hk, List.drop_length]
    | @cons a b c t w hab _ ih =>
      obtain ⟨hlt, rfl⟩ := List.getElem?_eq_some_iff.mp hab.1
      obtain rfl := hab.2
      rw [List.drop_eq_getElem_cons hlt, ih hlt hk]
  · rintro rfl
    exact walk_positions_drop h

/-! ## Spans as links -/

theorem get_terminalSpans :
    (terminalSpans (word.length + 1) word t).get i j = true ↔ (positions word).edge i t j := by
  simp only [terminalSpans, BoolMatrix.get_ofEntries, List.mem_filterMap, Prod.exists,
    List.mk_mem_zipIdx_iff_getElem?, Option.ite_none_right_eq_some, Option.some.injEq,
    Prod.mk.injEq, positions]
  constructor
  · rintro ⟨⟨letter, k, hk, rfl, rfl, rfl⟩, -, -⟩
    exact ⟨hk, rfl⟩
  · rintro ⟨hk, rfl⟩
    have := (List.getElem?_eq_some_iff.mp hk).1
    exact ⟨⟨t, i, hk, rfl, rfl, rfl⟩, by omega, by omega⟩

variable {F : Family (word.length + 1)} {s : Progress (word.length + 1)} {p : Production}
  {body : List Symbol}

theorem links_cons_iff {x : Symbol} : Links (positions word) F.Has (x :: body) i j ↔
    ∃ k, (symbolMatrix word F x).get i k = true ∧ Links (positions word) F.Has body k j := by
  cases x with
  | terminal t => simp only [Links, symbolMatrix, get_terminalSpans]
  | nonterminal v => rfl

theorem get_bodyMatrix {M : BoolMatrix (word.length + 1) (word.length + 1)} :
    (bodyMatrix word F M body).get i j = true ↔
      ∃ k, M.get i k = true ∧ Links (positions word) F.Has body k j := by
  induction body generalizing M with
  | nil =>
    constructor
    · exact fun h => ⟨j, h, rfl, (BoolMatrix.lt_of_get h).2⟩
    · rintro ⟨k, h, rfl, -⟩
      exact h
  | cons x body ih =>
    have hmul : (∃ l, (M.mul (symbolMatrix word F x)).get i l = true ∧
        Links (positions word) F.Has body l j) ↔
          ∃ k, M.get i k = true ∧ Links (positions word) F.Has (x :: body) k j := by
      simp only [BoolMatrix.get_mul, links_cons_iff]
      constructor
      · rintro ⟨l, ⟨k, hk, hl⟩, hbody⟩
        exact ⟨k, hk, l, hl, hbody⟩
      · rintro ⟨k, hk, l, hl, hbody⟩
        exact ⟨l, ⟨k, hk, hl⟩, hbody⟩
    rw [← hmul, bodyMatrix]
    split
    · next hempty =>
      -- the product is taken no further, and nothing is linked behind it
      have hfalse := BoolMatrix.isEmpty_iff.mp hempty
      refine iff_of_false (hfalse i j) ?_
      rintro ⟨l, hl, -⟩
      exact hfalse i l hl
    · exact ih

/-- The spans of a body are the positions that it links. -/
theorem get_bodySpans : (s.bodySpans word p).get i j = true ↔
    Links (positions word) s.family.Has p.body i j := by
  rw [Progress.bodySpans, get_bodyMatrix]
  constructor
  · rintro ⟨k, hk, h⟩
    rw [(BoolMatrix.get_identity.mp hk).1]
    exact h
  · intro h
    have hi : i < word.length + 1 := by
      cases hbody : p.body with
      | nil => exact (hbody ▸ h).2
      | cons x body =>
        rw [hbody] at h
        obtain ⟨k, hk, -⟩ := links_cons_iff.mp h
        exact (BoolMatrix.lt_of_get hk).1
    exact ⟨i, BoolMatrix.get_identity.mpr ⟨rfl, hi⟩, h⟩

/-! ## Rounds -/

/-- Every span is a join. -/
def Sound (g : Grammar) (word : List String) (F : Family (word.length + 1)) : Prop :=
  ∀ v i j, F.Has v i j → JoinedBy (bodies g.productions) (positions word) v i j

/-- The spans are closed under some productions. -/
def Saturated (ps : List Production) (word : List String) (F : Family (word.length + 1)) : Prop :=
  ∀ p ∈ ps, ∀ i j, Links (positions word) F.Has p.body i j → F.Has p.head i j

theorem Sound.apply (hs : Sound g word s.family) (hp : p ∈ g.productions)
    (hhead : p.head ∈ s.family.names) : Sound g word (s.apply word p).family := by
  intro v i j h
  rcases (Progress.has_apply_iff hhead).mp h with hbefore | ⟨rfl, hbody⟩
  · exact hs v i j hbefore
  · refine joins_nonterminal_iff.mpr ⟨p.body, hp, joins_iff_links.mpr ?_⟩
    exact (get_bodySpans.mp hbody).mono hs

/-- **What applying some productions makes of the spans `F`**: sound ones still, and more of them if
anything has changed; if nothing has, all productions met `F` itself, which is closed under them. -/
structure Applied (g : Grammar) (ps : List Production) (F : Family (word.length + 1))
    (s : Progress (word.length + 1)) : Prop where
  names : s.family.names = F.names
  sound : Sound g word s.family
  changed : s.changed = true → F.count < s.family.count
  unchanged : s.changed = false → s.family = F ∧ Saturated ps word F

variable {ps : List Production}

/-- One more production is applied. -/
theorem Applied.apply (hF : F.names = g.nonterminals) (h : Applied g ps F s)
    (hp : p ∈ g.productions) : Applied g (ps ++ [p]) F (s.apply word p) := by
  have hnames : s.family.names = g.nonterminals := h.names.trans hF
  have hhead : p.head ∈ s.family.names := hnames ▸ (over_nonterminals p hp).head
  have hsound := h.sound.apply hp hhead
  rcases Progress.apply_cases (hnames ▸ nodup_nonterminals) hhead with ⟨heq, hbody⟩ | ⟨htrue, hlt⟩
  · rw [heq]
    refine ⟨h.names, h.sound, h.changed, fun hfalse => ?_⟩
    obtain ⟨hfamily, hsaturated⟩ := h.unchanged hfalse
    refine ⟨hfamily, fun q hq i j hlinks => ?_⟩
    rcases List.mem_append.mp hq with hq | hq
    · exact hsaturated q hq i j hlinks
    · rw [List.mem_singleton.mp hq] at hlinks ⊢
      exact hfamily ▸ hbody i j (get_bodySpans.mpr (hfamily ▸ hlinks))
  · have hle : F.count ≤ s.family.count := by
      cases hchanged : s.changed with
      | true => exact Nat.le_of_lt (h.changed hchanged)
      | false => exact Nat.le_of_eq (congrArg Family.count (h.unchanged hchanged).1.symm)
    refine ⟨Progress.names_apply.trans h.names, hsound, fun _ => Nat.lt_of_le_of_lt hle hlt, ?_⟩
    rw [htrue]
    exact nofun

/-- **A round** applies all productions. -/
theorem applied_round (hF : F.names = g.nonterminals) (hs : Sound g word F) :
    Applied g g.productions F (g.productions.foldl (Progress.apply word) ⟨F, false⟩) := by
  have hfold : ∀ (qs ps : List Production) (s : Progress (word.length + 1)),
      (∀ p ∈ qs, p ∈ g.productions) → Applied g ps F s →
        Applied g (ps ++ qs) F (qs.foldl (Progress.apply word) s) := by
    intro qs
    induction qs with
    | nil => exact fun ps s _ h => (List.append_nil ps).symm ▸ h
    | cons p qs ih =>
      intro ps s hqs h
      rw [List.append_cons]
      exact ih _ _ (fun q hq => hqs q (List.mem_cons_of_mem _ hq))
        (h.apply hF (hqs p (List.mem_cons_self ..)))
  refine hfold g.productions [] _ (fun p hp => hp) ⟨rfl, hs, nofun, fun _ => ⟨rfl, ?_⟩⟩
  exact fun p hp => absurd hp List.not_mem_nil

/-! ## The loop -/

/-- **The loop** without a bound on its rounds: it ends with the first round that adds nothing. -/
inductive Loop (g : Grammar) (word : List String) : MatrixTable → MatrixTable → Prop where
  | stop {T U : MatrixTable} :
      g.tryRound (word.length + 1) word T = .ok ⟨U, false⟩ → Loop g word T U
  | again {T U V : MatrixTable} :
      g.tryRound (word.length + 1) word T = .ok ⟨U, true⟩ → Loop g word U V → Loop g word T V

/-- **The rounds** are those of the loop, and end with saturated spans. -/
theorem tryRun_spec {bound : Nat} (hF : F.names = g.nonterminals) (hs : Sound g word F)
    (hbound : g.nonterminals.length * ((word.length + 1) * (word.length + 1)) < bound + F.count) :
    ∃ G : Family (word.length + 1), Loop g word F.table G.table ∧
      g.tryRun (word.length + 1) word bound F.table = .ok G.table ∧
      G.names = g.nonterminals ∧ Sound g word G ∧ Saturated g.productions word G := by
  induction bound generalizing F with
  | zero =>
    have heq := Family.eq_tabulate (F := F) (hF ▸ nodup_nonterminals)
    have hle := @Family.count_tabulate_le _ F.names F.get
    rw [← heq, hF] at hle
    omega
  | succ bound ih =>
    have hround := @tryRound_table g _ word F hF
    have h := applied_round hF hs
    generalize g.productions.foldl (Progress.apply word) ⟨F, false⟩ = s at hround h
    obtain ⟨G, changed⟩ := s
    have hrun : g.tryRun (word.length + 1) word (bound + 1) F.table =
        if changed then g.tryRun (word.length + 1) word bound G.table else .ok G.table := by
      rw [tryRun, hround]
      rfl
    cases changed with
    | false =>
      obtain ⟨rfl, hsaturated⟩ := h.unchanged rfl
      exact ⟨G, .stop hround, hrun, hF, hs, hsaturated⟩
    | true =>
      have hlt : F.count < G.count := h.changed rfl
      have hbound : g.nonterminals.length * ((word.length + 1) * (word.length + 1)) <
          bound + G.count := by omega
      obtain ⟨H, hloop, hrest, hH⟩ := ih (h.names.trans hF) h.sound hbound
      exact ⟨H, .again hround hloop, hrun.trans hrest, hH⟩

/-- **The spans** of the test are the joins, and the loop ends with them. -/
theorem exists_spans (g : Grammar) (word : List String) : ∃ F : Family (word.length + 1),
    Loop g word (g.noSpans (word.length + 1)) F.table ∧ g.trySpans word = .ok F.table ∧
      F.names = g.nonterminals ∧
      ∀ v i j, F.Has v i j ↔ JoinedBy (bodies g.productions) (positions word) v i j := by
  have hzero : Sound g word (.tabulate g.nonterminals fun _ => .zero _ _) := fun v i j h => by
    have := (Family.has_tabulate_iff.mp h).2
    rw [BoolMatrix.get_zero] at this
    cases this
  obtain ⟨F, hloop, hrun, hnames, hsound, hsaturated⟩ :=
    @tryRun_spec g word _ (g.nonterminals.length * (word.length + 1) * (word.length + 1) + 1)
      Family.names_tabulate hzero (by rw [Nat.mul_assoc]; omega)
  rw [Family.table_tabulate_const] at hloop hrun
  refine ⟨F, hloop, hrun, hnames, fun v i j => ⟨hsound v i j, fun h => ?_⟩⟩
  obtain ⟨k, hk, rfl, -⟩ := h.links fun v body a b hp => hsaturated ⟨v, body⟩ hp a b
  exact hk

/-- **Membership**: the test finds exactly the words that the start variable derives. -/
theorem contains_iff_generates {w : List String} : g.contains w = true ↔ g.Generates w := by
  obtain ⟨F, -, hspans, hnames, hhas⟩ := exists_spans g w
  have hstart : List.lookup g.start F.table = some (F.get g.start).shaped := by
    rw [lookup_table, Family.lookup_eq_some_get (hnames ▸ start_mem_nonterminals), Option.map_some]
  have hcontains : g.contains w = (F.get g.start).get 0 w.length := by
    rw [contains, hspans]
    dsimp only
    rw [hstart]
    rfl
  calc g.contains w = true
    _ ↔ F.Has g.start 0 w.length := by rw [hcontains, Family.Has]
    _ ↔ JoinedBy (bodies g.productions) (positions w) g.start 0 w.length := hhas ..
    _ ↔ ∃ w', g.Generates w' ∧ (positions w).Walk 0 w' w.length := joins_iff_exists_walk
    _ ↔ g.Generates w := by
      simp only [walk_positions_iff (Nat.zero_le _), List.drop_zero, exists_eq_right]

/-- **The membership test** ends, on every grammar and every word, and finds the words that the
start variable derives; a variable without productions derives none, and a normal form contains the
words that its rules derive. -/
theorem contains_decides_derivation (word : List String) :
    (∀ g : Grammar,
      (∃ T, Loop g word (g.noSpans (word.length + 1)) T ∧ g.trySpans word = .ok T) ∧
      (g.contains word = true ↔ g.Generates word) ∧
      ∀ v, g.defines v = false →
        ¬Derives (bodies g.productions) [.nonterminal v] word) ∧
    ∀ N : NormalGrammar, N.contains word = true ↔ N.Generates word := by
  refine ⟨fun g => ⟨?_, contains_iff_generates, fun v hv h => ?_⟩, fun N => ?_⟩
  · obtain ⟨F, hloop, hspans, -⟩ := exists_spans g word
    exact ⟨F.table, hloop, hspans⟩
  · obtain ⟨body, hbody, -⟩ := derives_nonterminal_iff.mp h
    have := List.any_eq_false.mp hv _ hbody
    simp at this
  · exact contains_iff_generates.trans generates_ofList_iff

end PathQuery.Grammar
