import PathQuery.Engine.Matrix
import PathQuery.Proofs.BoolMatrix.Table
import PathQuery.Proofs.Path.Numbered

/-!
# Proofs/Engine/Rounds — the rounds of the matrix engine without checks

The matrices of a run all have the size of the graph, so no check of their shapes fails. Over
families of matrices of one size the rounds need no checks (`round`), and those of the engine do
what these do (`tryRound_tables`, `tryRun_tables`).

* `derive_eq` — the engine's facts and counts are those of the rounds without checks.
-/

namespace PathQuery.MatrixEngine

open BoolMatrix (Family)

variable {N : NormalGrammar} {g : Graph} {n i j bound rounds : Nat} {all new F : Family n}
  {moves : List (Nat × String × Nat)} {rule : Rule.Body} {u v : String}

/-! ## Rounds over matrices of one size -/

/-- The matrix of the edges with a label, given all edges with the numbers of their ends. -/
def edgeMatrix (n : Nat) (moves : List (Nat × String × Nat)) (label : String) : BoolMatrix n n :=
  .ofEntries n n (moves.filterMap fun (i, s, j) => if s = label then some (i, j) else none)

/-- The matrix of the facts of a rule without variables in its body. -/
def seedMatrix (n : Nat) (moves : List (Nat × String × Nat)) : Rule.Body → BoolMatrix n n
  | .empty => .identity n
  | .terminal t => edgeMatrix n moves t
  | .pair _ _ => .zero n n

/-- The matrices of the facts of rules without variables in their bodies. -/
def seed (N : NormalGrammar) (n : Nat) (moves : List (Nat × String × Nat)) : Family n :=
  .tabulate N.nonterminals fun v =>
    N.rules.foldl (fun M r => if r.head = v then M.union (seedMatrix n moves r.body) else M)
      (.zero n n)

/-- What the rounds hold: the matrices, those of the entries that the last round added, and the
number of these entries. -/
structure Progress (n : Nat) where
  all : Family n
  new : Family n
  added : Nat

/-- What a rule with two variables proposes for its head: the products that have a new entry as a
factor. Where neither variable has a new entry, nothing is multiplied. -/
def candidate? (all new : Family n) (r : Rule) : Option (String × BoolMatrix n n) :=
  match r.body with
  | .pair b c =>
    if (new.get b).isEmpty && (new.get c).isEmpty then none
    else
      some (r.head, ((new.get b).mul (all.get c)).union ((all.get b).mul (new.get c)))
  | _ => none

/-- Adds those proposed entries of a variable that are not there. -/
def Progress.merge (s : Progress n) (v : String) (M : BoolMatrix n n) : Progress n :=
  let before := s.all.get v
  let fresh := M.difference before
  { all := s.all.modify v (·.union fresh)
    new := s.new.modify v (·.union fresh)
    added := s.added + ((before.union fresh).count - before.count) }

/-- One round: all rules propose entries by what was there before it, and then these are added, rule
after rule. -/
def round (N : NormalGrammar) (s : Progress n) : Progress n :=
  (N.rules.filterMap (candidate? s.all s.new)).foldl (fun t (v, M) => t.merge v M)
    ⟨s.all, .tabulate N.nonterminals fun _ => .zero n n, 0⟩

/-- Runs rounds until one adds nothing, at most the given number of them: what they hold in the end,
and the number of rounds it took. -/
def run (N : NormalGrammar) : Nat → Progress n → Nat → Progress n × Nat
  | 0, s, rounds => (s, rounds)
  | bound + 1, s, rounds =>
    let s := round N s
    if s.added = 0 then (s, rounds + 1) else run N bound s (rounds + 1)

/-- Before the first round the seeds are there, all of them new. -/
def start (N : NormalGrammar) (n : Nat) (moves : List (Nat × String × Nat)) : Progress n :=
  let F := seed N n moves
  ⟨F, F, F.count⟩

/-- The facts that matrices over numbered nodes hold. -/
def facts (nodes : Numbering Nat) (F : Family n) : List Fact :=
  Ascending.ofList (F.flatMap fun (v, M) => M.entries.filterMap fun (i, j) => do
    return ⟨← nodes.get? i, v, ← nodes.get? j⟩)

/-! ## Seeds -/

theorem get_seedMatrix_iff : (seedMatrix n moves rule).get i j = true ↔
    (rule = .empty ∧ i = j ∧ i < n) ∨
      ∃ t, rule = .terminal t ∧ (i, t, j) ∈ moves ∧ i < n ∧ j < n := by
  cases rule with
  | empty => simp [seedMatrix, BoolMatrix.get_identity]
  | terminal t =>
    simp only [seedMatrix, edgeMatrix, BoolMatrix.get_ofEntries, List.mem_filterMap, Prod.exists,
      Option.ite_none_right_eq_some, Option.some.injEq, Prod.mk.injEq]
    constructor
    · rintro ⟨⟨_, _, _, hmove, rfl, rfl, rfl⟩, hi, hj⟩
      exact .inr ⟨_, rfl, hmove, hi, hj⟩
    · rintro (⟨⟨⟩, -⟩ | ⟨_, ⟨⟩, hmove, hi, hj⟩)
      exact ⟨⟨i, t, j, hmove, rfl, rfl, rfl⟩, hi, hj⟩
  | pair u w => simp [seedMatrix]

theorem mem_nonterminals_of_mem {r : Rule} (hr : r ∈ N.rules) : r.head ∈ N.nonterminals := by
  refine Ascending.mem_ofList.mpr (List.mem_cons_of_mem _ (List.mem_flatMap.mpr ⟨r, hr, ?_⟩))
  rw [Rule.nonterminals]
  split <;> exact List.mem_cons_self ..

/-- The seeds are the facts of rules without variables. -/
theorem has_seed_iff : (seed N n moves).Has v i j ↔ (⟨v, .empty⟩ ∈ N.rules ∧ i = j ∧ i < n) ∨
    ∃ t, ⟨v, .terminal t⟩ ∈ N.rules ∧ (i, t, j) ∈ moves ∧ i < n ∧ j < n := by
  rw [seed, Family.has_tabulate_iff, BoolMatrix.get_foldl_union, BoolMatrix.get_zero,
    or_iff_right Bool.false_ne_true]
  simp only [get_seedMatrix_iff]
  constructor
  · rintro ⟨-, ⟨_, _⟩, hr, rfl, ⟨rfl, h⟩ | ⟨t, rfl, h⟩⟩
    · exact .inl ⟨hr, h⟩
    · exact .inr ⟨t, hr, h⟩
  · rintro (⟨hr, h⟩ | ⟨t, hr, h⟩)
    · exact ⟨mem_nonterminals_of_mem hr, _, hr, rfl, .inl ⟨rfl, h⟩⟩
    · exact ⟨mem_nonterminals_of_mem hr, _, hr, rfl, .inr ⟨t, rfl, h⟩⟩

/-- The variables of the rules are variables of the grammar. -/
theorem pair_mem_nonterminals {r : Rule} (hr : r ∈ N.rules) (hbody : r.body = .pair u v) :
    u ∈ N.nonterminals ∧ v ∈ N.nonterminals := by
  have hmem : ∀ x ∈ r.nonterminals, x ∈ N.nonterminals := fun x hx =>
    Ascending.mem_ofList.mpr (List.mem_cons_of_mem _ (List.mem_flatMap.mpr ⟨r, hr, hx⟩))
  simp only [Rule.nonterminals, hbody] at hmem
  exact ⟨hmem u (by simp), hmem v (by simp)⟩

theorem nodup_nonterminals : N.nonterminals.Nodup :=
  Ascending.nodup_of_isAscending (Ascending.isAscending_ofList _)

/-! ## The seeds of the engine -/

theorem adds_tryAddEdge {e : Nat × String × Nat} (hF : F.names = N.nonterminals) (hi : e.1 < n)
    (hj : e.2.2 < n) : F.Adds (tryAddEdge N F.table e) fun v i j =>
      ⟨v, .terminal e.2.1⟩ ∈ N.rules ∧ i = e.1 ∧ j = e.2.2 := by
  refine (Family.adds_foldlM fun r hr G hG => Family.adds_ite fun _ =>
    Family.adds_trySet ?_ ?_ hi hj).congr fun v i j => ?_
  · exact hG.trans hF ▸ nodup_nonterminals
  · exact hG.trans hF ▸ mem_nonterminals_of_mem hr
  · constructor
    · rintro ⟨⟨head, body⟩, hr, rfl, rfl, h⟩
      exact ⟨hr, h⟩
    · rintro ⟨hr, h⟩
      exact ⟨_, hr, rfl, rfl, h⟩

theorem adds_tryAddEmpty {M : BoolMatrix n n} (hF : F.names = N.nonterminals) :
    F.Adds (tryAddEmpty N F.table M.shaped) fun v i j =>
      ⟨v, .empty⟩ ∈ N.rules ∧ M.get i j = true := by
  refine (Family.adds_foldlM fun r hr G hG => Family.adds_ite fun _ =>
    Family.adds_tryUnion ?_ ?_).congr fun v i j => ?_
  · exact hG.trans hF ▸ nodup_nonterminals
  · exact hG.trans hF ▸ mem_nonterminals_of_mem hr
  · constructor
    · rintro ⟨⟨head, body⟩, hr, rfl, rfl, h⟩
      exact ⟨hr, h⟩
    · rintro ⟨hr, h⟩
      exact ⟨_, hr, rfl, rfl, h⟩

/-- **The seeds** of the engine, which are filled in edge by edge. -/
theorem trySeed_eq (hn : n ≤ Word32.max) (hmoves : ∀ e ∈ moves, e.1 < n ∧ e.2.2 < n) :
    trySeed N n moves = .ok (seed N n moves).table := by
  obtain ⟨F, hF, hedges, hhas⟩ := @Family.adds_foldlM n
    (.tabulate N.nonterminals fun _ => .zero n n) _ moves _ _ fun e he G hG =>
      adds_tryAddEdge (hG.trans Family.names_tabulate) (hmoves e he).1 (hmoves e he).2
  rw [Family.names_tabulate] at hF
  obtain ⟨F', hF', hempty, hhas'⟩ := @adds_tryAddEmpty N n F (.identity n) hF
  have hseed : F' = seed N n moves := by
    refine Family.ext_has (hF'.trans hF ▸ nodup_nonterminals) ?_ fun v i j => ?_
    · rw [hF', hF, seed, Family.names_tabulate]
    · simp only [has_seed_iff, hhas', hhas, Family.has_tabulate_iff, BoolMatrix.get_identity]
      constructor
      · rintro ((⟨-, h⟩ | ⟨e, he, hr, rfl, rfl⟩) | h)
        · simp at h
        · exact .inr ⟨e.2.1, hr, he, hmoves e he⟩
        · exact .inl h
      · rintro (h | ⟨t, hr, he, -⟩)
        · exact .inr h
        · exact .inl (.inr ⟨_, he, hr, rfl, rfl⟩)
  rw [Family.table_tabulate_const] at hedges
  rw [← hseed, trySeed, BoolMatrix.tryZero_eq hn, BoolMatrix.tryIdentity_eq hn]
  simp only [bind, Except.bind, hedges, hempty]

/-! ## The rounds of the engine -/

/-- What the rounds hold, as tables. -/
def Progress.tables (s : Progress n) : Tables := ⟨s.all.table, s.new.table, s.added⟩

variable {s : Progress n}

/-- The matrices are those of some variables. -/
def Progress.Lists (s : Progress n) (l : List String) : Prop := s.all.names = l ∧ s.new.names = l

theorem tryCandidate_table {r : Rule} (hr : r ∈ N.rules) (hall : all.names = N.nonterminals)
    (hnew : new.names = N.nonterminals) : tryCandidate all.table new.table r =
      .ok ((candidate? all new r).map fun (v, M) => (v, M.shaped)) := by
  rw [tryCandidate, candidate?]
  cases hbody : r.body with
  | empty => rfl
  | terminal t => rfl
  | pair b c =>
    obtain ⟨hb, hc⟩ := pair_mem_nonterminals hr hbody
    have hget : ∀ {F : Family n} {v}, F.names = N.nonterminals → v ∈ N.nonterminals →
        F.table.tryGet v = .ok (F.get v).shaped := fun hF hv => Family.tryGet_table (hF ▸ hv)
    simp only [hget hnew hb, hget hnew hc, hget hall hb, hget hall hc, bind, Except.bind,
      BoolMatrix.multiply_shaped, BoolMatrix.union_shaped, BoolMatrix.isEmpty_shaped]
    cases (new.get b).isEmpty && (new.get c).isEmpty <;> rfl

theorem tryMerge_tables {l : List String} {M : BoolMatrix n n} (hl : l.Nodup) (hs : s.Lists l)
    (hv : v ∈ l) : s.tables.tryMerge v M.shaped = .ok (s.merge v M).tables := by
  obtain ⟨hall, hnew⟩ := hs
  have hget : s.tables.all.tryGet v = .ok (s.all.get v).shaped := Family.tryGet_table (hall ▸ hv)
  have hunion : ∀ {F : Family n} {M : BoolMatrix n n}, F.names = l → F.table.tryUnion v M.shaped =
      .ok ((F.modify v (·.union M)).table, ((F.get v).union M).count - (F.get v).count) :=
    fun hF => Family.tryUnion_table (hF ▸ hl) (hF ▸ hv)
  rw [Tables.tryMerge, hget]
  simp only [bind, Except.bind, BoolMatrix.difference_shaped, Progress.tables, hunion hall,
    hunion hnew]
  rfl

theorem Progress.Lists.merge {l : List String} {M : BoolMatrix n n} (hs : s.Lists l) :
    (s.merge v M).Lists l := by
  rw [Progress.Lists, Progress.merge, Family.names_modify, Family.names_modify]
  exact hs

/-- Merging candidate after candidate. -/
theorem foldlM_tryMerge_tables {l : List String} {candidates : List (String × BoolMatrix n n)}
    (hl : l.Nodup) (hs : s.Lists l) (hmem : ∀ c ∈ candidates, c.1 ∈ l) :
    (candidates.map fun (v, M) => (v, M.shaped)).foldlM (fun t (v, M) => t.tryMerge v M) s.tables =
        .ok (candidates.foldl (fun t (v, M) => t.merge v M) s).tables ∧
      (candidates.foldl (fun t (v, M) => t.merge v M) s).Lists l := by
  rw [List.foldlM_map]
  refine foldlM_eq_ok (e := Progress.tables) (I := fun t => t.Lists l) (fun c hc t ht => ?_) hs
  exact ⟨tryMerge_tables hl ht (hmem c hc), ht.merge⟩

theorem mem_nonterminals_of_candidate? {M : BoolMatrix n n} {r : Rule} (hr : r ∈ N.rules)
    (h : candidate? all new r = some (v, M)) : v ∈ N.nonterminals := by
  rw [candidate?] at h
  split at h
  · split at h
    · cases h
    · cases h
      exact mem_nonterminals_of_mem hr
  · cases h

/-- **A round** of the engine is one without checks. -/
theorem tryRound_tables (hn : n ≤ Word32.max) (hs : s.Lists N.nonterminals) :
    tryRound N n s.tables = .ok (round N s).tables ∧ (round N s).Lists N.nonterminals := by
  have hcandidates : N.rules.mapM (tryCandidate s.tables.all s.tables.new) =
      .ok (N.rules.map fun r => (candidate? s.all s.new r).map fun (v, M) => (v, M.shaped)) :=
    mapM_eq_ok fun r hr => tryCandidate_table hr hs.1 hs.2
  have hzero : (⟨s.tables.all, MatrixTable.const N.nonterminals (BoolMatrix.zero n n).shaped, 0⟩ :
      Tables) = Progress.tables ⟨s.all, .tabulate N.nonterminals fun _ => .zero n n, 0⟩ := by
    rw [← Family.table_tabulate_const]
    rfl
  have hproposed : ((N.rules.map fun r =>
      (candidate? s.all s.new r).map fun (v, M) => (v, M.shaped)).filterMap id) =
        (N.rules.filterMap (candidate? s.all s.new)).map fun (v, M) => (v, M.shaped) := by
    rw [List.filterMap_map, List.map_filterMap]
    rfl
  obtain ⟨hmerge, hlists⟩ := @foldlM_tryMerge_tables n
    ⟨s.all, .tabulate N.nonterminals fun _ => .zero n n, 0⟩ N.nonterminals
    (N.rules.filterMap (candidate? s.all s.new)) nodup_nonterminals
    ⟨hs.1, Family.names_tabulate⟩ fun c hc => by
      obtain ⟨r, hr, hcand⟩ := List.mem_filterMap.mp hc
      exact mem_nonterminals_of_candidate? hr hcand
  refine ⟨?_, hlists⟩
  rw [tryRound, hcandidates, BoolMatrix.tryZero_eq hn]
  simp only [bind, Except.bind, hzero, hproposed]
  exact hmerge

/-- **The rounds** of the engine are those without checks. -/
theorem tryRun_tables (hn : n ≤ Word32.max) (hs : s.Lists N.nonterminals) :
    tryRun N n bound s.tables rounds =
      .ok ((run N bound s rounds).1.tables, (run N bound s rounds).2) := by
  induction bound generalizing s rounds with
  | zero => rfl
  | succ bound ih =>
    obtain ⟨hround, hlists⟩ := tryRound_tables hn hs
    rw [tryRun, run, hround]
    simp only [bind, Except.bind]
    by_cases hadded : (round N s).added = 0
    · rw [if_pos hadded]
      exact if_pos hadded
    · rw [if_neg hadded]
      exact (if_neg hadded).trans (ih hlists)

/-! ## The facts of the engine -/

theorem factsOfEntries_table {nodes : Numbering Nat} :
    factsOfEntries nodes (F.table.map fun (v, M) => (v, M.matrix.entries)) = facts nodes F := by
  rw [factsOfEntries, Family.table, List.map_map, List.flatMap_map]
  rfl

theorem lt_of_mem_moves : ∀ e ∈ g.moves, e.1 < g.nodes.length ∧ e.2.2 < g.nodes.length := by
  intro e he
  obtain ⟨_, _, hi, hj, -⟩ := Graph.mem_moves_iff.mp he
  exact ⟨Numbering.get?_eq_some_lt hi, Numbering.get?_eq_some_lt hj⟩

theorem tables_start : (start N n moves).tables =
    ⟨(seed N n moves).table, (seed N n moves).table, (seed N n moves).table.count⟩ := by
  rw [Family.count_table]
  rfl

theorem lists_start : (start N n moves).Lists N.nonterminals := by
  have hnames : (seed N n moves).names = N.nonterminals := Family.names_tabulate
  exact ⟨hnames, hnames⟩

/-- **No check fails**: the engine's facts and counts are those of the rounds without checks. -/
theorem derive_eq (hn : g.nodes.length ≤ Word32.max) : derive N g =
    (let (s, rounds) := run N (N.nonterminals.length * g.nodes.length * g.nodes.length + 1)
      (start N g.nodes.length g.moves) 0
    .ok ⟨facts g.numbering s.all, rounds, s.all.count⟩) := by
  rw [derive, trySeed_eq hn lt_of_mem_moves]
  simp only [bind, Except.bind, ← tables_start, tryRun_tables hn lists_start]
  rw [Progress.tables, factsOfEntries_table, Family.count_table]
  rfl

theorem derive_of_lt (hn : Word32.max < g.nodes.length) : derive N g =
    .error (.dimensionMismatch (g.nodes.length, g.nodes.length) ShapedMatrix.limit) := by
  have hfits : ShapedMatrix.fits g.nodes.length g.nodes.length = false := by
    simp [ShapedMatrix.fits, hn]
  rw [derive, trySeed, ShapedMatrix.tryZero, hfits]
  rfl

end PathQuery.MatrixEngine
