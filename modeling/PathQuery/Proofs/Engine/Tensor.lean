import PathQuery.Proofs.Engine.Calls
import PathQuery.Proofs.Engine.Fact
import PathQuery.Proofs.Path.Numbered

/-!
# Proofs/Engine/Tensor — the tensor engine finds the least relation

A path of the product from a start to a final state of a box is a walk of the box beside a walk of
the graph, whose calls are moves that earlier rounds added.  So each move that is added joins its
ends in the graph (`Holds`), and a graph to which a round adds nothing has all of them
(`Holds.moves_call_iff`).  The rounds end on a count: the paths of one round are among those of the
next, and where the next has no more of them there is none that it could add (`Follows.saturated`).

* `mem_derive_iff` — the facts are the pairs of nodes that a box joins.
* `derive_least` — they are the least relation that the boxes are closed under.
-/

namespace PathQuery.Tensor

open Machine (Label)

variable {m : Machine} {g : Graph} {G : Automaton Nat} {paths : List (Nat × Nat)}
  {s name v : String} {body : List Symbol} {w : List String} {bound rounds c d i j k n : Nat}
  {last : Option Nat}

/-! ## The moves of a round -/

/-- A path adds a call where it crosses a box. -/
theorem callMove?_eq_some_iff :
    callMove? m.toAutomaton m.names n c d = some (i, name, j) ↔
      m.Crosses name (c / n) (d / n) ∧ i = c % n ∧ j = d % n := callMove?_iff_passes

theorem states_addCalls : (addCalls m.toAutomaton m.names paths G).states = G.states := by
  obtain ⟨matrices, h⟩ := @exists_addCalls_eq m.toAutomaton m.names G paths
  rw [h]

/-- One of the paths adds a move. -/
def Adds (m : Machine) (G : Automaton Nat) (paths : List (Nat × Nat)) (s : String) (i j : Nat) :
    Prop :=
  ∃ c d name, (c, d) ∈ paths ∧
    callMove? m.toAutomaton m.names G.numStates c d = some (i, name, j) ∧
      s = (Label.call name).key ∧ i < G.numStates ∧ j < G.numStates

theorem adds_cons_iff : Adds m G ((c, d) :: paths) s i j ↔
    (∃ name, callMove? m.toAutomaton m.names G.numStates c d = some (i, name, j) ∧
      s = (Label.call name).key ∧ i < G.numStates ∧ j < G.numStates) ∨ Adds m G paths s i j := by
  constructor
  · rintro ⟨c', d', name, hmem, h⟩
    rcases List.mem_cons.mp hmem with heq | hmem
    · cases heq
      exact .inl ⟨name, h⟩
    · exact .inr ⟨c', d', name, hmem, h⟩
  · rintro (⟨name, h⟩ | ⟨c', d', name, hmem, h⟩)
    · exact ⟨c, d, name, List.mem_cons_self .., h⟩
    · exact ⟨c', d', name, List.mem_cons_of_mem _ hmem, h⟩

/-- The moves after a round: those before it and the calls of its paths. -/
theorem moves_addCalls_iff : (addCalls m.toAutomaton m.names paths G).Moves s i j ↔
    G.Moves s i j ∨ Adds m G paths s i j := by
  induction paths generalizing G with
  | nil =>
    refine (or_iff_left ?_).symm
    rintro ⟨c, d, name, hmem, -⟩
    exact List.not_mem_nil hmem
  | cons e paths ih =>
    obtain ⟨c, d⟩ := e
    rw [adds_cons_iff]
    cases hcall : callMove? m.toAutomaton m.names G.numStates c d with
    | none =>
      rw [addCalls_cons_of_eq_none hcall, ih, or_iff_right (a := ∃ _, _) (by simp)]
    | some move =>
      obtain ⟨i', name', j'⟩ := move
      rw [addCalls_cons_of_eq_some hcall, ih, Automaton.moves_addMove_iff, or_assoc]
      refine or_congr_right (or_congr_left ⟨?_, ?_⟩)
      · rintro ⟨hs, rfl, rfl, hij⟩
        exact ⟨name', rfl, hs, hij⟩
      · rintro ⟨_, ⟨⟩, hs, hij⟩
        exact ⟨hs, rfl, rfl, hij⟩

/-! ## What every round keeps -/

/-- The states are the numbered nodes, each move joins its ends, and each edge is a move. -/
structure Holds (m : Machine) (g : Graph) (G : Automaton Nat) : Prop where
  states : G.states = g.numbering
  sound : ∀ s i j, G.Moves s i j →
    ∃ x : Symbol, s = (Label.ofSymbol x).key ∧ Joins m.bodies g.numbered [x] i j
  edges : ∀ t i j, (i, t, j) ∈ g.moves → G.Moves (Label.terminal t).key i j

/-- The calls among the moves. -/
abbrev calls (G : Automaton Nat) (v : String) (i j : Nat) : Prop := G.Moves (Label.call v).key i j

/-- The closure of the product of the boxes with a graph. -/
abbrev closure (m : Machine) (G : Automaton Nat) :
    BoolMatrix (m.toAutomaton.product G).states.size (m.toAutomaton.product G).states.size :=
  (m.toAutomaton.product G).closure

theorem separated_toAutomaton : m.toAutomaton.Separated := Automaton.separated_ofMoves

/-- A walk along moves spells a body that joins its ends. -/
theorem Holds.exists_joins (hG : Holds m g G) (hw : G.frame.Walk i w j) :
    ∃ body, w = Machine.keys body ∧ Joins m.bodies g.numbered body i j := by
  induction hw with
  | @nil i hi =>
    have hi : i < G.states.size := hi
    rw [hG.states] at hi
    exact ⟨[], rfl, .nil hi⟩
  | cons hmove _ ih =>
    obtain ⟨x, rfl, hx⟩ := hG.sound _ _ _ hmove
    obtain ⟨body, rfl, hbody⟩ := ih
    exact ⟨x :: body, rfl, hx.cons hbody⟩

theorem Holds.walk_of_links (hG : Holds m g G) (hx : Links g.numbered (calls G) body i j) :
    G.frame.Walk i (Machine.keys body) j := by
  induction body generalizing i with
  | nil =>
    obtain ⟨rfl, hi⟩ := hx
    have hi : i < g.numbering.size := hi
    rw [← hG.states] at hi
    exact .nil hi
  | cons x body ih =>
    cases x with
    | terminal t =>
      obtain ⟨k, hik, hx⟩ := hx
      exact .cons (hG.edges t i k hik) (ih hx)
    | nonterminal v =>
      obtain ⟨k, hik, hx⟩ := hx
      exact .cons hik (ih hx)

/-- **Soundness of a round**: a path that crosses a box joins its ends in the graph. -/
theorem Holds.joins_of_path (hG : Holds m g G) (hm : m.Minimal)
    (hpath : (closure m G).get c d = true)
    (hcall : callMove? m.toAutomaton m.names G.numStates c d = some (i, name, j)) :
    JoinedBy m.bodies g.numbered name i j := by
  obtain ⟨hcross, rfl, rfl⟩ := callMove?_eq_some_iff.mp hcall
  obtain ⟨-, w, hbox, hgraph⟩ := (Automaton.get_closure_product_iff separated_toAutomaton).mp hpath
  obtain ⟨body, rfl, hbody⟩ := hG.exists_joins hgraph
  have hv : m.bodies name body := (Machine.exists_crossing_iff hm).mp ⟨_, _, hcross, hbox⟩
  exact joins_nonterminal_iff.mpr ⟨body, hv, hbody⟩

/-- **Completeness of a round**: what a body links, a path crosses. -/
theorem Holds.exists_path (hG : Holds m g G) (hm : m.Minimal) (hv : m.bodies v body)
    (hx : Links g.numbered (calls G) body i j) : ∃ c d, (closure m G).get c d = true ∧
      callMove? m.toAutomaton m.names G.numStates c d = some (i, v, j) := by
  obtain ⟨a, b, hcross, hbox⟩ := (Machine.exists_crossing_iff hm).mpr hv
  have hgraph := hG.walk_of_links hx
  have hi : i < G.numStates := hgraph.node
  have hj : j < G.numStates := hgraph.node_target
  refine ⟨Automaton.pairIndex G.numStates a i, Automaton.pairIndex G.numStates b j,
    (Automaton.get_closure_product_iff separated_toAutomaton).mpr ⟨?_, Machine.keys body, ?_⟩,
    callMove?_eq_some_iff.mpr ?_⟩
  · exact Automaton.pairIndex_lt hbox.node hi
  · rw [Automaton.pairIndex_div hi, Automaton.pairIndex_div hj, Automaton.pairIndex_mod hi,
      Automaton.pairIndex_mod hj]
    exact ⟨hbox, hgraph⟩
  · rw [Automaton.pairIndex_div hi, Automaton.pairIndex_div hj, Automaton.pairIndex_mod hi,
      Automaton.pairIndex_mod hj]
    exact ⟨hcross, rfl, rfl⟩

theorem Holds.addCalls (hG : Holds m g G) (hm : m.Minimal) :
    Holds m g (addCalls m.toAutomaton m.names (closure m G).entries G) where
  states := states_addCalls.trans hG.states
  sound s i j h := by
    rcases moves_addCalls_iff.mp h with h | ⟨c, d, name, hmem, hcall, rfl, -, -⟩
    · exact hG.sound s i j h
    · exact ⟨.nonterminal name, rfl, hG.joins_of_path hm (BoolMatrix.mem_entries.mp hmem) hcall⟩
  edges t i j h := moves_addCalls_iff.mpr (.inl (hG.edges t i j h))

/-! ## The last round -/

/-- All calls of some paths are moves already. -/
def HasCalls (m : Machine) (G : Automaton Nat) (path : Nat → Nat → Prop) : Prop :=
  ∀ c d i name j, path c d →
    callMove? m.toAutomaton m.names G.numStates c d = some (i, name, j) → calls G name i j

/-- A round adds nothing. -/
def Saturated (m : Machine) (G : Automaton Nat) : Prop :=
  HasCalls m G fun c d => (closure m G).get c d = true

/-- **A graph to which a round adds nothing** has all calls that join their ends. -/
theorem Holds.moves_call_iff (hG : Holds m g G) (hm : m.Minimal) (hsat : Saturated m G) :
    calls G v i j ↔ JoinedBy m.bodies g.numbered v i j := by
  constructor
  · intro h
    obtain ⟨x, hx, hjoins⟩ := hG.sound _ _ _ h
    rw [← @Label.toSymbol_ofSymbol x, ← Label.key_inj hx] at hjoins
    exact hjoins
  · intro h
    obtain ⟨k, hik, rfl, -⟩ := h.links fun v body i j hv hx => by
      obtain ⟨c, d, hpath, hcall⟩ := hG.exists_path hm hv hx
      exact hsat c d i v j hpath hcall
    exact hik

/-- A round with `k` paths, all of them still there, has added its calls. -/
def Follows (m : Machine) (G : Automaton Nat) (k : Nat) : Prop :=
  ∃ G₀ : Automaton Nat, (closure m G₀).count = k ∧
    (∀ c d, (closure m G₀).get c d = true → (closure m G).get c d = true) ∧
    HasCalls m G fun c d => (closure m G₀).get c d = true

theorem follows_addCalls :
    Follows m (addCalls m.toAutomaton m.names (closure m G).entries G) (closure m G).count := by
  have hsize : (addCalls m.toAutomaton m.names (closure m G).entries G).numStates = G.numStates :=
    congrArg Numbering.size states_addCalls
  refine ⟨G, rfl, fun c d => Automaton.get_closure_product_mono separated_toAutomaton hsize.symm
    fun s i j h => moves_addCalls_iff.mpr (.inl h), fun c d i name j hpath hcall => ?_⟩
  rw [hsize] at hcall
  obtain ⟨-, rfl, rfl⟩ := callMove?_eq_some_iff.mp hcall
  obtain ⟨-, w, -, hgraph⟩ := (Automaton.get_closure_product_iff separated_toAutomaton).mp hpath
  exact moves_addCalls_iff.mpr (.inr ⟨c, d, name, BoolMatrix.mem_entries.mpr hpath, hcall, rfl,
    hgraph.node, hgraph.node_target⟩)

theorem Follows.le (h : Follows m G k) : k ≤ (closure m G).count := by
  obtain ⟨G₀, rfl, hmono, -⟩ := h
  exact BoolMatrix.count_le_count hmono

/-- **No more paths, no more calls**: a round that only counts its paths sees the fixpoint. -/
theorem Follows.saturated (h : Follows m G k) (hcount : (closure m G).count = k) :
    Saturated m G := by
  obtain ⟨G₀, rfl, hmono, hcalls⟩ := h
  exact fun c d i name j hpath =>
    hcalls c d i name j (BoolMatrix.get_of_count_le hmono (Nat.le_of_eq hcount) hpath)

theorem count_closure_le (hn : n = m.toAutomaton.numStates * G.numStates) :
    (closure m G).count ≤ n * n := by
  rw [hn, ← Automaton.size_product]
  exact (closure m G).count_le

/-- The bound leaves enough rounds: each of them finds more paths than the last one, and there are
at most `n * n` paths. -/
structure Enough (m : Machine) (G : Automaton Nat) (n bound : Nat) (last : Option Nat) : Prop where
  first : last = none → n * n + 1 < bound
  later : ∀ k, last = some k → Follows m G k ∧ n * n < k + bound

theorem enough_none : Enough m G n (n * n + 2) none where
  first _ := Nat.lt_succ_self _
  later _ hk := by cases hk

theorem Enough.ne_zero (h : Enough m G n bound last) (hcount : (closure m G).count ≤ n * n) :
    bound ≠ 0 := by
  rintro rfl
  cases last with
  | none => exact Nat.not_lt_zero _ (h.first rfl)
  | some k =>
    obtain ⟨hfollows, hbound⟩ := h.later k rfl
    have := hfollows.le
    omega

/-- A round that does not end the run counts more paths than the last one. -/
theorem Enough.addCalls (h : Enough m G n (bound + 1) last)
    (hcount : last ≠ some (closure m G).count) :
    Enough m (addCalls m.toAutomaton m.names (closure m G).entries G) n bound
      (some (closure m G).count) where
  first hnone := by cases hnone
  later k hk := by
    obtain rfl := Option.some.inj hk
    refine ⟨follows_addCalls, ?_⟩
    cases last with
    | none =>
      have := h.first rfl
      omega
    | some k =>
      obtain ⟨hfollows, hbound⟩ := h.later k rfl
      have hne : k ≠ (closure m G).count := fun heq => hcount (congrArg some heq)
      have := hfollows.le
      omega

/-- **The rounds**: they end with a graph to which a round adds nothing. -/
theorem run_spec (hm : m.Minimal) (hG : Holds m g G)
    (hn : n = m.toAutomaton.numStates * g.numbering.size) (henough : Enough m G n bound last)
    {result : Automaton Nat × Nat × Nat}
    (h : run m.toAutomaton m.names bound G rounds last = .ok result) :
    Holds m g result.1 ∧ Saturated m result.1 := by
  induction bound generalizing G rounds last with
  | zero =>
    refine absurd rfl (henough.ne_zero (count_closure_le ?_))
    rw [hn, Automaton.numStates, Automaton.numStates, hG.states]
  | succ bound ih =>
    obtain ⟨A, hproduct, -⟩ := exists_of_bind_eq_ok h
    obtain rfl := Automaton.eq_product_of_tryProduct hproduct
    rw [run_succ hproduct] at h
    dsimp only at h
    split at h
    · next hcount =>
      cases h
      exact ⟨hG, (henough.later _ hcount).1.saturated rfl⟩
    · next hcount => exact ih (hG.addCalls hm) (henough.addCalls hcount) h

theorem Holds.modify (hG : Holds m g G) (hv : m.bodies v []) :
    Holds m g (G.modify (Label.call v).key (·.union (.identity _))) where
  states := hG.states
  sound s i j h := by
    rw [Automaton.moves_modify_iff] at h
    split at h
    · next hs =>
      subst hs
      rw [BoolMatrix.get_union, Bool.or_eq_true, BoolMatrix.get_identity] at h
      rcases h with h | ⟨rfl, hi⟩
      · exact hG.sound _ i j h
      · rw [hG.states] at hi
        exact ⟨.nonterminal v, rfl, joins_nonterminal_iff.mpr ⟨[], hv, .nil hi⟩⟩
    · exact hG.sound s i j h
  edges t i j h := by
    have hne : (Label.terminal t).key ≠ (Label.call v).key := fun heq => by
      cases Label.key_inj heq
    rw [Automaton.moves_modify_iff, if_neg hne]
    exact hG.edges t i j h

theorem holds_ofGraph :
    Holds m g ((Automaton.ofGraph g none none).renameSymbols fun t => (Label.terminal t).key) := by
  have hinj : ∀ t u, (Label.terminal t).key = (Label.terminal u).key → t = u := fun t u h =>
    Label.terminal.inj (Label.key_inj h)
  have hmoves : ∀ {t i j}, (Automaton.ofGraph g none none).Moves t i j ↔ (i, t, j) ∈ g.moves := by
    intro t i j
    rw [Automaton.ofGraph, Automaton.moves_ofMoves_iff]
    refine and_iff_left_of_imp fun h => ?_
    obtain ⟨u, v, hi, hj, -⟩ := Graph.mem_moves_iff.mp h
    exact ⟨Numbering.get?_eq_some_lt hi, Numbering.get?_eq_some_lt hj⟩
  refine ⟨rfl, fun s i j h => ?_, fun t i j h => ?_⟩
  · obtain ⟨t, rfl, hmove⟩ := (Automaton.moves_renameSymbols_iff hinj).mp h
    rw [hmoves] at hmove
    obtain ⟨u, v, -, hj, -⟩ := Graph.mem_moves_iff.mp hmove
    exact ⟨.terminal t, rfl, .terminal hmove (.nil (Numbering.get?_eq_some_lt hj))⟩
  · exact (Automaton.moves_renameSymbols_iff hinj).mpr ⟨t, rfl, hmoves.mpr h⟩

theorem holds_initialGraph (hm : m.Minimal) : Holds m g (initialGraph m g) := by
  have hfoldl : ∀ (l : List String) (G : Automaton Nat), (∀ v ∈ l, m.bodies v []) → Holds m g G →
      Holds m g (l.foldl (fun graph name =>
        graph.modify (Label.call name).key (·.union (.identity _))) G) := by
    intro l
    induction l with
    | nil => exact fun G _ hG => hG
    | cons v l ih =>
      intro G hl hG
      rw [List.foldl_cons]
      exact ih _ (fun u hu => hl u (List.mem_cons_of_mem _ hu))
        (hG.modify (hl v (List.mem_cons_self ..)))
  exact hfoldl _ _ (fun v => (Machine.mem_nullable_iff hm).mp) holds_ofGraph

/-! ## The facts -/

theorem mem_facts_iff {a b : Nat} {names : List String} : ⟨a, v, b⟩ ∈ facts names G ↔
    v ∈ names ∧ ∃ i j, calls G v i j ∧ G.states.get? i = some a ∧ G.states.get? j = some b := by
  simp only [facts, Ascending.mem_ofList, List.mem_flatMap, List.mem_filterMap, Prod.exists,
    BoolMatrix.mem_entries, Option.bind_eq_bind, Option.bind_eq_some_iff, Option.pure_def,
    Option.some.injEq, Fact.mk.injEq]
  constructor
  · rintro ⟨_, hv, i, j, hmove, _, hi, _, hj, rfl, rfl, rfl⟩
    exact ⟨hv, i, j, hmove, hi, hj⟩
  · rintro ⟨hv, i, j, hmove, hi, hj⟩
    exact ⟨v, hv, i, j, hmove, a, hi, b, hj, rfl, rfl, rfl⟩

/-- **The facts** are the pairs of nodes that a box joins. -/
theorem mem_derive_iff {A : Derivations} {a b : Nat} (hm : m.Minimal) (h : derive m g = .ok A) :
    ⟨a, v, b⟩ ∈ A.facts ↔ JoinedBy m.bodies g.frame v a b := by
  have hG := @holds_initialGraph m g hm
  have hsize : (edgeGraph g).numStates = g.numbering.size := rfl
  simp only [derive] at h
  split at h
  · next hnone =>
    cases h
    refine iff_of_false List.not_mem_nil fun hjoins => ?_
    rcases hnone with hzero | hempty
    · obtain ⟨i, hi⟩ := Graph.exists_get?_numbering_iff.mpr hjoins.node
      have := Numbering.get?_eq_some_lt hi
      omega
    · obtain ⟨body, hv, -⟩ := joins_nonterminal_iff.mp hjoins
      have := Machine.mem_names_of_bodies hv
      rw [Machine.names, List.isEmpty_iff.mp hempty] at this
      exact absurd this List.not_mem_nil
  · split at h
    · cases h
    · next hlt =>
      rw [tryAddEmptyCalls_eq (Nat.le_of_not_lt hlt)] at h
      obtain ⟨_, ⟨⟩, h⟩ := exists_of_bind_eq_ok h
      obtain ⟨boxes, hboxes, h⟩ := exists_of_bind_eq_ok h
      obtain rfl := Machine.eq_toAutomaton_of_tryToAutomaton hboxes
      obtain ⟨⟨G, rounds, entries⟩, hrun, h⟩ := exists_of_bind_eq_ok h
      cases h
      have hn : m.toAutomaton.numStates * (edgeGraph g).numStates =
          m.toAutomaton.numStates * g.numbering.size := by rw [hsize]
      obtain ⟨hG, hsat⟩ := run_spec hm hG hn enough_none hrun
      rw [mem_facts_iff, hG.states]
      constructor
      · rintro ⟨-, i, j, hmove, hi, hj⟩
        exact (Graph.joins_numbered_iff hi hj).mp ((hG.moves_call_iff hm hsat).mp hmove)
      · intro hjoins
        obtain ⟨body, hv, -⟩ := joins_nonterminal_iff.mp hjoins
        obtain ⟨i, hi⟩ := Graph.exists_get?_numbering_iff.mpr hjoins.node
        obtain ⟨j, hj⟩ := Graph.exists_get?_numbering_iff.mpr hjoins.node_target
        exact ⟨Machine.mem_names_of_bodies hv, i, j,
          (hG.moves_call_iff hm hsat).mpr ((Graph.joins_numbered_iff hi hj).mpr hjoins), hi, hj⟩

/-! ## The least relation -/

/-- Steps between nodes: along an edge for the key of a terminal, and along a fact of `D` for the
key of a call. -/
def steps (g : Graph) (D : Fact → Prop) : Frame Nat String where
  node a := a ∈ g.nodes
  edge a key b := a ∈ g.nodes ∧ ((∃ t, key = (Label.terminal t).key ∧ ⟨a, t, b⟩ ∈ g.edges) ∨
    ∃ name, key = (Label.call name).key ∧ D ⟨a, name, b⟩)
  source h := h.1

/-- Some word of keys that the box of a fact accepts leads in steps from its source to its
target. -/
def Consequence (m : Machine) (g : Graph) (D : Fact → Prop) (f : Fact) : Prop :=
  ∃ B ks, m.box? f.head = some B ∧ B.accepts ks = true ∧ (steps g D).Walk f.source ks f.target

variable {D : Fact → Prop} {a b : Nat}

/-- The pairs that `D` has for a variable, from nodes. -/
abbrev pairs (g : Graph) (D : Fact → Prop) (v : String) (a b : Nat) : Prop :=
  a ∈ g.nodes ∧ D ⟨a, v, b⟩

theorem walk_steps_of_links (h : Links g.frame (pairs g D) body a b) :
    (steps g D).Walk a (Machine.keys body) b := by
  induction body generalizing a with
  | nil =>
    obtain ⟨rfl, ha⟩ := h
    exact .nil ha
  | cons x body ih =>
    cases x with
    | terminal t =>
      obtain ⟨c, he, h⟩ := h
      exact .cons ⟨(g.ends_mem _ he).1, .inl ⟨t, rfl, he⟩⟩ (ih h)
    | nonterminal v =>
      obtain ⟨c, ⟨ha, hD⟩, h⟩ := h
      exact .cons ⟨ha, .inr ⟨v, rfl, hD⟩⟩ (ih h)

theorem exists_links_of_walk_steps (h : (steps g D).Walk a w b) :
    ∃ body, w = Machine.keys body ∧ Links g.frame (pairs g D) body a b := by
  induction h with
  | nil ha => exact ⟨[], rfl, rfl, ha⟩
  | cons hstep _ ih =>
    obtain ⟨body, rfl, hlinks⟩ := ih
    obtain ⟨ha, ⟨t, rfl, he⟩ | ⟨v, rfl, hD⟩⟩ := hstep
    · exact ⟨.terminal t :: body, rfl, _, he, hlinks⟩
    · exact ⟨.nonterminal v :: body, rfl, _, ⟨ha, hD⟩, hlinks⟩

theorem consequence_iff : Consequence m g D ⟨a, v, b⟩ ↔
    ∃ body, m.bodies v body ∧ Links g.frame (pairs g D) body a b := by
  constructor
  · rintro ⟨B, ks, hB, haccepts, hw⟩
    obtain ⟨body, rfl, hlinks⟩ := exists_links_of_walk_steps hw
    exact ⟨body, ⟨B, hB, haccepts⟩, hlinks⟩
  · rintro ⟨body, ⟨B, hB, haccepts⟩, hlinks⟩
    exact ⟨B, Machine.keys body, hB, haccepts, walk_steps_of_links hlinks⟩

/-- **The tensor engine** derives the least relation that holds of a fact where the box of its head
accepts the keys of steps along edges and related facts. -/
theorem derive_least {A : Derivations} (hm : m.Built) (h : derive m g = .ok A) :
    (∀ f, f ∈ A.facts ↔ Consequence m g (· ∈ A.facts) f) ∧
      ∀ D : Fact → Prop, (∀ f, Consequence m g D f → D f) → ∀ f ∈ A.facts, D f := by
  have hfacts : pairs g (· ∈ A.facts) = JoinedBy m.bodies g.frame := by
    ext v a b
    rw [pairs, mem_derive_iff hm.minimal h]
    exact and_iff_right_of_imp Joins.node
  refine ⟨fun ⟨a, v, b⟩ => ?_, fun D hD ⟨a, v, b⟩ hf => ?_⟩
  · rw [consequence_iff, hfacts, mem_derive_iff hm.minimal h, joins_nonterminal_iff]
    exact exists_congr fun body => and_congr_right fun _ => joins_iff_links
  · have hclosed : ∀ v body a b, m.bodies v body → Links g.frame (pairs g D) body a b →
        pairs g D v a b := fun v body a b hv hlinks =>
      ⟨(walk_steps_of_links hlinks).node, hD _ (consequence_iff.mpr ⟨body, hv, hlinks⟩)⟩
    obtain ⟨_, hpair, rfl, -⟩ := ((mem_derive_iff hm.minimal h).mp hf).links hclosed
    exact hpair.2

/-- Nested pairs of the letters `a` and `b`. -/
def nestedGrammar : Grammar :=
  .ofList "S" [⟨"S", [.terminal "a", .nonterminal "S", .terminal "b"]⟩, ⟨"S", []⟩]

/-- Two edges with the label `a` around a cycle, and a loop with the label `b`. -/
def loopGraph : Graph := .ofEdges [⟨0, "a", 1⟩, ⟨1, "a", 0⟩, ⟨0, "b", 0⟩] []

theorem derive_least_nestedGrammar : ∃ A, derive (.ofGrammar nestedGrammar) loopGraph = .ok A ∧
    (∀ f, f ∈ A.facts ↔ Consequence (.ofGrammar nestedGrammar) loopGraph (· ∈ A.facts) f) ∧
      ∀ D : Fact → Prop, (∀ f, Consequence (.ofGrammar nestedGrammar) loopGraph D f → D f) →
        ∀ f ∈ A.facts, D f := by
  have h : derive (.ofGrammar nestedGrammar) loopGraph =
      .ok ⟨[⟨0, "S", 0⟩, ⟨1, "S", 0⟩, ⟨1, "S", 1⟩], 3, 21⟩ := by decide +kernel
  exact ⟨_, h, derive_least (.ofGrammar _) h⟩

end PathQuery.Tensor
