import Mathlib.Algebra.GroupWithZero.Nat
import Mathlib.Algebra.Order.BigOperators.Group.List
import Mathlib.Algebra.Order.Group.Nat
import Mathlib.Data.List.ProdSigma
import PathQuery.Proofs.Engine.Matrix
import PathQuery.Proofs.Engine.Tensor

/-!
# Proofs/Engine/Bounds — how many rounds the engines run

The loops of the three engines end, whatever the grammar, the boxes and the graph, for facts are
only added and there are as many at most as triples of a variable and two nodes.  The worklist takes
up a fact in each round (`Worklist.Holds.length_le`); a round of the matrix engine that is not the
last one adds an entry (`MatrixEngine.Holds.loop`).  The tensor engine compares numbers of paths,
but where the number has grown the graph has a call that it did not have two rounds ago
(`Tensor.exists_new_call`), so that the rounds are counted by calls (`Tensor.Loop.rounds_le`).

* `derive_rounds_le` — the loops end, and their rounds are bounded by the facts there can be.
-/

namespace PathQuery

/-! ## The worklist -/

namespace Worklist

variable {N : NormalGrammar} {g : Graph} {done pending : List Fact}

/-- There are no more facts than triples of a variable and two nodes. -/
theorem Holds.length_le (h : Holds N g done pending) : (done ++ pending).length ≤
    N.nonterminals.length * (g.nodes.length * g.nodes.length) := by
  have hnodup : ((done ++ pending).map fun f => (f.head, f.source, f.target)).Nodup := by
    refine List.pairwise_map.mpr (h.nodup.imp fun {e f} hef heq => hef ?_)
    obtain ⟨hhead, hends⟩ := Prod.mk.inj heq
    obtain ⟨hsource, htarget⟩ := Prod.mk.inj hends
    cases e
    cases f
    congr
  have hle := @Search.length_le_of_nodup _ _ _ (N.nonterminals ×ˢ g.nodes ×ˢ g.nodes) hnodup
    fun t ht => by
      obtain ⟨f, hf, rfl⟩ := List.mem_map.mp ht
      have hjoined := h.sound f hf
      obtain ⟨r, hr, hhead⟩ := NormalGrammar.exists_rule_of_joinedBy hjoined
      exact List.mem_product.mpr ⟨hhead ▸ MatrixEngine.mem_nonterminals_of_mem hr,
        List.mem_product.mpr ⟨hjoined.node, hjoined.node_target⟩⟩
  rwa [List.length_map, List.length_product, List.length_product] at hle

end Worklist

/-! ## The matrix engine -/

namespace MatrixEngine

variable {N : NormalGrammar} {g : Graph} {bound rounds : Nat} {s : Progress g.nodes.length}

/-- **The loop** without a bound on its rounds: it ends with the first round that adds nothing. -/
inductive Loop (N : NormalGrammar) (n : Nat) : Tables → Nat → Tables × Nat → Prop where
  | stop {s t : Tables} {rounds : Nat} :
      tryRound N n s = .ok t → t.added = 0 → Loop N n s rounds (t, rounds + 1)
  | round {s t : Tables} {rounds : Nat} {result : Tables × Nat} :
      tryRound N n s = .ok t → t.added ≠ 0 → Loop N n t (rounds + 1) result →
        Loop N n s rounds result

/-- **The rounds** are those of the loop, and each of them but the last adds an entry. -/
theorem Holds.loop (h : Holds N g s) (hs : s.Lists N.nonterminals)
    (hn : g.nodes.length ≤ Word32.max)
    (hbound : N.nonterminals.length * (g.nodes.length * g.nodes.length) < bound + s.all.count) :
    Loop N g.nodes.length s.tables rounds
        ((run N bound s rounds).1.tables, (run N bound s rounds).2) ∧
      (run N bound s rounds).2 + s.all.count ≤
        rounds + 1 + N.nonterminals.length * (g.nodes.length * g.nodes.length) := by
  induction bound generalizing s rounds with
  | zero =>
    have := h.count_le
    omega
  | succ bound ih =>
    obtain ⟨hround, hlists⟩ := tryRound_tables hn hs
    rw [run]
    split
    · next hadded =>
      have := h.count_le
      exact ⟨.stop hround hadded, by dsimp only; omega⟩
    · next hadded =>
      have hlt := h.count_lt hadded
      obtain ⟨hloop, hle⟩ := @ih (rounds + 1) _ h.round hlists (by omega)
      exact ⟨.round hround hadded hloop, by omega⟩

/-- Once the seeds are there, the loop ends with the result of the engine. -/
theorem exists_loop_derive {T : MatrixTable} (hT : trySeed N g.nodes.length g.moves = .ok T) :
    ∃ s A, derive N g = .ok A ∧ Loop N g.nodes.length ⟨T, T, T.count⟩ 0 (s, A.rounds) ∧
      A.rounds ≤ N.nonterminals.length * (g.nodes.length * g.nodes.length) + 1 := by
  have hn : g.nodes.length ≤ Word32.max := by
    obtain ⟨Z, hZ, -⟩ := exists_of_bind_eq_ok hT
    exact BoolMatrix.le_of_tryZero hZ
  have hseed := @trySeed_eq N _ _ hn (@lt_of_mem_moves g)
  obtain rfl := Except.ok.inj (hT.symm.trans hseed)
  obtain ⟨hloop, hle⟩ := @Holds.loop N g
    (N.nonterminals.length * g.nodes.length * g.nodes.length + 1) 0 _ holds_start lists_start hn
    (by rw [Nat.mul_assoc]; omega)
  rw [tables_start] at hloop
  refine ⟨_, _, derive_eq hn, hloop, ?_⟩
  exact (Nat.le_of_add_right_le hle).trans (by omega)

end MatrixEngine

/-! ## The tensor engine -/

namespace Tensor

open Machine (Label)

variable {m : Machine} {g : Graph} {G : Automaton Nat} {bound rounds n : Nat} {last : Option Nat}
  {result : Except Error (Automaton Nat × Nat × Nat)}

/-- **The loop** without a bound on its rounds: it ends with the first product that is not formed,
or with the first closure that has as many entries as the one before. -/
inductive Loop (boxes : Automaton BoxState) (names : List String) : Automaton Nat → Nat →
    Option Nat → Except Error (Automaton Nat × Nat × Nat) → Prop where
  | fail {G : Automaton Nat} {rounds : Nat} {last : Option Nat} {e : Error} :
      boxes.tryProduct G = .error e → Loop boxes names G rounds last (.error e)
  | stop {G : Automaton Nat} {rounds : Nat} {last : Option Nat}
      {A : Automaton (BoxState × Nat)} {C : ShapedMatrix} :
      boxes.tryProduct G = .ok A → A.tryClosure = .ok C → last = some C.matrix.count →
        Loop boxes names G rounds last (.ok (G, rounds + 1, C.matrix.count))
  | round {G H : Automaton Nat} {rounds : Nat} {last : Option Nat}
      {A : Automaton (BoxState × Nat)} {C : ShapedMatrix}
      {result : Except Error (Automaton Nat × Nat × Nat)} :
      boxes.tryProduct G = .ok A → A.tryClosure = .ok C → last ≠ some C.matrix.count →
        tryAddCalls boxes names C.matrix.entries G = .ok H →
        Loop boxes names H (rounds + 1) (some C.matrix.count) result →
          Loop boxes names G rounds last result

/-! ### New calls -/

/-- The graph after a round. -/
abbrev next (m : Machine) (G : Automaton Nat) : Automaton Nat :=
  Tensor.addCalls m.toAutomaton m.names (closure m G).entries G

theorem numStates_next : (next m G).numStates = G.numStates :=
  congrArg Numbering.size states_addCalls

/-- **Where the number of paths grows**, the round before has added a call. -/
theorem exists_new_call (h : (closure m (next m G)).count ≠ (closure m G).count) :
    ∃ name ∈ m.names, ∃ i j, calls (next m G) name i j ∧ ¬calls G name i j := by
  by_contra hnone
  have hmoves : ∀ s i j, (next m G).Moves s i j → G.Moves s i j := fun s i j hmove => by
    rcases moves_addCalls_iff.mp hmove with hmove | ⟨c, d, name, -, hcall, rfl, -⟩
    · exact hmove
    · obtain ⟨⟨-, -, b, -, -, hname, -⟩, -⟩ := callMove?_eq_some_iff.mp hcall
      exact by_contra fun hnot =>
        hnone ⟨name, List.mem_of_getElem? hname, i, j, hmove, hnot⟩
  refine h (Nat.le_antisymm ?_ follows_addCalls.le)
  exact BoolMatrix.count_le_count fun c d =>
    Automaton.get_closure_product_mono separated_toAutomaton numStates_next hmoves

/-- The number of calls among the moves. -/
def callCount (m : Machine) (G : Automaton Nat) : Nat :=
  (m.names.map fun name => (G.matrix (Label.call name).key).count).sum

theorem callCount_le : callCount m G ≤ m.names.length * (G.numStates * G.numStates) := by
  have hle : ∀ k ∈ m.names.map fun name => (G.matrix (Label.call name).key).count,
      k ≤ G.numStates * G.numStates := fun k hk => by
    obtain ⟨name, -, rfl⟩ := List.mem_map.mp hk
    exact BoolMatrix.count_le _
  have := List.sum_le_card_nsmul _ _ hle
  rwa [List.length_map] at this

theorem callCount_lt (h : (closure m (next m G)).count ≠ (closure m G).count) :
    callCount m G < callCount m (next m G) := by
  obtain ⟨name, hname, i, j, hnew, hnot⟩ := exists_new_call h
  have hmono : ∀ name i j, calls G name i j → calls (next m G) name i j := fun _ _ _ hcall =>
    moves_addCalls_iff.mpr (.inl hcall)
  refine List.sum_lt_sum _ _ (fun name _ => BoolMatrix.count_le_count (hmono name))
    ⟨name, hname, Nat.lt_of_not_le fun hle => hnot ?_⟩
  exact BoolMatrix.get_of_count_le (hmono name) hle hnew

/-! ### The rounds -/

/-- A round that is run counts the paths of the product, and what it adds are their calls. -/
theorem next_of_round {A : Automaton (BoxState × Nat)} {C : ShapedMatrix}
    (hproduct : m.toAutomaton.tryProduct G = .ok A) (hclosure : A.tryClosure = .ok C) :
    C.matrix.count = (closure m G).count ∧
      tryAddCalls m.toAutomaton m.names C.matrix.entries G = .ok (next m G) := by
  have hle := Automaton.le_of_tryProduct hproduct
  obtain rfl := Automaton.eq_product_of_tryProduct hproduct
  rw [Automaton.tryClosure_eq (by rwa [Automaton.numStates, Automaton.size_product])] at hclosure
  obtain rfl := Except.ok.inj hclosure
  rw [BoolMatrix.count_shaped, BoolMatrix.entries_shaped]
  exact ⟨rfl, tryAddCalls_eq pos_of_entries_ne_nil⟩

/-- **Each round but the last has a new call**, from the second round on. -/
theorem Loop.rounds_le (h : Loop m.toAutomaton m.names (next m G) rounds
    (some (closure m G).count) result) (hn : G.numStates = n) {H : Automaton Nat} {r entries : Nat}
    (hresult : result = .ok (H, r, entries)) :
    r + callCount m G ≤ rounds + 1 + m.names.length * (n * n) := by
  generalize hG : next m G = G', hlast : some (closure m G).count = last at h
  induction h generalizing G with
  | fail => cases hresult
  | stop =>
    cases hresult
    have := @callCount_le m G
    rw [hn] at this
    omega
  | round hproduct hclosure hne hcalls _ ih =>
    subst hG
    subst hlast
    obtain ⟨hcount, hcalls'⟩ := next_of_round hproduct hclosure
    have hnext := Except.ok.inj (hcalls'.symm.trans hcalls)
    rw [hcount] at hne
    have hlt := @callCount_lt m G fun heq => hne (congrArg some heq.symm)
    have := ih (numStates_next.trans hn) hresult hnext (congrArg some hcount.symm)
    omega

theorem Loop.rounds_le_of_none (h : Loop m.toAutomaton m.names G 0 none result)
    (hn : G.numStates = n) {H : Automaton Nat} {r entries : Nat}
    (hresult : result = .ok (H, r, entries)) : r ≤ m.names.length * (n * n) + 2 := by
  cases h with
  | fail => cases hresult
  | stop _ _ hlast => cases hlast
  | round hproduct hclosure _ hcalls h =>
    obtain ⟨hcount, hcalls'⟩ := next_of_round hproduct hclosure
    rw [hcount, ← Except.ok.inj (hcalls'.symm.trans hcalls)] at h
    have := h.rounds_le hn hresult
    omega

/-- **The rounds** are those of the loop. -/
theorem loop_run (hn : n = m.toAutomaton.numStates * G.numStates)
    (henough : Enough m G n bound last) : Loop m.toAutomaton m.names G rounds last
      (run m.toAutomaton m.names bound G rounds last) := by
  induction bound generalizing G rounds last with
  | zero => exact absurd rfl (henough.ne_zero (count_closure_le hn))
  | succ bound ih =>
    cases hproduct : m.toAutomaton.tryProduct G with
    | error e =>
      rw [run, hproduct]
      exact .fail hproduct
    | ok A =>
      have hle := Automaton.le_of_tryProduct hproduct
      obtain rfl := Automaton.eq_product_of_tryProduct hproduct
      have hclosure : (m.toAutomaton.product G).tryClosure = .ok (closure m G).shaped :=
        Automaton.tryClosure_eq (by rwa [Automaton.numStates, Automaton.size_product])
      rw [run_succ hproduct]
      dsimp only
      rw [← BoolMatrix.count_shaped]
      split
      · next hcount => exact .stop hproduct hclosure hcount
      · next hcount =>
        refine .round hproduct hclosure hcount (next_of_round hproduct hclosure).2
          (ih (hn.trans (congrArg _ numStates_next.symm)) ?_)
        rw [BoolMatrix.count_shaped] at hcount ⊢
        exact henough.addCalls hcount

/-- Once the empty calls are there, the loop ends, and where there are nodes and boxes, but not too
many states of boxes, it has the result of the engine. -/
theorem exists_loop_derive (hG : tryAddEmptyCalls m (edgeGraph g) = .ok G) :
    ∃ result, Loop m.toAutomaton m.names G 0 none result ∧
      (¬(g.nodes.length = 0 ∨ m.isEmpty = true) → m.Fits → derive m g =
        result.map fun (H, rounds, entries) => ⟨facts m.names H, rounds, entries⟩) ∧
      ∀ H rounds entries, result = .ok (H, rounds, entries) →
        rounds ≤ m.names.length * (g.nodes.length * g.nodes.length) + 2 := by
  have hn : g.nodes.length ≤ Word32.max := by
    obtain ⟨I, hI, -⟩ := exists_of_bind_eq_ok hG
    exact BoolMatrix.le_of_tryIdentity hI
  obtain rfl := Except.ok.inj (hG.symm.trans (tryAddEmptyCalls_eq hn))
  have hsize : g.nodes.length = (initialGraph m g).numStates := numStates_initialGraph.symm
  have hloop := @loop_run m _ _ 0 _ none (congrArg _ hsize) enough_none
  refine ⟨_, hloop, fun hsome hfits => ?_, fun H rounds entries hresult => ?_⟩
  · rw [derive_eq hn hsome, Machine.tryToAutomaton_eq_ok hfits]
    simp only [bind, Except.bind]
    cases run m.toAutomaton m.names _ (initialGraph m g) 0 none <;> rfl
  · exact hloop.rounds_le_of_none numStates_initialGraph hresult

theorem rounds_derive_le {A : Derivations} (h : derive m g = .ok A) :
    A.rounds ≤ m.names.length * (g.nodes.length * g.nodes.length) + 2 := by
  by_cases hsome : g.nodes.length = 0 ∨ m.isEmpty = true
  · have hderive : derive m g = .ok .none := if_pos hsome
    rw [hderive] at h
    cases h
    exact Nat.zero_le _
  by_cases hn : g.nodes.length ≤ Word32.max
  · by_cases hfits : m.Fits
    · obtain ⟨result, -, hderive, hle⟩ := exists_loop_derive (@tryAddEmptyCalls_eq m g hn)
      rw [hderive hsome hfits] at h
      cases result with
      | error e => cases h
      | ok result =>
        cases h
        exact hle _ _ _ rfl
    · rw [derive_of_not_fits hn (fun hzero => hsome (.inl hzero)) hfits] at h
      cases h
  · have hderive : derive m g = .error _ :=
      (if_neg hsome).trans (if_pos (Nat.lt_of_not_le hn))
    rw [hderive] at h
    cases h

end Tensor

/-! ## The three engines -/

/-- **The loops end**, and their rounds are bounded by the facts there can be: by as many as there
are triples of a variable and two nodes for the worklist, by one more for the matrix engine, whose
last round adds nothing, and for the tensor engine, which sees new calls a round later, by two more
than there are triples of a box and two nodes.  Where the boxes have too many states the tensor
engine ends with a fault before its loop. -/
theorem derive_rounds_le (N : NormalGrammar) (m : Machine) (g : Graph) :
    (∃ taken, Worklist.Loop N.rules [] (Distinct.ofList (Worklist.seeds N.rules g)) taken ∧
        (Worklist.derive N g).rounds = taken.length ∧
        (Worklist.derive N g).rounds ≤ N.nonterminals.length * g.nodes.length ^ 2) ∧
      (∀ T, MatrixEngine.trySeed N g.nodes.length g.moves = .ok T →
        ∃ s A, MatrixEngine.Loop N g.nodes.length ⟨T, T, T.count⟩ 0 (s, A.rounds) ∧
          MatrixEngine.derive N g = .ok A ∧
          A.rounds ≤ N.nonterminals.length * g.nodes.length ^ 2 + 1) ∧
      (∀ G, Tensor.tryAddEmptyCalls m (Tensor.edgeGraph g) = .ok G →
        ∃ result, Tensor.Loop m.toAutomaton m.names G 0 none result ∧
          (g.nodes.length ≠ 0 → m.isEmpty = false → m.Fits →
            m.tryToAutomaton = .ok m.toAutomaton ∧ Tensor.derive m g =
              result.map fun (H, rounds, entries) => ⟨Tensor.facts m.names H, rounds, entries⟩) ∧
          (g.nodes.length ≠ 0 → ¬m.Fits → Tensor.derive m g = .error (.fault m.oversize))) ∧
      ∀ A, Tensor.derive m g = .ok A → A.rounds ≤ m.names.length * g.nodes.length ^ 2 + 2 := by
  rw [Nat.pow_two]
  refine ⟨?_, fun T hT => ?_, fun G hG => ?_, fun A => Tensor.rounds_derive_le⟩
  · obtain ⟨taken, hloop, h, hderive⟩ := Worklist.exists_loop_derive N g
    have hle := h.length_le
    rw [List.append_nil] at hle
    exact ⟨taken, hloop, by rw [hderive], by rwa [hderive]⟩
  · obtain ⟨s, A, hderive, hloop, hle⟩ := MatrixEngine.exists_loop_derive hT
    exact ⟨s, A, hloop, hderive, hle⟩
  · obtain ⟨result, hloop, hderive, -⟩ := Tensor.exists_loop_derive hG
    refine ⟨result, hloop, fun hnodes hboxes hfits => ?_, fun hnodes hfits => ?_⟩
    · refine ⟨Machine.tryToAutomaton_eq_ok hfits, hderive ?_ hfits⟩
      rw [hboxes]
      exact not_or_intro hnodes Bool.false_ne_true
    · obtain ⟨I, hI, -⟩ := exists_of_bind_eq_ok hG
      exact Tensor.derive_of_not_fits (BoolMatrix.le_of_tryIdentity hI) hnodes hfits

theorem derive_rounds_le_loopGraph : ∃ A B,
    MatrixEngine.derive MatrixEngine.wordsGrammar Tensor.loopGraph = .ok A ∧ A.rounds ≤ 9 ∧
      Tensor.derive (.ofGrammar Tensor.nestedGrammar) Tensor.loopGraph = .ok B ∧ B.rounds ≤ 6 ∧
      ∃ G result, Tensor.Loop (Machine.ofGrammar Tensor.nestedGrammar).toAutomaton
          (Machine.ofGrammar Tensor.nestedGrammar).names G 0 none result ∧
        Tensor.derive (.ofGrammar Tensor.nestedGrammar) Tensor.loopGraph =
          result.map fun (H, rounds, entries) => ⟨Tensor.facts
            (Machine.ofGrammar Tensor.nestedGrammar).names H, rounds, entries⟩ := by
  obtain ⟨-, hmatrix, htensor, hrounds⟩ := derive_rounds_le MatrixEngine.wordsGrammar
    (.ofGrammar Tensor.nestedGrammar) Tensor.loopGraph
  have hn : Tensor.loopGraph.nodes.length ≤ Word32.max := by decide
  have hT := @MatrixEngine.trySeed_eq MatrixEngine.wordsGrammar _ _ hn
    MatrixEngine.lt_of_mem_moves
  have hG := @Tensor.tryAddEmptyCalls_eq (.ofGrammar Tensor.nestedGrammar) Tensor.loopGraph hn
  have hB : Tensor.derive (.ofGrammar Tensor.nestedGrammar) Tensor.loopGraph =
      .ok ⟨[⟨0, "S", 0⟩, ⟨1, "S", 0⟩, ⟨1, "S", 1⟩], 3, 21⟩ := by decide +kernel
  have hvariables : MatrixEngine.wordsGrammar.nonterminals.length *
      Tensor.loopGraph.nodes.length ^ 2 + 1 = 9 := by decide +kernel
  have hboxes : (Machine.ofGrammar Tensor.nestedGrammar).names.length *
      Tensor.loopGraph.nodes.length ^ 2 + 2 = 6 := by decide +kernel
  obtain ⟨_, A, -, hA, hA'⟩ := hmatrix _ hT
  obtain ⟨result, hloop, hderive, -⟩ := htensor _ hG
  obtain ⟨-, hderive⟩ := hderive (by decide +kernel) (by decide +kernel)
    (Machine.fits_of_le (by decide +kernel))
  have hB' := hrounds _ hB
  rw [hvariables] at hA'
  rw [hboxes] at hB'
  exact ⟨A, _, hA, hA', hB, hB', _, result, hloop, hderive⟩

end PathQuery
