import PathQuery.Engine.Tensor
import PathQuery.Proofs.Automaton.Guarded
import PathQuery.Proofs.Automaton.Product
import PathQuery.Proofs.Machine.Automaton

/-!
# Proofs/Engine/Calls — the rounds of the tensor engine without checks

The moves that a round adds join nodes of the graph, and the empty calls before the first round have
the size of the graph, so neither fails (`tryAddCalls_eq`, `tryAddEmptyCalls_eq`).  No move changes
the number of states: what can fail is that the boxes have too many of them, or that the product of
the boxes and the graph has, which is seen in the first round.

* `exists_derive_eq_ok` — the engine has a result where the product has few enough states.
* `derive_of_not_fits` — it is a fault that the boxes have too many states.
* `derive_of_lt` — otherwise the engine fails with the numbers of states of the boxes and of the
  graph.
-/

namespace PathQuery.Tensor

open Machine (Label)

variable {m : Machine} {g : Graph} {boxes : Automaton BoxState} {names : List String}
  {G : Automaton Nat} {paths : List (Nat × Nat)} {name : String}
  {bound rounds c d i j n : Nat} {last : Option Nat}

/-! ## The moves of a round -/

/-- The graph with a move for each path of the product through a box. -/
def addCalls (boxes : Automaton BoxState) (names : List String) (paths : List (Nat × Nat))
    (graph : Automaton Nat) : Automaton Nat :=
  let n := graph.numStates
  paths.foldl
    (fun graph (i, j) => match callMove? boxes names n i j with
      | some (v, name, w) => graph.addMove v (Machine.Label.call name).key w
      | none => graph)
    graph

/-- Two states of the boxes are a start and a final state of the box with a name. -/
def Passes (boxes : Automaton BoxState) (names : List String) (name : String) (i j : Nat) : Prop :=
  boxes.isStart i = true ∧ boxes.isFinal j = true ∧
    ∃ b p q, names[b]? = some name ∧ boxes.states.get? i = some ⟨b, p⟩ ∧
      boxes.states.get? j = some ⟨b, q⟩

/-- A path adds a call where it passes a box. -/
theorem callMove?_iff_passes : callMove? boxes names n c d = some (i, name, j) ↔
    Passes boxes names name (c / n) (d / n) ∧ i = c % n ∧ j = d % n := by
  simp only [callMove?, Passes, Option.bind_eq_bind, Option.bind_eq_some_iff,
    Option.guard_eq_some', Bool.and_eq_true, Option.pure_def, Option.some.injEq, Prod.mk.injEq]
  constructor
  · rintro ⟨-, ⟨hstart, hfinal⟩, ⟨b, p⟩, hi, ⟨_, q⟩, hj, -, rfl, _, hname, rfl, rfl, rfl⟩
    exact ⟨⟨hstart, hfinal, b, p, q, hname, hi, hj⟩, rfl, rfl⟩
  · rintro ⟨⟨hstart, hfinal, b, p, q, hname, hi, hj⟩, rfl, rfl⟩
    exact ⟨(), ⟨hstart, hfinal⟩, ⟨b, p⟩, hi, ⟨b, q⟩, hj, (), rfl, name, hname, rfl, rfl, rfl⟩

/-- A path of the product adds a move between nodes. -/
theorem lt_of_callMove? (hn : 0 < n) (h : callMove? boxes names n c d = some (i, name, j)) :
    i < n ∧ j < n := by
  obtain ⟨-, rfl, rfl⟩ := callMove?_iff_passes.mp h
  exact ⟨Nat.mod_lt c hn, Nat.mod_lt d hn⟩

theorem addCalls_cons_of_eq_none (h : callMove? boxes names G.numStates c d = none) :
    addCalls boxes names ((c, d) :: paths) G = addCalls boxes names paths G := by
  simp only [addCalls, List.foldl_cons, h]

theorem addCalls_cons_of_eq_some (h : callMove? boxes names G.numStates c d = some (i, name, j)) :
    addCalls boxes names ((c, d) :: paths) G =
      addCalls boxes names paths (G.addMove i (Label.call name).key j) := by
  simp only [addCalls, List.foldl_cons, h]
  rfl

/-- **The moves of a round**: none of them is out of range. -/
theorem tryAddCalls_eq (hpaths : paths ≠ [] → 0 < G.numStates) :
    tryAddCalls boxes names paths G = .ok (addCalls boxes names paths G) := by
  refine (foldlM_eq_ok (e := id) (I := fun G' => G'.numStates = G.numStates)
    (fun e he G' hG' => ?_) rfl).1
  obtain ⟨c, d⟩ := e
  dsimp only [id]
  cases hcall : callMove? boxes names G.numStates c d with
  | none => exact ⟨rfl, hG'⟩
  | some move =>
    obtain ⟨i, name, j⟩ := move
    obtain ⟨hi, hj⟩ := lt_of_callMove? (hpaths (List.ne_nil_of_mem he)) hcall
    rw [← hG'] at hi hj
    refine ⟨?_, hG'⟩
    dsimp only
    rw [Automaton.tryAddMove_of_lt hi hj]
    rfl

/-- The moves of a round change nothing but the matrices. -/
theorem exists_addCalls_eq : ∃ matrices, addCalls boxes names paths G =
    { G with matrices := matrices } := by
  induction paths generalizing G with
  | nil => exact ⟨G.matrices, rfl⟩
  | cons e paths ih =>
    cases h : callMove? boxes names G.numStates e.1 e.2 with
    | none =>
      rw [addCalls_cons_of_eq_none h]
      exact ih
    | some move =>
      rw [addCalls_cons_of_eq_some h]
      exact @ih (G.addMove move.1 (Label.call move.2.1).key move.2.2)

/-! ## The first graph -/

/-- The graph with edges keyed as terminals, and with calls of the boxes with the empty word. -/
def initialGraph (m : Machine) (g : Graph) : Automaton Nat :=
  m.nullable.foldl
    (fun graph name => graph.modify (Label.call name).key (·.union (.identity _))) (edgeGraph g)

theorem foldlM_tryUnion_eq {l : List String} (hsize : G.states.size = n) :
    l.foldlM (fun graph name =>
        graph.tryUnion (Label.call name).key (BoolMatrix.identity n).shaped) G =
      .ok (l.foldl (fun graph name =>
        graph.modify (Label.call name).key (·.union (.identity _))) G) := by
  refine (foldlM_eq_ok (e := id) (I := fun G' => G'.states.size = n) (fun name _ G' hG' => ?_)
    hsize).1
  subst hG'
  exact ⟨Automaton.tryUnion_shaped, rfl⟩

theorem tryAddEmptyCalls_eq (hn : (edgeGraph g).numStates ≤ Word32.max) :
    tryAddEmptyCalls m (edgeGraph g) = .ok (initialGraph m g) := by
  rw [tryAddEmptyCalls, BoolMatrix.tryIdentity_eq hn]
  exact foldlM_tryUnion_eq rfl

theorem exists_foldl_modify_eq {l : List String} : ∃ matrices,
    l.foldl (fun graph name => graph.modify (Label.call name).key (·.union (.identity _))) G =
      { G with matrices := matrices } := by
  induction l generalizing G with
  | nil => exact ⟨G.matrices, rfl⟩
  | cons name l ih => exact @ih (G.modify (Label.call name).key (·.union (.identity _)))

/-! ## The rounds -/

theorem pos_of_entries_ne_nil
    (h : (boxes.product G).closure.entries ≠ []) : 0 < G.numStates := by
  obtain ⟨⟨c, d⟩, he⟩ := List.exists_mem_of_ne_nil _ h
  have hlt := (BoolMatrix.lt_of_get (BoolMatrix.mem_entries.mp he)).1
  rw [Automaton.size_product] at hlt
  exact Nat.pos_of_mul_pos_left (Nat.zero_lt_of_lt hlt)

/-- A round, where the product of the boxes and the graph is formed. -/
theorem run_succ (hproduct : boxes.tryProduct G = .ok (boxes.product G)) :
    run boxes names (bound + 1) G rounds last =
      (let closure := (boxes.product G).closure
      if last = some closure.count then .ok (G, rounds + 1, closure.count)
      else run boxes names bound (addCalls boxes names closure.entries G) (rounds + 1)
        (some closure.count)) := by
  have hle := Automaton.le_of_tryProduct hproduct
  have hclosure : (boxes.product G).tryClosure = .ok (boxes.product G).closure.shaped :=
    Automaton.tryClosure_eq (by rwa [Automaton.numStates, Automaton.size_product])
  have hcalls : tryAddCalls boxes names (boxes.product G).closure.shaped.matrix.entries G =
      .ok (addCalls boxes names (boxes.product G).closure.entries G) :=
    tryAddCalls_eq pos_of_entries_ne_nil
  rw [run]
  simp only [bind, Except.bind, hproduct, hclosure, hcalls]
  rfl

theorem run_of_lt (hlt : Word32.max < boxes.numStates * G.numStates) :
    run boxes names (bound + 1) G rounds last = .error (.dimensionMismatch
      (boxes.numStates, boxes.numStates) (G.numStates, G.numStates)) := by
  rw [run, Automaton.tryProduct_of_lt hlt]
  rfl

/-! ## The facts -/

/-- The first graph has the nodes as its states, all of them start and final states. -/
theorem exists_initialGraph_eq : ∃ matrices, initialGraph m g =
    { edgeGraph g with matrices := matrices } := exists_foldl_modify_eq

theorem numStates_initialGraph : (initialGraph m g).numStates = g.nodes.length := by
  obtain ⟨matrices, h⟩ := @exists_initialGraph_eq m g
  rw [h]
  rfl

/-- What there is to do where there are nodes and boxes. -/
theorem derive_eq (hn : g.nodes.length ≤ Word32.max)
    (hsome : ¬(g.nodes.length = 0 ∨ m.isEmpty = true)) : derive m g = (do
      let boxes ← m.tryToAutomaton
      let size := boxes.numStates * g.nodes.length
      let (graph, rounds, entries) ←
        run boxes m.names (size * size + 2) (initialGraph m g) 0 none
      return ⟨facts m.names graph, rounds, entries⟩) := by
  have hfits : ¬Word32.max < (edgeGraph g).numStates := Nat.not_lt_of_le hn
  refine (if_neg hsome).trans ((if_neg hfits).trans ?_)
  rw [tryAddEmptyCalls_eq hn]
  rfl

/-- The facts are those of the rounds from the first graph. -/
theorem exists_derive_eq_run (hn : g.nodes.length ≤ Word32.max)
    (hsome : ¬(g.nodes.length = 0 ∨ m.isEmpty = true)) (hfits : m.Fits) :
    ∃ bound, derive m g = (do
      let (graph, rounds, entries) ←
        run m.toAutomaton m.names (bound + 1) (initialGraph m g) 0 none
      return ⟨facts m.names graph, rounds, entries⟩) := by
  refine ⟨m.toAutomaton.numStates * g.nodes.length *
    (m.toAutomaton.numStates * g.nodes.length) + 1, ?_⟩
  rw [derive_eq hn hsome, Machine.tryToAutomaton_eq_ok hfits]
  rfl

/-- Where there are nodes and states of boxes there is something to do. -/
theorem not_none_of_pos (hnodes : g.nodes.length ≠ 0) (hpos : 0 < m.numStates) :
    ¬(g.nodes.length = 0 ∨ m.isEmpty = true) := by
  rw [Machine.isEmpty_of_numStates_pos hpos]
  exact not_or_intro hnodes Bool.false_ne_true

/-- **Where the boxes have too many states**, that is a fault. -/
theorem derive_of_not_fits (hn : g.nodes.length ≤ Word32.max) (hnodes : g.nodes.length ≠ 0)
    (hfits : ¬m.Fits) : derive m g = .error (.fault m.oversize) := by
  have hlt : Word32.max < m.numStates := Nat.lt_of_not_le (mt Machine.fits_of_le hfits)
  rw [derive_eq hn (not_none_of_pos hnodes (Nat.zero_lt_of_lt hlt)),
    Machine.tryToAutomaton_of_not_fits hfits]
  rfl

/-- **Where the product of the boxes and the graph has too many states**, that is the failure. -/
theorem derive_of_lt (hn : g.nodes.length ≤ Word32.max) (hfits : m.Fits)
    (hlt : Word32.max < m.numStates * g.nodes.length) : derive m g =
      .error (.dimensionMismatch (m.numStates, m.numStates)
        (g.nodes.length, g.nodes.length)) := by
  have hnodes : g.nodes.length ≠ 0 := fun hzero => by
    rw [hzero] at hlt
    exact Nat.not_lt_zero _ hlt
  have hpos : 0 < m.numStates := Nat.pos_of_mul_pos_right (Nat.zero_lt_of_lt hlt)
  obtain ⟨bound, hderive⟩ := exists_derive_eq_run hn (not_none_of_pos hnodes hpos) hfits
  have hrun := @run_of_lt m.toAutomaton m.names (initialGraph m g) bound 0 none
    (by rwa [numStates_initialGraph, Machine.numStates_toAutomaton])
  rw [hderive, hrun, numStates_initialGraph, Machine.numStates_toAutomaton]
  rfl

end PathQuery.Tensor
