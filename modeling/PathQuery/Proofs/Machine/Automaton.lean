import PathQuery.Machine.Automaton
import PathQuery.Proofs.Automaton.Guarded
import PathQuery.Proofs.Automaton.Product
import PathQuery.Proofs.Data
import PathQuery.Proofs.Machine.Basic
import PathQuery.Proofs.Nfa.Shape

/-!
# Proofs/Machine/Automaton — the boxes side by side

* `tryToAutomaton_disjointUnion` — the automaton of all boxes is made unless there are too many
  states; it is the disjoint union of the boxes, and the walks from a start to a final state of a box
  spell what the box accepts.

A state of the automaton is the number of a state of a box, and a move stays in its box
(`moves_toAutomaton_iff`); so a walk is a walk of the box that it begins in.
-/

namespace PathQuery

namespace Machine

variable {m : Machine} {e : String × Nfa} {s name : String} {w : List String}
  {b p q i j : Nat}

/-! ## States and moves -/

theorem mem_boxStates_iff :
    ⟨b, q⟩ ∈ m.boxStates ↔ ∃ e, m.boxes[b]? = some e ∧ q < e.2.numStates := by
  simp only [boxStates, List.mem_flatMap, List.mem_map, List.mem_range, Prod.exists,
    List.mk_mem_zipIdx_iff_getElem?, BoxState.mk.injEq]
  constructor
  · rintro ⟨name, B, k, hB, _, hq, rfl, rfl⟩
    exact ⟨name, B, hB, hq⟩
  · rintro ⟨name, B, hB, hq⟩
    exact ⟨name, B, b, hB, q, hq, rfl, rfl⟩

/-- The states of the automaton of all boxes are the states of the boxes. -/
theorem exists_get?_states_iff :
    (∃ i, m.states.get? i = some ⟨b, q⟩) ↔ ∃ e, m.boxes[b]? = some e ∧ q < e.2.numStates := by
  rw [Numbering.exists_get?_iff, states, Numbering.mem_states_ofList, mem_boxStates_iff]

/-- No state of a box is listed twice. -/
theorem nodup_boxStates (m : Machine) : m.boxStates.Nodup := by
  have hplaces : m.boxes.zipIdx.Pairwise fun r s => r.2 ≠ s.2 := by
    refine List.pairwise_map.mp ?_
    rw [List.zipIdx_map_snd]
    exact List.nodup_range'
  refine List.pairwise_flatMap.mpr ⟨fun e _ => ?_, hplaces.imp fun {r s} hrs => ?_⟩
  · exact List.pairwise_map.mpr (List.nodup_range.imp fun h h' => h (BoxState.mk.inj h').2)
  · simp only [List.mem_map]
    rintro _ ⟨p, _, rfl⟩ _ ⟨q, _, rfl⟩ h
    exact hrs (BoxState.mk.inj h).1

theorem states_eq (m : Machine) : m.states = ⟨m.boxStates, m.nodup_boxStates⟩ :=
  Numbering.ofList_of_nodup m.nodup_boxStates

/-- The number of states of all boxes. -/
def numStates (m : Machine) : Nat := m.boxes.foldl (fun total e => total + e.2.numStates) 0

theorem length_boxStates (m : Machine) : m.boxStates.length = m.numStates := by
  calc m.boxStates.length
    _ = ((m.boxes.zipIdx.map (·.1)).map fun e => e.2.numStates).sum := by
      rw [boxStates, List.length_flatMap, List.map_map]
      simp [Function.comp_def]
    _ = m.numStates := by
      rw [List.zipIdx_map_fst, List.sum_eq_foldl_nat, List.foldl_map, numStates]

theorem isEmpty_of_numStates_pos (h : 0 < m.numStates) : m.isEmpty = false := by
  refine Bool.eq_false_iff.mpr fun hempty => ?_
  rw [numStates, List.isEmpty_iff.mp hempty] at h
  exact Nat.lt_irrefl 0 h

@[simp] theorem size_states (m : Machine) : m.states.size = m.numStates := by
  rw [states_eq]
  exact m.length_boxStates

/-- The automaton of all boxes has a state for each state of a box. -/
theorem numStates_toAutomaton : m.toAutomaton.numStates = m.numStates := m.size_states

theorem mem_moves_iff : (i, s, j) ∈ m.moves m.states ↔ ∃ b e p q, m.boxes[b]? = some e ∧
    e.2.Move p s q ∧ m.states.get? i = some ⟨b, p⟩ ∧ m.states.get? j = some ⟨b, q⟩ := by
  simp only [moves, List.mem_flatMap, List.mem_filterMap, Prod.exists,
    List.mk_mem_zipIdx_iff_getElem?, Nfa.mem_symbolArcs]
  constructor
  · rintro ⟨name, B, b, hB, p, t, q, hmove, h⟩
    obtain ⟨i', hi, h⟩ := Option.bind_eq_some_iff.mp h
    obtain ⟨j', hj, h⟩ := Option.bind_eq_some_iff.mp h
    cases h
    rw [Numbering.index?_eq_some_iff] at hi hj
    exact ⟨b, name, B, p, q, hB, hmove, hi, hj⟩
  · rintro ⟨b, name, B, p, q, hB, hmove, hi, hj⟩
    refine ⟨name, B, b, hB, p, s, q, hmove, ?_⟩
    rw [← Numbering.index?_eq_some_iff] at hi hj
    rw [hi, hj]
    rfl

theorem moves_toAutomaton_iff : m.toAutomaton.Moves s i j ↔ ∃ b e p q, m.boxes[b]? = some e ∧
    e.2.Move p s q ∧ m.states.get? i = some ⟨b, p⟩ ∧ m.states.get? j = some ⟨b, q⟩ := by
  rw [toAutomaton, automatonOf, Automaton.moves_ofMoves_iff, mem_moves_iff]
  refine and_iff_left_of_imp ?_
  rintro ⟨b, e, p, q, -, -, hi, hj⟩
  exact ⟨Numbering.get?_eq_some_lt hi, Numbering.get?_eq_some_lt hj⟩

/-- A move between two states of boxes is one of a box that they both belong to. -/
theorem moves_toAutomaton_of_get?_iff {c : Nat} (hb : m.boxes[b]? = some e)
    (hi : m.states.get? i = some ⟨b, p⟩) (hj : m.states.get? j = some ⟨c, q⟩) :
    m.toAutomaton.Moves s i j ↔ b = c ∧ e.2.Move p s q := by
  rw [moves_toAutomaton_iff]
  constructor
  · rintro ⟨b', e', p', q', hb', hmove, hi', hj'⟩
    cases hi.symm.trans hi'
    cases hj.symm.trans hj'
    cases hb.symm.trans hb'
    exact ⟨rfl, hmove⟩
  · rintro ⟨rfl, hmove⟩
    exact ⟨b, e, p, q, hb, hmove, hi, hj⟩

theorem mem_indices_iff {selection : Nfa → List Nat} : i ∈ m.indices m.states selection ↔
    ∃ b e q, m.boxes[b]? = some e ∧ q ∈ selection e.2 ∧ m.states.get? i = some ⟨b, q⟩ := by
  simp only [indices, Ascending.mem_ofList, List.mem_flatMap, List.mem_filterMap, Prod.exists,
    List.mk_mem_zipIdx_iff_getElem?, Numbering.index?_eq_some_iff]
  constructor
  · rintro ⟨name, B, b, hB, q, hq, hi⟩
    exact ⟨b, name, B, q, hB, hq, hi⟩
  · rintro ⟨b, name, B, q, hB, hq, hi⟩
    exact ⟨name, B, b, hB, q, hq, hi⟩

/-- The number of a state of a box is selected where the state is. -/
theorem mem_indices_of_get?_iff {selection : Nfa → List Nat} (hb : m.boxes[b]? = some e)
    (hi : m.states.get? i = some ⟨b, p⟩) :
    i ∈ m.indices m.states selection ↔ p ∈ selection e.2 := by
  rw [mem_indices_iff]
  constructor
  · rintro ⟨b', e', q, hb', hq, hi'⟩
    cases hi.symm.trans hi'
    cases hb.symm.trans hb'
    exact hq
  · exact fun hp => ⟨b, e, p, hb, hp, hi⟩

theorem isStart_toAutomaton_iff (hb : m.boxes[b]? = some e)
    (hi : m.states.get? i = some ⟨b, p⟩) : m.toAutomaton.isStart i = true ↔ p ∈ e.2.start :=
  decide_eq_true_iff.trans (mem_indices_of_get?_iff hb hi)

theorem isFinal_toAutomaton_iff (hb : m.boxes[b]? = some e)
    (hi : m.states.get? i = some ⟨b, p⟩) : m.toAutomaton.isFinal i = true ↔ p ∈ e.2.final :=
  decide_eq_true_iff.trans (mem_indices_of_get?_iff hb hi)

/-- A walk stays in the box that it begins in. -/
theorem walk_of_walk_toAutomaton (hw : m.toAutomaton.frame.Walk i w j)
    (hb : m.boxes[b]? = some e) (hi : m.states.get? i = some ⟨b, p⟩) :
    ∃ q, m.states.get? j = some ⟨b, q⟩ ∧ e.2.frame.Walk p w q := by
  induction hw generalizing p with
  | nil => exact ⟨p, hi, .nil trivial⟩
  | cons hmove _ ih =>
    obtain ⟨b', e', p', k, hb', hmove, hi', hk⟩ := moves_toAutomaton_iff.mp hmove
    cases hi.symm.trans hi'
    cases hb.symm.trans hb'
    obtain ⟨q, hj, hw⟩ := ih hk
    exact ⟨q, hj, .cons hmove hw⟩

theorem exists_walk_toAutomaton (hm : m.Minimal) (hb : m.boxes[b]? = some e)
    (hi : m.states.get? i = some ⟨b, p⟩) (hw : e.2.frame.Walk p w q) :
    ∃ j, m.states.get? j = some ⟨b, q⟩ ∧ m.toAutomaton.frame.Walk i w j := by
  induction hw generalizing i with
  | nil => exact ⟨i, hi, .nil (Numbering.get?_eq_some_lt hi)⟩
  | @cons p k q s w hmove _ ih =>
    have hlt := (hmove.lt (hm e (List.mem_of_getElem? hb)).1).2
    obtain ⟨i', hi'⟩ := exists_get?_states_iff.mpr ⟨e, hb, hlt⟩
    obtain ⟨j, hj, hw⟩ := ih hi'
    exact ⟨j, hj, .cons (moves_toAutomaton_iff.mpr ⟨b, e, p, k, hb, hmove, hi, hi'⟩) hw⟩

/-- The numbers of a start state and a final state of the box with a name. -/
def Crosses (m : Machine) (name : String) (i j : Nat) : Prop :=
  m.toAutomaton.isStart i = true ∧ m.toAutomaton.isFinal j = true ∧
    ∃ b p q, m.names[b]? = some name ∧ m.states.get? i = some ⟨b, p⟩ ∧
      m.states.get? j = some ⟨b, q⟩

/-- The numbers of a start state and a final state of the box at a place. -/
def Ends (A : Automaton BoxState) (b i j : Nat) : Prop :=
  A.isStart i = true ∧ A.isFinal j = true ∧
    ∃ p q, A.states.get? i = some ⟨b, p⟩ ∧ A.states.get? j = some ⟨b, q⟩

theorem crosses_iff_ends :
    m.Crosses name i j ↔ ∃ b, m.names[b]? = some name ∧ Ends m.toAutomaton b i j := by
  have hstates : m.toAutomaton.states = m.states := rfl
  simp only [Crosses, Ends, hstates, exists_and_left]
  tauto

theorem ends_iff (hb : m.boxes[b]? = some e) : Ends m.toAutomaton b i j ↔
    ∃ p ∈ e.2.start, ∃ q ∈ e.2.final,
      m.states.get? i = some ⟨b, p⟩ ∧ m.states.get? j = some ⟨b, q⟩ := by
  constructor
  · rintro ⟨hstart, hfinal, p, q, hi, hj⟩
    exact ⟨p, (isStart_toAutomaton_iff hb hi).mp hstart,
      q, (isFinal_toAutomaton_iff hb hj).mp hfinal, hi, hj⟩
  · rintro ⟨p, hp, q, hq, hi, hj⟩
    exact ⟨(isStart_toAutomaton_iff hb hi).mpr hp, (isFinal_toAutomaton_iff hb hj).mpr hq,
      p, q, hi, hj⟩

/-- The walks from a start to a final state of the box at a place spell what that box accepts. -/
theorem exists_walk_ends_iff (hm : m.Minimal) (hb : m.boxes[b]? = some e) :
    (∃ i j, Ends m.toAutomaton b i j ∧ m.toAutomaton.frame.Walk i w j) ↔
      e.2.accepts w = true := by
  obtain ⟨hwf, heps⟩ := hm e (List.mem_of_getElem? hb)
  simp only [ends_iff hb, Nfa.accepts_iff_walk heps]
  constructor
  · rintro ⟨i, j, ⟨p, hp, q, hq, hi, hj⟩, hw⟩
    obtain ⟨q', hj', hw⟩ := walk_of_walk_toAutomaton hw hb hi
    cases hj.symm.trans hj'
    exact ⟨p, hp, q, hq, hw⟩
  · rintro ⟨p, hp, q, hq, hw⟩
    obtain ⟨i, hi⟩ := exists_get?_states_iff.mpr ⟨e, hb, (Nfa.wellFormed_iff.mp hwf).1 p hp⟩
    obtain ⟨j, hj, hw⟩ := exists_walk_toAutomaton hm hb hi hw
    exact ⟨i, j, ⟨p, hp, q, hq, hi, hj⟩, hw⟩

/-- **Crossing a box**: the walks from a start to a final state of a box spell what it accepts. -/
theorem exists_crossing_iff (hm : m.Minimal) :
    (∃ i j, m.Crosses name i j ∧ m.toAutomaton.frame.Walk i w j) ↔
      ∃ B, m.box? name = some B ∧ B.accepts w = true := by
  constructor
  · rintro ⟨i, j, hcross, hw⟩
    obtain ⟨b, hname, hends⟩ := crosses_iff_ends.mp hcross
    rw [names, List.getElem?_map] at hname
    obtain ⟨⟨_, B⟩, hb, rfl⟩ := Option.map_eq_some_iff.mp hname
    exact ⟨B, box?_eq_some_iff.mpr (List.mem_of_getElem? hb),
      (exists_walk_ends_iff hm hb).mp ⟨i, j, hends, hw⟩⟩
  · rintro ⟨B, hB, haccepts⟩
    obtain ⟨b, hb⟩ := List.mem_iff_getElem?.mp (box?_eq_some_iff.mp hB)
    obtain ⟨i, j, hends, hw⟩ := (exists_walk_ends_iff hm hb).mpr haccepts
    refine ⟨i, j, crosses_iff_ends.mpr ⟨b, ?_, hends⟩, hw⟩
    rw [names, List.getElem?_map, hb]
    rfl

/-! ## The disjoint union -/

/-- **The disjoint union** of the boxes: an automaton whose states are the states of the boxes, each
with a number of its own, with the moves, the start states and the final states of the boxes and no
moves between different boxes. -/
structure DisjointUnion (m : Machine) (A : Automaton BoxState) : Prop where
  numStates : A.numStates = m.numStates
  states : ∀ b q, (∃ i, A.states.get? i = some ⟨b, q⟩) ↔
    ∃ e, m.boxes[b]? = some e ∧ q < e.2.numStates
  numbers : ∀ i j s, A.states.get? i = some s → A.states.get? j = some s → i = j
  moves : ∀ b c e p q i j s, m.boxes[b]? = some e → A.states.get? i = some ⟨b, p⟩ →
    A.states.get? j = some ⟨c, q⟩ → (A.Moves s i j ↔ b = c ∧ e.2.Move p s q)
  starts : ∀ b e p i, m.boxes[b]? = some e → A.states.get? i = some ⟨b, p⟩ →
    (A.isStart i = true ↔ p ∈ e.2.start)
  finals : ∀ b e p i, m.boxes[b]? = some e → A.states.get? i = some ⟨b, p⟩ →
    (A.isFinal i = true ↔ p ∈ e.2.final)

theorem disjointUnion_toAutomaton (m : Machine) : m.DisjointUnion m.toAutomaton where
  numStates := numStates_toAutomaton
  states _ _ := exists_get?_states_iff
  numbers _ _ _ := Numbering.get?_inj
  moves _ _ _ _ _ _ _ _ := moves_toAutomaton_of_get?_iff
  starts _ _ _ _ := isStart_toAutomaton_iff
  finals _ _ _ _ := isFinal_toAutomaton_iff

/-! ## Too many states -/

/-- There is a number for each state of a box, and where there are moves they have matrices. -/
def Fits (m : Machine) : Prop :=
  m.numStates ≤ Word32.max + 1 ∧ (m.moves m.states = [] ∨ m.numStates ≤ Word32.max)

/-- The fault of too many states: it names the first number of states that is refused. -/
def oversize (m : Machine) : Fault :=
  .oversizedShape (min m.numStates (Word32.max + 2), min m.numStates (Word32.max + 2))
    ShapedMatrix.limit

theorem fits_of_le (h : m.numStates ≤ Word32.max) : m.Fits := ⟨Nat.le_succ_of_le h, .inr h⟩

theorem collect_boxStates (m : Machine) : Numbering.collect m.boxStates =
    if m.numStates ≤ Word32.max + 1 then .ok m.states
    else .error (.fault (.oversizedShape (Word32.max + 2, Word32.max + 2) ShapedMatrix.limit)) := by
  rw [Numbering.collect, Numbering.tryOfList_of_nodup m.nodup_boxStates, length_boxStates, states_eq]
  split <;> rfl

/-- Where all states have numbers, it is a move that can find no matrix. -/
theorem tryToAutomaton_of_le (h : m.numStates ≤ Word32.max + 1) : m.tryToAutomaton =
    if m.moves m.states = [] ∨ m.numStates ≤ Word32.max then .ok m.toAutomaton
    else .error (.fault (.oversizedShape (m.numStates, m.numStates) ShapedMatrix.limit)) := by
  rw [tryToAutomaton, collect_boxStates, if_pos h]
  show ((m.moves m.states).forM (fun _ => Automaton.checkSize m.states.size) >>= fun _ => _) = _
  rw [Automaton.forM_checkSize, size_states]
  split <;> rfl

theorem tryToAutomaton_eq_ok (h : m.Fits) : m.tryToAutomaton = .ok m.toAutomaton :=
  (tryToAutomaton_of_le h.1).trans (if_pos h.2)

theorem tryToAutomaton_of_not_fits (h : ¬m.Fits) :
    m.tryToAutomaton = .error (.fault m.oversize) := by
  rw [oversize]
  by_cases hstates : m.numStates ≤ Word32.max + 1
  · rw [tryToAutomaton_of_le hstates, if_neg fun hmoves => h ⟨hstates, hmoves⟩,
      Nat.min_eq_left (by omega)]
  · rw [tryToAutomaton, collect_boxStates, if_neg hstates, Nat.min_eq_right (by omega)]
    rfl

theorem eq_toAutomaton_of_tryToAutomaton {A : Automaton BoxState}
    (h : m.tryToAutomaton = .ok A) : A = m.toAutomaton := by
  by_cases hfits : m.Fits
  · exact Except.ok.inj (h.symm.trans (tryToAutomaton_eq_ok hfits))
  · rw [tryToAutomaton_of_not_fits hfits] at h
    cases h

/-- **The automaton of all boxes** of a built machine is made where the states of the boxes have
numbers and their moves matrices, and nowhere else; that it is not is a fault.  It is the disjoint
union of the boxes.  A walk from a start to a final state of the box at a place spells what that box
accepts, which follows each word without a fault, and each word that the box accepts is spelled by
such a walk. -/
theorem tryToAutomaton_disjointUnion (hm : m.Built) :
    (m.Fits → ∃ A, m.tryToAutomaton = .ok A) ∧
      (¬m.Fits → m.tryToAutomaton = .error (.fault m.oversize)) ∧
      ∀ A, m.tryToAutomaton = .ok A → m.DisjointUnion A ∧ ∀ b e, m.boxes[b]? = some e → ∀ w,
        e.2.tryAccepts w = .ok (e.2.accepts w) ∧
        ((∃ i j, Ends A b i j ∧ A.frame.Walk i w j) ↔ e.2.accepts w = true) := by
  refine ⟨fun h => ⟨_, tryToAutomaton_eq_ok h⟩, tryToAutomaton_of_not_fits, fun A hA => ?_⟩
  obtain rfl := eq_toAutomaton_of_tryToAutomaton hA
  refine ⟨m.disjointUnion_toAutomaton, fun b e hb w => ⟨?_, exists_walk_ends_iff hm.minimal hb⟩⟩
  exact Nfa.tryAccepts_eq_ok (hm.minimal e (List.mem_of_getElem? hb)).1

/-- A box that calls itself and one that is not there, and has an arc without a symbol. -/
def callingNfa : Nfa where
  numStates := 4
  start := [0]
  final := [2]
  arcs := [⟨0, some 0, 1⟩, ⟨1, some 1, 2⟩, ⟨1, some 2, 3⟩, ⟨3, some 0, 2⟩, ⟨0, some 7, 2⟩]
  symbols := .ofList ["'a", "@S", "@U"]

/-- The machine of a grammar, and another box set beside its own. -/
def callingMachine : Machine :=
  (ofGrammar (.ofList "T" [⟨"T", [.terminal "c"]⟩])).setBox "S" callingNfa.minimize

theorem tryToAutomaton_disjointUnion_callingMachine :
    callingMachine.Built ∧ callingMachine.names = ["S", "T"] ∧ callingMachine.Fits ∧
      ∃ A, callingMachine.tryToAutomaton = .ok A ∧ A.numStates = 6 ∧
        (∃ i j, Ends A 0 i j ∧ A.frame.Walk i ["'a", "@U", "'a"] j) ∧
        (¬∃ i j, Ends A 0 i j ∧ A.frame.Walk i ["'c"] j) ∧
        ∃ i j, Ends A 1 i j ∧ A.frame.Walk i ["'c"] j := by
  have hadd : (ofGrammar (.ofList "T" [⟨"T", [.terminal "c"]⟩])).tryAddBox "S" callingNfa =
      .ok callingMachine := by
    rw [tryAddBox, Nfa.tryMinimize_eq_ok (by decide)]
    rfl
  have hbuilt : callingMachine.Built := .addBox (.ofGrammar _) hadd
  have hfits : callingMachine.Fits := fits_of_le (by decide +kernel)
  obtain ⟨hmade, -, hunion⟩ := tryToAutomaton_disjointUnion hbuilt
  obtain ⟨A, hA⟩ := hmade hfits
  obtain ⟨hunion, hwalks⟩ := hunion A hA
  refine ⟨hbuilt, by decide +kernel, hfits, A, hA, hunion.numStates.trans (by decide +kernel),
    ?_, ?_, ?_⟩
  · exact (hwalks 0 _ (List.getElem?_eq_getElem (by decide +kernel)) _).2.mpr (by decide +kernel)
  · refine fun h => absurd ((hwalks 0 _ (List.getElem?_eq_getElem ?_) _).2.mp h) ?_
    all_goals decide +kernel
  · exact (hwalks 1 _ (List.getElem?_eq_getElem (by decide +kernel)) _).2.mpr (by decide +kernel)

end Machine

end PathQuery
