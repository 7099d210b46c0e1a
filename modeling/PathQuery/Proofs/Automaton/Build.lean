import PathQuery.Automaton.Build
import PathQuery.Proofs.Automaton.Guarded
import PathQuery.Proofs.Automaton.Reach
import PathQuery.Proofs.Nfa.Shape
import PathQuery.Proofs.Path.Numbered
import PathQuery.Proofs.Regex.Parse
import PathQuery.Query.Filter

/-!
# Proofs/Automaton/Build — automata of arc lists, of patterns and of graphs

* `ofNfa?_equivalent` — the automaton of an arc list accepts the same words; without empty moves it
  has the same states, start states, final states and moves.
* `exists_ofPattern?` — the automaton of a pattern accepts the words that the pattern denotes.
* `walk_ofGraph_iff`, `mem_select_iff` — the walks of a graph's automaton are those of the graph,
  with the nodes that a filter lets pass at their ends.
-/

namespace PathQuery.Automaton

variable {A D : Nfa} {g : Graph} {startNodes finalNodes filter : Option (List Nat)}
  {p q i j u v : Nat} {w : List String} {pattern : String} {e : Regex}

/-! ## Arc lists -/

theorem checkMove_eq_ok {n : Nat} (hi : i < n) (hj : j < n) : checkMove n i j = .ok () := by
  rw [checkMove, if_neg (Nat.not_le.mpr hj), if_neg (Nat.not_le.mpr hi)]

/-- The automaton of an arc list without empty moves. -/
abbrev ofArcs (D : Nfa) : Automaton Nat :=
  ofMoves (.range D.numStates) D.symbolArcs (Ascending.ofList D.start) (Ascending.ofList D.final)

theorem ofNfa?_eq_ok (hwf : D.wellFormed = true) (heps : D.hasEpsilon = false) :
    ofNfa? D = .ok (ofArcs D) := by
  have hmoves : D.symbolArcs.forM (fun e => checkMove D.numStates e.1 e.2.2) = .ok () :=
    forM_eq_ok fun e he => by
      obtain ⟨hi, hj⟩ := (Nfa.mem_symbolArcs.mp he).lt hwf
      exact checkMove_eq_ok hi hj
  simp only [ofNfa?, heps, Bool.false_eq_true, if_false]
  exact congrArg (fun r => r >>= fun _ => Except.ok (ofArcs D)) hmoves

theorem numStates_ofArcs : (ofArcs D).numStates = D.numStates := Numbering.size_range _

theorem walk_ofArcs_iff (hwf : D.wellFormed = true) (hp : p < D.numStates) :
    (ofArcs D).frame.Walk p w q ↔ D.frame.Walk p w q := by
  constructor
  · refine Frame.Walk.mono (fun _ _ => trivial) fun a s b hmove => ?_
    exact Nfa.mem_symbolArcs.mp (moves_ofMoves_iff.mp hmove).1
  · intro hw
    induction hw with
    | nil => exact .nil (show _ < (ofArcs D).numStates from numStates_ofArcs.symm ▸ hp)
    | cons hmove _ ih =>
      obtain ⟨hp, hq⟩ := hmove.lt hwf
      refine .cons (moves_ofMoves_iff.mpr ⟨Nfa.mem_symbolArcs.mpr hmove, ?_⟩) (ih hq)
      rw [Numbering.size_range]
      exact ⟨hp, hq⟩

theorem start_ofArcs_lt (hwf : D.wellFormed = true) :
    ∀ p ∈ (ofArcs D).start, p < (ofArcs D).numStates := fun p hp => by
  rw [numStates_ofArcs]
  exact (Nfa.wellFormed_iff.mp hwf).1 p (Ascending.mem_ofList.mp hp)

/-- **The automaton of an arc list** accepts the same words. -/
theorem accepts_ofArcs_iff (hwf : D.wellFormed = true) (heps : D.hasEpsilon = false) :
    (ofArcs D).accepts w = true ↔ D.accepts w = true := by
  rw [accepts_iff_walk (start_ofArcs_lt hwf), Nfa.accepts_iff_walk heps]
  have hstart : ∀ p, p ∈ (ofArcs D).start ↔ p ∈ D.start := fun p => Ascending.mem_ofList
  have hfinal : ∀ q, q ∈ (ofArcs D).final ↔ q ∈ D.final := fun q => Ascending.mem_ofList
  simp only [hstart, hfinal]
  refine exists_congr fun p => and_congr_right fun hp => exists_congr fun q => ?_
  rw [walk_ofArcs_iff hwf ((Nfa.wellFormed_iff.mp hwf).1 p hp)]

theorem tryAccepts_ofArcs (hwf : D.wellFormed = true) (heps : D.hasEpsilon = false) :
    (ofArcs D).tryAccepts w = .ok (D.accepts w) := by
  have haccepts : (ofArcs D).accepts w = D.accepts w := Bool.eq_iff_iff.mpr
    (accepts_ofArcs_iff hwf heps)
  rw [tryAccepts_eq_ok (start_ofArcs_lt hwf), haccepts]

theorem moves_ofArcs_iff {s : String} (hwf : D.wellFormed = true) :
    (ofArcs D).Moves s p q ↔ D.Move p s q := by
  rw [moves_ofMoves_iff, Nfa.mem_symbolArcs, Numbering.size_range]
  exact and_iff_left_of_imp fun hmove => hmove.lt hwf

/-- The arc list that an automaton is made of: the given one, or its subset automaton where some
move is empty. -/
theorem exists_ofNfa?_eq_ok (hA : A.wellFormed = true) :
    ∃ D, ofNfa? A = .ok (ofArcs D) ∧ D.wellFormed = true ∧ D.hasEpsilon = false ∧
      (∀ w, D.accepts w = A.accepts w) ∧ (A.hasEpsilon = false → D = A) := by
  cases heps : A.hasEpsilon with
  | false => exact ⟨A, ofNfa?_eq_ok hA heps, hA, heps, fun _ => rfl, fun _ => rfl⟩
  | true =>
    have hD : A.determinize.wellFormed = true := Nfa.wellFormed_determinize
    refine ⟨A.determinize, ?_, hD, Nfa.hasEpsilon_determinize,
      fun w => Bool.eq_iff_iff.mpr Nfa.accepts_determinize_iff, nofun⟩
    -- what is left to do is what is done for an arc list without empty moves
    have hrest := ofNfa?_eq_ok hD Nfa.hasEpsilon_determinize
    simp only [ofNfa?, heps, if_true, Nfa.tryDeterminize_eq_ok hA]
    simpa only [ofNfa?, Nfa.hasEpsilon_determinize, Bool.false_eq_true, if_false] using hrest

/-- **The automaton of an arc list** is made without a fault, and each word is accepted by it where
the arc list accepts it.  Where no move is empty it has the states of the arc list with their
numbers, the same start and final states, and a move for each arc whose label stands for a
symbol. -/
theorem ofNfa?_equivalent (hA : A.wellFormed = true) :
    ∃ M, ofNfa? A = .ok M ∧
      (∀ w, A.tryAccepts w = .ok (A.accepts w) ∧ M.tryAccepts w = .ok (A.accepts w)) ∧
      (A.hasEpsilon = false →
        (∀ i q, M.states.get? i = some q ↔ i = q ∧ q < A.numStates) ∧
        (∀ q, q ∈ M.start ↔ q ∈ A.start) ∧ (∀ q, q ∈ M.final ↔ q ∈ A.final) ∧
        ∀ p s q, M.Moves s p q ↔ A.Move p s q) := by
  obtain ⟨D, hok, hwf, heps, haccepts, hsame⟩ := exists_ofNfa?_eq_ok hA
  refine ⟨ofArcs D, hok, fun w => ⟨Nfa.tryAccepts_eq_ok hA, ?_⟩, fun hA' => ?_⟩
  · rw [tryAccepts_ofArcs hwf heps, haccepts]
  · obtain rfl := hsame hA'
    exact ⟨fun i q => Numbering.get?_range_eq_some_iff, fun q => Ascending.mem_ofList,
      fun q => Ascending.mem_ofList, fun p s q => moves_ofArcs_iff hA⟩

/-- An automaton with an empty move and with an arc whose label no symbol has. -/
def silentNfa : Nfa where
  numStates := 4
  start := [3]
  final := [0, 2]
  arcs := [⟨3, none, 1⟩, ⟨1, some 0, 2⟩, ⟨2, some 5, 0⟩, ⟨2, some 1, 1⟩]
  symbols := .ofList ["a", "b"]

theorem ofNfa?_equivalent_silentNfa :
    silentNfa.wellFormed = true ∧ silentNfa.hasEpsilon = true ∧
      (∃ M, ofNfa? silentNfa = .ok M ∧ M.tryAccepts ["a", "b", "a"] = .ok true ∧
        M.tryAccepts [] = .ok false ∧ M.tryAccepts ["a", "c"] = .ok false) ∧
      ∃ M, ofNfa? { silentNfa with arcs := silentNfa.arcs.tail } = .ok M ∧
        (∀ q, q ∈ M.start ↔ q = 3) ∧ M.Moves "b" 2 1 ∧ M.tryAccepts ["a"] = .ok false := by
  have hA : silentNfa.wellFormed = true := by decide
  obtain ⟨M, hM, haccepts, -⟩ := ofNfa?_equivalent hA
  obtain ⟨N, hN, hrefuses, hkept⟩ :=
    ofNfa?_equivalent (A := { silentNfa with arcs := silentNfa.arcs.tail }) (by decide)
  obtain ⟨-, hstart, -, hmoves⟩ := hkept (by decide)
  have hword : ∀ w b, silentNfa.accepts w = b → M.tryAccepts w = .ok b := fun w b h =>
    h ▸ (haccepts w).2
  exact ⟨hA, by decide,
    ⟨M, hM, hword _ _ (by decide), hword _ _ (by decide), hword _ _ (by decide)⟩,
    N, hN, fun q => (hstart q).trans List.mem_singleton,
    (hmoves 2 "b" 1).mpr ⟨1, by decide, by decide⟩, (hrefuses ["a"]).2⟩

/-- **The automaton of a pattern** accepts the words that the pattern denotes. -/
theorem exists_ofPattern? (h : Regex.parse? pattern = .ok e) :
    ∃ C, ofPattern? pattern = .ok C ∧ (∀ c ∈ C.start, c < C.numStates) ∧
      ∀ w, C.accepts w = true ↔ w ∈ e.language := by
  obtain ⟨hwf, heps⟩ : e.toMinimalDfa.wellFormed = true ∧ e.toMinimalDfa.hasEpsilon = false :=
    Nfa.wellFormed_minimize
  refine ⟨ofArcs e.toMinimalDfa, ?_, start_ofArcs_lt hwf, fun w => ?_⟩
  · rw [ofPattern?, Regex.minimalDfa?_eq_ok_iff.mpr ⟨e, h, rfl⟩]
    exact ofNfa?_eq_ok hwf heps
  · rw [accepts_ofArcs_iff hwf heps]
    exact (Regex.bounded_of_parse? h).accepts_toMinimalDfa_iff

/-! ## Graphs -/

theorem walk_ofGraph_iff (hi : g.numbering.get? i = some u) (hj : g.numbering.get? j = some v) :
    (ofGraph g startNodes finalNodes).frame.Walk i w j ↔ g.frame.Walk u w v := by
  rw [← Graph.walk_numbered_iff hi hj]
  constructor
  · exact Frame.Walk.mono (fun _ h => h) fun _ _ _ hmove => (moves_ofMoves_iff.mp hmove).1
  · refine Frame.Walk.mono (fun _ h => h) fun a s b hmove => ?_
    obtain ⟨_, _, ha, hb, -⟩ := Graph.mem_moves_iff.mp hmove
    exact moves_ofMoves_iff.mpr
      ⟨hmove, Numbering.get?_eq_some_lt ha, Numbering.get?_eq_some_lt hb⟩

/-- **The selected states** are the numbers of the nodes that a filter lets pass. -/
theorem mem_select_iff (hi : g.numbering.get? i = some u) :
    i ∈ select g.numbering filter ↔ PairFilter.passes filter u = true := by
  match filter with
  | none => simpa [select, PairFilter.passes] using Numbering.get?_eq_some_lt hi
  | some [] => simpa [select, PairFilter.passes] using Numbering.get?_eq_some_lt hi
  | some (x :: l) =>
    rw [PairFilter.passes, List.isEmpty_cons, Bool.false_or, decide_eq_true_eq]
    show i ∈ Ascending.ofList ((x :: l).filterMap g.numbering.index?) ↔ _
    rw [Ascending.mem_ofList, List.mem_filterMap]
    constructor
    · rintro ⟨y, hy, hindex⟩
      rw [Numbering.index?_eq_some_iff] at hindex
      cases hi.symm.trans hindex
      exact hy
    · exact fun hu => ⟨u, hu, Numbering.index?_eq_some_iff.mpr hi⟩

/-- **Reachability in a graph** along the nonempty words of an automaton, between nodes that the
filters let pass. -/
theorem exists_mem_reach_ofGraph_iff {C : Automaton Nat} (hC : ∀ c ∈ C.start, c < C.numStates) :
    (∃ ys, (u, ys) ∈ reach (ofGraph g startNodes finalNodes) C ∧ v ∈ ys) ↔
      (PairFilter.passes startNodes u = true ∧ PairFilter.passes finalNodes v = true) ∧
        ∃ w, w ≠ [] ∧ C.accepts w = true ∧ g.frame.Walk u w v := by
  rw [exists_mem_reach_iff hC]
  constructor
  · rintro ⟨i, hi, j, hj, hu, hv, w, hne, hw, hwalk⟩
    exact ⟨⟨(mem_select_iff hu).mp hi, (mem_select_iff hv).mp hj⟩, w, hne, hw,
      (walk_ofGraph_iff hu hv).mp hwalk⟩
  · rintro ⟨⟨hpu, hpv⟩, w, hne, hw, hwalk⟩
    obtain ⟨i, hi⟩ := Graph.exists_get?_numbering_iff.mpr hwalk.node
    obtain ⟨j, hj⟩ := Graph.exists_get?_numbering_iff.mpr hwalk.node_target
    exact ⟨i, (mem_select_iff hi).mpr hpu, j, (mem_select_iff hj).mpr hpv, hi, hj, w, hne, hw,
      (walk_ofGraph_iff hi hj).mpr hwalk⟩

end PathQuery.Automaton
