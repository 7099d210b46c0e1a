import PathQuery.Proofs.Nfa.Shape

/-!
# Proofs/Nfa/Accessible — every state of a subset automaton is reached

* `tryDeterminize_equivalent` — every well-formed automaton has a subset automaton, which accepts
  the same words without a fault, is deterministic, and has each state on a path from its start
  state.

The search numbers a set when a move leads to it and gives the move an arc at once, so that what is
reachable among the sets is reachable along arcs (`leads_determinize`).
-/

namespace PathQuery.Nfa

open Relation (ReflTransGen)

variable {A : Nfa} {i j q : Nat} {S T : List Nat}

/-- A move from one set to another is an arc between their numbers. -/
theorem leads_determinize (h : A.start.isEmpty = false) (hS : A.subsets[i]? = some S)
    (hT : A.subsets[j]? = some T) (hST : T ∈ A.nextSets S) : A.determinize.Leads i j := by
  obtain ⟨⟨label, T⟩, hmove, rfl⟩ := List.mem_map.mp hST
  obtain ⟨hlabel, rfl⟩ := mem_moves_iff.mp hmove
  exact ⟨some label, (mem_arcs_determinize h).mpr ⟨i, S, label, j, rfl, hS, hlabel, hT⟩⟩

theorem leads_determinize_of_reachable (h : A.start.isEmpty = false)
    (hS : Search.Reachable A.nextSets [A.closure A.start] S) (hi : A.subsets[i]? = some S) :
    ReflTransGen A.determinize.Leads 0 i := by
  induction hS generalizing i with
  | @seed S hS =>
    obtain rfl := List.mem_singleton.mp hS
    have hlt := (List.getElem?_eq_some_iff.mp hi).1
    rw [(List.getElem?_inj hlt nodup_subsets).mp (hi.trans getElem?_subsets_zero.symm)]
  | @step S T hS hST ih =>
    obtain ⟨k, hk⟩ := List.mem_iff_getElem?.mp (mem_subsets_iff.mpr hS)
    exact (ih hk).tail (leads_determinize h hk hi hST)

/-- **Accessibility**: arcs lead from the only start state to each state. -/
theorem accessible_determinize (hq : q < A.determinize.numStates) :
    ∃ p, A.determinize.start = [p] ∧ ReflTransGen A.determinize.Leads p q := by
  cases h : A.start.isEmpty with
  | true =>
    rw [determinize_of_isEmpty h] at hq
    exact absurd hq (Nat.not_lt_zero q)
  | false =>
    rw [determinize_of_isEmpty_eq_false h] at hq
    refine ⟨0, by rw [determinize_of_isEmpty_eq_false h], ?_⟩
    have hS : A.subsets[q]? = some A.subsets[q] := List.getElem?_eq_getElem hq
    exact leads_determinize_of_reachable h (mem_subsets_iff.mp (List.mem_of_getElem? hS)) hS

theorem numStates_determinize_eq_zero_iff : A.determinize.numStates = 0 ↔ A.start = [] := by
  cases h : A.start.isEmpty with
  | true =>
    rw [determinize_of_isEmpty h]
    exact iff_of_true rfl (List.isEmpty_iff.mp h)
  | false =>
    have hpos : 0 < A.determinize.numStates := by
      rw [determinize_of_isEmpty_eq_false h]
      exact (List.getElem?_eq_some_iff.mp getElem?_subsets_zero).1
    rw [← List.isEmpty_iff, h]
    exact iff_of_false (Nat.pos_iff_ne_zero.mp hpos) Bool.false_ne_true

/-- **Determinization** of a well-formed automaton succeeds: neither the search for the sets nor
that for a closure is cut short. The result accepts the same words, makes no empty moves, has at
most one arc for a state and a label, and each state on a path from its only start state; it has no
states exactly where there are no start states. -/
theorem tryDeterminize_equivalent (hA : A.wellFormed = true) :
    A.tryDeterminize = .ok A.determinize ∧
      SubsetSearch.Loop A A.startSearch A.subsetSearch ∧
      (∀ S, ∃ found, Search.Loop A.epsilonTargets [] (Distinct.ofList S) found ∧
        A.closure S = Ascending.ofList found) ∧
      (∀ w, A.tryAccepts w = .ok (A.accepts w) ∧
        A.determinize.tryAccepts w = .ok (A.accepts w)) ∧
      A.determinize.hasEpsilon = false ∧
      (A.determinize.arcs.map fun a => (a.src, a.label)).Nodup ∧
      (∀ q < A.determinize.numStates,
        ∃ p, A.determinize.start = [p] ∧ ReflTransGen A.determinize.Leads p q) ∧
      (A.determinize.numStates = 0 ↔ A.start = []) := by
  refine ⟨tryDeterminize_eq_ok hA, loop_subsetSearch, exists_loop_closure, fun w => ?_,
    hasEpsilon_determinize, nodup_arcs_determinize, fun q => accessible_determinize,
    numStates_determinize_eq_zero_iff⟩
  have haccepts : A.determinize.accepts w = A.accepts w :=
    Bool.eq_iff_iff.mpr accepts_determinize_iff
  exact ⟨tryAccepts_eq_ok hA, haccepts ▸ tryAccepts_eq_ok wellFormed_determinize⟩

/-- An automaton with a cycle of empty moves, a start state that is listed twice and an arc whose
label no symbol has. -/
def loopedNfa : Nfa where
  numStates := 3
  start := [0, 1, 0]
  final := [2]
  arcs := [⟨0, none, 1⟩, ⟨1, none, 0⟩, ⟨1, some 0, 2⟩, ⟨2, some 0, 2⟩, ⟨2, some 7, 0⟩]
  symbols := .ofList ["a"]

theorem tryDeterminize_equivalent_loopedNfa :
    loopedNfa.wellFormed = true ∧
      loopedNfa.tryDeterminize = .ok loopedNfa.determinize ∧
      (∀ w, loopedNfa.determinize.tryAccepts w = .ok (loopedNfa.accepts w)) ∧
      loopedNfa.determinize.arcs = [⟨0, some 0, 1⟩, ⟨1, some 0, 1⟩, ⟨1, some 7, 0⟩] ∧
      loopedNfa.determinize.numStates = 2 := by
  have hA : loopedNfa.wellFormed = true := by decide
  obtain ⟨hok, -, -, haccepts, -, -, -, -⟩ := tryDeterminize_equivalent hA
  exact ⟨hA, hok, fun w => (haccepts w).2, by decide, by decide⟩

end PathQuery.Nfa
