import Mathlib.Data.List.Nodup
import PathQuery.Nfa.Guarded
import PathQuery.Proofs.Path.Walk

/-!
# Proofs/Nfa/Path — automata accept the words of their paths

`Nfa.Path` follows arcs one at a time, `Nfa.run` all paths of a word together in closed sets of
states; `mem_run_closure_iff` says that the two lead to the same states, and `accepts_iff` that a
word is accepted where some path leads from a start state to a final state.  A well-formed automaton
follows every word without a fault (`tryAccepts_eq_ok`).  Without empty moves paths are the walks of
a frame (`path_iff_walk`).
-/

namespace PathQuery.Nfa

variable {A : Nfa} {p q r : Nat} {s : String} {w w' : List String} {S : List Nat}

/-- An arc whose label stands for a symbol. -/
def Move (A : Nfa) (p : Nat) (s : String) (q : Nat) : Prop :=
  ∃ label, ⟨p, some label, q⟩ ∈ A.arcs ∧ A.symbols.get? label = some s

/-- **Paths**: along arcs, with the symbols of those that are no empty moves. -/
inductive Path (A : Nfa) : Nat → List String → Nat → Prop where
  | nil (q : Nat) : Path A q [] q
  | silent {p q r : Nat} {w : List String} : ⟨p, none, q⟩ ∈ A.arcs → Path A q w r → Path A p w r
  | move {p q r : Nat} {s : String} {w : List String} :
      A.Move p s q → Path A q w r → Path A p (s :: w) r

theorem Path.append (h : A.Path p w q) (h' : A.Path q w' r) : A.Path p (w ++ w') r := by
  induction h with
  | nil => exact h'
  | silent ha _ ih => exact .silent ha (ih h')
  | move hm _ ih => exact .move hm (ih h')

/-- A path along a word begins with empty moves and a move on the first symbol. -/
theorem path_cons_iff :
    A.Path p (s :: w) r ↔ ∃ p' q, A.Path p [] p' ∧ A.Move p' s q ∧ A.Path q w r := by
  constructor
  · intro h
    generalize hw : s :: w = sw at h
    induction h with
    | nil => cases hw
    | silent ha _ ih =>
      obtain ⟨p', q, hp, hm, hq⟩ := ih hw
      exact ⟨p', q, .silent ha hp, hm, hq⟩
    | @move p q r s w hm hq ih =>
      cases hw
      exact ⟨p, q, .nil p, hm, hq⟩
  · rintro ⟨p', q, hp, hm, hq⟩
    exact hp.append (.move hm hq)

/-! ## Closed sets of states -/

theorem mem_epsilonTargets : q ∈ A.epsilonTargets p ↔ ⟨p, none, q⟩ ∈ A.arcs := by
  simp only [epsilonTargets, List.mem_filterMap, Option.ite_none_right_eq_some, Option.some.injEq]
  constructor
  · rintro ⟨⟨_, _, _⟩, ha, ⟨rfl, rfl⟩, rfl⟩
    exact ha
  · exact fun ha => ⟨_, ha, ⟨rfl, rfl⟩, rfl⟩

theorem reachable_epsilonTargets_iff :
    Search.Reachable A.epsilonTargets S q ↔ ∃ p ∈ S, A.Path p [] q := by
  constructor
  · intro h
    induction h with
    | seed hq => exact ⟨_, hq, .nil _⟩
    | step _ hq ih =>
      obtain ⟨p, hp, hpath⟩ := ih
      exact ⟨p, hp, hpath.append (.silent (mem_epsilonTargets.mp hq) (.nil _))⟩
  · rintro ⟨p, hp, hpath⟩
    have key : ∀ {p w q}, A.Path p w q → w = [] → Search.Reachable A.epsilonTargets S p →
        Search.Reachable A.epsilonTargets S q := by
      intro p w q h
      induction h with
      | nil => exact fun _ h => h
      | silent ha _ ih => exact fun hw h => ih hw (.step h (mem_epsilonTargets.mpr ha))
      | move _ _ _ => exact fun hw => absurd hw (List.cons_ne_nil _ _)
    exact key hpath rfl (.seed hp)

theorem mem_of_reachable_epsilonTargets (h : Search.Reachable A.epsilonTargets S q) :
    q ∈ S ++ A.arcs.map (·.dst) := by
  cases h with
  | seed hq => exact List.mem_append_left _ hq
  | step _ hq =>
    exact List.mem_append_right _ (List.mem_map.mpr ⟨_, mem_epsilonTargets.mp hq, rfl⟩)

theorem mem_closure_iff : q ∈ A.closure S ↔ ∃ p ∈ S, A.Path p [] q := by
  rw [closure, Ascending.mem_ofList,
    Search.mem_reach_iff (fun _ => mem_of_reachable_epsilonTargets) (by simp),
    reachable_epsilonTargets_iff]

/-- The search for a closure is not cut short by its bound. -/
theorem exists_loop_closure (S : List Nat) :
    ∃ found, Search.Loop A.epsilonTargets [] (Distinct.ofList S) found ∧
      A.closure S = Ascending.ofList found :=
  ⟨_, Search.loop_reach (fun _ => mem_of_reachable_epsilonTargets) (by simp), rfl⟩

theorem mem_targets_iff {label : Nat} :
    q ∈ A.targets S label ↔ ∃ p ∈ S, ⟨p, some label, q⟩ ∈ A.arcs := by
  simp only [targets, List.mem_filterMap, Option.ite_none_right_eq_some, Option.some.injEq]
  constructor
  · rintro ⟨⟨p, _, _⟩, ha, ⟨rfl, hp⟩, rfl⟩
    exact ⟨p, hp, ha⟩
  · rintro ⟨p, hp, ha⟩
    exact ⟨_, ha, ⟨rfl, hp⟩, rfl⟩

/-- **Runs are paths**: a word leads to the states that paths along it lead to. -/
theorem mem_run_closure_iff : q ∈ A.run (A.closure S) w ↔ ∃ p ∈ S, A.Path p w q := by
  induction w generalizing S with
  | nil => exact mem_closure_iff
  | cons s w ih =>
    simp only [path_cons_iff]
    rw [run]
    cases hs : A.symbols.index? s with
    | none =>
      refine iff_of_false List.not_mem_nil ?_
      rintro ⟨p, -, p', q', -, ⟨label, -, hlabel⟩, -⟩
      rw [Numbering.index?_eq_some_iff.mpr hlabel] at hs
      cases hs
    | some label =>
      rw [Numbering.index?_eq_some_iff] at hs
      rw [ih]
      constructor
      · rintro ⟨q', hq', hpath⟩
        obtain ⟨p', hp', ha⟩ := mem_targets_iff.mp hq'
        obtain ⟨p, hp, hpp'⟩ := mem_closure_iff.mp hp'
        exact ⟨p, hp, p', q', hpp', ⟨label, ha, hs⟩, hpath⟩
      · rintro ⟨p, hp, p', q', hpp', ⟨label', ha, hlabel'⟩, hpath⟩
        obtain rfl : label' = label := by
          rw [← Numbering.index?_eq_some_iff] at hs hlabel'
          exact Option.some.inj (hlabel'.symm.trans hs)
        exact ⟨q', mem_targets_iff.mpr ⟨p', mem_closure_iff.mpr ⟨p, hp, hpp'⟩, ha⟩, hpath⟩

/-- **Acceptance**: by a path from a start state to a final state. -/
theorem accepts_iff : A.accepts w = true ↔ ∃ p ∈ A.start, ∃ q ∈ A.final, A.Path p w q := by
  simp only [accepts, List.any_eq_true, decide_eq_true_eq, mem_run_closure_iff]
  constructor
  · rintro ⟨q, ⟨p, hp, hpath⟩, hq⟩
    exact ⟨p, hp, q, hq, hpath⟩
  · rintro ⟨p, hp, q, hq, hpath⟩
    exact ⟨q, ⟨p, hp, hpath⟩, hq⟩

/-! ## States in range -/

theorem inRange_iff : A.inRange S = true ↔ ∀ q ∈ S, q < A.numStates := by
  simp only [inRange, List.all_eq_true, decide_eq_true_eq]

/-- All states that an automaton mentions are its own. -/
theorem wellFormed_iff : A.wellFormed = true ↔
    (∀ q ∈ A.start, q < A.numStates) ∧ (∀ q ∈ A.final, q < A.numStates) ∧
      ∀ a ∈ A.arcs, a.src < A.numStates ∧ a.dst < A.numStates := by
  simp only [wellFormed, Bool.and_eq_true, inRange_iff, List.forall_mem_map, and_assoc,
    forall_and]

theorem Move.lt (hA : A.wellFormed = true) (h : A.Move p s q) :
    p < A.numStates ∧ q < A.numStates := by
  obtain ⟨label, ha, -⟩ := h
  exact (wellFormed_iff.mp hA).2.2 _ ha

theorem Path.lt (hA : A.wellFormed = true) (h : A.Path p w q) (hp : p < A.numStates) :
    q < A.numStates := by
  induction h with
  | nil => exact hp
  | silent ha _ ih => exact ih ((wellFormed_iff.mp hA).2.2 _ ha).2
  | move hm _ ih => exact ih (hm.lt hA).2

theorem inRange_closure (hA : A.wellFormed = true) (hS : A.inRange S = true) :
    A.inRange (A.closure S) = true := by
  refine inRange_iff.mpr fun q hq => ?_
  obtain ⟨p, hp, hpath⟩ := mem_closure_iff.mp hq
  exact hpath.lt hA (inRange_iff.mp hS p hp)

theorem inRange_targets (hA : A.wellFormed = true) {label : Nat} :
    A.inRange (A.targets S label) = true := by
  refine inRange_iff.mpr fun q hq => ?_
  obtain ⟨p, -, ha⟩ := mem_targets_iff.mp hq
  exact ((wellFormed_iff.mp hA).2.2 _ ha).2

/-- A word leads through states of the automaton only. -/
theorem inRange_visited (hA : A.wellFormed = true) (hS : A.inRange S = true) :
    A.inRange (A.visited S w) = true := by
  induction w generalizing S with
  | nil => exact hS
  | cons s w ih =>
    rw [visited]
    split
    · exact hS
    · next label _ =>
      have hrest := ih (inRange_closure hA (@inRange_targets A S hA label))
      refine inRange_iff.mpr fun q hq => ?_
      exact (List.mem_append.mp hq).elim (inRange_iff.mp hS q) (inRange_iff.mp hrest q)

theorem tryAccepts_eq_ok (hA : A.wellFormed = true) : A.tryAccepts w = .ok (A.accepts w) := by
  have hstart : A.inRange A.start = true := inRange_iff.mpr (wellFormed_iff.mp hA).1
  have hsrc : A.inRange (A.arcs.map (·.src)) = true :=
    inRange_iff.mpr (List.forall_mem_map.mpr fun a ha => ((wellFormed_iff.mp hA).2.2 a ha).1)
  rw [tryAccepts, hsrc, inRange_visited hA (inRange_closure hA hstart)]
  rfl

/-! ## Automata without empty moves -/

/-- The states of an automaton, with an edge for each arc whose label stands for a symbol. -/
def frame (A : Nfa) : Frame Nat String where
  node _ := True
  edge := A.Move
  source _ := trivial

theorem lt_of_walk (hA : A.wellFormed = true) (hw : A.frame.Walk p w q) (hp : p < A.numStates) :
    q < A.numStates := by
  induction hw with
  | nil => exact hp
  | cons hm _ ih => exact ih (hm.lt hA).2

theorem mem_symbolArcs : (p, s, q) ∈ A.symbolArcs ↔ A.Move p s q := by
  simp only [symbolArcs, symbol?, List.mem_filterMap, Option.map_eq_some_iff, Prod.mk.injEq,
    Option.bind_eq_some_iff]
  constructor
  · rintro ⟨⟨_, _, _⟩, ha, _, ⟨label, rfl, hs⟩, rfl, rfl, rfl⟩
    exact ⟨label, ha, hs⟩
  · rintro ⟨label, ha, hs⟩
    exact ⟨_, ha, s, ⟨label, rfl, hs⟩, rfl, rfl, rfl⟩

theorem label_ne_none (hA : A.hasEpsilon = false) : (⟨p, none, q⟩ : Arc) ∉ A.arcs := fun ha => by
  have := List.any_eq_false.mp hA _ ha
  exact this rfl

theorem path_iff_walk (hA : A.hasEpsilon = false) : A.Path p w q ↔ A.frame.Walk p w q := by
  constructor
  · intro h
    induction h with
    | nil => exact .nil trivial
    | silent ha _ _ => exact absurd ha (label_ne_none hA)
    | move hm _ ih => exact .cons hm ih
  · intro h
    induction h with
    | nil => exact .nil _
    | cons hm _ ih => exact .move hm ih

theorem accepts_iff_walk (hA : A.hasEpsilon = false) :
    A.accepts w = true ↔ ∃ p ∈ A.start, ∃ q ∈ A.final, A.frame.Walk p w q := by
  simp only [accepts_iff, path_iff_walk hA]

/-- A word has at most one path from each state. -/
structure Deterministic (A : Nfa) : Prop where
  hasEpsilon : A.hasEpsilon = false
  functional : ∀ a ∈ A.arcs, ∀ b ∈ A.arcs, a.src = b.src → a.label = b.label → a.dst = b.dst

theorem isDeterministic_iff : A.isDeterministic = true ↔ A.start.length ≤ 1 ∧
    A.hasEpsilon = false ∧ (A.arcs.map fun a => (a.src, a.label)).Nodup := by
  simp only [isDeterministic, Bool.and_eq_true, Bool.not_eq_true', decide_eq_true_eq, and_assoc]

theorem deterministic_of_isDeterministic (hA : A.isDeterministic = true) : A.Deterministic := by
  obtain ⟨-, heps, hnodup⟩ := isDeterministic_iff.mp hA
  refine ⟨heps, fun a ha b hb hsrc hlabel => ?_⟩
  rw [List.inj_on_of_nodup_map hnodup ha hb (Prod.ext hsrc hlabel)]

end PathQuery.Nfa
