import Mathlib.Data.List.Forall2
import PathQuery.Regex.Nfa

/-!
# Proofs/Regex/Fragment — the automaton of an expression by itself

* `adds_compile` — compiling an expression adds a fragment to an automaton, and nothing else.

A `Fragment` holds the arcs that an expression adds to an automaton apart from the arcs that the
automaton had before, and a `Builder` gives the fragment for each number of states that the
automaton had.  What is added does not depend on the old arcs and symbols (`Compiler.Adds`), which
goes through the parts of an expression one by one.
-/

namespace PathQuery.Regex

/-- A part of an automaton, with arcs labelled by symbols or by nothing. -/
structure Fragment where
  /-- The state that paths enter by. -/
  entry : Nat
  /-- The state that paths leave by. -/
  exit : Nat
  /-- The first number that is no state of the fragment. -/
  next : Nat
  arcs : List (Nat × Option String × Nat)

/-- A fragment for each number that its states may be numbered from. -/
abbrev Builder := Nat → Fragment

namespace Builder

/-- One arc between two states. -/
def arc (label : Option String) : Builder := fun k => ⟨k, k + 1, k + 2, [(k, label, k + 1)]⟩

/-- The fragments behind one that ends in the state `exit`, each entered from the one before it. -/
def chainFrom (exit next : Nat) : List Builder → Nat × Nat × List (Nat × Option String × Nat)
  | [] => (exit, next, [])
  | part :: parts =>
    let F := part next
    let (exit', next', arcs) := chainFrom F.exit F.next parts
    (exit', next', F.arcs ++ (exit, none, F.entry) :: arcs)

/-- Fragments one after another; none make an empty move. -/
def chain : List Builder → Builder
  | [] => arc none
  | part :: parts => fun k =>
    let F := part k
    let (exit, next, arcs) := chainFrom F.exit F.next parts
    ⟨F.entry, exit, next, F.arcs ++ arcs⟩

/-- Fragments that are each entered from the state `entry` and left to the state `exit`. -/
def branchesFrom (entry exit next : Nat) :
    List Builder → Nat × List (Nat × Option String × Nat)
  | [] => (next, [])
  | branch :: branches =>
    let F := branch next
    let (next', arcs) := branchesFrom entry exit F.next branches
    (next', F.arcs ++ (entry, none, F.entry) :: (F.exit, none, exit) :: arcs)

/-- A choice between fragments. -/
def choice (branches : List Builder) : Builder := fun k =>
  let (next, arcs) := branchesFrom k (k + 1) (k + 2) branches
  ⟨k, k + 1, next, arcs⟩

/-- A fragment passed any number of times. -/
def loop (inner : Builder) : Builder := fun k =>
  let F := inner (k + 2)
  ⟨k, k + 1, F.next, F.arcs ++
    [(k, none, k + 1), (k, none, F.entry), (F.exit, none, F.entry), (F.exit, none, k + 1)]⟩

/-- A fragment passed at least `min` times, and at most `max` times where that is given. -/
def copies (inner : Builder) (min : Nat) (max : Option Nat) : Builder :=
  chain (List.replicate min inner ++
    match max with
    | none => [loop inner]
    | some max => List.replicate (max - min) (choice [inner, arc none]))

end Builder

mutual

/-- The fragment of an expression. -/
def builder : Regex → Builder
  | epsilon => .arc none
  | symbol name => .arc (some name)
  | concat parts => .chain (builders parts)
  | union branches => .choice (builders branches)
  | star inner => .loop (builder inner)
  | repetition inner min max => .copies (builder inner) min max

/-- The fragments of a list of expressions. -/
def builders : List Regex → List Builder
  | [] => []
  | r :: rs => builder r :: builders rs

end

/-! ## What compiling adds -/

/-- The automaton with one more arc, labelled with a symbol or with nothing. -/
def addFragmentArc (A : Nfa) (arc : Nat × Option String × Nat) : Nfa :=
  match arc with
  | (src, some name, dst) => A.addSymbolArc src name dst
  | (src, none, dst) => A.addArc src none dst

variable {A : Nfa} {n exit : Nat} {arcs arcs' : List (Nat × Option String × Nat)} {E : Ends}
  {c : Compiler} {b : Builder} {cs : List Compiler} {bs : List Builder}

theorem forall₂_replicate {α β : Type} {R : α → β → Prop} {a : α} {a' : β} (h : R a a') (n : Nat) :
    List.Forall₂ R (List.replicate n a) (List.replicate n a') := by
  induction n with
  | zero => exact .nil
  | succ n ih => exact .cons h ih

/-- The automaton with some arcs and the states below a number. -/
def addArcs (A : Nfa) (next : Nat) (arcs : List (Nat × Option String × Nat)) : Nfa :=
  arcs.foldl addFragmentArc { A with numStates := next }

/-- A compiler adds just the fragments of a builder, from the first new state on. -/
def Compiler.Adds (c : Compiler) (b : Builder) : Prop :=
  ∀ A, c A = (addArcs A (b A.numStates).next (b A.numStates).arcs,
    ⟨(b A.numStates).entry, (b A.numStates).exit⟩)

theorem addFragmentArc_numStates (a : Nat × Option String × Nat) :
    addFragmentArc { A with numStates := n } a = { addFragmentArc A a with numStates := n } := by
  obtain ⟨p, _ | s, q⟩ := a <;> rfl

theorem addArcs_eq : addArcs A n arcs = { arcs.foldl addFragmentArc A with numStates := n } := by
  rw [addArcs]
  induction arcs generalizing A with
  | nil => rfl
  | cons a arcs ih => rw [List.foldl_cons, addFragmentArc_numStates, ih, List.foldl_cons]

@[simp] theorem numStates_addArcs : (addArcs A n arcs).numStates = n := by rw [addArcs_eq]

/-- Arcs that are added in two goes are added in one. -/
theorem addArcs_addArcs {m : Nat} :
    addArcs (addArcs A n arcs) m arcs' = addArcs A m (arcs ++ arcs') := by
  have hfold : ∀ {B : Nfa}, arcs'.foldl addFragmentArc { B with numStates := n } =
      { arcs'.foldl addFragmentArc B with numStates := n } := fun {B} => addArcs_eq
  rw [addArcs_eq, addArcs_eq, addArcs_eq, hfold, List.foldl_append]

theorem addArc_addArcs {p q : Nat} :
    (addArcs A n arcs).addArc p none q = addArcs A n (arcs ++ [(p, none, q)]) := by
  rw [addArcs, addArcs, List.foldl_append]
  rfl

theorem Compiler.Adds.addArcs (h : c.Adds b) : c (addArcs A n arcs) =
    (addArcs A (b n).next (arcs ++ (b n).arcs), ⟨(b n).entry, (b n).exit⟩) := by
  rw [h, numStates_addArcs, addArcs_addArcs]

namespace Compiler

theorem adds_arc (label : Option String) : (arc label).Adds (.arc label) := by
  intro A
  cases label <;> rfl

theorem chainFrom_addArcs (h : List.Forall₂ Adds cs bs) :
    chainFrom exit cs (Regex.addArcs A n arcs) =
      (Regex.addArcs A (Builder.chainFrom exit n bs).2.1
        (arcs ++ (Builder.chainFrom exit n bs).2.2), (Builder.chainFrom exit n bs).1) := by
  induction h generalizing exit n arcs with
  | nil => simp [chainFrom, Builder.chainFrom]
  | cons hc _ ih =>
    rw [chainFrom, hc.addArcs]
    simp only [addArc_addArcs, ih, Builder.chainFrom, List.append_assoc, List.singleton_append]

theorem adds_chain (h : List.Forall₂ Adds cs bs) : (chain cs).Adds (.chain bs) := by
  intro A
  cases h with
  | nil => exact adds_arc none A
  | cons hc h =>
    simp only [chain, hc A, chainFrom_addArcs h]
    rfl

theorem branchesFrom_addArcs (h : List.Forall₂ Adds cs bs) :
    branchesFrom E cs (Regex.addArcs A n arcs) =
      Regex.addArcs A (Builder.branchesFrom E.entry E.exit n bs).1
        (arcs ++ (Builder.branchesFrom E.entry E.exit n bs).2) := by
  induction h generalizing n arcs with
  | nil => simp [branchesFrom, Builder.branchesFrom]
  | cons hc _ ih =>
    rw [branchesFrom, hc.addArcs]
    simp only [addArc_addArcs, ih, Builder.branchesFrom, List.append_assoc, List.cons_append,
      List.nil_append]

/-- Two new states, before any arcs. -/
theorem addState_addState (A : Nfa) :
    A.addState = (Regex.addArcs A (A.numStates + 1) [], A.numStates) ∧
      (Regex.addArcs A (A.numStates + 1) []).addState =
        (Regex.addArcs A (A.numStates + 2) [], A.numStates + 1) := ⟨rfl, rfl⟩

theorem adds_choice (h : List.Forall₂ Adds cs bs) : (choice cs).Adds (.choice bs) := by
  intro A
  obtain ⟨hentry, hexit⟩ := addState_addState A
  simp only [choice, hentry, hexit, branchesFrom_addArcs h]
  rfl

theorem adds_loop (h : c.Adds b) : (loop c).Adds (.loop b) := by
  intro A
  obtain ⟨hentry, hexit⟩ := addState_addState A
  simp only [loop, hentry, hexit, h.addArcs, addArc_addArcs, List.append_assoc]
  rfl

theorem adds_copies (h : c.Adds b) (min : Nat) (max : Option Nat) :
    (copies c min max).Adds (.copies b min max) := by
  refine adds_chain (List.rel_append (forall₂_replicate h min) ?_)
  cases max with
  | none => exact .cons (adds_loop h) .nil
  | some max =>
    exact forall₂_replicate (adds_choice (.cons h (.cons (adds_arc none) .nil))) (max - min)

end Compiler

mutual

/-- **Compiling** an expression adds its fragment. -/
theorem adds_compile : (e : Regex) → (compile e).Adds (builder e)
  | epsilon => Compiler.adds_arc none
  | symbol name => Compiler.adds_arc (some name)
  | concat parts => Compiler.adds_chain (adds_compilers parts)
  | union branches => Compiler.adds_choice (adds_compilers branches)
  | star inner => Compiler.adds_loop (adds_compile inner)
  | repetition inner min max => Compiler.adds_copies (adds_compile inner) min max

theorem adds_compilers : (es : List Regex) → List.Forall₂ Compiler.Adds (compilers es) (builders es)
  | [] => .nil
  | e :: es => .cons (adds_compile e) (adds_compilers es)

end

/-- The automaton of an expression has just the states and arcs of its fragment. -/
theorem toNfa_eq (e : Regex) : e.toNfa =
    { addArcs .empty (e.builder 0).next (e.builder 0).arcs with
      start := [(e.builder 0).entry]
      final := [(e.builder 0).exit] } := by
  rw [toNfa, adds_compile e .empty]
  rfl

end PathQuery.Regex
