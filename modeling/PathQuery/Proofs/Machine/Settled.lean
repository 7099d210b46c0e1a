import PathQuery.Proofs.Machine.Patterns
import PathQuery.Proofs.Nfa.Idempotent

/-!
# Proofs/Machine/Settled — setting a box again

* `tryMinimize_idempotent` — minimizing a minimal automaton changes nothing, and so setting a box of
  a machine to the automaton that it is already.

However a machine is built, its boxes are minimized automata (`Built.settled`): those of a grammar
and of patterns because expressions have well-formed automata, the latter with other symbols, and
those that are added because adding minimizes them.
-/

namespace PathQuery.Machine

variable {m m' : Machine} {name start : String} {B : Nfa}

/-- The boxes are minimized automata. -/
def Settled (m : Machine) : Prop := ∀ e ∈ m.boxes, e.2.Minimized

theorem Settled.setBox (hm : m.Settled) (hB : B.Minimized) : (m.setBox name B).Settled :=
  fun e he => by
  rcases mem_insertBox he with rfl | he
  · exact hB
  · exact hm e he

theorem settled_ofStart : (Machine.ofStart start).Settled := fun _ he => absurd he List.not_mem_nil

theorem Settled.tryAddBox (hm : m.Settled) (h : m.tryAddBox name B = .ok m') : m'.Settled := by
  obtain ⟨D, hD, h⟩ := exists_of_bind_eq_ok h
  rw [← Except.ok.inj h]
  exact hm.setBox (Nfa.minimized_of_tryMinimize hD)

theorem minimized_toMinimalDfa {e : Regex} (he : e.Bounded) : e.toMinimalDfa.Minimized :=
  Nfa.minimized_minimize (Regex.wellFormed_toNfa he.denotes)

theorem settled_ofGrammar {g : Grammar} : (Machine.ofGrammar g).Settled := fun e he => by
  obtain ⟨head, -, rfl⟩ := List.mem_map.mp he
  exact minimized_toMinimalDfa bounded_headRegex

theorem settled_of_ofPatterns? {patterns : List (String × String)}
    (h : ofPatterns? start patterns = .ok m) : m.Settled := by
  refine foldlM_induction (I := fun _ m => m.Settled) (fun p _ m m' hm h => ?_) settled_ofStart h
  obtain ⟨e, hparse, rfl⟩ := exists_eq_setBox h
  exact hm.setBox ((minimized_toMinimalDfa (Regex.bounded_of_parse? hparse)).withSymbols _)

/-- **Built machines** have minimized automata as boxes. -/
theorem Built.settled (h : m.Built) : m.Settled := by
  induction h with
  | ofStart => exact settled_ofStart
  | addBox _ h ih => exact ih.tryAddBox h
  | ofGrammar => exact settled_ofGrammar
  | ofPatterns h => exact settled_of_ofPatterns? h

/-- A box that is there already is put in its own place. -/
theorem insertBox_eq_self {boxes : List (String × Nfa)}
    (hboxes : Ascending.IsAscending (boxes.map (·.1))) (h : (name, B) ∈ boxes) :
    insertBox name B boxes = boxes := by
  induction boxes with
  | nil => cases h
  | cons e boxes ih =>
    obtain ⟨s, D⟩ := e
    obtain ⟨hs, hrest⟩ := List.pairwise_cons.mp hboxes
    rcases List.mem_cons.mp h with heq | h
    · obtain ⟨rfl, rfl⟩ := Prod.mk.inj heq
      simp only [insertBox, LawfulPrecedes.irrefl, Bool.false_eq_true, if_false]
    · have hlt : precedes s name = true := hs name (List.mem_map.mpr ⟨_, h, rfl⟩)
      have hnot : ¬precedes name s = true := fun hgt => by
        have := LawfulPrecedes.trans hlt hgt
        rw [LawfulPrecedes.irrefl] at this
        cases this
      rw [insertBox, if_neg hnot, if_pos hlt, ih hrest h]

theorem setBox_eq_self (h : m.box? name = some B) : m.setBox name B = m := by
  have hboxes := insertBox_eq_self m.ascending (box?_eq_some_iff.mp h)
  obtain ⟨start, boxes, hasc⟩ := m
  simp only [setBox]
  congr

/-- **Minimization is idempotent** for well-formed automata, with all numbers and lists of the
result.  So setting a box of a built machine to the automaton that it is already leaves the machine
as it is. -/
theorem tryMinimize_idempotent :
    (∀ A : Nfa, A.wellFormed = true → A.tryMinimize = .ok A.minimize ∧
      A.minimize.tryMinimize = .ok A.minimize) ∧
      ∀ m : Machine, m.Built → ∀ name B, m.box? name = some B → m.tryAddBox name B = .ok m := by
  refine ⟨fun A hA => ⟨Nfa.tryMinimize_eq_ok hA, (Nfa.minimized_minimize hA).tryMinimize_eq_ok⟩,
    fun m hm name B hB => ?_⟩
  have hok : B.tryMinimize = .ok B :=
    (hm.settled _ (box?_eq_some_iff.mp hB)).tryMinimize_eq_ok
  rw [tryAddBox, hok]
  exact congrArg Except.ok (setBox_eq_self hB)

/-- A machine with one box, which is set from an automaton that is not minimal, and then again. -/
theorem tryMinimize_idempotent_tangledNfa :
    Nfa.tangledNfa.wellFormed = true ∧ Nfa.tangledNfa.minimize ≠ Nfa.tangledNfa ∧
      Nfa.tangledNfa.minimize.tryMinimize = .ok Nfa.tangledNfa.minimize ∧
      ∃ m : Machine, (ofStart "S").tryAddBox "S" Nfa.tangledNfa = .ok m ∧ m.Built ∧
        m.box? "S" = some Nfa.tangledNfa.minimize ∧
        m.tryAddBox "S" Nfa.tangledNfa.minimize = .ok m := by
  have hA : Nfa.tangledNfa.wellFormed = true := by decide
  obtain ⟨hidem, hagain⟩ := tryMinimize_idempotent
  obtain ⟨hok, htwice⟩ := hidem Nfa.tangledNfa hA
  have hadd : (ofStart "S").tryAddBox "S" Nfa.tangledNfa =
      .ok ((ofStart "S").setBox "S" Nfa.tangledNfa.minimize) := by
    rw [tryAddBox, hok]
    rfl
  have hbuilt := Built.addBox (.ofStart "S") hadd
  have hbox : ((ofStart "S").setBox "S" Nfa.tangledNfa.minimize).box? "S" =
      some Nfa.tangledNfa.minimize := box?_eq_some_iff.mpr (List.mem_cons_self ..)
  exact ⟨hA, by decide, htwice, _, hadd, hbuilt, hbox, hagain _ hbuilt _ _ hbox⟩

end PathQuery.Machine
