import PathQuery.Machine.Build
import PathQuery.Proofs.Data
import PathQuery.Proofs.Grammar.Derivation
import PathQuery.Proofs.Regex.Nfa

/-!
# Proofs/Machine/Basic — machines and their words

A machine gives each box name the bodies whose keys the box accepts (`Machine.bodies`), and so
derives words as a grammar does (`Machine.Generates`).  However a machine is built, its boxes are
minimal automata (`Built.minimal`): they mention their own states only and make no empty moves.
-/

namespace PathQuery

namespace Machine

namespace Label

variable {label : Label} {key : String} {s : Symbol}

@[simp] theorem toSymbol_ofSymbol : (ofSymbol s).toSymbol = s := by
  cases s <;> rfl

@[simp] theorem ofSymbol_toSymbol : ofSymbol label.toSymbol = label := by
  cases label <;> rfl

/-- A symbol stands for a label where it is the label's key. -/
theorem ofKey?_eq_some_iff : ofKey? key = some label ↔ key = label.key := by
  constructor
  · intro h
    rw [ofKey?] at h
    split at h
    · next name hname =>
      cases h
      exact String.toList_inj.mp (by rw [hname, Label.key]; simp)
    · next name hname =>
      cases h
      exact String.toList_inj.mp (by rw [hname, Label.key]; simp)
    · cases h
  · rintro rfl
    exact ofKey?_key label

theorem key_inj {label' : Label} (h : label.key = label'.key) : label = label' := by
  have := ofKey?_key label
  rw [h, ofKey?_key] at this
  exact (Option.some.inj this).symm

end Label

/-- The symbols of a body as keys of labels. -/
abbrev keys (body : List Symbol) : List String := body.map fun s => (Label.ofSymbol s).key

/-- **The bodies of a machine**: those whose keys the box of a name accepts. -/
def bodies (m : Machine) : Bodies := fun name body =>
  ∃ B, m.box? name = some B ∧ B.accepts (keys body) = true

/-- **The words of a machine**: those of its start box, where each call is replaced by a word of the
box that it names. -/
def Generates (m : Machine) (w : List String) : Prop :=
  Derives m.bodies [.nonterminal m.start] w

/-- **Built machines**: box by box, from a grammar, or from patterns. -/
inductive Built : Machine → Prop where
  | ofStart (start : String) : Built (.ofStart start)
  | addBox {m m' : Machine} {name : String} {box : Nfa} :
      Built m → m.tryAddBox name box = .ok m' → Built m'
  | ofGrammar (g : Grammar) : Built (.ofGrammar g)
  | ofPatterns {start : String} {patterns : List (String × String)} {m : Machine} :
      ofPatterns? start patterns = .ok m → Built m

variable {m m' : Machine} {name start : String} {B : Nfa}

/-! ## Boxes -/

theorem nodup_names : m.names.Nodup := Ascending.nodup_of_isAscending m.ascending

/-- Looking up a box finds the one with the name. -/
theorem box?_eq_some_iff : m.box? name = some B ↔ (name, B) ∈ m.boxes :=
  lookup_eq_some_iff_mem m.nodup_names

theorem hasBox_eq_isSome_box? : m.hasBox name = (m.box? name).isSome := by
  refine Bool.eq_iff_iff.mpr ((decide_eq_true_iff.trans ?_).trans Option.isSome_iff_exists.symm)
  simp only [box?_eq_some_iff, names, List.mem_map]
  constructor
  · rintro ⟨e, he, rfl⟩
    exact ⟨e.2, he⟩
  · rintro ⟨B, hB⟩
    exact ⟨_, hB, rfl⟩

theorem mem_names_of_bodies {body : List Symbol} (h : m.bodies name body) : name ∈ m.names := by
  obtain ⟨B, hB, -⟩ := h
  exact List.mem_map.mpr ⟨_, box?_eq_some_iff.mp hB, rfl⟩

theorem mem_insertBox {e : String × Nfa} {boxes : List (String × Nfa)}
    (h : e ∈ insertBox name B boxes) : e.2 = B ∨ e ∈ boxes := by
  induction boxes with
  | nil => exact .inl (congrArg Prod.snd (List.mem_singleton.mp h))
  | cons f boxes ih =>
    rw [insertBox] at h
    split at h
    · rcases List.mem_cons.mp h with rfl | h
      · exact .inl rfl
      · exact .inr h
    · split at h
      · rcases List.mem_cons.mp h with rfl | h
        · exact .inr (List.mem_cons_self ..)
        · exact (ih h).imp_right (List.mem_cons_of_mem _)
      · rcases List.mem_cons.mp h with rfl | h
        · exact .inl rfl
        · exact .inr (List.mem_cons_of_mem _ h)

/-! ## Built machines -/

/-- The boxes mention their own states only and make no empty moves. -/
def Minimal (m : Machine) : Prop :=
  ∀ e ∈ m.boxes, e.2.wellFormed = true ∧ e.2.hasEpsilon = false

/-- The boxes with a start state that is final are those that accept the empty word. -/
theorem mem_nullable_iff (hm : m.Minimal) : name ∈ m.nullable ↔ m.bodies name [] := by
  constructor
  · intro h
    obtain ⟨⟨_, B⟩, hB, rfl⟩ := List.mem_map.mp h
    obtain ⟨hmem, hany⟩ := List.mem_filter.mp hB
    obtain ⟨q, hq, hfinal⟩ := List.any_eq_true.mp hany
    refine ⟨B, box?_eq_some_iff.mpr hmem, (Nfa.accepts_iff_walk (hm _ hmem).2).mpr ?_⟩
    exact ⟨q, hq, q, of_decide_eq_true hfinal, .nil trivial⟩
  · rintro ⟨B, hB, haccepts⟩
    have hmem := box?_eq_some_iff.mp hB
    obtain ⟨q, hq, q', hq', hw⟩ := (Nfa.accepts_iff_walk (hm _ hmem).2).mp haccepts
    -- a walk without symbols ends where it begins
    cases hw
    refine List.mem_map.mpr ⟨_, List.mem_filter.mpr ⟨hmem, ?_⟩, rfl⟩
    exact List.any_eq_true.mpr ⟨q, hq, decide_eq_true hq'⟩

theorem Minimal.setBox (hm : m.Minimal) (hB : B.wellFormed = true ∧ B.hasEpsilon = false) :
    (m.setBox name B).Minimal := fun e he => by
  rcases mem_insertBox he with rfl | he
  · exact hB
  · exact hm e he

theorem minimal_ofStart : (Machine.ofStart start).Minimal := fun _ he => absurd he List.not_mem_nil

theorem Minimal.tryAddBox (hm : m.Minimal) (h : m.tryAddBox name B = .ok m') : m'.Minimal := by
  obtain ⟨D, hD, h⟩ := exists_of_bind_eq_ok h
  rw [← Except.ok.inj h, Nfa.eq_minimize_of_tryMinimize hD]
  exact hm.setBox Nfa.wellFormed_minimize

theorem minimal_ofGrammar {g : Grammar} : (Machine.ofGrammar g).Minimal := fun e he => by
  obtain ⟨head, -, rfl⟩ := List.mem_map.mp he
  exact Nfa.wellFormed_minimize

/-- The box of an expression, beside boxes with some names. -/
abbrev patternBox (names : List String) (e : Regex) : Nfa :=
  renameSymbols e.toMinimalDfa fun x => (patternLabel names x).key

/-- A named pattern sets a box. -/
theorem exists_eq_setBox {names : List String} {pattern : String}
    (h : (do
      let box ← Regex.minimalDfa? pattern
      return m.setBox name (renameSymbols box fun x => (patternLabel names x).key)) = .ok m') :
    ∃ e, Regex.parse? pattern = .ok e ∧ m' = m.setBox name (patternBox names e) := by
  obtain ⟨box, hbox, h⟩ := exists_of_bind_eq_ok h
  obtain ⟨e, hparse, rfl⟩ := Regex.minimalDfa?_eq_ok_iff.mp hbox
  exact ⟨e, hparse, (Except.ok.inj h).symm⟩

theorem minimal_of_ofPatterns? {patterns : List (String × String)}
    (h : ofPatterns? start patterns = .ok m) : m.Minimal := by
  refine foldlM_induction (I := fun _ m => m.Minimal) (fun p _ m m' hm h => ?_) minimal_ofStart h
  obtain ⟨e, -, rfl⟩ := exists_eq_setBox h
  exact hm.setBox (@Nfa.wellFormed_minimize e.toNfa)

/-- **Built machines** have minimal automata as boxes. -/
theorem Built.minimal (h : m.Built) : m.Minimal := by
  induction h with
  | ofStart => exact minimal_ofStart
  | addBox _ h ih => exact ih.tryAddBox h
  | ofGrammar => exact minimal_ofGrammar
  | ofPatterns h => exact minimal_of_ofPatterns? h

end Machine

end PathQuery
