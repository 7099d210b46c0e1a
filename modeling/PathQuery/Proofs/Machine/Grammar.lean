import Mathlib.Data.List.Nodup
import Mathlib.Data.List.Pairwise
import PathQuery.Machine.Grammar
import PathQuery.Proofs.Grammar.FreshName
import PathQuery.Proofs.Grammar.Membership
import PathQuery.Proofs.Machine.Build

/-!
# Proofs/Machine/Grammar — the words of a machine's grammar

Each state of a box has a variable of its own, and in the grammar this variable reads what paths
from the state spell.  So the grammar has the words of the machine with one more box for each state
variable (`Machine.readBodies`, `generates_toGrammar_iff`).  These boxes matter only where the
machine calls a name that has no box and that a state variable happens to have: the supply of fresh
names knows the names of the boxes and not those of the calls.

* `contains_toGrammar_iff` — which words the grammar has, and that without such a call they are the
  words of the machine.
-/

namespace PathQuery.Machine

variable {m : Machine} {S : NameSupply} {boxes : List (String × Nfa)} {box name v : String}
  {body x : List Symbol} {w : List String} {p q r k : Nat} {p' : Production}

/-! ## Names of states -/

/-- The names of a box's states differ from each other and from all names in use, and are in use
from then on. -/
theorem stateNames_spec : (stateNames box S q k).2.length = k ∧ (stateNames box S q k).2.Nodup ∧
    (∀ v ∈ (stateNames box S q k).2, v ∉ S.taken ∧ v ∈ (stateNames box S q k).1.taken) ∧
    ∀ v ∈ S.taken, v ∈ (stateNames box S q k).1.taken := by
  induction k generalizing S q with
  | zero => exact ⟨rfl, List.nodup_nil, fun _ hv => absurd hv List.not_mem_nil, fun _ hv => hv⟩
  | succ k ih =>
    rcases hfresh : S.fresh (box ++ "@" ++ toString q) with ⟨S', name⟩
    obtain ⟨htaken, hname⟩ := NameSupply.taken_of_fresh_eq hfresh
    obtain ⟨hlen, hnodup, hnew, hmono⟩ := @ih S' (q + 1)
    have hold : ∀ v ∈ S.taken, v ∈ S'.taken := fun v hv => htaken ▸ List.mem_cons_of_mem _ hv
    have hname' : name ∈ S'.taken := htaken ▸ List.mem_cons_self ..
    rw [stateNames, hfresh]
    refine ⟨congrArg (· + 1) hlen, List.nodup_cons.mpr ⟨fun h => (hnew name h).1 hname', hnodup⟩,
      fun v hv => ?_, fun v hv => hmono v (hold v hv)⟩
    rcases List.mem_cons.mp hv with rfl | hv
    · exact ⟨hname, hmono _ hname'⟩
    · exact ⟨fun h => (hnew v hv).1 (hold v h), (hnew v hv).2⟩

/-- The boxes with the names of their states. -/
def named (S : NameSupply) : List (String × Nfa) → List ((String × Nfa) × List String)
  | [] => []
  | (name, B) :: boxes =>
    ((name, B), (stateNames name S 0 B.numStates).2) ::
      named (stateNames name S 0 B.numStates).1 boxes

theorem allProductions_eq : allProductions S boxes =
    (named S boxes).flatMap fun e => boxProductions e.1.1 e.1.2 e.2 := by
  induction boxes generalizing S with
  | nil => rfl
  | cons b boxes ih => exact congrArg _ ih

theorem map_fst_named : (named S boxes).map (·.1) = boxes := by
  induction boxes generalizing S with
  | nil => rfl
  | cons b boxes ih => exact congrArg (b :: ·) ih

theorem length_of_mem_named {e : (String × Nfa) × List String} (he : e ∈ named S boxes) :
    e.2.length = e.1.2.numStates := by
  induction boxes generalizing S with
  | nil => exact absurd he List.not_mem_nil
  | cons b boxes ih =>
    rcases List.mem_cons.mp he with rfl | he
    · exact stateNames_spec.1
    · exact ih he

/-- No name is given to two states, and none that was in use. -/
theorem nodup_named : ((named S boxes).flatMap (·.2)).Nodup ∧
    ∀ v ∈ (named S boxes).flatMap (·.2), v ∉ S.taken := by
  induction boxes generalizing S with
  | nil => exact ⟨List.nodup_nil, fun _ hv => absurd hv List.not_mem_nil⟩
  | cons b boxes ih =>
    obtain ⟨-, hnodup, hnew, hmono⟩ := @stateNames_spec S b.1 0 b.2.numStates
    obtain ⟨hnodup', hnew'⟩ := @ih (stateNames b.1 S 0 b.2.numStates).1
    rw [named, List.flatMap_cons]
    refine ⟨List.nodup_append.mpr ⟨hnodup, hnodup', fun v hv u hu huv => ?_⟩, fun v hv => ?_⟩
    · exact hnew' u hu (huv ▸ (hnew v hv).2)
    · rcases List.mem_append.mp hv with hv | hv
      · exact (hnew v hv).1
      · exact fun h => hnew' v hv (hmono v h)

/-! ## The productions of a box -/

/-- The variable of a state. -/
abbrev stateVariable (names : List String) (q : Nat) : String := (names[q]?).getD ""

theorem mem_boxProductions {B : Nfa} {names : List String} :
    p' ∈ boxProductions box B names ↔
      (∃ q ∈ B.start, p' = ⟨box, [.nonterminal (stateVariable names q)]⟩) ∨
      (∃ q ∈ B.final, p' = ⟨stateVariable names q, []⟩) ∨
      ∃ p s q, B.Move p (Label.ofSymbol s).key q ∧
        p' = ⟨stateVariable names p, [s, .nonterminal (stateVariable names q)]⟩ := by
  have hmove : (∃ a ∈ B.arcs, ∃ label, (∃ key, B.symbol? a.label = some key ∧
        Label.ofKey? key = some label) ∧ (⟨stateVariable names a.src,
          [label.toSymbol, .nonterminal (stateVariable names a.dst)]⟩ : Production) = p') ↔
      ∃ p s q, B.Move p (Label.ofSymbol s).key q ∧
        p' = ⟨stateVariable names p, [s, .nonterminal (stateVariable names q)]⟩ := by
    constructor
    · rintro ⟨⟨p, _, q⟩, ha, label, ⟨key, hkey, hlabel⟩, rfl⟩
      obtain ⟨x, rfl, hx⟩ := Option.bind_eq_some_iff.mp hkey
      obtain rfl := Label.ofKey?_eq_some_iff.mp hlabel
      exact ⟨p, label.toSymbol, q, ⟨x, ha, by rwa [Label.ofSymbol_toSymbol]⟩, rfl⟩
    · rintro ⟨p, s, q, ⟨x, ha, hx⟩, rfl⟩
      refine ⟨_, ha, Label.ofSymbol s, ⟨_, hx, Label.ofKey?_key _⟩, ?_⟩
      rw [Label.toSymbol_ofSymbol]
  rw [boxProductions, List.mem_append, List.mem_append, or_assoc]
  simp only [List.mem_map, List.mem_filterMap, Option.map_eq_some_iff, Option.bind_eq_some_iff,
    hmove]
  simp only [eq_comm]

/-! ## State variables as boxes -/

/-- The boxes of a machine with the variables of their states. -/
abbrev namedBoxes (m : Machine) : List ((String × Nfa) × List String) :=
  named (.ofTaken m.names) m.boxes

/-- The variables of all states. -/
def stateVariables (m : Machine) : List String := m.namedBoxes.flatMap (·.2)

/-- The bodies that a state variable reads: the paths from the state to a final state. -/
def pathBodies (m : Machine) : Bodies := fun v body =>
  ∃ e ∈ m.namedBoxes, ∃ q, e.2[q]? = some v ∧ ∃ r ∈ e.1.2.final, e.1.2.frame.Walk q (keys body) r

/-- The bodies of a machine in which each state variable names one more box. -/
def readBodies (m : Machine) : Bodies := fun v body => m.bodies v body ∨ m.pathBodies v body

/-- The productions of all boxes. -/
abbrev productionBodies (m : Machine) : Bodies :=
  Production.bodies (allProductions (.ofTaken m.names) m.boxes)

theorem mem_stateVariables_of_pathBodies (h : m.pathBodies v body) : v ∈ m.stateVariables := by
  obtain ⟨e, he, q, hq, -⟩ := h
  exact List.mem_flatMap.mpr ⟨e, he, List.mem_of_getElem? hq⟩

theorem notMem_names_of_mem_stateVariables (h : v ∈ m.stateVariables) : v ∉ m.names :=
  nodup_named.2 v h

/-- A state variable belongs to one state. -/
theorem eq_of_stateVariable {e e' : (String × Nfa) × List String} (he : e ∈ m.namedBoxes)
    (he' : e' ∈ m.namedBoxes) (hq : e.2[q]? = some v) (hr : e'.2[r]? = some v) :
    e = e' ∧ q = r := by
  obtain ⟨hnodup, hdisjoint⟩ := List.nodup_flatMap.mp (@nodup_named (.ofTaken m.names) m.boxes).1
  have hsymm : Std.Symm (Function.onFun List.Disjoint
      fun e : (String × Nfa) × List String => e.2) := ⟨fun _ _ h => h.symm⟩
  obtain rfl : e = e' := Classical.byContradiction fun hne =>
    hdisjoint.forall he he' hne (List.mem_of_getElem? hq) (List.mem_of_getElem? hr)
  exact ⟨rfl, (List.getElem?_inj (List.getElem?_eq_some_iff.mp hq).1 (hnodup e he)).mp
    (hq.trans hr.symm)⟩

theorem mem_boxes_of_mem_namedBoxes {e : (String × Nfa) × List String} (he : e ∈ m.namedBoxes) :
    e.1 ∈ m.boxes := by
  rw [← @map_fst_named (.ofTaken m.names) m.boxes]
  exact List.mem_map.mpr ⟨e, he, rfl⟩

theorem getElem?_stateVariable {e : (String × Nfa) × List String} (he : e ∈ m.namedBoxes)
    (hq : q < e.1.2.numStates) : e.2[q]? = some (stateVariable e.2 q) := by
  have hlt : q < e.2.length := length_of_mem_named he ▸ hq
  rw [stateVariable, List.getElem?_eq_getElem hlt, Option.getD_some]

theorem productionBodies_iff : m.productionBodies v body ↔
    ∃ e ∈ m.namedBoxes, (⟨v, body⟩ : Production) ∈ boxProductions e.1.1 e.1.2 e.2 := by
  rw [productionBodies, Production.bodies, allProductions_eq, List.mem_flatMap]

/-- A state variable derives what the paths from its state read. -/
theorem derives_stateVariable {e : (String × Nfa) × List String} (he : e ∈ m.namedBoxes)
    (hr : r ∈ e.1.2.final) (hw : e.1.2.frame.Walk q (keys body) r)
    (hbody : Derives m.productionBodies body w) :
    Derives m.productionBodies [.nonterminal (stateVariable e.2 q)] w := by
  induction body generalizing q w with
  | nil =>
    obtain ⟨rfl, -⟩ := Frame.walk_nil_iff.mp hw
    refine derives_nonterminal_iff.mpr ⟨[], productionBodies_iff.mpr ⟨e, he, ?_⟩, hbody⟩
    exact mem_boxProductions.mpr (.inr (.inl ⟨q, hr, rfl⟩))
  | cons s body ih =>
    obtain ⟨q', hm, hw⟩ := Frame.walk_cons_iff.mp hw
    obtain ⟨u, w', rfl, hu, hw'⟩ := derives_cons_iff.mp hbody
    refine derives_nonterminal_iff.mpr ⟨_, productionBodies_iff.mpr ⟨e, he, ?_⟩,
      derives_cons_iff.mpr ⟨u, w', rfl, hu, ih hw hw'⟩⟩
    exact mem_boxProductions.mpr (.inr (.inr ⟨q, s, q', hm, rfl⟩))

/-- What the variable of a state derives in the machine, a path from the state reads. -/
theorem exists_walk_of_derives {e : (String × Nfa) × List String} (he : e ∈ m.namedBoxes)
    (hq : q < e.1.2.numStates)
    (hw : Derives m.readBodies [.nonterminal (stateVariable e.2 q)] w) :
    ∃ body r, r ∈ e.1.2.final ∧ e.1.2.frame.Walk q (keys body) r ∧
      Derives m.readBodies body w := by
  have hv := getElem?_stateVariable he hq
  obtain ⟨body, hbody | hbody, hw⟩ := derives_nonterminal_iff.mp hw
  · have hmem : stateVariable e.2 q ∈ m.stateVariables :=
      List.mem_flatMap.mpr ⟨e, he, List.mem_of_getElem? hv⟩
    exact absurd (mem_names_of_bodies hbody) (notMem_names_of_mem_stateVariables hmem)
  · obtain ⟨e', he', q', hq', r, hr, hwalk⟩ := hbody
    obtain ⟨rfl, rfl⟩ := eq_of_stateVariable he he' hv hq'
    exact ⟨body, r, hr, hwalk, hw⟩

/-- Each production of the grammar is covered by derivations of the machine with state variables. -/
theorem derives_readBodies_of_productionBodies (hm : m.Minimal) (hv : m.productionBodies v body)
    (hw : Derives m.readBodies body w) : Derives m.readBodies [.nonterminal v] w := by
  obtain ⟨e, he, hp⟩ := productionBodies_iff.mp hv
  obtain ⟨hwf, heps⟩ := hm _ (mem_boxes_of_mem_namedBoxes he)
  rcases mem_boxProductions.mp hp with ⟨q, hq, heq⟩ | ⟨q, hq, heq⟩ | ⟨p, s, q, hmove, heq⟩
  · cases heq
    obtain ⟨body, r, hr, hwalk, hw⟩ :=
      exists_walk_of_derives he ((Nfa.wellFormed_iff.mp hwf).1 q hq) hw
    refine derives_nonterminal_iff.mpr ⟨body, .inl ⟨e.1.2, ?_, ?_⟩, hw⟩
    · exact box?_eq_some_iff.mpr (mem_boxes_of_mem_namedBoxes he)
    · exact (Nfa.accepts_iff_walk heps).mpr ⟨q, hq, r, hr, hwalk⟩
  · cases heq
    have hv := getElem?_stateVariable he ((Nfa.wellFormed_iff.mp hwf).2.1 q hq)
    exact derives_nonterminal_iff.mpr ⟨[], .inr ⟨e, he, q, hv, q, hq, .nil trivial⟩, hw⟩
  · cases heq
    have hv := getElem?_stateVariable he (hmove.lt hwf).1
    obtain ⟨u, w', rfl, hu, hw⟩ := derives_cons_iff.mp hw
    obtain ⟨body, r, hr, hwalk, hw⟩ := exists_walk_of_derives he (hmove.lt hwf).2 hw
    refine derives_nonterminal_iff.mpr
      ⟨s :: body, .inr ⟨e, he, p, hv, r, hr, .cons hmove hwalk⟩, ?_⟩
    exact derives_cons_iff.mpr ⟨u, w', rfl, hu, hw⟩

/-- Each body of the machine with state variables is covered by derivations of the grammar. -/
theorem derives_productionBodies_of_readBodies (hm : m.Minimal) (hv : m.readBodies v body)
    (hw : Derives m.productionBodies body w) :
    Derives m.productionBodies [.nonterminal v] w := by
  rcases hv with ⟨B, hB, haccepts⟩ | ⟨e, he, q, hq, r, hr, hwalk⟩
  · have hbox := box?_eq_some_iff.mp hB
    obtain ⟨q, hq, r, hr, hwalk⟩ := (Nfa.accepts_iff_walk (hm _ hbox).2).mp haccepts
    obtain ⟨e, he, hfst⟩ : ∃ e ∈ m.namedBoxes, e.1 = (v, B) := by
      rw [← List.mem_map, map_fst_named]
      exact hbox
    obtain ⟨rfl, rfl⟩ := Prod.mk.inj hfst
    refine derives_nonterminal_iff.mpr ⟨_, productionBodies_iff.mpr ⟨e, he, ?_⟩,
      derives_stateVariable he hr hwalk hw⟩
    exact mem_boxProductions.mpr (.inl ⟨q, hq, rfl⟩)
  · have := derives_stateVariable he hr hwalk hw
    rwa [stateVariable, hq, Option.getD_some] at this

/-- **The words of the grammar**: all symbols derive what they do in the machine in which each state
variable names one more box. -/
theorem derives_productionBodies_iff (hm : m.Minimal) :
    Derives m.productionBodies x w ↔ Derives m.readBodies x w := by
  constructor
  · exact Derives.transfer fun v body w => derives_readBodies_of_productionBodies hm
  · exact Derives.transfer fun v body w => derives_productionBodies_of_readBodies hm

theorem generates_toGrammar_iff (hm : m.Minimal) :
    m.toGrammar.Generates w ↔ Derives m.readBodies [.nonterminal m.start] w := by
  rw [toGrammar, Grammar.generates_ofList_iff]
  exact derives_productionBodies_iff hm

/-! ## Calls of state variables -/

/-- Some box has an arc with the key of a call to a name. -/
def Calls (m : Machine) (name : String) : Prop :=
  ∃ e ∈ m.boxes, ∃ p q, e.2.Move p (Label.call name).key q

/-- The variables of a machine's bodies are called. -/
theorem calls_of_bodies (hm : m.Minimal) (h : m.bodies name body) (hv : .nonterminal v ∈ body) :
    m.Calls v := by
  obtain ⟨B, hB, haccepts⟩ := h
  have hbox := box?_eq_some_iff.mp hB
  obtain ⟨p, -, q, -, hw⟩ := (Nfa.accepts_iff_walk (hm _ hbox).2).mp haccepts
  obtain ⟨x, y, rfl⟩ := List.append_of_mem hv
  rw [keys, List.map_append, List.map_cons] at hw
  obtain ⟨p', -, hw⟩ := Frame.walk_append_iff.mp hw
  obtain ⟨q', hmove, -⟩ := Frame.walk_cons_iff.mp hw
  exact ⟨_, hbox, p', q', hmove⟩

/-- Where no state variable is called, the boxes of state variables add nothing. -/
theorem derives_readBodies_iff (hm : m.Minimal)
    (hcalls : ∀ name, m.Calls name → name ∉ m.stateVariables)
    (hx : ∀ v, .nonterminal v ∈ x → v ∉ m.stateVariables) :
    Derives m.readBodies x w ↔ Derives m.bodies x w := by
  constructor
  · intro h
    induction h with
    | nil => exact .nil
    | terminal _ ih => exact .terminal (ih fun v hv => hx v (List.mem_cons_of_mem _ hv))
    | @nonterminal v body x u w hv _ _ ihu ihw =>
      rcases hv with hv | hv
      · exact .nonterminal hv (ihu fun name hname => hcalls name (calls_of_bodies hm hv hname))
          (ihw fun v hv => hx v (List.mem_cons_of_mem _ hv))
      · exact absurd (mem_stateVariables_of_pathBodies hv) (hx v (List.mem_cons_self ..))
  · exact Derives.mono fun _ _ => .inl

/-- **The grammar of a machine** accepts the words of the machine in which each state variable names
one more box; where no state variable is called, these are the words of the machine. -/
theorem contains_toGrammar_iff (hm : m.Built) (w : List String) :
    (m.toGrammar.contains w = true ↔ Derives m.readBodies [.nonterminal m.start] w) ∧
      (m.hasBox m.start = true → (∀ name, m.Calls name → name ∉ m.stateVariables) →
        (m.toGrammar.contains w = true ↔ m.Generates w)) := by
  rw [Grammar.contains_iff_generates, generates_toGrammar_iff hm.minimal]
  refine ⟨Iff.rfl, fun hstart hcalls => derives_readBodies_iff hm.minimal hcalls fun v hv => ?_⟩
  obtain rfl : v = m.start := Symbol.nonterminal.inj (List.mem_singleton.mp hv)
  exact fun h => notMem_names_of_mem_stateVariables h (of_decide_eq_true hstart)

/-- The machine of a grammar in which `S` derives `a` followed by `S`, and `b`. -/
def listMachine : Machine :=
  .ofGrammar (.ofList "S" [⟨"S", [.terminal "a", .nonterminal "S"]⟩, ⟨"S", [.terminal "b"]⟩])

theorem contains_toGrammar_listMachine :
    listMachine.toGrammar.contains ["a", "b"] = true ∧ listMachine.Generates ["a", "b"] := by
  have hcalls : ∀ e ∈ listMachine.boxes, ∀ a ∈ e.2.symbolArcs,
      ∀ name ∈ listMachine.stateVariables, a.2.1 ≠ (Label.call name).key := by decide +kernel
  have hcontains : listMachine.toGrammar.contains ["a", "b"] = true := by decide +kernel
  have hstart : listMachine.hasBox listMachine.start = true := by decide +kernel
  obtain ⟨-, hwords⟩ := contains_toGrammar_iff (.ofGrammar _ : listMachine.Built) ["a", "b"]
  refine ⟨hcontains, (hwords hstart fun name hcall hname => ?_).mp hcontains⟩
  obtain ⟨e, he, p, q, hmove⟩ := hcall
  exact hcalls e he _ (Nfa.mem_symbolArcs.mpr hmove) name hname rfl

/-- The machine of a grammar in which `S` derives a variable without productions, whose name is that
of the second state of the box of `S`. -/
def captureMachine : Machine := .ofGrammar (.ofList "S" [⟨"S", [.nonterminal "S@1#2"]⟩])

/-- The second state is final, so that its variable derives the empty word, and `S` with it. -/
theorem contains_toGrammar_captureMachine :
    captureMachine.Built ∧ captureMachine.hasBox captureMachine.start = true ∧
      captureMachine.toGrammar.contains [] = true ∧ ¬captureMachine.Generates [] := by
  refine ⟨.ofGrammar _, by decide +kernel, by decide +kernel, ?_⟩
  rw [captureMachine, generates_ofGrammar_iff, ← Grammar.contains_iff_generates]
  decide +kernel

end PathQuery.Machine
