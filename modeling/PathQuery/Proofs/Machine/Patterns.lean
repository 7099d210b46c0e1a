import PathQuery.Proofs.Machine.Build
import PathQuery.Proofs.Machine.Grammar
import PathQuery.Proofs.Regex.Parse

/-!
# Proofs/Machine/Patterns — machines of patterns

A box of a machine of patterns is the minimal automaton of its pattern, with a key for each symbol:
it accepts the keys of the words that the automaton accepts (`accepts_renameSymbols_iff`).  A symbol
is the key of a call only where it names a pattern, and each pattern has a box; so all calls are of
boxes (`mem_names_of_calls`), and the grammar of the machine has the machine's words
(`generates_toGrammar_ofPatterns_iff`).
-/

namespace PathQuery.Machine

variable {A : Nfa} {f : String → String} {p q : Nat} {s x y start name : String}
  {w : List String} {names : List String} {patterns : List (String × String)} {m : Machine}
  {B : Nfa}

/-! ## Renamed symbols -/

section

variable (hf : ∀ a b, f a = f b → a = b)

include hf

theorem get?_renameSymbols {label : Nat} :
    (renameSymbols A f).symbols.get? label = (A.symbols.get? label).map f := by
  have hnodup : (A.symbols.states.map f).Nodup :=
    List.pairwise_map.mpr (A.symbols.nodup.imp fun h heq => h (hf _ _ heq))
  rw [Numbering.get?, renameSymbols, Numbering.ofList_of_nodup hnodup, List.getElem?_map]
  rfl

theorem move_renameSymbols_iff :
    (renameSymbols A f).Move p s q ↔ ∃ x, s = f x ∧ A.Move p x q := by
  constructor
  · rintro ⟨label, ha, hs⟩
    rw [get?_renameSymbols hf] at hs
    obtain ⟨x, hx, rfl⟩ := Option.map_eq_some_iff.mp hs
    exact ⟨x, rfl, label, ha, hx⟩
  · rintro ⟨x, rfl, label, ha, hx⟩
    exact ⟨label, ha, by rw [get?_renameSymbols hf, hx, Option.map_some]⟩

theorem walk_renameSymbols_iff :
    (renameSymbols A f).frame.Walk p w q ↔ ∃ x, w = x.map f ∧ A.frame.Walk p x q := by
  constructor
  · intro hw
    induction hw with
    | nil => exact ⟨[], rfl, .nil trivial⟩
    | cons hs _ ih =>
      obtain ⟨a, rfl, ha⟩ := (move_renameSymbols_iff hf).mp hs
      obtain ⟨x, rfl, hx⟩ := ih
      exact ⟨a :: x, rfl, .cons ha hx⟩
  · rintro ⟨x, rfl, hx⟩
    induction hx with
    | nil => exact .nil trivial
    | cons hmove _ ih => exact .cons ((move_renameSymbols_iff hf).mpr ⟨_, rfl, hmove⟩) ih

/-- **Renaming symbols** renames them in the words that are accepted. -/
theorem accepts_renameSymbols_iff (hA : A.hasEpsilon = false) :
    (renameSymbols A f).accepts w = true ↔ ∃ x, w = x.map f ∧ A.accepts x = true := by
  simp only [Nfa.accepts_iff_walk hA, Nfa.accepts_iff_walk (show (renameSymbols A f).hasEpsilon =
    false from hA), walk_renameSymbols_iff hf]
  constructor
  · rintro ⟨i, hi, j, hj, x, rfl, hx⟩
    exact ⟨x, rfl, i, hi, j, hj, hx⟩
  · rintro ⟨x, rfl, i, hi, j, hj, hx⟩
    exact ⟨i, hi, j, hj, x, rfl, hx⟩

end

/-! ## Symbols of patterns -/

theorem eq_of_patternLabel_eq_call (h : patternLabel names x = .call name) :
    x = name ∧ name ∈ names := by
  rw [patternLabel] at h
  split at h
  · next hx =>
    cases h
    exact ⟨rfl, hx⟩
  · cases h

theorem key_patternLabel_inj (h : (patternLabel names x).key = (patternLabel names y).key) :
    x = y := by
  have hlabel := Label.key_inj h
  rw [patternLabel, patternLabel] at hlabel
  split at hlabel <;> split at hlabel <;> cases hlabel <;> rfl

/-! ## Boxes of patterns -/

theorem mem_names_setBox : s ∈ (m.setBox name B).names ↔ s = name ∨ s ∈ m.names := by
  rw [names, setBox, names_insertBox, Ascending.mem_insert]
  rfl

/-- A machine of patterns has a box for each of them, and no box but those of patterns. -/
theorem boxes_of_ofPatterns? (h : ofPatterns? start patterns = .ok m) : m.start = start ∧
    (∀ name ∈ patterns.map (·.1), name ∈ m.names) ∧
      ∀ e ∈ m.boxes, ∃ r, e.2 = patternBox (patterns.map (·.1)) r := by
  -- the names that have no box yet are among those of the patterns still to come
  have key := foldlM_induction (I := fun l m => m.start = start ∧
      (∀ name ∈ patterns.map (·.1), name ∈ m.names ∨ name ∈ l.map (·.1)) ∧
      ∀ e ∈ m.boxes, ∃ r, e.2 = patternBox (patterns.map (·.1)) r)
    (fun p l m m' hm h => ?_)
    ⟨rfl, fun _ hname => .inr hname, fun _ he => absurd he List.not_mem_nil⟩ h
  · obtain ⟨hstart, hnames, hboxes⟩ := key
    exact ⟨hstart, fun name hname => (hnames name hname).resolve_right List.not_mem_nil, hboxes⟩
  · obtain ⟨hstart, hnames, hboxes⟩ := hm
    obtain ⟨r, -, rfl⟩ := exists_eq_setBox h
    refine ⟨hstart, fun name hname => ?_, fun e he => ?_⟩
    · rw [mem_names_setBox]
      rcases hnames name hname with hm | hl
      · exact .inl (.inr hm)
      · exact (List.mem_cons.mp hl).imp_left .inl
    · rcases mem_insertBox he with he | he
      · exact ⟨r, he⟩
      · exact hboxes e he

theorem exists_ofPatterns? (h : ∀ p ∈ patterns, ∃ e, Regex.parse? p.2 = .ok e) :
    ∃ m, ofPatterns? start patterns = .ok m :=
  exists_foldlM_eq_ok (fun p hp m => by
    obtain ⟨e, he⟩ := h p hp
    refine ⟨m.setBox p.1 (patternBox (patterns.map (·.1)) e), ?_⟩
    simp only [Regex.minimalDfa?_eq_ok_iff.mpr ⟨e, he, rfl⟩]
    rfl) _

/-- Machines of patterns call boxes only. -/
theorem mem_names_of_calls (h : ofPatterns? start patterns = .ok m) (hcall : m.Calls name) :
    name ∈ m.names := by
  obtain ⟨-, hnames, hboxes⟩ := boxes_of_ofPatterns? h
  obtain ⟨e, he, p, q, hmove⟩ := hcall
  obtain ⟨r, hr⟩ := hboxes e he
  rw [hr] at hmove
  obtain ⟨x, hkey, -⟩ := (move_renameSymbols_iff fun _ _ => key_patternLabel_inj).mp hmove
  exact hnames name (eq_of_patternLabel_eq_call (Label.key_inj hkey).symm).2

/-- **The grammar of a machine of patterns** has the words of the machine. -/
theorem generates_toGrammar_ofPatterns_iff (h : ofPatterns? start patterns = .ok m)
    (hstart : start ∈ patterns.map (·.1)) : m.toGrammar.Generates w ↔ m.Generates w := by
  have hm := minimal_of_ofPatterns? h
  obtain ⟨hm_start, hnames, -⟩ := boxes_of_ofPatterns? h
  have hnew : ∀ name ∈ m.names, name ∉ m.stateVariables := fun name hname hv =>
    notMem_names_of_mem_stateVariables hv hname
  rw [generates_toGrammar_iff hm]
  refine derives_readBodies_iff hm (fun name hcall => hnew name (mem_names_of_calls h hcall))
    fun v hv => hnew v ?_
  rw [Symbol.nonterminal.inj (List.mem_singleton.mp hv), hm_start]
  exact hnames start hstart

/-! ## A single pattern -/

variable {e : Regex} {pattern : String} {body : List Symbol}

theorem ofPattern?_eq_ok (h : Regex.parse? pattern = .ok e) :
    ofPattern? start pattern = .ok ((ofStart start).setBox start (patternBox [start] e)) := by
  simp only [ofPattern?, ofPatterns?, List.foldlM_cons, List.foldlM_nil,
    Regex.minimalDfa?_eq_ok_iff.mpr ⟨e, h, rfl⟩]
  rfl

/-- The bodies of a pattern that does not call itself are its words. -/
theorem bodies_ofPattern_iff (he : e.Bounded) (hstart : start ∉ e.symbols) :
    ((ofStart start).setBox start (patternBox [start] e)).bodies start body ↔
      ∃ w ∈ e.language, body = w.map .terminal := by
  have hbox : ((ofStart start).setBox start (patternBox [start] e)).box? start =
      some (patternBox [start] e) := box?_eq_some_iff.mpr (List.mem_cons_self ..)
  have hkeys : ∀ w ∈ e.language,
      (w.map fun x => (patternLabel [start] x).key) = keys (w.map .terminal) := fun w hw => by
    rw [keys, List.map_map]
    refine List.map_congr_left fun x hx => ?_
    have hne : x ∉ [start] := fun h =>
      hstart (List.mem_singleton.mp h ▸ he.mem_symbols hw hx)
    rw [patternLabel, if_neg hne]
    rfl
  have heps : e.toMinimalDfa.hasEpsilon = false := (@Nfa.wellFormed_minimize e.toNfa).2
  simp only [bodies, hbox, Option.some.injEq, exists_eq_left', patternBox,
    accepts_renameSymbols_iff (fun _ _ => key_patternLabel_inj) heps, he.accepts_toMinimalDfa_iff]
  constructor
  · rintro ⟨w, hbody, hw⟩
    exact ⟨w, hw, keys_inj (hbody.trans (hkeys w hw))⟩
  · rintro ⟨w, hw, rfl⟩
    exact ⟨w, (hkeys w hw).symm, hw⟩

/-- **The machine of a pattern** that does not call itself has the words of the pattern. -/
theorem generates_ofPattern?_iff (h : Regex.parse? pattern = .ok e) (hstart : start ∉ e.symbols)
    (hm : ofPattern? start pattern = .ok m) : m.Generates w ↔ w ∈ e.language := by
  obtain rfl := Except.ok.inj ((ofPattern?_eq_ok h).symm.trans hm)
  have hbodies := fun body => @bodies_ofPattern_iff start e body (Regex.bounded_of_parse? h) hstart
  rw [Generates]
  refine derives_nonterminal_iff.trans ?_
  constructor
  · rintro ⟨body, hbody, hw⟩
    obtain ⟨u, hu, rfl⟩ := (hbodies body).mp hbody
    rwa [derives_map_terminal_iff.mp hw]
  · intro hw
    exact ⟨_, (hbodies _).mpr ⟨w, hw, rfl⟩, derives_map_terminal_iff.mpr rfl⟩

end PathQuery.Machine
