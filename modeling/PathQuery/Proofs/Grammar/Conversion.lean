import PathQuery.Grammar.Normal
import PathQuery.Proofs.Data
import PathQuery.Proofs.Grammar.Basic

/-!
# Proofs/Grammar/Conversion — grammars as weak normal forms and back

* `NormalGrammar.ofGrammar?_toGrammar_inverse` — a grammar is converted into a weak normal form and
  back into itself, unless the conversion names its first production that is no rule; a weak normal
  form comes back with each rule once.

A production is a rule where its body has one of three shapes (`Production.IsNormal`), and is then
the production of exactly one rule (`Rule.ofProduction?_eq_ok_iff`).  A list of productions is
converted one by one, up to the first that is no rule
(`Rule.mapM_ofProduction?_of_isFirstAbnormal`).
-/

namespace PathQuery

/-- **Weak normal form** of a production: its body is empty, one terminal, or two variables. -/
inductive Production.IsNormal : Production → Prop where
  | empty (head : String) : IsNormal ⟨head, []⟩
  | terminal (head t : String) : IsNormal ⟨head, [.terminal t]⟩
  | pair (head b c : String) : IsNormal ⟨head, [.nonterminal b, .nonterminal c]⟩

/-- The first production of a list that is not in weak normal form. -/
def Production.IsFirstAbnormal (ps : List Production) (p : Production) : Prop :=
  ∃ before after, ps = before ++ p :: after ∧ (∀ q ∈ before, q.IsNormal) ∧ ¬p.IsNormal

namespace Rule

open Production (IsNormal IsFirstAbnormal)

variable {r : Rule} {rules : List Rule} {p : Production} {ps : List Production} {e : Error}

/-! ## One production -/

theorem isNormal_toProduction (r : Rule) : r.toProduction.IsNormal := by
  obtain ⟨head, body⟩ := r
  cases body with
  | empty => exact .empty head
  | terminal t => exact .terminal head t
  | pair b c => exact .pair head b c

theorem exists_toProduction_of_isNormal (h : p.IsNormal) : ∃ r : Rule, r.toProduction = p := by
  cases h with
  | empty head => exact ⟨⟨head, .empty⟩, rfl⟩
  | terminal head t => exact ⟨⟨head, .terminal t⟩, rfl⟩
  | pair head b c => exact ⟨⟨head, .pair b c⟩, rfl⟩

theorem ofProduction?_of_not_isNormal (h : ¬p.IsNormal) :
    ofProduction? p = .error (.grammarForm p) := by
  obtain ⟨head, body⟩ := p
  match body with
  | [] => exact absurd (.empty head) h
  | [.terminal t] => exact absurd (.terminal head t) h
  | [.nonterminal b, .nonterminal c] => exact absurd (.pair head b c) h
  | [.nonterminal _] | .terminal _ :: _ :: _ | .nonterminal _ :: .terminal _ :: _
  | .nonterminal _ :: .nonterminal _ :: _ :: _ => rfl

/-- A production is recognized as the rule that is written like it. -/
theorem ofProduction?_eq_ok_iff : ofProduction? p = .ok r ↔ r.toProduction = p := by
  constructor
  · intro h
    by_cases hp : p.IsNormal
    · obtain ⟨r', rfl⟩ := exists_toProduction_of_isNormal hp
      rw [ofProduction?_toProduction] at h
      exact congrArg toProduction (Except.ok.inj h).symm
    · cases (ofProduction?_of_not_isNormal hp).symm.trans h
  · rintro rfl
    exact ofProduction?_toProduction r

theorem toProduction_injective : Function.Injective toProduction := fun r _ h =>
  Except.ok.inj ((ofProduction?_toProduction r).symm.trans (ofProduction?_eq_ok_iff.mpr h.symm))

/-! ## Lists of productions -/

theorem mapM_ofProduction?_toProduction (rules : List Rule) :
    (rules.map toProduction).mapM ofProduction? = .ok rules := by
  induction rules with
  | nil => rfl
  | cons r rules ih =>
    rw [List.map_cons, List.mapM_cons, ofProduction?_toProduction, ih]
    rfl

/-- Productions that are all in weak normal form are those of a list of rules. -/
theorem exists_map_toProduction (h : ∀ p ∈ ps, p.IsNormal) :
    ∃ rules : List Rule, rules.map toProduction = ps := by
  induction ps with
  | nil => exact ⟨[], rfl⟩
  | cons p ps ih =>
    obtain ⟨hp, hps⟩ := List.forall_mem_cons.mp h
    obtain ⟨r, rfl⟩ := exists_toProduction_of_isNormal hp
    obtain ⟨rules, rfl⟩ := ih hps
    exact ⟨r :: rules, rfl⟩

/-- The first production that is no rule is the one that is named. -/
theorem mapM_ofProduction?_of_isFirstAbnormal (h : IsFirstAbnormal ps p) :
    ps.mapM ofProduction? = .error (.grammarForm p) := by
  obtain ⟨before, after, rfl, hbefore, hp⟩ := h
  obtain ⟨rules, rfl⟩ := exists_map_toProduction hbefore
  rw [List.mapM_append, mapM_ofProduction?_toProduction, List.mapM_cons,
    ofProduction?_of_not_isNormal hp]
  rfl

/-- A list of productions is in weak normal form, or has a first production that is not. -/
theorem forall_isNormal_or (ps : List Production) :
    (∀ p ∈ ps, p.IsNormal) ∨ ∃ p, IsFirstAbnormal ps p := by
  induction ps with
  | nil => exact .inl nofun
  | cons p ps ih =>
    by_cases hp : p.IsNormal
    · refine ih.imp (fun h => List.forall_mem_cons.mpr ⟨hp, h⟩) ?_
      rintro ⟨q, before, after, rfl, hbefore, hq⟩
      exact ⟨q, p :: before, after, rfl, List.forall_mem_cons.mpr ⟨hp, hbefore⟩, hq⟩
    · exact .inr ⟨p, [], ps, rfl, nofun, hp⟩

end Rule

/-! ## Grammars -/

namespace Grammar

variable {g g' : Grammar}

theorem eq_of_productions_eq (hstart : g.start = g'.start)
    (hproductions : g.productions = g'.productions) : g = g' := by
  cases g
  cases g'
  obtain rfl := hstart
  obtain rfl := hproductions
  rfl

/-- Every grammar is made by adding its productions. -/
theorem ofList_productions (g : Grammar) : ofList g.start g.productions = g :=
  eq_of_productions_eq start_ofList (productions_ofList.trans (Distinct.ofList_of_nodup g.nodup))

end Grammar

namespace NormalGrammar

open Production (IsNormal IsFirstAbnormal)

variable {g : Grammar} {n : NormalGrammar}

/-- The productions of a weak normal form are its rules, each once. -/
theorem productions_toGrammar (n : NormalGrammar) :
    n.toGrammar.productions = (Distinct.ofList n.rules).map Rule.toProduction := by
  rw [toGrammar, Grammar.productions_ofList]
  exact @Distinct.unseen_map _ _ _ _ Rule.toProduction [] n.rules fun _ _ _ _ h =>
    Rule.toProduction_injective h

/-- **There and back**: a weak normal form loses what it repeats. -/
theorem ofGrammar?_toGrammar (n : NormalGrammar) :
    ofGrammar? n.toGrammar = .ok ⟨n.start, Distinct.ofList n.rules⟩ := by
  rw [ofGrammar?, productions_toGrammar, Rule.mapM_ofProduction?_toProduction, toGrammar,
    Grammar.start_ofList]
  rfl

/-- A grammar all of whose productions are rules comes back as it was. -/
theorem exists_ofGrammar?_eq_ok (h : ∀ p ∈ g.productions, p.IsNormal) :
    ∃ n, ofGrammar? g = .ok n ∧ n.toGrammar = g := by
  obtain ⟨rules, hrules⟩ := Rule.exists_map_toProduction h
  refine ⟨⟨g.start, rules⟩, ?_, ?_⟩
  · rw [ofGrammar?, ← hrules, Rule.mapM_ofProduction?_toProduction]
    rfl
  · rw [toGrammar, hrules]
    exact g.ofList_productions

theorem ofGrammar?_of_isFirstAbnormal {p : Production} (h : IsFirstAbnormal g.productions p) :
    ofGrammar? g = .error (.grammarForm p) := by
  rw [ofGrammar?, Rule.mapM_ofProduction?_of_isFirstAbnormal h]
  rfl

theorem ofGrammar?_toGrammar_eq_iff : ofGrammar? n.toGrammar = .ok n ↔ n.rules.Nodup := by
  rw [ofGrammar?_toGrammar, Except.ok.injEq]
  constructor
  · intro h
    have hrules : Distinct.ofList n.rules = n.rules := congrArg NormalGrammar.rules h
    exact hrules ▸ Distinct.nodup_ofList n.rules
  · intro h
    rw [Distinct.ofList_of_nodup h]

/-- **Conversion**: a grammar is refused with its first production that is not in weak normal form
where it has one, and is else converted into a weak normal form and back into itself.  A weak normal
form is converted into a grammar and back into the same rules in the same order, each only where it
first occurs; so it comes back unchanged exactly where no rule is repeated. -/
theorem ofGrammar?_toGrammar_inverse :
    (∀ g : Grammar,
      (∃ p, IsFirstAbnormal g.productions p ∧ ofGrammar? g = .error (.grammarForm p)) ∨
        (∀ p ∈ g.productions, p.IsNormal) ∧ ∃ n, ofGrammar? g = .ok n ∧ n.toGrammar = g) ∧
      ∀ n : NormalGrammar,
        ofGrammar? n.toGrammar = .ok ⟨n.start, Distinct.ofList n.rules⟩ ∧
          (ofGrammar? n.toGrammar = .ok n ↔ n.rules.Nodup) := by
  refine ⟨fun g => ?_, fun n => ⟨ofGrammar?_toGrammar n, ofGrammar?_toGrammar_eq_iff⟩⟩
  rcases Rule.forall_isNormal_or g.productions with h | ⟨p, hp⟩
  · exact .inr ⟨h, exists_ofGrammar?_eq_ok h⟩
  · exact .inl ⟨p, hp, ofGrammar?_of_isFirstAbnormal hp⟩

end NormalGrammar

end PathQuery
