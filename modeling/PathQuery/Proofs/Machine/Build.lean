import PathQuery.Proofs.Machine.Basic
import PathQuery.Proofs.Nfa.Shape
import PathQuery.Proofs.Regex.Denotation

/-!
# Proofs/Machine/Build — the machine of a grammar has the grammar's bodies

The box of a head is the minimal automaton of an expression for the keys of its bodies, and
different bodies have different keys; so the box accepts just the keys of these bodies
(`bodies_ofGrammar_iff`), and the machine derives the words of the grammar.

* `ofGrammar_boxes` — the boxes of the machine, the words that they accept, and which are nullable.
-/

namespace PathQuery

namespace Machine

variable {g : Grammar} {head name : String} {body : List Symbol} {w : List String}

theorem keys_inj {body' : List Symbol} (h : keys body = keys body') : body = body' := by
  refine List.map_injective_iff.mpr (fun s s' hs => ?_) h
  rw [← @Label.toSymbol_ofSymbol s, Label.key_inj hs, Label.toSymbol_ofSymbol]

theorem bounded_headRegex : (headRegex g head).Bounded := by
  refine Regex.bounded_ofBranches fun e he => ?_
  obtain ⟨p, -, rfl⟩ := List.mem_map.mp he
  refine Regex.bounded_ofParts fun e he => ?_
  obtain ⟨s, -, rfl⟩ := List.mem_map.mp he
  exact .symbol _

theorem mem_language_bodyRegex_iff : w ∈ (bodyRegex body).language ↔ w = keys body := by
  have hparts : body.map (fun x => Regex.symbol (Label.ofSymbol x).key) =
      (keys body).map .symbol := List.map_map.symm
  rw [bodyRegex, hparts, Regex.language_ofParts, Regex.mem_prod_symbols_iff]

/-- The expression of a head denotes the keys of its bodies. -/
theorem mem_language_headRegex_iff : w ∈ (headRegex g head).language ↔
    ∃ body, ⟨head, body⟩ ∈ g.productions ∧ w = keys body := by
  rw [headRegex, Regex.language_ofBranches, Regex.mem_sum_iff, List.map_map]
  simp only [List.mem_map, List.mem_filter, decide_eq_true_eq]
  constructor
  · rintro ⟨_, ⟨p, ⟨hp, rfl⟩, rfl⟩, hw⟩
    exact ⟨p.body, hp, mem_language_bodyRegex_iff.mp hw⟩
  · rintro ⟨body, hp, hw⟩
    exact ⟨_, ⟨⟨head, body⟩, ⟨hp, rfl⟩, rfl⟩, mem_language_bodyRegex_iff.mpr hw⟩

theorem box?_ofGrammar_iff {B : Nfa} : (ofGrammar g).box? name = some B ↔
    name ∈ g.productions.map (·.head) ∧ B = (headRegex g name).toMinimalDfa := by
  rw [box?_eq_some_iff]
  simp only [ofGrammar, List.mem_map, Ascending.mem_ofList, Prod.mk.injEq]
  constructor
  · rintro ⟨head, hhead, rfl, rfl⟩
    exact ⟨hhead, rfl⟩
  · rintro ⟨hhead, rfl⟩
    exact ⟨name, hhead, rfl, rfl⟩

/-- **The machine of a grammar** has the bodies of the grammar. -/
theorem bodies_ofGrammar_iff :
    (ofGrammar g).bodies name body ↔ Production.bodies g.productions name body := by
  simp only [bodies, box?_ofGrammar_iff]
  constructor
  · rintro ⟨B, ⟨-, rfl⟩, haccepts⟩
    rw [bounded_headRegex.accepts_toMinimalDfa_iff, mem_language_headRegex_iff] at haccepts
    obtain ⟨body', hp, hkeys⟩ := haccepts
    rw [keys_inj hkeys]
    exact hp
  · intro hp
    refine ⟨_, ⟨List.mem_map.mpr ⟨_, hp, rfl⟩, rfl⟩, ?_⟩
    rw [bounded_headRegex.accepts_toMinimalDfa_iff, mem_language_headRegex_iff]
    exact ⟨body, hp, rfl⟩

theorem bodies_ofGrammar : (ofGrammar g).bodies = Production.bodies g.productions := by
  ext name body
  exact bodies_ofGrammar_iff

theorem generates_ofGrammar_iff : (ofGrammar g).Generates w ↔ g.Generates w := by
  rw [Generates, bodies_ofGrammar]
  rfl

/-! ## The boxes -/

theorem hasBox_ofGrammar_iff :
    (ofGrammar g).hasBox name = true ↔ ∃ body, ⟨name, body⟩ ∈ g.productions := by
  rw [hasBox_eq_isSome_box?, Option.isSome_iff_exists]
  simp only [box?_ofGrammar_iff, exists_and_left, exists_eq, and_true, List.mem_map]
  constructor
  · rintro ⟨p, hp, rfl⟩
    exact ⟨p.body, hp⟩
  · rintro ⟨body, hp⟩
    exact ⟨_, hp, rfl⟩

/-- The box of a head follows every word without a fault. -/
theorem tryAccepts_of_box?_ofGrammar {B : Nfa} (hB : (ofGrammar g).box? name = some B)
    (k : List String) : B.tryAccepts k =
      .ok (decide (∃ p ∈ g.productions, p.head = name ∧ keys p.body = k)) := by
  obtain ⟨-, rfl⟩ := box?_ofGrammar_iff.mp hB
  have hwf : ((headRegex g name).toMinimalDfa).wellFormed = true := Nfa.wellFormed_minimize.1
  rw [Nfa.tryAccepts_eq_ok hwf]
  refine congrArg Except.ok (Bool.eq_iff_iff.mpr ?_)
  rw [bounded_headRegex.accepts_toMinimalDfa_iff, mem_language_headRegex_iff, decide_eq_true_iff]
  constructor
  · rintro ⟨body, hp, rfl⟩
    exact ⟨_, hp, rfl, rfl⟩
  · rintro ⟨p, hp, rfl, rfl⟩
    exact ⟨p.body, hp, rfl⟩

/-- **The boxes of a grammar** are those of its heads.  Minimization makes the box of a head without
a fault, and of all words over all keys it accepts those that are the keys of a body of the head: so
a body is accepted where it is one of the head's, with terminals and variables told apart whatever
their names are.  The nullable boxes are those of the heads with an empty body. -/
theorem ofGrammar_boxes (g : Grammar) :
    (∀ name, (ofGrammar g).hasBox name = ((ofGrammar g).box? name).isSome ∧
      ((ofGrammar g).hasBox name = true ↔ ∃ body, ⟨name, body⟩ ∈ g.productions)) ∧
    (∀ name B, (ofGrammar g).box? name = some B →
      (headRegex g name).toNfa.tryMinimize = .ok B ∧
      (∀ k, B.tryAccepts k =
        .ok (decide (∃ p ∈ g.productions, p.head = name ∧ keys p.body = k))) ∧
      ∀ body, B.tryAccepts (keys body) = .ok (decide (⟨name, body⟩ ∈ g.productions))) ∧
    ∀ name, name ∈ (ofGrammar g).nullable ↔ ⟨name, []⟩ ∈ g.productions := by
  refine ⟨fun name => ⟨hasBox_eq_isSome_box?, hasBox_ofGrammar_iff⟩, fun name B hB => ?_,
    fun name => (mem_nullable_iff minimal_ofGrammar).trans bodies_ofGrammar_iff⟩
  refine ⟨?_, tryAccepts_of_box?_ofGrammar hB, fun body => ?_⟩
  · obtain ⟨-, rfl⟩ := box?_ofGrammar_iff.mp hB
    exact Nfa.tryMinimize_eq_ok (Regex.wellFormed_toNfa bounded_headRegex.denotes)
  · rw [tryAccepts_of_box?_ofGrammar hB]
    refine congrArg Except.ok (decide_eq_decide.mpr ⟨?_, fun hp => ⟨_, hp, rfl, rfl⟩⟩)
    rintro ⟨⟨head, body'⟩, hp, rfl, hkeys⟩
    exact keys_inj hkeys ▸ hp

/-- A terminal and a variable of one name, and names that begin as keys do. -/
def markedGrammar : Grammar :=
  .ofList "S" [⟨"S", [.terminal "S"]⟩, ⟨"S", [.terminal "@S", .nonterminal "'S"]⟩, ⟨"S", []⟩,
    ⟨"'S", [.nonterminal "S"]⟩]

theorem ofGrammar_boxes_markedGrammar :
    (∃ B, (ofGrammar markedGrammar).box? "S" = some B ∧
      B.tryAccepts ["'S"] = .ok true ∧ B.tryAccepts ["@S"] = .ok false ∧
      B.tryAccepts ["'@S", "@'S"] = .ok true ∧ B.tryAccepts ["'@S"] = .ok false ∧
      B.tryAccepts [] = .ok true) ∧
    (∃ B, (ofGrammar markedGrammar).box? "'S" = some B ∧
      B.tryAccepts ["@S"] = .ok true ∧ B.tryAccepts ["'S"] = .ok false) ∧
    (ofGrammar markedGrammar).hasBox "@S" = false ∧
    "S" ∈ (ofGrammar markedGrammar).nullable ∧ "'S" ∉ (ofGrammar markedGrammar).nullable := by
  obtain ⟨hhas, haccepts, hnullable⟩ := ofGrammar_boxes markedGrammar
  have hbox : ∀ name body, ⟨name, body⟩ ∈ markedGrammar.productions →
      ∃ B, (ofGrammar markedGrammar).box? name = some B := fun name body hp =>
    Option.isSome_iff_exists.mp ((hhas name).1 ▸ (hhas name).2.mpr ⟨body, hp⟩)
  obtain ⟨B, hB⟩ := hbox "S" [] (by decide +kernel)
  obtain ⟨D, hD⟩ := hbox "'S" [.nonterminal "S"] (by decide +kernel)
  obtain ⟨-, hwords, -⟩ := haccepts "S" B hB
  obtain ⟨-, hwords', -⟩ := haccepts "'S" D hD
  refine ⟨⟨B, hB, ?_⟩, ⟨D, hD, ?_⟩, by decide +kernel, ?_, ?_⟩
  · simp only [hwords]
    decide +kernel
  · simp only [hwords']
    decide +kernel
  · exact (hnullable "S").mpr (by decide +kernel)
  · exact fun h => absurd ((hnullable "'S").mp h) (by decide +kernel)

end Machine

end PathQuery
