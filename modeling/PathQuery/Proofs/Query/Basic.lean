import PathQuery.Proofs.Engine.Matrix
import PathQuery.Proofs.Engine.Tensor
import PathQuery.Proofs.Engine.Worklist
import PathQuery.Proofs.Grammar.Normalize
import PathQuery.Proofs.Machine.Build
import PathQuery.Query.Basic

/-!
# Proofs/Query/Basic — all engines answer what the grammar asks for

Whichever engine is chosen, the facts of the start variable are the ends of the walks that spell one
of its words (`mem_derive_grammar_iff`): the worklist and the matrices derive the facts of the weak
normal form, the tensor those of the machine, and both have the words of the grammar.

* `mem_pairs_answer_iff` — the answer to a grammar has these pairs, as far as the filters admit
  them, and so it is the same for all engines.
-/

namespace PathQuery

/-! ## Filters -/

namespace PairFilter

variable {F : PairFilter} {nodes : Option (List Nat)} {facts : List Fact} {u v : Nat}

theorem passes_iff : passes nodes v = true ↔ ∀ l, nodes = some l → l ≠ [] → v ∈ l := by
  cases nodes with
  | none => simp [passes]
  | some l => simp [passes, Classical.or_iff_not_imp_left]

theorem mem_apply_iff :
    (u, v) ∈ F.apply facts ↔ ⟨u, F.head, v⟩ ∈ facts ∧ F.admits u v = true := by
  simp only [apply, Ascending.mem_ofList, List.mem_filterMap, Option.ite_none_right_eq_some,
    Option.some.injEq, Prod.mk.injEq]
  constructor
  · rintro ⟨f, hf, ⟨hhead, hadmits⟩, rfl, rfl⟩
    exact ⟨hhead ▸ hf, hadmits⟩
  · rintro ⟨hf, hadmits⟩
    exact ⟨_, hf, ⟨rfl, hadmits⟩, rfl, rfl⟩

end PairFilter

namespace Query

variable {G : Grammar} {g : Graph} {startNodes finalNodes : Option (List Nat)} {config : Config}
  {algorithm : Algorithm} {A : Answer} {D : Derivations} {u v : Nat}

/-! ## The facts of a grammar -/

theorem joinedBy_normalGrammar_iff {N : NormalGrammar} (h : G.normalize = .ok N) :
    JoinedBy N.bodies g.frame G.start u v ↔ ∃ w, g.frame.Walk u w v ∧ G.Generates w := by
  rw [JoinedBy, joins_iff_exists_walk]
  refine exists_congr fun w => ?_
  obtain ⟨hstart, hgenerates⟩ := @Grammar.generates_of_normalize G w N h
  rw [← hgenerates, NormalGrammar.Generates, hstart, and_comm]

/-- **All engines** derive the ends of the walks that spell a word of the grammar. -/
theorem mem_derive_grammar_iff (h : (grammar G).derive algorithm g = .ok D) :
    ⟨u, G.start, v⟩ ∈ D.facts ↔ ∃ w, g.frame.Walk u w v ∧ G.Generates w := by
  cases algorithm with
  | hellings =>
    obtain ⟨N, hN, h⟩ := exists_of_bind_eq_ok h
    rw [← Except.ok.inj h, Worklist.mem_derive_iff, joinedBy_normalGrammar_iff hN]
  | matrix =>
    obtain ⟨N, hN, h⟩ := exists_of_bind_eq_ok h
    rw [MatrixEngine.mem_derive_iff h, joinedBy_normalGrammar_iff hN]
  | tensor =>
    rw [Tensor.mem_derive_iff Machine.minimal_ofGrammar h, Machine.bodies_ofGrammar,
      JoinedBy, joins_iff_exists_walk]
    exact exists_congr fun w => and_comm

/-! ## Answers -/

/-- **What a grammar asks for**: the ends of a walk that spells a word of the grammar, each in the
set of nodes for it, if there is such a set and it is not empty, and different ones where pairs of a
node with itself are excluded. -/
structure Asks (G : Grammar) (g : Graph) (startNodes finalNodes : Option (List Nat))
    (selfPairs : SelfPairs) (u v : Nat) : Prop where
  walk : ∃ w, g.frame.Walk u w v ∧ G.Generates w
  start_mem : ∀ nodes, startNodes = some nodes → nodes ≠ [] → u ∈ nodes
  final_mem : ∀ nodes, finalNodes = some nodes → nodes ≠ [] → v ∈ nodes
  ne : selfPairs = .exclude → u ≠ v

theorem admits_iff {head : String} {selfPairs : SelfPairs} :
    (⟨head, startNodes, finalNodes, selfPairs⟩ : PairFilter).admits u v = true ↔
      (∀ nodes, startNodes = some nodes → nodes ≠ [] → u ∈ nodes) ∧
        (∀ nodes, finalNodes = some nodes → nodes ≠ [] → v ∈ nodes) ∧
          (selfPairs = .exclude → u ≠ v) := by
  rw [PairFilter.admits, Bool.and_eq_true, Bool.and_eq_true, PairFilter.passes_iff,
    PairFilter.passes_iff, and_assoc]
  refine and_congr_right fun _ => and_congr_right fun _ => ?_
  simp [imp_iff_not_or]

theorem not_generates_of_isEmpty (hG : G.isEmpty = true) {w : List String} : ¬G.Generates w := by
  intro h
  obtain ⟨body, hp, -⟩ := derives_nonterminal_iff.mp h
  rw [Production.bodies, List.isEmpty_iff.mp hG] at hp
  exact List.not_mem_nil hp

/-- The pairs of an answer: none, or those of the derived facts that pass the filter. -/
theorem pairs_of_answer {q : Query} (h : q.answer g startNodes finalNodes config = .ok A) :
    (q.isEmpty = true ∧ A.pairs = []) ∨ ∃ D, q.derive config.algorithm g = .ok D ∧
      A.pairs = PairFilter.apply ⟨q.start, startNodes, finalNodes, config.selfPairs⟩ D.facts := by
  rw [answer] at h
  split at h
  · next hempty =>
    rw [← Except.ok.inj h]
    exact .inl ⟨hempty, rfl⟩
  · split at h
    · obtain ⟨D, hD, h⟩ := exists_of_bind_eq_ok h
      rw [← Except.ok.inj h]
      exact .inr ⟨D, hD, rfl⟩
    · cases h

/-- Where it is known which facts of the start symbol are derived, the answer has their pairs, as
far as they are admitted. -/
theorem mem_pairs_of_facts {q : Query} {P : Nat → Nat → Prop}
    (hempty : q.isEmpty = true → ∀ u v, ¬P u v)
    (hfacts : ∀ D, q.derive config.algorithm g = .ok D →
      ∀ u v, ⟨u, q.start, v⟩ ∈ D.facts ↔ P u v)
    (h : q.answer g startNodes finalNodes config = .ok A) : (u, v) ∈ A.pairs ↔
      P u v ∧ PairFilter.admits ⟨q.start, startNodes, finalNodes, config.selfPairs⟩ u v = true := by
  rcases pairs_of_answer h with ⟨hq, hpairs⟩ | ⟨D, hD, hpairs⟩
  · rw [hpairs]
    exact iff_of_false List.not_mem_nil fun hP => hempty hq u v hP.1
  · rw [hpairs, PairFilter.mem_apply_iff, hfacts D hD]

theorem mem_pairs_iff (h : answer (.grammar G) g startNodes finalNodes config = .ok A) :
    (u, v) ∈ A.pairs ↔ Asks G g startNodes finalNodes config.selfPairs u v := by
  rw [mem_pairs_of_facts (fun hempty u v ⟨w, _, hw⟩ => not_generates_of_isEmpty hempty hw)
    (fun D hD u v => mem_derive_grammar_iff hD) h, admits_iff]
  constructor
  · rintro ⟨hw, hu, hv, hne⟩
    exact ⟨hw, hu, hv, hne⟩
  · rintro ⟨hw, hu, hv, hne⟩
    exact ⟨hw, hu, hv, hne⟩

theorem isAscending_pairs {q : Query} (h : q.answer g startNodes finalNodes config = .ok A) :
    Ascending.IsAscending A.pairs := by
  rcases pairs_of_answer h with ⟨-, hpairs⟩ | ⟨D, -, hpairs⟩
  · rw [hpairs]
    exact List.Pairwise.nil
  · rw [hpairs]
    exact Ascending.isAscending_ofList _

/-- **The answer to a grammar** has the pairs of nodes that it asks for, and all engines give the
same pairs. -/
theorem mem_pairs_answer_iff (h : answer (.grammar G) g startNodes finalNodes config = .ok A) :
    (∀ u v, (u, v) ∈ A.pairs ↔ Asks G g startNodes finalNodes config.selfPairs u v) ∧
      ∀ (config' : Config) (A' : Answer), config'.selfPairs = config.selfPairs →
        answer (.grammar G) g startNodes finalNodes config' = .ok A' → A'.pairs = A.pairs := by
  refine ⟨fun u v => mem_pairs_iff h, fun config' A' hself h' => ?_⟩
  refine Ascending.eq_of_mem_iff (isAscending_pairs h') (isAscending_pairs h) fun (u, v) => ?_
  rw [mem_pairs_iff h', mem_pairs_iff h, hself]

/-- An engine's answer to the nested pairs of letters, with two numbers given for the targets. -/
def nestedAnswer (algorithm : Algorithm) : Except Error Answer :=
  answer (.grammar Tensor.nestedGrammar) Tensor.loopGraph none (some [0, 2])
    ⟨algorithm, .keep, true⟩

theorem mem_pairs_nestedAnswer : ∃ A A', nestedAnswer .hellings = .ok A ∧
    nestedAnswer .tensor = .ok A' ∧ A'.pairs = A.pairs ∧ A.pairs = [(0, 0), (1, 0)] ∧
      ∀ u v, (u, v) ∈ A.pairs ↔
        Asks Tensor.nestedGrammar Tensor.loopGraph none (some [0, 2]) .keep u v := by
  have h : nestedAnswer .hellings = .ok ⟨[(0, 0), (1, 0)], 8, 8⟩ := by decide +kernel
  have h' : nestedAnswer .tensor = .ok ⟨[(0, 0), (1, 0)], 3, 21⟩ := by decide +kernel
  obtain ⟨hpairs, hengines⟩ := mem_pairs_answer_iff h
  exact ⟨_, _, h, h', hengines ⟨.tensor, .keep, true⟩ _ rfl h', rfl, hpairs⟩

end Query

end PathQuery
