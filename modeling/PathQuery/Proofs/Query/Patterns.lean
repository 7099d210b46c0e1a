import PathQuery.Proofs.Machine.Patterns
import PathQuery.Proofs.Query.Basic

/-!
# Proofs/Query/Patterns — all engines answer what a machine of patterns asks for

The worklist and the matrices see the grammar of a machine in weak normal form, the tensor its
boxes.  Both have the words of a machine of patterns, so whichever engine is chosen, the facts of
the start variable are the ends of the walks that spell such a word (`mem_derive_machine_iff`).

* `answers_agree_on_patterns` — patterns that parse have a machine, and the answer to it has those
  pairs, as far as the filters admit them; so it is the same for all engines.
-/

namespace PathQuery.Query

variable {m : Machine} {g : Graph} {startNodes finalNodes : Option (List Nat)} {config : Config}
  {algorithm : Algorithm} {A : Answer} {D : Derivations} {u v : Nat} {start : String}
  {patterns : List (String × String)}

theorem joinedBy_bodies_iff :
    JoinedBy m.bodies g.frame m.start u v ↔ ∃ w, g.frame.Walk u w v ∧ m.Generates w := by
  rw [JoinedBy, joins_iff_exists_walk]
  exact exists_congr fun w => and_comm

theorem joinedBy_toGrammar_iff {N : NormalGrammar} (hm : Machine.ofPatterns? start patterns = .ok m)
    (hstart : start ∈ patterns.map (·.1)) (hN : m.toGrammar.normalize = .ok N) :
    JoinedBy N.bodies g.frame m.start u v ↔ ∃ w, g.frame.Walk u w v ∧ m.Generates w := by
  have hstart_eq : m.start = m.toGrammar.start := Grammar.start_ofList.symm
  rw [hstart_eq, joinedBy_normalGrammar_iff hN]
  exact exists_congr fun w => and_congr_right fun _ =>
    Machine.generates_toGrammar_ofPatterns_iff hm hstart

/-- **All engines** derive the ends of the walks that spell a word of a machine of patterns. -/
theorem mem_derive_machine_iff (hm : Machine.ofPatterns? start patterns = .ok m)
    (hstart : start ∈ patterns.map (·.1)) (h : (machine m).derive algorithm g = .ok D) :
    ⟨u, m.start, v⟩ ∈ D.facts ↔ ∃ w, g.frame.Walk u w v ∧ m.Generates w := by
  cases algorithm with
  | hellings =>
    obtain ⟨N, hN, h⟩ := exists_of_bind_eq_ok h
    rw [← Except.ok.inj h, Worklist.mem_derive_iff, joinedBy_toGrammar_iff hm hstart hN]
  | matrix =>
    obtain ⟨N, hN, h⟩ := exists_of_bind_eq_ok h
    rw [MatrixEngine.mem_derive_iff h, joinedBy_toGrammar_iff hm hstart hN]
  | tensor =>
    rw [Tensor.mem_derive_iff (Machine.minimal_of_ofPatterns? hm) h, joinedBy_bodies_iff]

/-- The answer to a machine of patterns that has a box for its start. -/
theorem mem_pairs_machine_iff (hm : Machine.ofPatterns? start patterns = .ok m)
    (hstart : start ∈ patterns.map (·.1))
    (h : answer (.machine m) g startNodes finalNodes config = .ok A) :
    (u, v) ∈ A.pairs ↔ (∃ w, g.frame.Walk u w v ∧ m.Generates w) ∧
      PairFilter.admits ⟨start, startNodes, finalNodes, config.selfPairs⟩ u v = true := by
  obtain ⟨-, hnames, -⟩ := Machine.boxes_of_ofPatterns? hm
  refine (mem_pairs_of_facts (fun hempty => ?_)
    (fun D hD u v => mem_derive_machine_iff hm hstart hD) h).trans ?_
  · have hbox := hnames start hstart
    rw [Machine.names, List.isEmpty_iff.mp hempty] at hbox
    exact absurd hbox List.not_mem_nil
  · exact and_congr_right fun _ => Iff.rfl

/-- **The answer to patterns**: patterns that parse have a machine; where the start names one of
them, the answer has the ends of the walks that spell a word of the machine, as far as they are
admitted, and all engines give the same pairs. -/
theorem answers_agree_on_patterns (start : String) (patterns : List (String × String))
    (hparse : ∀ p ∈ patterns, ∃ e, Regex.parse? p.2 = .ok e)
    (hstart : start ∈ patterns.map (·.1)) :
    ∃ m, Machine.ofPatterns? start patterns = .ok m ∧
      ∀ (g : Graph) (startNodes finalNodes : Option (List Nat)) (config : Config) (A : Answer),
        answer (.machine m) g startNodes finalNodes config = .ok A →
          (∀ u v, (u, v) ∈ A.pairs ↔ (∃ w, g.frame.Walk u w v ∧ m.Generates w) ∧
            PairFilter.admits ⟨start, startNodes, finalNodes, config.selfPairs⟩ u v = true) ∧
          ∀ (config' : Config) (A' : Answer), config'.selfPairs = config.selfPairs →
            answer (.machine m) g startNodes finalNodes config' = .ok A' → A'.pairs = A.pairs := by
  obtain ⟨m, hm⟩ := @Machine.exists_ofPatterns? start _ hparse
  refine ⟨m, hm, fun g startNodes finalNodes config A h =>
    ⟨fun u v => mem_pairs_machine_iff hm hstart h, fun config' A' hself h' => ?_⟩⟩
  refine Ascending.eq_of_mem_iff (isAscending_pairs h') (isAscending_pairs h) fun (u, v) => ?_
  rw [mem_pairs_machine_iff hm hstart h', mem_pairs_machine_iff hm hstart h, hself]

/-- Two patterns that call each other, after one that the second of them replaces. -/
def mutualPatterns : List (String × String) := [("B", "b b"), ("S", "a B b?"), ("B", "S | $")]

/-- An engine's answer to these patterns, with two numbers given for the targets. -/
def mutualAnswer (algorithm : Algorithm) : Except Error Answer := do
  let m ← Machine.ofPatterns? "S" mutualPatterns
  answer (.machine m) Tensor.loopGraph none (some [0, 2]) ⟨algorithm, .keep, true⟩

theorem answers_agree_on_mutualPatterns : ∃ A A' A'', mutualAnswer .hellings = .ok A ∧
    mutualAnswer .matrix = .ok A' ∧ mutualAnswer .tensor = .ok A'' ∧
      A.pairs = [(0, 0), (1, 0)] ∧ A'.pairs = A.pairs ∧ A''.pairs = A.pairs := by
  have hworklist : mutualAnswer .hellings = .ok ⟨[(0, 0), (1, 0)], 21, 21⟩ := by decide +kernel
  have hmatrix : mutualAnswer .matrix = .ok ⟨[(0, 0), (1, 0)], 6, 21⟩ := by decide +kernel
  have htensor : mutualAnswer .tensor = .ok ⟨[(0, 0), (1, 0)], 5, 31⟩ := by decide +kernel
  have hparse : mutualPatterns.all fun p => (Regex.parse? p.2).isOk := by decide +kernel
  obtain ⟨m, hm, hanswer⟩ := answers_agree_on_patterns "S" mutualPatterns
    (fun p hp => by
      have hok := List.all_eq_true.mp hparse p hp
      cases he : Regex.parse? p.2 with
      | error e => rw [he] at hok; cases hok
      | ok e => exact ⟨e, rfl⟩)
    (by decide)
  have hmutual : ∀ algorithm, mutualAnswer algorithm =
      answer (.machine m) Tensor.loopGraph none (some [0, 2]) ⟨algorithm, .keep, true⟩ :=
    fun algorithm => by rw [mutualAnswer, hm]; rfl
  obtain ⟨-, hengines⟩ := hanswer _ _ _ _ _ ((hmutual _).symm.trans hworklist)
  exact ⟨_, _, _, hworklist, hmatrix, htensor, rfl,
    hengines ⟨.matrix, .keep, true⟩ _ rfl ((hmutual _).symm.trans hmatrix),
    hengines ⟨.tensor, .keep, true⟩ _ rfl ((hmutual _).symm.trans htensor)⟩

end PathQuery.Query
