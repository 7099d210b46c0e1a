import PathQuery.Proofs.Automaton.Build
import PathQuery.Proofs.Query.Patterns

/-!
# Proofs/Query/Regular — regular path queries

The machine of a pattern that does not call itself asks for the walks that spell a word of the
pattern.  Reachability along the automaton of the pattern finds the same pairs of nodes, except that
it leaves out empty walks.

* `mem_pairs_iff_mem_reach` — the answer to the machine of a pattern has the pairs that reachability
  finds, and each admitted node with itself where the pattern denotes the empty word.

The answer is filtered after all facts are derived, reachability before it begins; both let through
the walks whose ends pass (`mem_pairs_pattern_iff`, `exists_mem_reach_ofGraph_iff`).
-/

namespace PathQuery.Query

variable {m : Machine} {g : Graph} {startNodes finalNodes : Option (List Nat)} {config : Config}
  {A : Answer} {u v : Nat} {start pattern : String} {e : Regex}

theorem admits_keep_iff : PairFilter.admits ⟨start, startNodes, finalNodes, .keep⟩ u v = true ↔
    PairFilter.passes startNodes u = true ∧ PairFilter.passes finalNodes v = true := by
  simp [PairFilter.admits]

/-- The answer to a pattern with pairs of a node with itself kept. -/
theorem mem_pairs_pattern_iff (hparse : Regex.parse? pattern = .ok e) (hstart : start ∉ e.symbols)
    (hm : Machine.ofPattern? start pattern = .ok m) (hself : config.selfPairs = .keep)
    (h : answer (.machine m) g startNodes finalNodes config = .ok A) :
    (u, v) ∈ A.pairs ↔
      (PairFilter.passes startNodes u = true ∧ PairFilter.passes finalNodes v = true) ∧
        ∃ w, w ∈ e.language ∧ g.frame.Walk u w v := by
  rw [mem_pairs_machine_iff hm (List.mem_singleton.mpr rfl) h, hself, admits_keep_iff, and_comm]
  refine and_congr_right fun _ => exists_congr fun w => ?_
  rw [Machine.generates_ofPattern?_iff hparse hstart hm, and_comm]

/-- **Regular queries**: a pattern without the start symbol has a machine and an automaton.  Over
any graph the answer to the machine, by whichever engine, has the pairs of nodes that reachability
along the automaton finds, and the admitted nodes with themselves where the pattern denotes the
empty word. -/
theorem mem_pairs_iff_mem_reach (hparse : Regex.parse? pattern = .ok e)
    (hstart : start ∉ e.symbols) :
    ∃ m C, Machine.ofPattern? start pattern = .ok m ∧ Automaton.ofPattern? pattern = .ok C ∧
      ∀ (g : Graph) (startNodes finalNodes : Option (List Nat)), ∃ L,
        (Automaton.ofGraph g startNodes finalNodes).tryReach C = .ok L ∧
          ∀ (config : Config) (A : Answer), config.selfPairs = .keep →
            answer (.machine m) g startNodes finalNodes config = .ok A →
              ∀ v y, (v, y) ∈ A.pairs ↔ (∃ ys, (v, ys) ∈ L ∧ y ∈ ys) ∨
                v = y ∧ [] ∈ e.language ∧ v ∈ g.nodes ∧
                  PairFilter.passes startNodes v = true ∧
                    PairFilter.passes finalNodes v = true := by
  obtain ⟨C, hC, hrange, haccepts⟩ := Automaton.exists_ofPattern? hparse
  have hm := @Machine.ofPattern?_eq_ok start e pattern hparse
  refine ⟨_, C, hm, hC, fun g startNodes finalNodes => ⟨_, Automaton.tryReach_eq_ok hrange, ?_⟩⟩
  intro config A hself h v y
  rw [mem_pairs_pattern_iff hparse hstart hm hself h,
    Automaton.exists_mem_reach_ofGraph_iff hrange]
  simp only [haccepts]
  constructor
  · rintro ⟨hpass, w, hw, hwalk⟩
    by_cases hne : w = []
    · subst hne
      obtain ⟨rfl, hv⟩ := Frame.walk_nil_iff.mp hwalk
      exact .inr ⟨rfl, hw, hv, hpass⟩
    · exact .inl ⟨hpass, w, hne, hw, hwalk⟩
  · rintro (⟨hpass, w, -, hw, hwalk⟩ | ⟨rfl, hw, hv, hpass⟩)
    · exact ⟨hpass, w, hw, hwalk⟩
    · exact ⟨hpass, [], hw, .nil hv⟩

/-- One or more letters `b` behind a letter `a`, or nothing. -/
def optionalRegex : Regex :=
  .union [.concat [.symbol "a", .repetition (.symbol "b") 1 none], .epsilon]

/-- An engine's answer to its pattern, with two numbers given for the targets. -/
def optionalAnswer (algorithm : Algorithm) : Except Error Answer := do
  let m ← Machine.ofPattern? "S" "a b+ | $"
  answer (.machine m) Tensor.loopGraph none (some [0, 2]) ⟨algorithm, .keep, true⟩

/-- What is reached along its automaton. -/
def optionalReach : Except Error (List (Nat × List Nat)) := do
  let C ← Automaton.ofPattern? "a b+ | $"
  (Automaton.ofGraph Tensor.loopGraph none (some [0, 2])).tryReach C

theorem mem_pairs_iff_mem_reach_optional : ∃ A L, optionalAnswer .tensor = .ok A ∧
    optionalReach = .ok L ∧ A.pairs = [(0, 0), (1, 0)] ∧ L = [(0, []), (1, [0])] ∧
      ∀ v y, (v, y) ∈ A.pairs ↔ (∃ ys, (v, ys) ∈ L ∧ y ∈ ys) ∨
        v = y ∧ [] ∈ optionalRegex.language ∧ v ∈ Tensor.loopGraph.nodes ∧
          PairFilter.passes none v = true ∧ PairFilter.passes (some [0, 2]) v = true := by
  have hanswer : optionalAnswer .tensor = .ok ⟨[(0, 0), (1, 0)], 2, 10⟩ := by decide +kernel
  have hreach : optionalReach = .ok [(0, []), (1, [0])] := by decide +kernel
  have hparse : Regex.parse? "a b+ | $" = .ok optionalRegex := by rfl
  obtain ⟨m, C, hm, hC, hregular⟩ := @mem_pairs_iff_mem_reach "S" _ _ hparse (by decide)
  have hanswer_eq : optionalAnswer .tensor = answer (.machine m) Tensor.loopGraph none (some [0, 2])
      ⟨.tensor, .keep, true⟩ := by rw [optionalAnswer, hm]; rfl
  have hreach_eq : optionalReach =
      (Automaton.ofGraph Tensor.loopGraph none (some [0, 2])).tryReach C := by
    rw [optionalReach, hC]; rfl
  obtain ⟨L, hL, hpairs⟩ := hregular Tensor.loopGraph none (some [0, 2])
  obtain rfl := Except.ok.inj (hL.symm.trans (hreach_eq.symm.trans hreach))
  exact ⟨_, _, hanswer, hreach, rfl, rfl,
    hpairs ⟨.tensor, .keep, true⟩ _ rfl (hanswer_eq.symm.trans hanswer)⟩

end PathQuery.Query
