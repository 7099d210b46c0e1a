import PathQuery.Engine.Worklist
import PathQuery.Proofs.Engine.Fact
import PathQuery.Search

/-!
# Proofs/Engine/Worklist — the worklist engine finds all facts

Each fact joins the list once, is derived, and is joined with all facts taken up before it or with
it (`Holds`).  There are no more facts than triples of a rule and two nodes, so that the bound on
the rounds leaves nothing pending: the rounds are those of the loop without a bound (`run_spec`),
and at its end the rules are closed under the facts.

* `mem_derive_iff` — the facts are the pairs of nodes that a variable joins.
* `derive_takes_each_fact_once` — the loop ends, and has taken up each of the facts once.
-/

namespace PathQuery.Worklist

variable {N : NormalGrammar} {g : Graph} {rules : List Rule} {done pending known : List Fact}
  {d e f : Fact} {v : String} {bound rounds a b : Nat}

/-! ## Seeds and joins -/

theorem mem_heads_iff {body : Rule.Body} : v ∈ heads rules body ↔ ⟨v, body⟩ ∈ rules := by
  simp only [heads, List.mem_filterMap, Option.ite_none_right_eq_some, Option.some.injEq]
  constructor
  · rintro ⟨r, hr, rfl, rfl⟩
    exact hr
  · exact fun hr => ⟨_, hr, rfl, rfl⟩

theorem mem_seeds_iff : f ∈ seeds rules g ↔
    (⟨f.head, .empty⟩ ∈ rules ∧ f.source ∈ g.nodes ∧ f.target = f.source) ∨
      ∃ t, ⟨f.head, .terminal t⟩ ∈ rules ∧ ⟨f.source, t, f.target⟩ ∈ g.edges := by
  obtain ⟨a, v, b⟩ := f
  simp only [seeds, List.mem_append, List.mem_flatMap, List.mem_map, mem_heads_iff, Fact.mk.injEq]
  refine or_congr ⟨?_, ?_⟩ ⟨?_, ?_⟩
  · rintro ⟨c, hc, u, hu, rfl, rfl, rfl⟩
    exact ⟨hu, hc, rfl⟩
  · rintro ⟨hv, ha, rfl⟩
    exact ⟨_, ha, v, hv, rfl, rfl, rfl⟩
  · rintro ⟨e, he, u, hu, rfl, rfl, rfl⟩
    exact ⟨e.label, hu, he⟩
  · rintro ⟨t, hv, he⟩
    exact ⟨_, he, v, hv, rfl, rfl, rfl⟩

theorem mem_join_iff : d ∈ join rules e f ↔ e.target = f.source ∧
    ⟨d.head, .pair e.head f.head⟩ ∈ rules ∧ d.source = e.source ∧ d.target = f.target := by
  obtain ⟨a, v, b⟩ := d
  rw [join]
  split
  · next heq =>
    simp only [List.mem_map, mem_heads_iff, Fact.mk.injEq, and_iff_right heq]
    constructor
    · rintro ⟨u, hu, rfl, rfl, rfl⟩
      exact ⟨hu, rfl, rfl⟩
    · rintro ⟨hv, rfl, rfl⟩
      exact ⟨v, hv, rfl, rfl, rfl⟩
  · next hne => exact iff_of_false List.not_mem_nil fun hjoin => hne hjoin.1

theorem mem_before_iff :
    d ∈ before rules known f ↔ (∃ e ∈ known, d ∈ join rules e f) ∧ d ∉ known := by
  rw [before, Distinct.mem_unseen, List.mem_flatMap]

theorem mem_after_iff :
    d ∈ after rules known f ↔ (∃ e ∈ known, d ∈ join rules f e) ∧ d ∉ known := by
  rw [after, Distinct.mem_unseen, List.mem_flatMap]

/-- What is added is new, each fact once. -/
theorem nodup_append_added (h : known.Nodup) : (known ++ added rules known f).Nodup := by
  have hbefore : (known ++ before rules known f).Nodup := by
    refine List.nodup_append.mpr ⟨h, Distinct.nodup_unseen .., fun d hd e he hde => ?_⟩
    exact (mem_before_iff.mp he).2 (hde ▸ hd)
  rw [added, ← List.append_assoc]
  refine List.nodup_append.mpr ⟨hbefore, Distinct.nodup_unseen .., fun d hd e he hde => ?_⟩
  exact (mem_after_iff.mp he).2 (hde ▸ hd)

/-- A fact that follows from a known one and `f` after it is known from then on. -/
theorem mem_append_added_of_join_left (he : e ∈ known) (hd : d ∈ join rules e f) :
    d ∈ known ++ added rules known f := by
  by_cases hmem : d ∈ known
  · exact List.mem_append_left _ hmem
  · refine List.mem_append_right _ (List.mem_append_left _ ?_)
    exact mem_before_iff.mpr ⟨⟨e, he, hd⟩, hmem⟩

/-- So is one that follows from `f` and a known one after it. -/
theorem mem_append_added_of_join_right (he : e ∈ known) (hd : d ∈ join rules f e) :
    d ∈ known ++ added rules known f := by
  rw [added, ← List.append_assoc]
  by_cases hmem : d ∈ known ++ before rules known f
  · exact List.mem_append_left _ hmem
  · refine List.mem_append_right _ (mem_after_iff.mpr ⟨⟨e, ?_, hd⟩, hmem⟩)
    exact List.mem_append_left _ he

/-! ## What every round keeps -/

/-- **The facts of a run**: different ones, all of them derived, with those of the seeds, and with
those that two facts already taken up are joined to. -/
structure Holds (N : NormalGrammar) (g : Graph) (done pending : List Fact) : Prop where
  nodup : (done ++ pending).Nodup
  sound : ∀ f ∈ done ++ pending, JoinedBy N.bodies g.frame f.head f.source f.target
  seeds : ∀ f ∈ seeds N.rules g, f ∈ done ++ pending
  closed : ∀ e ∈ done, ∀ f ∈ done, ∀ d ∈ join N.rules e f, d ∈ done ++ pending

theorem closed_joinedBy_graph : N.Closed g.frame (JoinedBy N.bodies g.frame) :=
  NormalGrammar.closed_joinedBy fun he => (g.ends_mem _ he).2

theorem holds_seeds : Holds N g [] (Distinct.ofList (seeds N.rules g)) where
  nodup := Distinct.nodup_ofList _
  sound f hf := by
    rcases mem_seeds_iff.mp (Distinct.mem_ofList.mp hf) with ⟨hr, ha, htarget⟩ | ⟨t, hr, he⟩
    · rw [htarget]
      exact closed_joinedBy_graph.empty hr ha
    · exact closed_joinedBy_graph.terminal hr he
  seeds _ hf := Distinct.mem_ofList.mpr hf
  closed _ he := absurd he List.not_mem_nil

theorem joinedBy_of_mem_join (he : JoinedBy N.bodies g.frame e.head e.source e.target)
    (hf : JoinedBy N.bodies g.frame f.head f.source f.target) (hjoin : d ∈ join N.rules e f) :
    JoinedBy N.bodies g.frame d.head d.source d.target := by
  obtain ⟨heq, hr, hsource, htarget⟩ := mem_join_iff.mp hjoin
  rw [hsource, htarget]
  exact closed_joinedBy_graph.pair hr he (heq ▸ hf)

/-- What a fact adds is derived: the joins before it are, and so are those after it, which may be
with one of the former. -/
theorem Holds.sound_added (h : Holds N g done pending) (hf : f ∈ done ++ pending)
    (hd : d ∈ added N.rules (done ++ pending) f) :
    JoinedBy N.bodies g.frame d.head d.source d.target := by
  have hbefore : ∀ d ∈ before N.rules (done ++ pending) f,
      JoinedBy N.bodies g.frame d.head d.source d.target := fun d hd => by
    obtain ⟨⟨e, he, hjoin⟩, -⟩ := mem_before_iff.mp hd
    exact joinedBy_of_mem_join (h.sound e he) (h.sound f hf) hjoin
  rcases List.mem_append.mp hd with hd | hd
  · exact hbefore d hd
  · obtain ⟨⟨e, he, hjoin⟩, -⟩ := mem_after_iff.mp hd
    rcases List.mem_append.mp he with he | he
    · exact joinedBy_of_mem_join (h.sound f hf) (h.sound e he) hjoin
    · exact joinedBy_of_mem_join (h.sound f hf) (hbefore e he) hjoin

/-- Two facts taken up before are joined already; otherwise one of the two is the new one. -/
theorem Holds.mem_append_added (h : Holds N g done (f :: pending)) {e' : Fact}
    (he : e ∈ done ++ [f]) (he' : e' ∈ done ++ [f]) (hjoin : d ∈ join N.rules e e') :
    d ∈ (done ++ f :: pending) ++ added N.rules (done ++ f :: pending) f := by
  have hknown : ∀ d ∈ done ++ [f], d ∈ done ++ f :: pending := fun d hd => by
    rw [List.append_cons]
    exact List.mem_append_left _ hd
  rcases List.mem_append.mp he with hdone | hnow
  · rcases List.mem_append.mp he' with hdone' | hnow'
    · exact List.mem_append_left _ (h.closed e hdone e' hdone' d hjoin)
    · rw [List.mem_singleton.mp hnow'] at hjoin
      exact mem_append_added_of_join_left (hknown e he) hjoin
  · rw [List.mem_singleton.mp hnow] at hjoin
    exact mem_append_added_of_join_right (hknown e' he') hjoin

/-- Taking up a fact keeps the facts of a run. -/
theorem Holds.take (h : Holds N g done (f :: pending)) :
    Holds N g (done ++ [f]) (pending ++ added N.rules (done ++ f :: pending) f) := by
  have assoc : ∀ new : List Fact,
      (done ++ [f]) ++ (pending ++ new) = (done ++ f :: pending) ++ new := by simp
  constructor
  · rw [assoc]
    exact nodup_append_added h.nodup
  · rw [assoc]
    intro e he
    rcases List.mem_append.mp he with he | he
    · exact h.sound e he
    · exact h.sound_added (List.mem_append_right _ (List.mem_cons_self ..)) he
  · rw [assoc]
    exact fun e he => List.mem_append_left _ (h.seeds e he)
  · rw [assoc]
    exact fun e he e' he' d hjoin => h.mem_append_added he he' hjoin

/-! ## The bound on the rounds -/

/-- All triples of a rule and two nodes, as facts. -/
def candidates (rules : List Rule) (g : Graph) : List Fact :=
  rules.flatMap fun r => g.nodes.flatMap fun a => g.nodes.map fun b => ⟨a, r.head, b⟩

theorem length_candidates :
    (candidates rules g).length = rules.length * g.nodes.length * g.nodes.length := by
  simp [candidates, List.length_flatMap, List.map_const', Nat.mul_assoc]

theorem Holds.mem_candidates (h : Holds N g done pending) (hf : f ∈ done ++ pending) :
    f ∈ candidates N.rules g := by
  have hjoined := h.sound f hf
  obtain ⟨r, hr, hhead⟩ := NormalGrammar.exists_rule_of_joinedBy hjoined
  refine List.mem_flatMap.mpr ⟨r, hr, List.mem_flatMap.mpr ⟨f.source, hjoined.node, ?_⟩⟩
  refine List.mem_map.mpr ⟨f.target, hjoined.node_target, ?_⟩
  rw [hhead]

/-- **The loop** without a bound on its rounds: while facts are pending it takes up the first of
them, and in the end it has taken up those of the last list. -/
inductive Loop (rules : List Rule) : List Fact → List Fact → List Fact → Prop where
  | stop (done : List Fact) : Loop rules done [] done
  | take {done pending taken : List Fact} {f : Fact} :
      Loop rules (done ++ [f]) (pending ++ added rules (done ++ f :: pending) f) taken →
        Loop rules done (f :: pending) taken

theorem Loop.length_le {taken : List Fact} (h : Loop rules done pending taken) :
    done.length ≤ taken.length := by
  induction h with
  | stop => exact Nat.le_refl _
  | take _ ih =>
    rw [List.length_append] at ih
    exact Nat.le_of_succ_le ih

/-- **The rounds** are those of the loop, which ends with nothing pending. -/
theorem run_spec (h : Holds N g done pending)
    (hbound : (candidates N.rules g).length ≤ done.length + bound) :
    ∃ taken, Loop N.rules done pending taken ∧ Holds N g taken [] ∧
      run N.rules bound done pending rounds = (taken, rounds + (taken.length - done.length)) := by
  induction bound generalizing done pending rounds with
  | zero =>
    have hle := Search.length_le_of_nodup h.nodup fun f hf => h.mem_candidates hf
    rw [List.length_append] at hle
    obtain rfl : pending = [] := List.length_eq_zero_iff.mp (by omega)
    exact ⟨done, .stop done, h, by rw [run, List.append_nil, Nat.sub_self, Nat.add_zero]⟩
  | succ bound ih =>
    cases pending with
    | nil => exact ⟨done, .stop done, h, by rw [run, Nat.sub_self, Nat.add_zero]⟩
    | cons f pending =>
      have hlength : (done ++ [f]).length = done.length + 1 := List.length_append
      obtain ⟨taken, hloop, htaken, hrun⟩ := @ih _ _ (rounds + 1) h.take (by omega)
      have hle := hloop.length_le
      refine ⟨taken, .take hloop, htaken, ?_⟩
      rw [run, hrun]
      congr 1
      omega

/-! ## The facts -/

/-- With nothing pending, the rules are closed under the facts. -/
theorem Holds.isClosed (h : Holds N g done []) :
    N.Closed g.frame fun v a b => ⟨a, v, b⟩ ∈ done where
  empty {v a} hr ha := by
    have := h.seeds ⟨a, v, a⟩ (mem_seeds_iff.mpr (.inl ⟨hr, ha, rfl⟩))
    rwa [List.append_nil] at this
  terminal {v t a b} hr he := by
    have := h.seeds ⟨a, v, b⟩ (mem_seeds_iff.mpr (.inr ⟨t, hr, he⟩))
    rwa [List.append_nil] at this
  pair {v u w a b c} hr hab hbc := by
    have := h.closed _ hab _ hbc ⟨a, v, c⟩ (mem_join_iff.mpr ⟨rfl, hr, rfl, rfl⟩)
    rwa [List.append_nil] at this

/-- The facts are those that the loop takes up, each of them in one round. -/
theorem exists_loop_derive (N : NormalGrammar) (g : Graph) :
    ∃ taken, Loop N.rules [] (Distinct.ofList (seeds N.rules g)) taken ∧ Holds N g taken [] ∧
      derive N g = ⟨Ascending.ofList taken, taken.length, taken.length⟩ := by
  have hbound : (candidates N.rules g).length =
      ([] : List Fact).length + N.rules.length * g.nodes.length * g.nodes.length := by
    rw [length_candidates, List.length_nil, Nat.zero_add]
  obtain ⟨taken, hloop, htaken, hrun⟩ :=
    @run_spec N g [] _ _ 0 holds_seeds (Nat.le_of_eq hbound)
  refine ⟨taken, hloop, htaken, ?_⟩
  rw [derive, hrun]
  simp only [List.length_nil, Nat.sub_zero, Nat.zero_add]

/-- **The facts** are the pairs of nodes that a variable joins. -/
theorem mem_derive_iff :
    ⟨a, v, b⟩ ∈ (derive N g).facts ↔ JoinedBy N.bodies g.frame v a b := by
  obtain ⟨taken, -, h, hderive⟩ := exists_loop_derive N g
  rw [hderive, Ascending.mem_ofList]
  constructor
  · intro hmem
    exact h.sound ⟨a, v, b⟩ (List.mem_append_left _ hmem)
  · exact h.isClosed.of_joinedBy

end PathQuery.Worklist
