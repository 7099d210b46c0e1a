import PathQuery.Proofs.Grammar.Normalize

/-!
# Proofs/Grammar/Trimmed — no pass leaves a useless production

Productions are `Trimmed` where all variables of their bodies derive words and all their heads are
reachable from the start variable.  The removal of useless productions ends with such ones
(`trimmed_usefulFrom`) and keeps them all if there are only such ones (`Trimmed.usefulFrom_eq`).
The passes behind it add new variables, but each wrapper's variable stands in the body that it was
made for, and the variables of a chain are reached along it; so the productions stay trimmed.

* `Grammar.trimmed_normalProductions` — the productions of the weak normal form are trimmed.
-/

namespace PathQuery.Production

open Search (Reachable reachable_self)

variable {ps qs : List Production} {p : Production} {known : List String}
  {start head v : String} {names : NameSupply} {body x : List Symbol}

/-- **Trimmed**: no variable of a body fails to derive a word, and no head is out of reach. -/
structure Trimmed (start : String) (ps : List Production) : Prop where
  derives : ∀ p ∈ ps, ∀ v, .nonterminal v ∈ p.body → ∃ w, Derives (bodies ps) [.nonterminal v] w
  reachable : ∀ p ∈ ps, Reachable (bodyVariables ps) [start] p.head

/-! ## Variables that derive words -/

/-- Symbols derive a word where each of their variables does. -/
theorem exists_derives {P : Bodies}
    (h : ∀ v, .nonterminal v ∈ x → ∃ w, Derives P [.nonterminal v] w) : ∃ w, Derives P x w := by
  induction x with
  | nil => exact ⟨[], .nil⟩
  | cons s x ih =>
    obtain ⟨w, hw⟩ := ih fun v hv => h v (List.mem_cons_of_mem _ hv)
    cases s with
    | terminal t => exact ⟨t :: w, .terminal hw⟩
    | nonterminal v =>
      obtain ⟨u, hu⟩ := h v (List.mem_cons_self ..)
      exact ⟨u ++ w, derives_nonterminal_cons_iff.mpr ⟨u, w, rfl, hu, hw⟩⟩

theorem exists_derives_head (hp : p ∈ ps)
    (h : ∀ v, .nonterminal v ∈ p.body → ∃ w, Derives (bodies ps) [.nonterminal v] w) :
    ∃ w, Derives (bodies ps) [.nonterminal p.head] w := by
  obtain ⟨w, hw⟩ := exists_derives h
  exact ⟨w, derives_nonterminal_iff.mpr ⟨p.body, hp, hw⟩⟩

theorem exists_derives_generatingFrom (rounds : Nat)
    (hknown : ∀ v ∈ known, ∃ w, Derives (bodies ps) [.nonterminal v] w) :
    ∀ v ∈ generatingFrom ps rounds known, ∃ w, Derives (bodies ps) [.nonterminal v] w := by
  induction rounds generalizing known with
  | zero => exact hknown
  | succ rounds ih =>
    rw [generatingFrom]
    split
    · exact hknown
    · refine ih fun v hv => ?_
      rcases List.mem_append.mp hv with hv | hv
      · exact hknown v hv
      · obtain ⟨p, hp, rfl⟩ := List.mem_map.mp (Distinct.mem_unseen.mp hv).1
        obtain ⟨hp, hbody⟩ := List.mem_filter.mp hp
        exact exists_derives_head hp fun v hv => hknown v (bodyWithin_iff.mp hbody v hv)

/-- **The generating variables** are those that derive words. -/
theorem mem_generating_iff :
    v ∈ generating ps ↔ ∃ w, Derives (bodies ps) [.nonterminal v] w := by
  constructor
  · exact exists_derives_generatingFrom _ (fun v hv => absurd hv List.not_mem_nil) v
  · rintro ⟨w, hw⟩
    exact (derives_generatingOnly hw).1 v (List.mem_cons_self ..)

/-! ## The removal of useless productions -/

/-- What is reachable is so by the productions of reachable heads. -/
theorem reachable_reachableOnly (hv : Reachable (bodyVariables ps) [start] v) :
    Reachable (bodyVariables (ps.filter fun p => decide (p.head ∈ reachableFrom ps start)))
      [start] v := by
  induction hv with
  | seed h => exact .seed h
  | step ha hb ih =>
    obtain ⟨body, hp, hb⟩ := mem_bodyVariables.mp hb
    refine .step ih (mem_bodyVariables.mpr ⟨body, List.mem_filter.mpr ⟨hp, ?_⟩, hb⟩)
    exact decide_eq_true (mem_reachableFrom.mpr ha)

/-- What is kept is trimmed. -/
theorem trimmed_usefulFrom : Trimmed start (usefulFrom start ps) := by
  rw [usefulFrom_eq]
  split
  · have hkept : ∀ p ∈ (generatingOnly ps).filter
        fun p => decide (p.head ∈ reachableFrom (generatingOnly ps) start),
          p ∈ generatingOnly ps ∧ Reachable (bodyVariables (generatingOnly ps)) [start] p.head := by
      intro p hp
      obtain ⟨hp, hhead⟩ := List.mem_filter.mp hp
      exact ⟨hp, mem_reachableFrom.mp (of_decide_eq_true hhead)⟩
    constructor
    · intro p hp v hv
      obtain ⟨hp, hhead⟩ := hkept p hp
      have hbody := (Bool.and_eq_true_iff.mp (List.mem_filter.mp hp).2).2
      obtain ⟨w, hw⟩ := mem_generating_iff.mp (bodyWithin_iff.mp hbody v hv)
      refine ⟨w, derives_reachableOnly (derives_generatingOnly hw).2 fun u hu => ?_⟩
      obtain rfl : u = v := Symbol.nonterminal.inj (List.mem_singleton.mp hu)
      exact mem_reachableFrom.mpr (.step hhead (mem_bodyVariables.mpr ⟨p.body, hp, hv⟩))
    · exact fun p hp => reachable_reachableOnly (hkept p hp).2
  · exact ⟨fun p hp => absurd hp List.not_mem_nil, fun p hp => absurd hp List.not_mem_nil⟩

theorem Trimmed.mem_generating (h : Trimmed start ps) (hp : p ∈ ps) : p.head ∈ generating ps :=
  mem_generating_iff.mpr (exists_derives_head hp (h.derives p hp))

/-- Trimmed productions are all kept. -/
theorem Trimmed.usefulFrom_eq (h : Trimmed start ps) : usefulFrom start ps = ps := by
  have hgenerating : generatingOnly ps = ps := by
    refine List.filter_eq_self.mpr fun p hp => ?_
    rw [decide_eq_true (h.mem_generating hp), Bool.true_and, bodyWithin_iff]
    exact fun v hv => mem_generating_iff.mpr (h.derives p hp v hv)
  have hreachable : (ps.filter fun p => decide (p.head ∈ reachableFrom ps start)) = ps :=
    List.filter_eq_self.mpr fun p hp => decide_eq_true (mem_reachableFrom.mpr (h.reachable p hp))
  rw [Production.usefulFrom_eq, hgenerating, hreachable]
  split
  · rfl
  · next hstart =>
    refine (List.eq_nil_iff_forall_not_mem.mpr fun p hp => hstart ?_).symm
    rcases (h.reachable p hp).eq_or_exists_mem with hhead | ⟨u, hu⟩
    · exact hhead ▸ h.mem_generating hp
    · obtain ⟨body, hbody, -⟩ := mem_bodyVariables.mp hu
      exact h.mem_generating hbody

/-- The order of productions and their number do not matter. -/
theorem Trimmed.congr (h : Trimmed start ps) (hmem : ∀ p, p ∈ ps ↔ p ∈ qs) : Trimmed start qs where
  derives p hp v hv := by
    obtain ⟨w, hw⟩ := h.derives p ((hmem p).mpr hp) v hv
    exact ⟨w, (derives_congr hmem).mp hw⟩
  reachable p hp := by
    refine (h.reachable p ((hmem p).mpr hp)).transfer fun a b hb => .step reachable_self ?_
    obtain ⟨body, hbody, hb⟩ := mem_bodyVariables.mp hb
    exact mem_bodyVariables.mpr ⟨body, (hmem _).mp hbody, hb⟩

/-- Productions that derive the same words from variables in use derive one from each variable of a
body. -/
theorem Trimmed.exists_derives {used : List String} {Q : Bodies} (h : Trimmed start ps)
    (hps : ∀ p ∈ ps, p.Over used) (hQ : ∀ {x w}, (∀ v, .nonterminal v ∈ x → v ∈ used) →
      (Derives Q x w ↔ Derives (bodies ps) x w)) (hp : p ∈ ps) (hv : .nonterminal v ∈ p.body) :
    ∃ w, Derives Q [.nonterminal v] w := by
  obtain ⟨w, hw⟩ := h.derives p hp v hv
  refine ⟨w, (hQ fun u hu => ?_).mpr hw⟩
  obtain rfl : u = v := Symbol.nonterminal.inj (List.mem_singleton.mp hu)
  exact (hps p hp).body u hv

/-! ## Isolation -/

/-- **Isolation** keeps productions trimmed: a wrapper's variable derives its terminal, and it is
reached by the body that the wrapper was made for. -/
theorem trimmed_isolateTerminals (h : Trimmed start ps) (hps : ∀ p ∈ ps, p.Over names.taken) :
    Trimmed start (isolateTerminals names ps).2 := by
  have hold := fun p hp v hv => @h.exists_derives ps p start v names.taken
    (bodies (isolateTerminals names ps).2) hps (derives_isolateTerminals_iff hps) hp hv
  obtain ⟨W, ps', -, hiso, hused, heq⟩ := exists_wrappers names ps
  rw [heq] at hold ⊢
  -- a body keeps its variables, so that the heads are reached as before
  have hreachable : ∀ p ∈ ps', Reachable (bodyVariables (ps' ++ W.productions)) [start] p.head := by
    intro p' hp'
    obtain ⟨p, hp, hhead, -⟩ := hiso.source p' hp'
    rw [hhead]
    refine (h.reachable p hp).transfer fun a b hb => .step reachable_self ?_
    obtain ⟨body, hp, hv⟩ := mem_bodyVariables.mp hb
    obtain ⟨⟨_, body'⟩, hp', rfl, hbody⟩ := hiso.kept _ hp
    refine mem_bodyVariables.mpr ⟨body', List.mem_append_left _ hp', ?_⟩
    rcases hbody with ⟨-, rfl⟩ | ⟨-, hwraps⟩
    · exact hv
    · exact hwraps.mem hv
  constructor
  · intro p' hp' v hv
    have hwrapper : ∀ t, (t, v) ∈ W.wrappers →
        ∃ w, Derives (bodies (ps' ++ W.productions)) [.nonterminal v] w := fun t ht => by
      refine ⟨[t], derives_nonterminal_iff.mpr ⟨[.terminal t], ?_, .terminal .nil⟩⟩
      exact List.mem_append_right _ (Wrappers.mem_productions.mpr ⟨_, ht, rfl⟩)
    rcases List.mem_append.mp hp' with hp' | hp'
    · obtain ⟨p, hp, -, ⟨-, hbody⟩ | ⟨-, hwraps⟩⟩ := hiso.source p' hp'
      · exact hold p hp v (hbody ▸ hv)
      · rcases hwraps.mem_or hv with hv | ⟨t, ht⟩
        · exact hold p hp v hv
        · exact hwrapper t ht
    · obtain ⟨e, -, rfl⟩ := Wrappers.mem_productions.mp hp'
      cases List.mem_singleton.mp hv
  · intro p' hp'
    rcases List.mem_append.mp hp' with hp' | hp'
    · exact hreachable p' hp'
    · obtain ⟨e, he, rfl⟩ := Wrappers.mem_productions.mp hp'
      obtain ⟨p, hp, hv⟩ := hused e he
      refine .step (hreachable p hp) (mem_bodyVariables.mpr ⟨p.body, ?_, hv⟩)
      exact List.mem_append_left _ hp

/-! ## Binarization -/

/-- A chain begins with its head. -/
theorem exists_mem_splitBody {hint : String} :
    ∃ p ∈ (splitBody hint names head body).2, p.head = head := by
  unfold splitBody
  split
  · exact ⟨_, List.mem_cons_self .., rfl⟩
  · exact ⟨_, List.mem_cons_self .., rfl⟩

/-- Along a chain its heads are reached from the first one, and the variables of the body too. -/
theorem reachable_splitBody {hint : String}
    (hqs : ∀ q ∈ (splitBody hint names head body).2, q ∈ qs) :
    (∀ q ∈ (splitBody hint names head body).2, Reachable (bodyVariables qs) [head] q.head) ∧
      ∀ v, .nonterminal v ∈ body → Reachable (bodyVariables qs) [head] v := by
  fun_induction splitBody hint names head body with
  | case1 names head s y z body names' r hfresh names'' chain hchain ih =>
    rw [hchain] at ih
    obtain ⟨hheads, hbody⟩ := ih fun q hq => hqs q (List.mem_cons_of_mem _ hq)
    have hpair : ⟨head, [s, .nonterminal r]⟩ ∈ qs := hqs _ (List.mem_cons_self ..)
    have hr : Reachable (bodyVariables qs) [head] r :=
      .step reachable_self (mem_bodyVariables.mpr ⟨_, hpair, by simp⟩)
    constructor
    · rintro q (_ | ⟨_, hq⟩)
      · exact reachable_self
      · exact hr.trans (hheads q hq)
    · rintro v (_ | ⟨_, hv⟩)
      · exact .step reachable_self (mem_bodyVariables.mpr ⟨_, hpair, List.mem_cons_self ..⟩)
      · exact hr.trans (hbody v hv)
  | case2 names head body hlong =>
    constructor
    · rintro q hq
      rw [List.mem_singleton.mp hq]
      exact reachable_self
    · exact fun v hv => .step reachable_self
        (mem_bodyVariables.mpr ⟨body, hqs _ (List.mem_cons_self ..), hv⟩)

/-- Along a chain all variables derive words if those of the body do. -/
theorem exists_derives_splitBody {hint : String}
    (hqs : ∀ q ∈ (splitBody hint names head body).2, q ∈ qs)
    (hbody : ∀ v, .nonterminal v ∈ body → ∃ w, Derives (bodies qs) [.nonterminal v] w) :
    ∀ q ∈ (splitBody hint names head body).2, ∀ v, .nonterminal v ∈ q.body →
      ∃ w, Derives (bodies qs) [.nonterminal v] w := by
  fun_induction splitBody hint names head body with
  | case1 names head s y z body names' r hfresh names'' chain hchain ih =>
    rw [hchain] at ih
    have hchain' := ih (fun q hq => hqs q (List.mem_cons_of_mem _ hq))
      fun v hv => hbody v (List.mem_cons_of_mem _ hv)
    rintro q (_ | ⟨_, hq⟩) v hv
    · rcases hv with _ | ⟨_, _ | ⟨_, ⟨⟩⟩⟩
      · exact hbody v (List.mem_cons_self ..)
      · obtain ⟨q, hq, rfl⟩ := @exists_mem_splitBody r names' (y :: z :: body) hint
        rw [hchain] at hq
        exact exists_derives_head (hqs q (List.mem_cons_of_mem _ hq)) (hchain' q hq)
    · exact hchain' q hq v hv
  | case2 names head body hlong =>
    intro q hq
    rw [List.mem_singleton.mp hq]
    exact hbody

/-- The chain of a production, with names of some supply, is among some productions. -/
def HasChain (qs : List Production) (p : Production) (names : NameSupply) : Prop :=
  ∀ q ∈ (splitBody p.head names p.head p.body).2, q ∈ qs

/-- Each production has its chain, and there are no productions but those of chains. -/
theorem exists_chains : (∀ p ∈ ps, ∃ names', HasChain (binarize names ps).2 p names') ∧
    ∀ q ∈ (binarize names ps).2, ∃ p ∈ ps, ∃ names',
      q ∈ (splitBody p.head names' p.head p.body).2 ∧ HasChain (binarize names ps).2 p names' := by
  fun_induction binarize names ps with
  | case1 names =>
    exact ⟨fun p hp => absurd hp List.not_mem_nil, fun q hq => absurd hq List.not_mem_nil⟩
  | case2 names p ps names' chain hchain names'' ps' hps' ih =>
    rw [hps'] at ih
    obtain ⟨hkept, hsource⟩ := ih
    have hfirst : HasChain (chain ++ ps') p names := fun q hq => by
      rw [hchain] at hq
      exact List.mem_append_left _ hq
    have hrest : ∀ {q names}, HasChain ps' q names → HasChain (chain ++ ps') q names :=
      fun h r hr => List.mem_append_right _ (h r hr)
    constructor
    · rintro q (_ | ⟨_, hq⟩)
      · exact ⟨names, hfirst⟩
      · obtain ⟨names', h⟩ := hkept q hq
        exact ⟨names', hrest h⟩
    · intro q hq
      rcases List.mem_append.mp hq with hq | hq
      · exact ⟨p, List.mem_cons_self .., names, by rwa [hchain], hfirst⟩
      · obtain ⟨r, hr, names', hq, h⟩ := hsource q hq
        exact ⟨r, List.mem_cons_of_mem _ hr, names', hq, hrest h⟩

/-- **Binarization** keeps productions trimmed: the variables of a chain are reached along it, and
derive words from its end up. -/
theorem trimmed_binarize (h : Trimmed start ps) (hps : ∀ p ∈ ps, p.Over names.taken) :
    Trimmed start (binarize names ps).2 := by
  obtain ⟨hkept, hsource⟩ := @exists_chains ps names
  constructor
  · intro q hq
    obtain ⟨p, hp, names', hq, hchain⟩ := hsource q hq
    exact exists_derives_splitBody hchain
      (fun v hv => h.exists_derives hps (derives_binarize_iff hps) hp hv) q hq
  · intro q hq
    obtain ⟨p, hp, names', hq, hchain⟩ := hsource q hq
    refine .trans ((h.reachable p hp).transfer fun a b hb => ?_)
      ((reachable_splitBody hchain).1 q hq)
    obtain ⟨body, hbody, hb⟩ := mem_bodyVariables.mp hb
    obtain ⟨names', hchain⟩ := hkept _ hbody
    exact (reachable_splitBody hchain).2 b hb

end PathQuery.Production

namespace PathQuery.Grammar

open Production (Trimmed)

/-- **The weak normal form** has no useless production. -/
theorem trimmed_normalProductions (g : Grammar) : Trimmed g.start g.normalProductions := by
  have huseful : ∀ p ∈ Production.usefulFrom g.start (Production.withoutUnits g.productions),
      p.Over (NameSupply.ofTaken g.nonterminals).taken := fun p hp =>
    (over_withoutUnits over_nonterminals p (Production.mem_of_mem_usefulFrom hp)).1
  exact Production.trimmed_binarize
    (Production.trimmed_isolateTerminals Production.trimmed_usefulFrom huseful)
    (Production.over_isolateTerminals huseful).2

end PathQuery.Grammar
