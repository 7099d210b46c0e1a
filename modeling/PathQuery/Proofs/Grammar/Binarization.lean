import PathQuery.Grammar.Normal
import PathQuery.Proofs.Grammar.Isolation

/-!
# Proofs/Grammar/Binarization — long bodies split into pairs

One step of the splitting gives the symbols behind the first one a fresh variable, which is a
definitional extension of any productions over names in use (`derives_split_iff`).  A chain is some
such steps, and `binarize` some chains; so `derives_binarize_iff` is two inductions over this step,
with productions that are already split, or not split yet, beside.
-/

namespace PathQuery.Production

variable {names : NameSupply} {ps cs : List Production} {p : Production} {head r : String}
  {body x : List Symbol} {s : Symbol} {w : List String}

/-! ## One step -/

/-- One variable stands for some symbols. -/
def definition (r : String) (y : List Symbol) (v : String) : Option (List Symbol) :=
  if v = r then some y else none

theorem definition_of_ne {v : String} {y : List Symbol} (h : v ≠ r) : definition r y v = none :=
  if_neg h

theorem definition_self {y : List Symbol} : definition r y r = some y := if_pos rfl

/-- **Splitting**: a variable that is not in use may stand for the symbols behind the first one. -/
theorem derives_split_iff {used : List String} (hr : r ∉ used)
    (hp : Over used ⟨head, s :: body⟩) (hcs : ∀ p ∈ cs, p.Over used)
    (hx : ∀ v, .nonterminal v ∈ x → v ∈ used) :
    Derives (bodies (⟨head, [s, .nonterminal r]⟩ :: ⟨r, body⟩ :: cs)) x w ↔
      Derives (bodies (⟨head, s :: body⟩ :: cs)) x w := by
  have hnone : ∀ v ∈ used, definition r body v = none := fun v hv =>
    definition_of_ne fun h => hr (h ▸ hv)
  have hself : ∀ y : List Symbol, (∀ v, .nonterminal v ∈ y → v ∈ used) →
      y.flatMap (Symbol.expand (definition r body)) = y := fun y hy =>
    flatMap_expand_eq_self fun v hv => hnone v (hy v hv)
  have hs : [s, .nonterminal r].flatMap (Symbol.expand (definition r body)) = s :: body := by
    have := hself [s] fun v hv => hp.body v (List.mem_singleton.mp hv ▸ List.mem_cons_self ..)
    rw [← List.singleton_append, List.flatMap_append, this, List.flatMap_singleton, Symbol.expand,
      definition_self]
    rfl
  refine derives_iff_of_stands (fun v body' hmem hv => ?_) (fun v body' y hmem hv => ?_)
    (fun v body' w hmem hw => ?_) fun v hv => hnone v (hx v hv)
  · rcases hmem with _ | ⟨_, _ | ⟨_, hmem⟩⟩
    · rw [hs]
      exact List.mem_cons_self ..
    · rw [definition_self] at hv
      cases hv
    · rw [hself body' (hcs _ hmem).body]
      exact List.mem_cons_of_mem _ hmem
  · obtain rfl : v = r := Classical.byContradiction fun h => by
      rw [definition_of_ne h] at hv
      cases hv
    rw [definition_self] at hv
    cases hv
    rcases hmem with _ | ⟨_, _ | ⟨_, hmem⟩⟩
    · exact absurd hp.head hr
    · exact hself _ fun v hv => hp.body v (List.mem_cons_of_mem _ hv)
    · exact absurd (hcs _ hmem).head hr
  · rcases hmem with _ | ⟨_, hmem⟩
    · obtain ⟨u, w', rfl, hu, hw'⟩ := derives_cons_iff.mp hw
      refine derives_nonterminal_iff.mpr ⟨_, List.mem_cons_self .., ?_⟩
      refine derives_cons_iff.mpr ⟨u, w', rfl, hu, derives_nonterminal_iff.mpr ⟨body, ?_, hw'⟩⟩
      exact List.mem_cons_of_mem _ (List.mem_cons_self ..)
    · refine derives_nonterminal_iff.mpr ⟨body', ?_, hw⟩
      exact List.mem_cons_of_mem _ (List.mem_cons_of_mem _ hmem)

/-! ## Chains -/

/-- A chain is over the names in use after it, which are those before it and its fresh ones. -/
theorem over_splitBody {hint : String} (hp : Over names.taken ⟨head, body⟩) :
    (∀ v ∈ names.taken, v ∈ (splitBody hint names head body).1.taken) ∧
      ∀ p ∈ (splitBody hint names head body).2,
        p.Over (splitBody hint names head body).1.taken := by
  fun_induction splitBody hint names head body with
  | case1 names head s y z body names' r hfresh names'' ps hchain ih =>
    obtain ⟨htaken, -⟩ := NameSupply.taken_of_fresh_eq hfresh
    have hnames : ∀ v ∈ names.taken, v ∈ names'.taken := fun v hv =>
      htaken ▸ List.mem_cons_of_mem _ hv
    have hr : r ∈ names'.taken := htaken ▸ List.mem_cons_self ..
    rw [hchain] at ih
    obtain ⟨hmono, hps⟩ := ih ⟨hr, fun v hv => hnames v (hp.body v (List.mem_cons_of_mem _ hv))⟩
    refine ⟨fun v hv => hmono v (hnames v hv), fun p hmem => ?_⟩
    rcases hmem with _ | ⟨_, hmem⟩
    · refine ⟨hmono _ (hnames _ hp.head), fun v hv => ?_⟩
      rcases hv with _ | ⟨_, _ | ⟨_, ⟨⟩⟩⟩
      · exact hmono _ (hnames _ (hp.body v (List.mem_cons_self ..)))
      · exact hmono _ hr
    · exact hps p hmem
  | case2 names head body hlong =>
    refine ⟨fun v hv => hv, fun p hmem => ?_⟩
    rw [List.mem_singleton.mp hmem]
    exact hp

/-- **Chains**: a chain derives what its body derives, beside other productions over names in
use. -/
theorem derives_splitBody_iff {hint : String} (hp : Over names.taken ⟨head, body⟩)
    (hcs : ∀ p ∈ cs, p.Over names.taken) (hx : ∀ v, .nonterminal v ∈ x → v ∈ names.taken) :
    Derives (bodies ((splitBody hint names head body).2 ++ cs)) x w ↔
      Derives (bodies (⟨head, body⟩ :: cs)) x w := by
  fun_induction splitBody hint names head body generalizing cs with
  | case1 names head s y z body names' r hfresh names'' ps hchain ih =>
    obtain ⟨htaken, hr⟩ := NameSupply.taken_of_fresh_eq hfresh
    have hnames : ∀ v ∈ names.taken, v ∈ names'.taken := fun v hv =>
      htaken ▸ List.mem_cons_of_mem _ hv
    have hr' : r ∈ names'.taken := htaken ▸ List.mem_cons_self ..
    have hrest : Over names'.taken ⟨r, y :: z :: body⟩ :=
      ⟨hr', fun v hv => hnames v (hp.body v (List.mem_cons_of_mem _ hv))⟩
    have hhead : Over names'.taken ⟨head, [s, .nonterminal r]⟩ := by
      refine ⟨hnames _ hp.head, fun v hv => ?_⟩
      rcases hv with _ | ⟨_, _ | ⟨_, ⟨⟩⟩⟩
      · exact hnames _ (hp.body v (List.mem_cons_self ..))
      · exact hr'
    have hcs' : ∀ p ∈ ⟨head, [s, .nonterminal r]⟩ :: cs, p.Over names'.taken := by
      rintro p (_ | ⟨_, hmem⟩)
      · exact hhead
      · exact (hcs p hmem).mono hnames
    rw [hchain] at ih
    calc Derives (bodies (⟨head, [s, .nonterminal r]⟩ :: ps ++ cs)) x w
      _ ↔ Derives (bodies (ps ++ ⟨head, [s, .nonterminal r]⟩ :: cs)) x w :=
        derives_congr fun p => List.perm_middle.symm.mem_iff
      _ ↔ Derives (bodies (⟨r, y :: z :: body⟩ :: ⟨head, [s, .nonterminal r]⟩ :: cs)) x w :=
        ih hrest hcs' fun v hv => hnames v (hx v hv)
      _ ↔ Derives (bodies (⟨head, [s, .nonterminal r]⟩ :: ⟨r, y :: z :: body⟩ :: cs)) x w :=
        derives_congr fun p => (List.Perm.swap ..).mem_iff
      _ ↔ Derives (bodies (⟨head, s :: y :: z :: body⟩ :: cs)) x w :=
        derives_split_iff hr hp hcs hx
  | case2 names head body hlong => exact Iff.rfl

/-! ## All productions -/

/-- **Binarization**: variables in use derive the same words, beside other productions over names in
use. -/
theorem derives_binarize_append_iff (hps : ∀ p ∈ ps, p.Over names.taken)
    (hcs : ∀ p ∈ cs, p.Over names.taken) (hx : ∀ v, .nonterminal v ∈ x → v ∈ names.taken) :
    Derives (bodies ((binarize names ps).2 ++ cs)) x w ↔ Derives (bodies (ps ++ cs)) x w := by
  fun_induction binarize names ps generalizing cs with
  | case1 names => exact Iff.rfl
  | case2 names p ps names' chain hchain names'' ps' hps' ih =>
    have hp : p.Over names.taken := hps p (List.mem_cons_self ..)
    have hrest : ∀ q ∈ ps, q.Over names.taken := fun q hq => hps q (List.mem_cons_of_mem _ hq)
    obtain ⟨hmono, hover⟩ := @over_splitBody names p.head p.body p.head hp
    have hsplit := fun cs hcs => @derives_splitBody_iff names cs p.head p.body x w p.head hp hcs hx
    rw [hchain] at hmono hover hsplit
    rw [hps'] at ih
    calc Derives (bodies (chain ++ ps' ++ cs)) x w
      _ ↔ Derives (bodies (ps' ++ (chain ++ cs))) x w := by
        rw [← List.append_assoc]
        exact derives_congr fun q => (List.perm_append_comm.append_right cs).mem_iff
      _ ↔ Derives (bodies (ps ++ (chain ++ cs))) x w := by
        refine ih (fun q hq => (hrest q hq).mono hmono) (fun q hq => ?_)
          fun v hv => hmono v (hx v hv)
        rcases List.mem_append.mp hq with hq | hq
        · exact hover q hq
        · exact (hcs q hq).mono hmono
      _ ↔ Derives (bodies (chain ++ (ps ++ cs))) x w :=
        derives_congr fun q => by simp only [List.mem_append]; tauto
      _ ↔ Derives (bodies (p :: (ps ++ cs))) x w := by
        refine hsplit _ fun q hq => ?_
        rcases List.mem_append.mp hq with hq | hq
        · exact hrest q hq
        · exact hcs q hq

theorem derives_binarize_iff (hps : ∀ p ∈ ps, p.Over names.taken)
    (hx : ∀ v, .nonterminal v ∈ x → v ∈ names.taken) :
    Derives (bodies (binarize names ps).2) x w ↔ Derives (bodies ps) x w := by
  have := @derives_binarize_append_iff names ps [] x w hps (fun p hp => by cases hp) hx
  rwa [List.append_nil, List.append_nil] at this

/-! ## Form -/

/-- A body of at most two symbols that is isolated belongs to a rule. -/
theorem exists_toProduction (hbody : Isolated body) (hlen : body.length ≤ 2) :
    ∃ r : Rule, r.toProduction = ⟨head, body⟩ := by
  cases hbody with
  | nil => exact ⟨⟨head, .empty⟩, rfl⟩
  | terminal t => exact ⟨⟨head, .terminal t⟩, rfl⟩
  | allVariables hlen' hvs =>
    obtain ⟨s, y, rfl⟩ := List.length_eq_two.mp (Nat.le_antisymm hlen hlen')
    obtain ⟨b, rfl⟩ := hvs s (by simp)
    obtain ⟨c, rfl⟩ := hvs y (by simp)
    exact ⟨⟨head, .pair b c⟩, rfl⟩

theorem exists_toProduction_of_mem_splitBody {hint : String} (hbody : Isolated body)
    (hp : p ∈ (splitBody hint names head body).2) : ∃ r : Rule, r.toProduction = p := by
  fun_induction splitBody hint names head body with
  | case1 names head s y z body names' r hfresh names'' ps hchain ih =>
    cases hbody with
    | allVariables _ hvs =>
      rw [hchain] at ih
      rcases hp with _ | ⟨_, hp⟩
      · obtain ⟨b, rfl⟩ := hvs s (List.mem_cons_self ..)
        exact ⟨⟨head, .pair b r⟩, rfl⟩
      · exact ih (.allVariables (by simp) fun s' hs' => hvs s' (List.mem_cons_of_mem _ hs')) hp
  | case2 names head body hlong =>
    rw [List.mem_singleton.mp hp]
    refine exists_toProduction hbody ?_
    match body, hlong with
    | [], _ | [_], _ | [_, _], _ => simp
    | x :: y :: z :: body, hlong => exact absurd rfl (hlong x y z body)

/-- **Form**: productions with isolated bodies become rules. -/
theorem exists_toProduction_of_mem_binarize (hps : ∀ p ∈ ps, Isolated p.body)
    (hp : p ∈ (binarize names ps).2) : ∃ r : Rule, r.toProduction = p := by
  fun_induction binarize names ps with
  | case1 names => cases hp
  | case2 names q ps names' chain hchain names'' ps' hps' ih =>
    rw [hps'] at ih
    rcases List.mem_append.mp hp with hp | hp
    · have : p ∈ (splitBody q.head names q.head q.body).2 := by rwa [hchain]
      exact exists_toProduction_of_mem_splitBody (hps q (List.mem_cons_self ..)) this
    · exact ih (fun q hq => hps q (List.mem_cons_of_mem _ hq)) hp

end PathQuery.Production
