import PathQuery.Proofs.Nfa.Minimize
import PathQuery.Proofs.Regex.Fragment

/-!
# Proofs/Regex/Nfa — fragments of automata and what they denote

`Builder.Denotes b L` says that the fragments of `b` keep to their own states and that the paths
from entry to exit spell the words of `L`.  A chain denotes what its parts denote one after another
(`denotes_chain`) and a choice what any of its branches denotes (`denotes_choice`).  Both rest on
one remark: a path that enters a set of states which no arc leaves stays there (`ArcPath.stay`).

* `accepts_toNfa_iff` — the automaton of an expression accepts what the builder of the expression
  denotes.
-/

namespace PathQuery.Regex

variable {p q r k : Nat} {s : String} {w w' : List String}
  {arcs arcs' : List (Nat × Option String × Nat)}

/-! ## Paths of arcs -/

/-- Paths along the arcs of a list, with the symbols of those that are no empty moves. -/
inductive ArcPath (arcs : List (Nat × Option String × Nat)) : Nat → List String → Nat → Prop where
  | nil (q : Nat) : ArcPath arcs q [] q
  | silent {p q r : Nat} {w : List String} :
      (p, none, q) ∈ arcs → ArcPath arcs q w r → ArcPath arcs p w r
  | move {p q r : Nat} {s : String} {w : List String} :
      (p, some s, q) ∈ arcs → ArcPath arcs q w r → ArcPath arcs p (s :: w) r

theorem ArcPath.append (h : ArcPath arcs p w q) (h' : ArcPath arcs q w' r) :
    ArcPath arcs p (w ++ w') r := by
  induction h with
  | nil => exact h'
  | silent ha _ ih => exact .silent ha (ih h')
  | move ha _ ih => exact .move ha (ih h')

/-- **Staying**: a path within states out of which only some arcs lead, to such states again, is a
path of these arcs. -/
theorem ArcPath.stay {R : Nat → Prop} (hR : ∀ a ∈ arcs, R a.1 → a ∈ arcs' ∧ R a.2.2)
    (h : ArcPath arcs p w q) (hp : R p) : ArcPath arcs' p w q := by
  induction h with
  | nil => exact .nil _
  | silent ha _ ih =>
    obtain ⟨ha', hq⟩ := hR _ ha hp
    exact .silent ha' (ih hq)
  | move ha _ ih =>
    obtain ⟨ha', hq⟩ := hR _ ha hp
    exact .move ha' (ih hq)

theorem ArcPath.mono (hsub : arcs ⊆ arcs') (h : ArcPath arcs p w q) : ArcPath arcs' p w q :=
  h.stay (R := fun _ => True) (fun _ ha _ => ⟨hsub ha, trivial⟩) trivial

/-- A path that no arc can begin is empty. -/
theorem ArcPath.eq_nil (hp : ∀ a ∈ arcs, a.1 ≠ p) (h : ArcPath arcs p w q) : w = [] ∧ p = q := by
  cases h with
  | nil => exact ⟨rfl, rfl⟩
  | silent ha _ => exact absurd rfl (hp _ ha)
  | move ha _ => exact absurd rfl (hp _ ha)

/-! ## Fragments -/

/-- The states of a fragment are the numbers from `k` on up to the next free one. -/
structure Fragment.Within (F : Fragment) (k : Nat) : Prop where
  entry : k ≤ F.entry ∧ F.entry < F.next
  exit : k ≤ F.exit ∧ F.exit < F.next
  arcs : ∀ a ∈ F.arcs, (k ≤ a.1 ∧ a.1 < F.next) ∧ k ≤ a.2.2 ∧ a.2.2 < F.next

namespace Builder

/-- **Denotation**: wherever a fragment is put, its paths from entry to exit spell the words of a
language. -/
def Denotes (b : Builder) (L : List String → Prop) : Prop :=
  ∀ k, (b k).Within k ∧ ∀ w, ArcPath (b k).arcs (b k).entry w (b k).exit ↔ L w

theorem Denotes.congr {b : Builder} {L L' : List String → Prop} (hb : b.Denotes L)
    (h : ∀ w, L w ↔ L' w) : b.Denotes L' := fun k =>
  ⟨(hb k).1, fun w => ((hb k).2 w).trans (h w)⟩

theorem denotes_arc (label : Option String) : (arc label).Denotes (· = label.toList) := by
  intro k
  refine ⟨⟨⟨Nat.le_refl k, ?_⟩, ⟨Nat.le_succ k, ?_⟩, fun a ha => ?_⟩, fun w => ?_⟩
  · exact Nat.lt_add_of_pos_right (by omega)
  · exact Nat.lt_succ_self (k + 1)
  · rw [List.mem_singleton.mp ha]
    exact ⟨⟨Nat.le_refl k, Nat.lt_add_of_pos_right (by omega)⟩, Nat.le_succ k,
      Nat.lt_succ_self (k + 1)⟩
  · have hend : ∀ a ∈ (arc label k).arcs, a.1 ≠ k + 1 := fun a ha => by
      rw [List.mem_singleton.mp ha]
      exact (Nat.succ_ne_self k).symm
    constructor
    · intro h
      generalize hp : (arc label k).entry = p at h
      cases h with
      | nil => exact absurd hp (Nat.succ_ne_self k).symm
      | silent ha hpath =>
        cases List.mem_singleton.mp ha
        exact (hpath.eq_nil hend).1
      | move ha hpath =>
        cases List.mem_singleton.mp ha
        rw [(hpath.eq_nil hend).1]
        rfl
    · rintro rfl
      cases label with
      | none => exact .silent (List.mem_singleton.mpr rfl) (.nil _)
      | some s => exact .move (List.mem_singleton.mpr rfl) (.nil _)

/-! ## Chains -/

/-- The words made up of a word of each language, in order. -/
def Sequence : List (List String → Prop) → List String → Prop
  | [], w => w = []
  | L :: Ls, w => ∃ u v, w = u ++ v ∧ L u ∧ Sequence Ls v

/-- What the arcs of a chain of parts behind the state `exit` look like. -/
structure ChainFrom (exit next exit' next' : Nat) (arcs : List (Nat × Option String × Nat))
    (Ls : List (List String → Prop)) : Prop where
  le : next ≤ next'
  ends : exit' = exit ∨ next ≤ exit' ∧ exit' < next'
  source : ∀ a ∈ arcs, a.1 = exit ∨ next ≤ a.1 ∧ a.1 < next'
  target : ∀ a ∈ arcs, next ≤ a.2.2 ∧ a.2.2 < next'
  path : ∀ w, ArcPath arcs exit w exit' ↔ Sequence Ls w

variable {b : Builder} {bs : List Builder} {L : List String → Prop}
  {Ls : List (List String → Prop)} {exit next exit' next' : Nat} {F : Fragment}

/-- A path from a state of the first fragment to the end of the chain passes the exit of the
fragment. -/
theorem ChainFrom.split (hF : F.Within next)
    (h : ChainFrom F.exit F.next exit' next' arcs Ls) (hp : next ≤ p ∧ p < F.next)
    (hpath : ArcPath (F.arcs ++ arcs) p w exit') :
    ∃ u v, w = u ++ v ∧ ArcPath F.arcs p u F.exit ∧ ArcPath arcs F.exit v exit' := by
  have htail : ∀ {q v}, F.next ≤ q → ArcPath (F.arcs ++ arcs) q v exit' →
      ArcPath arcs q v exit' := by
    intro q v hq hv
    refine hv.stay (R := (F.next ≤ ·)) (fun a ha hle => ?_) hq
    rcases List.mem_append.mp ha with ha | ha
    · have := (hF.arcs a ha).1.2
      omega
    · exact ⟨ha, (h.target a ha).1⟩
  have hfirst : ∀ {p l q}, next ≤ p ∧ p < F.next → (p, l, q) ∈ F.arcs ++ arcs →
      (p, l, q) ∈ F.arcs ∧ (next ≤ q ∧ q < F.next) ∨
        (p, l, q) ∈ arcs ∧ p = F.exit ∧ F.next ≤ q := by
    intro p l q hp ha
    rcases List.mem_append.mp ha with ha | ha
    · exact .inl ⟨ha, (hF.arcs _ ha).2⟩
    · refine .inr ⟨ha, (h.source _ ha).resolve_right fun hle => ?_, (h.target _ ha).1⟩
      have := hle.1
      dsimp only at this
      omega
  induction hpath with
  | nil q =>
    obtain rfl : q = F.exit := h.ends.resolve_right fun hle => by omega
    exact ⟨[], [], rfl, .nil _, .nil _⟩
  | silent ha hpath ih =>
    rcases hfirst hp ha with ⟨ha, hq⟩ | ⟨ha, rfl, hq⟩
    · obtain ⟨u, v, rfl, hu, hv⟩ := ih h hq htail
      exact ⟨u, v, rfl, .silent ha hu, hv⟩
    · exact ⟨[], _, rfl, .nil _, .silent ha (htail hq hpath)⟩
  | move ha hpath ih =>
    rcases hfirst hp ha with ⟨ha, hq⟩ | ⟨ha, rfl, hq⟩
    · obtain ⟨u, v, rfl, hu, hv⟩ := ih h hq htail
      exact ⟨_ :: u, v, rfl, .move ha hu, hv⟩
    · exact ⟨[], _, rfl, .nil _, .move ha (htail hq hpath)⟩

/-- The paths of a first fragment and a chain behind its exit. -/
theorem ChainFrom.path_iff (hF : F.Within next)
    (hL : ∀ w, ArcPath F.arcs F.entry w F.exit ↔ L w)
    (h : ChainFrom F.exit F.next exit' next' arcs Ls) :
    ArcPath (F.arcs ++ arcs) F.entry w exit' ↔ Sequence (L :: Ls) w := by
  constructor
  · intro hpath
    obtain ⟨u, v, rfl, hu, hv⟩ := h.split hF hF.entry hpath
    exact ⟨u, v, rfl, (hL u).mp hu, (h.path v).mp hv⟩
  · rintro ⟨u, v, rfl, hu, hv⟩
    have hfst := ((hL u).mpr hu).mono (List.subset_append_left F.arcs arcs)
    exact hfst.append (((h.path v).mpr hv).mono (List.subset_append_right F.arcs arcs))

theorem chainFrom_nil : ChainFrom exit next exit next [] [] := by
  refine ⟨Nat.le_refl _, .inl rfl, fun a ha => ?_, fun a ha => ?_, fun w => ?_⟩
  · exact absurd ha List.not_mem_nil
  · exact absurd ha List.not_mem_nil
  · constructor
    · intro h
      exact (h.eq_nil fun a ha => absurd ha List.not_mem_nil).1
    · rintro rfl
      exact .nil _

/-- The arcs of a chain with one more part in front: the arc into this part, and arcs among the
states of the parts. -/
theorem ChainFrom.mem_cons (hF : F.Within next)
    (h : ChainFrom F.exit F.next exit' next' arcs Ls) {a : Nat × Option String × Nat}
    (ha : a ∈ F.arcs ++ (exit, none, F.entry) :: arcs) : a = (exit, none, F.entry) ∨
      a ∈ F.arcs ++ arcs ∧ (next ≤ a.1 ∧ a.1 < next') ∧ next ≤ a.2.2 ∧ a.2.2 < next' := by
  have hle := h.le
  have hFexit := hF.exit
  rcases List.mem_append.mp ha with ha | ha
  · have := hF.arcs a ha
    exact .inr ⟨List.mem_append_left _ ha, by omega, by omega⟩
  · rcases List.mem_cons.mp ha with rfl | ha
    · exact .inl rfl
    · have htarget := h.target a ha
      have hsource : next ≤ a.1 ∧ a.1 < next' := by rcases h.source a ha with heq | hlt <;> omega
      exact .inr ⟨List.mem_append_right _ ha, hsource, by omega⟩

/-- A path of such a chain begins with the arc into the first part. -/
theorem ChainFrom.path_cons_iff (hF : F.Within next) (hexit : exit < next)
    (h : ChainFrom F.exit F.next exit' next' arcs Ls) :
    ArcPath (F.arcs ++ (exit, none, F.entry) :: arcs) exit w exit' ↔
      ArcPath (F.arcs ++ arcs) F.entry w exit' := by
  have hFexit := hF.exit
  constructor
  · intro hpath
    have hinner : ∀ {v}, ArcPath (F.arcs ++ (exit, none, F.entry) :: arcs) F.entry v exit' →
        ArcPath (F.arcs ++ arcs) F.entry v exit' := fun hv => by
      refine hv.stay (R := (next ≤ ·)) (fun a ha hle => ?_) hF.entry.1
      rcases h.mem_cons hF ha with rfl | ⟨ha, -, hlt⟩
      · dsimp only at hle
        omega
      · exact ⟨ha, hlt.1⟩
    have hfirst : ∀ {l q}, (exit, l, q) ∈ F.arcs ++ (exit, none, F.entry) :: arcs →
        l = none ∧ q = F.entry := fun ha => by
      rcases h.mem_cons hF ha with heq | ⟨-, hlt, -⟩
      · cases heq
        exact ⟨rfl, rfl⟩
      · dsimp only at hlt
        omega
    cases hpath with
    | nil => rcases h.ends with heq | hlt <;> omega
    | silent ha hpath =>
      obtain ⟨-, rfl⟩ := hfirst ha
      exact hinner hpath
    | move ha _ => exact absurd (hfirst ha).1 (Option.some_ne_none _)
  · intro hpath
    refine .silent (List.mem_append_right _ (List.mem_cons_self ..)) (hpath.mono fun a ha => ?_)
    rcases List.mem_append.mp ha with ha | ha
    · exact List.mem_append_left _ ha
    · exact List.mem_append_right _ (List.mem_cons_of_mem _ ha)

theorem ChainFrom.cons (hF : F.Within next) (hL : ∀ w, ArcPath F.arcs F.entry w F.exit ↔ L w)
    (hexit : exit < next) (h : ChainFrom F.exit F.next exit' next' arcs Ls) :
    ChainFrom exit next exit' next' (F.arcs ++ (exit, none, F.entry) :: arcs) (L :: Ls) := by
  have hle := h.le
  have hFexit := hF.exit
  refine ⟨by omega, .inr ?_, fun a ha => ?_, fun a ha => ?_, fun w => ?_⟩
  · rcases h.ends with heq | hlt <;> omega
  · rcases h.mem_cons hF ha with rfl | ⟨-, hlt, -⟩
    · exact .inl rfl
    · exact .inr hlt
  · rcases h.mem_cons hF ha with rfl | ⟨-, -, hlt⟩
    · exact ⟨hF.entry.1, Nat.lt_of_lt_of_le hF.entry.2 hle⟩
    · exact hlt
  · rw [h.path_cons_iff hF hexit, h.path_iff hF hL]

theorem chainFrom_spec (hb : List.Forall₂ Denotes bs Ls) (hexit : exit < next) :
    ChainFrom exit next (chainFrom exit next bs).1 (chainFrom exit next bs).2.1
      (chainFrom exit next bs).2.2 Ls := by
  induction hb generalizing exit next with
  | nil => exact chainFrom_nil
  | @cons b L bs Ls hL _ ih =>
    obtain ⟨hF, hpath⟩ := hL next
    exact (ih hF.exit.2).cons hF hpath hexit

/-- **Chains** denote what their parts denote, one after another. -/
theorem denotes_chain (hb : List.Forall₂ Denotes bs Ls) : (chain bs).Denotes (Sequence Ls) := by
  cases hb with
  | nil => exact denotes_arc none
  | @cons b L bs Ls hL hrest =>
    intro k
    obtain ⟨hF, hpath⟩ := hL k
    have h := chainFrom_spec hrest hF.exit.2
    rcases hchain : chainFrom (b k).exit (b k).next bs with ⟨exit', next', arcs⟩
    have heq : chain (b :: bs) k = ⟨(b k).entry, exit', next', (b k).arcs ++ arcs⟩ := by
      simp only [chain, hchain]
    rw [hchain] at h
    rw [heq]
    have hle : (b k).next ≤ next' := h.le
    have hexit := hF.exit
    refine ⟨⟨⟨hF.entry.1, Nat.lt_of_lt_of_le hF.entry.2 hle⟩, ?_, fun a ha => ?_⟩,
      fun w => h.path_iff hF hpath⟩
    · have hends : exit' = (b k).exit ∨ (b k).next ≤ exit' ∧ exit' < next' := h.ends
      dsimp only
      omega
    · dsimp only at ha ⊢
      rcases List.mem_append.mp ha with ha | ha
      · have := hF.arcs a ha
        omega
      · have hsource : a.1 = (b k).exit ∨ (b k).next ≤ a.1 ∧ a.1 < next' := h.source a ha
        have htarget : (b k).next ≤ a.2.2 ∧ a.2.2 < next' := h.target a ha
        omega

/-! ## Choices -/

/-- What the arcs of some branches between the states `entry` and `exit` look like. -/
structure BranchesFrom (entry exit next next' : Nat) (arcs : List (Nat × Option String × Nat))
    (Ls : List (List String → Prop)) : Prop where
  le : next ≤ next'
  source : ∀ a ∈ arcs, a.1 = entry ∨ next ≤ a.1 ∧ a.1 < next'
  target : ∀ a ∈ arcs, a.2.2 = exit ∨ next ≤ a.2.2 ∧ a.2.2 < next'
  path : ∀ w, ArcPath arcs entry w exit ↔ ∃ L ∈ Ls, L w

variable {entry : Nat}

theorem branchesFrom_nil (hne : entry ≠ exit) : BranchesFrom entry exit next next [] [] := by
  refine ⟨Nat.le_refl _, fun a ha => ?_, fun a ha => ?_, fun w => ?_⟩
  · exact absurd ha List.not_mem_nil
  · exact absurd ha List.not_mem_nil
  · constructor
    · intro h
      exact absurd (h.eq_nil fun a ha => absurd ha List.not_mem_nil).2 hne
    · rintro ⟨L, hL, -⟩
      exact absurd hL List.not_mem_nil

/-- The arcs of a first branch and of the other ones. -/
abbrev branchArcs (entry exit : Nat) (F : Fragment) (arcs : List (Nat × Option String × Nat)) :
    List (Nat × Option String × Nat) :=
  F.arcs ++ (entry, none, F.entry) :: (F.exit, none, exit) :: arcs

theorem mem_branchArcs {a : Nat × Option String × Nat} : a ∈ branchArcs entry exit F arcs ↔
    a ∈ F.arcs ∨ a = (entry, none, F.entry) ∨ a = (F.exit, none, exit) ∨ a ∈ arcs := by
  rw [List.mem_append, List.mem_cons, List.mem_cons]

/-- A path from a state of the first branch to the exit leaves by the exit of the branch. -/
theorem BranchesFrom.split (hF : F.Within next) (hentry : entry < next) (hexit : exit < next)
    (hne : entry ≠ exit) (h : BranchesFrom entry exit F.next next' arcs Ls)
    (hp : next ≤ p ∧ p < F.next) (hpath : ArcPath (branchArcs entry exit F arcs) p w exit) :
    ArcPath F.arcs p w F.exit := by
  have hend : ∀ a ∈ branchArcs entry exit F arcs, a.1 ≠ exit := by
    intro a ha
    rcases mem_branchArcs.mp ha with ha | rfl | rfl | ha
    · have := (hF.arcs a ha).1
      omega
    · exact hne
    · have := hF.exit
      dsimp only
      omega
    · have := hF.entry
      rcases h.source a ha with heq | hlt <;> omega
  have hfirst : ∀ {p l q}, next ≤ p ∧ p < F.next → (p, l, q) ∈ branchArcs entry exit F arcs →
      (p, l, q) ∈ F.arcs ∧ (next ≤ q ∧ q < F.next) ∨ p = F.exit ∧ l = none ∧ q = exit := by
    intro p l q hp ha
    rcases mem_branchArcs.mp ha with ha | heq | heq | ha
    · exact .inl ⟨ha, (hF.arcs _ ha).2⟩
    · cases heq
      omega
    · cases heq
      exact .inr ⟨rfl, rfl, rfl⟩
    · have hsource : p = entry ∨ F.next ≤ p ∧ p < next' := h.source _ ha
      omega
  generalize branchArcs entry exit F arcs = all at hpath hend hfirst
  generalize hx : exit = x at hpath
  induction hpath with
  | nil => omega
  | silent ha hpath ih =>
    subst hx
    rcases hfirst hp ha with ⟨ha, hq⟩ | ⟨rfl, -, rfl⟩
    · exact .silent ha (ih hq rfl)
    · rw [(hpath.eq_nil hend).1]
      exact .nil _
  | move ha hpath ih =>
    subst hx
    rcases hfirst hp ha with ⟨ha, hq⟩ | ⟨-, hnone, -⟩
    · exact .move ha (ih hq rfl)
    · exact absurd hnone (Option.some_ne_none _)

/-- A path that has entered one of the other branches stays in them. -/
theorem BranchesFrom.rest (hF : F.Within next) (hentry : entry < next) (hexit : exit < next)
    (hne : entry ≠ exit) (h : BranchesFrom entry exit F.next next' arcs Ls)
    (hp : p = exit ∨ F.next ≤ p) (hpath : ArcPath (branchArcs entry exit F arcs) p w exit) :
    ArcPath arcs p w exit := by
  have hFexit := hF.exit
  refine hpath.stay (R := fun q => q = exit ∨ F.next ≤ q) (fun a ha hq => ?_) hp
  rcases mem_branchArcs.mp ha with ha | rfl | rfl | ha
  · have := (hF.arcs a ha).1
    omega
  · dsimp only at hq
    omega
  · dsimp only at hq
    omega
  · exact ⟨ha, (h.target a ha).imp_right And.left⟩

/-- The arcs that leave the entry lead into the first branch or into one of the others. -/
theorem BranchesFrom.mem_entry (hF : F.Within next) (hentry : entry < next)
    (h : BranchesFrom entry exit F.next next' arcs Ls) {l : Option String}
    (ha : (entry, l, q) ∈ branchArcs entry exit F arcs) :
    l = none ∧ q = F.entry ∨ (entry, l, q) ∈ arcs ∧ (q = exit ∨ F.next ≤ q) := by
  have hFexit := hF.exit
  rcases mem_branchArcs.mp ha with ha | heq | heq | ha
  · have : next ≤ entry := (hF.arcs _ ha).1.1
    omega
  · cases heq
    exact .inl ⟨rfl, rfl⟩
  · cases heq
    omega
  · exact .inr ⟨ha, (h.target _ ha).imp_right And.left⟩

/-- A path from the entry passes the first branch, or the other ones. -/
theorem BranchesFrom.path_cons_iff (hF : F.Within next) (hentry : entry < next)
    (hexit : exit < next) (hne : entry ≠ exit)
    (h : BranchesFrom entry exit F.next next' arcs Ls) :
    ArcPath (branchArcs entry exit F arcs) entry w exit ↔
      ArcPath F.arcs F.entry w F.exit ∨ ArcPath arcs entry w exit := by
  constructor
  · intro hpath
    cases hpath with
    | nil => exact absurd rfl hne
    | silent ha hpath =>
      rcases h.mem_entry hF hentry ha with ⟨-, rfl⟩ | ⟨ha, hq⟩
      · exact .inl (h.split hF hentry hexit hne hF.entry hpath)
      · exact .inr (.silent ha (h.rest hF hentry hexit hne hq hpath))
    | move ha hpath =>
      rcases h.mem_entry hF hentry ha with ⟨hnone, -⟩ | ⟨ha, hq⟩
      · exact absurd hnone (Option.some_ne_none _)
      · exact .inr (.move ha (h.rest hF hentry hexit hne hq hpath))
  · rintro (hpath | hpath)
    · have hinner : F.arcs ⊆ branchArcs entry exit F arcs := fun a ha =>
        mem_branchArcs.mpr (.inl ha)
      rw [← List.append_nil w]
      refine .silent (mem_branchArcs.mpr (.inr (.inl rfl))) ((hpath.mono hinner).append ?_)
      exact .silent (mem_branchArcs.mpr (.inr (.inr (.inl rfl)))) (.nil _)
    · exact hpath.mono fun a ha => mem_branchArcs.mpr (.inr (.inr (.inr ha)))

theorem BranchesFrom.cons (hF : F.Within next)
    (hL : ∀ w, ArcPath F.arcs F.entry w F.exit ↔ L w) (hentry : entry < next)
    (hexit : exit < next) (hne : entry ≠ exit)
    (h : BranchesFrom entry exit F.next next' arcs Ls) :
    BranchesFrom entry exit next next' (branchArcs entry exit F arcs) (L :: Ls) := by
  have hle := h.le
  have hFexit := hF.exit
  have hFentry := hF.entry
  refine ⟨by omega, fun a ha => ?_, fun a ha => ?_, fun w => ?_⟩
  · rcases mem_branchArcs.mp ha with ha | rfl | rfl | ha
    · have := (hF.arcs a ha).1
      omega
    · exact .inl rfl
    · exact .inr ⟨hFexit.1, Nat.lt_of_lt_of_le hFexit.2 hle⟩
    · have := h.source a ha
      omega
  · rcases mem_branchArcs.mp ha with ha | rfl | rfl | ha
    · have := (hF.arcs a ha).2
      omega
    · exact .inr ⟨hFentry.1, Nat.lt_of_lt_of_le hFentry.2 hle⟩
    · exact .inl rfl
    · have := h.target a ha
      omega
  · rw [List.exists_mem_cons_iff, ← hL, ← h.path, h.path_cons_iff hF hentry hexit hne]

theorem branchesFrom_spec (hb : List.Forall₂ Denotes bs Ls) (hentry : entry < next)
    (hexit : exit < next) (hne : entry ≠ exit) :
    BranchesFrom entry exit next (branchesFrom entry exit next bs).1
      (branchesFrom entry exit next bs).2 Ls := by
  induction hb generalizing next with
  | nil => exact branchesFrom_nil hne
  | @cons b L bs Ls hL _ ih =>
    obtain ⟨hF, hpath⟩ := hL next
    have hnext : next < (b next).next := Nat.lt_of_le_of_lt hF.entry.1 hF.entry.2
    exact (ih (by omega) (by omega)).cons hF hpath hentry hexit hne

/-- **Choices** denote what any of their branches denotes. -/
theorem denotes_choice (hb : List.Forall₂ Denotes bs Ls) :
    (choice bs).Denotes fun w => ∃ L ∈ Ls, L w := by
  intro k
  have hk : k + 1 < k + 2 := Nat.lt_succ_self _
  have h := branchesFrom_spec hb (Nat.lt_of_succ_lt hk) hk (Nat.succ_ne_self k).symm
  rcases hbranches : branchesFrom k (k + 1) (k + 2) bs with ⟨next', arcs⟩
  have heq : choice bs k = ⟨k, k + 1, next', arcs⟩ := by simp only [choice, hbranches]
  rw [hbranches] at h
  rw [heq]
  have hle : k + 2 ≤ next' := h.le
  refine ⟨⟨⟨Nat.le_refl k, by dsimp only; omega⟩, ⟨Nat.le_succ k, hle⟩, fun a ha => ?_⟩, h.path⟩
  have hsource : a.1 = k ∨ k + 2 ≤ a.1 ∧ a.1 < next' := h.source a ha
  have htarget : a.2.2 = k + 1 ∨ k + 2 ≤ a.2.2 ∧ a.2.2 < next' := h.target a ha
  dsimp only
  omega

end Builder

/-! ## The automaton of an expression -/

/-- An automaton that has just some arcs, each label of which stands for a symbol. -/
structure Shows (A : Nfa) (arcs : List (Nat × Option String × Nat)) : Prop where
  label : ∀ a ∈ A.arcs, ∀ x, a.label = some x → ∃ s, A.symbols.get? x = some s
  move : ∀ p s q, A.Move p s q ↔ (p, some s, q) ∈ arcs
  silent : ∀ p q, ⟨p, none, q⟩ ∈ A.arcs ↔ (p, none, q) ∈ arcs

variable {A : Nfa} {L : List String → Prop} {e : Regex}

theorem get?_intern_self (N : Numbering String) : (N.intern s).1.get? (N.intern s).2 = some s := by
  rw [Numbering.intern]
  split
  · next hs =>
    rw [Numbering.get?, List.getElem?_eq_getElem (List.idxOf_lt_length_of_mem hs),
      List.getElem_idxOf]
  · rw [Numbering.get?]
    exact List.getElem?_concat_length

theorem shows_empty {n : Nat} {start final : List Nat} :
    Shows ⟨n, start, final, [], .empty⟩ [] := by
  refine ⟨fun a ha => absurd ha List.not_mem_nil, fun p s q => ?_, fun p q => ?_⟩
  · refine iff_of_false ?_ List.not_mem_nil
    rintro ⟨x, ha, -⟩
    exact absurd ha List.not_mem_nil
  · exact iff_of_false List.not_mem_nil List.not_mem_nil

theorem Shows.addArc (h : Shows A arcs) : Shows (A.addArc p none q) (arcs ++ [(p, none, q)]) := by
  have hmem : ∀ a, a ∈ (A.addArc p none q).arcs ↔ a ∈ A.arcs ∨ a = ⟨p, none, q⟩ := fun a => by
    rw [Nfa.addArc, List.mem_append, List.mem_singleton]
  refine ⟨fun a ha x hx => ?_, fun p' s q' => ?_, fun p' q' => ?_⟩
  · rcases (hmem a).mp ha with ha | rfl
    · exact h.label a ha x hx
    · cases hx
  · rw [List.mem_append, ← h.move]
    constructor
    · rintro ⟨x, ha, hs⟩
      rcases (hmem _).mp ha with ha | heq
      · exact .inl ⟨x, ha, hs⟩
      · cases heq
    · rintro (⟨x, ha, hs⟩ | heq)
      · exact ⟨x, (hmem _).mpr (.inl ha), hs⟩
      · cases List.mem_singleton.mp heq
  · rw [hmem, List.mem_append, h.silent]
    simp

theorem Shows.addSymbolArc (h : Shows A arcs) :
    Shows (A.addSymbolArc p s q) (arcs ++ [(p, some s, q)]) := by
  have hmem : ∀ a, a ∈ (A.addSymbolArc p s q).arcs ↔
      a ∈ A.arcs ∨ a = ⟨p, some (A.symbols.intern s).2, q⟩ := fun a => by
    rw [Nfa.addSymbolArc, List.mem_append, List.mem_singleton]
  have hself : (A.addSymbolArc p s q).symbols.get? (A.symbols.intern s).2 = some s :=
    get?_intern_self A.symbols
  have hold : ∀ {x t}, A.symbols.get? x = some t →
      (A.addSymbolArc p s q).symbols.get? x = some t := Numbering.get?_intern
  refine ⟨fun a ha x hx => ?_, fun p' t q' => ?_, fun p' q' => ?_⟩
  · rcases (hmem a).mp ha with ha | rfl
    · obtain ⟨t, ht⟩ := h.label a ha x hx
      exact ⟨t, hold ht⟩
    · cases hx
      exact ⟨s, hself⟩
  · rw [List.mem_append, ← h.move, List.mem_singleton]
    constructor
    · rintro ⟨x, ha, ht⟩
      rcases (hmem _).mp ha with ha | heq
      · obtain ⟨t', ht'⟩ := h.label _ ha x rfl
        rw [hold ht'] at ht
        exact .inl ⟨x, ha, ht ▸ ht'⟩
      · cases heq
        rw [hself] at ht
        cases ht
        exact .inr rfl
    · rintro (⟨x, ha, ht⟩ | heq)
      · exact ⟨x, (hmem _).mpr (.inl ha), hold ht⟩
      · cases heq
        exact ⟨_, (hmem _).mpr (.inr rfl), hself⟩
  · rw [hmem, List.mem_append, h.silent, List.mem_singleton]
    refine or_congr_right (iff_of_false ?_ ?_) <;> exact nofun

theorem Shows.foldl (h : Shows A arcs) : Shows (arcs'.foldl addFragmentArc A) (arcs ++ arcs') := by
  induction arcs' generalizing A arcs with
  | nil => rwa [List.append_nil]
  | cons a arcs' ih =>
    have ha : Shows (addFragmentArc A a) (arcs ++ [a]) := by
      obtain ⟨p, _ | s, q⟩ := a
      · exact h.addArc
      · exact h.addSymbolArc
    rw [List.append_cons]
    exact ih ha

theorem Shows.path_iff (h : Shows A arcs) : A.Path p w q ↔ ArcPath arcs p w q := by
  constructor
  · intro hpath
    induction hpath with
    | nil => exact .nil _
    | silent ha _ ih => exact .silent ((h.silent _ _).mp ha) ih
    | move hm _ ih => exact .move ((h.move _ _ _).mp hm) ih
  · intro hpath
    induction hpath with
    | nil => exact .nil _
    | silent ha _ ih => exact .silent ((h.silent _ _).mpr ha) ih
    | move ha _ ih => exact .move ((h.move _ _ _).mpr ha) ih

theorem shows_toNfa : Shows e.toNfa (e.builder 0).arcs := by
  have h : Shows (addArcs .empty (e.builder 0).next (e.builder 0).arcs)
      ([] ++ (e.builder 0).arcs) := shows_empty.foldl
  rw [toNfa_eq, ← List.nil_append (e.builder 0).arcs]
  exact ⟨h.label, h.move, h.silent⟩

/-- **The automaton of an expression** accepts what the expression's builder denotes. -/
theorem accepts_toNfa_iff (he : Builder.Denotes e.builder L) :
    e.toNfa.accepts w = true ↔ L w := by
  have hstart : e.toNfa.start = [(e.builder 0).entry] := by rw [toNfa_eq]
  have hfinal : e.toNfa.final = [(e.builder 0).exit] := by rw [toNfa_eq]
  rw [Nfa.accepts_iff, hstart, hfinal]
  simp only [List.mem_singleton, exists_eq_left, shows_toNfa.path_iff]
  exact (he 0).2 w

theorem wellFormed_toNfa (he : Builder.Denotes e.builder L) : e.toNfa.wellFormed = true := by
  obtain ⟨hF, -⟩ := he 0
  have hnum : e.toNfa.numStates = (e.builder 0).next := by rw [toNfa_eq, numStates_addArcs]
  have hstart : e.toNfa.start = [(e.builder 0).entry] := by rw [toNfa_eq]
  have hfinal : e.toNfa.final = [(e.builder 0).exit] := by rw [toNfa_eq]
  rw [Nfa.wellFormed_iff, hnum, hstart, hfinal]
  refine ⟨fun q hq => ?_, fun q hq => ?_, fun a ha => ?_⟩
  · exact List.mem_singleton.mp hq ▸ hF.entry.2
  · exact List.mem_singleton.mp hq ▸ hF.exit.2
  · obtain ⟨p, x, q⟩ := a
    cases x with
    | none =>
      have := hF.arcs _ ((shows_toNfa.silent p q).mp ha)
      exact ⟨this.1.2, this.2.2⟩
    | some x =>
      obtain ⟨s, hs⟩ := shows_toNfa.label _ ha x rfl
      have := hF.arcs _ ((shows_toNfa.move p s q).mp ⟨x, ha, hs⟩)
      exact ⟨this.1.2, this.2.2⟩

theorem accepts_toMinimalDfa_iff (he : Builder.Denotes e.builder L) :
    e.toMinimalDfa.accepts w = true ↔ L w := by
  rw [toMinimalDfa, Nfa.accepts_minimize_iff (wellFormed_toNfa he), accepts_toNfa_iff he]

/-- A pattern has a minimal automaton where it has an expression. -/
theorem minimalDfa?_eq_ok_iff {pattern : String} :
    minimalDfa? pattern = .ok A ↔ ∃ e, parse? pattern = .ok e ∧ A = e.toMinimalDfa := by
  rw [minimalDfa?]
  cases parse? pattern with
  | error e => exact iff_of_false nofun nofun
  | ok e =>
    constructor
    · exact fun h => ⟨e, rfl, (Except.ok.inj h).symm⟩
    · rintro ⟨_, ⟨⟩, rfl⟩
      rfl

theorem builders_eq_map (es : List Regex) : builders es = es.map builder := by
  induction es with
  | nil => rfl
  | cons e es ih => rw [builders, ih, List.map_cons]

end PathQuery.Regex
