import Mathlib.Data.List.Nodup
import PathQuery.Grammar.Binary
import PathQuery.Proofs.Data
import PathQuery.Proofs.Grammar.Basic
import PathQuery.Proofs.Grammar.FreshName

/-!
# Proofs/Grammar/Isolation — terminals behind variables of their own

`isolateTerminals` is a definitional extension: the variable that wraps a terminal stands for it,
and expanding the wrappers gives back the bodies.  What makes the wrappers well defined is
`Wrappers.Valid` — their variables differ from each other and from all that were in use — which each
step keeps while it loses no wrapper (`Wrappers.Grows`).
-/

namespace PathQuery.Production

variable {used : List String} {W W' W'' : Wrappers} {m : List (String × String)}
  {names : NameSupply} {ps ps' : List Production} {p p' : Production} {t v : String}
  {body body' x : List Symbol} {w : List String}

/-! ## Wrappers -/

/-- The variables of the wrappers differ from each other and from those used before, and all are
marked as taken. -/
structure Wrappers.Valid (used : List String) (W : Wrappers) : Prop where
  used_taken : ∀ v ∈ used, v ∈ W.names.taken
  taken : ∀ e ∈ W.wrappers, e.2 ∈ W.names.taken
  unused : ∀ e ∈ W.wrappers, e.2 ∉ used
  nodup : (W.wrappers.map (·.2)).Nodup

/-- Nothing is lost from the names taken and from the wrappers. -/
structure Wrappers.Grows (W W' : Wrappers) : Prop where
  taken : ∀ v ∈ W.names.taken, v ∈ W'.names.taken
  wrappers : ∀ e ∈ W.wrappers, e ∈ W'.wrappers

theorem Wrappers.Grows.refl : W.Grows W := ⟨fun _ h => h, fun _ h => h⟩

theorem Wrappers.Grows.trans (h : W.Grows W') (h' : W'.Grows W'') : W.Grows W'' :=
  ⟨fun v hv => h'.taken v (h.taken v hv), fun e he => h'.wrappers e (h.wrappers e he)⟩

/-- Wrapping a terminal finds a wrapper for it or adds one with a fresh variable. -/
theorem Wrappers.Valid.wrap (hW : W.Valid used) (t : String) :
    (W.wrap t).1.Valid used ∧ W.Grows (W.wrap t).1 ∧ (t, (W.wrap t).2) ∈ (W.wrap t).1.wrappers := by
  unfold Wrappers.wrap
  split
  · next v hv =>
    exact ⟨hW, .refl, mem_of_lookup_eq_some hv⟩
  · have hfresh : (W.names.fresh ("T[" ++ t ++ "]")).2 ∉ W.names.taken :=
      NameSupply.fresh_notMem_taken
    refine ⟨⟨fun v hv => ?_, fun e he => ?_, fun e he => ?_, ?_⟩,
      ⟨fun v hv => ?_, fun e he => ?_⟩, ?_⟩
    · exact List.mem_cons_of_mem _ (hW.used_taken v hv)
    · rcases List.mem_append.mp he with he | he
      · exact List.mem_cons_of_mem _ (hW.taken e he)
      · rw [List.mem_singleton.mp he]
        exact List.mem_cons_self ..
    · rcases List.mem_append.mp he with he | he
      · exact hW.unused e he
      · rw [List.mem_singleton.mp he]
        exact fun h => hfresh (hW.used_taken _ h)
    · rw [List.map_append]
      refine List.nodup_append.mpr ⟨hW.nodup, List.nodup_singleton _, fun a ha b hb hab => ?_⟩
      obtain ⟨e, he, rfl⟩ := List.mem_map.mp ha
      have htaken := hW.taken e he
      rw [hab, List.mem_singleton.mp hb] at htaken
      exact hfresh htaken
    · exact List.mem_cons_of_mem _ hv
    · exact List.mem_append_left _ he
    · exact List.mem_append_right _ (List.mem_singleton.mpr rfl)

/-- A body with wrappers in place of its terminals. -/
inductive Wraps (m : List (String × String)) : List Symbol → List Symbol → Prop where
  | nil : Wraps m [] []
  | terminal {t v : String} {body body' : List Symbol} :
      (t, v) ∈ m → Wraps m body body' → Wraps m (.terminal t :: body) (.nonterminal v :: body')
  | nonterminal {v : String} {body body' : List Symbol} :
      Wraps m body body' → Wraps m (.nonterminal v :: body) (.nonterminal v :: body')

theorem Wraps.mono {m' : List (String × String)} (hm : ∀ e ∈ m, e ∈ m') (h : Wraps m body body') :
    Wraps m' body body' := by
  induction h with
  | nil => exact .nil
  | terminal ht _ ih => exact .terminal (hm _ ht) ih
  | nonterminal _ ih => exact .nonterminal ih

theorem Wrappers.Valid.wrapBody (hW : W.Valid used) (body : List Symbol) :
    (wrapBody W body).1.Valid used ∧ W.Grows (wrapBody W body).1 ∧
      Wraps (wrapBody W body).1.wrappers body (wrapBody W body).2 := by
  induction body generalizing W with
  | nil => exact ⟨hW, .refl, .nil⟩
  | cons s body ih =>
    cases s with
    | terminal t =>
      obtain ⟨hV, hg, ht⟩ := hW.wrap t
      obtain ⟨hV', hg', hbody⟩ := ih hV
      exact ⟨hV', hg.trans hg', .terminal (hg'.wrappers _ ht) hbody⟩
    | nonterminal v =>
      obtain ⟨hV, hg, hbody⟩ := ih hW
      exact ⟨hV, hg, .nonterminal hbody⟩

/-- A production with its terminals wrapped, unless its body is too short. -/
def Isolates (m : List (String × String)) (p p' : Production) : Prop :=
  p'.head = p.head ∧
    (p.body.length < 2 ∧ p'.body = p.body ∨ 2 ≤ p.body.length ∧ Wraps m p.body p'.body)

/-- Productions with their terminals wrapped, each of a given production. -/
structure IsolatesAll (m : List (String × String)) (ps ps' : List Production) : Prop where
  source : ∀ p' ∈ ps', ∃ p ∈ ps, Isolates m p p'
  kept : ∀ p ∈ ps, ∃ p' ∈ ps', Isolates m p p'

theorem IsolatesAll.cons {ps' : List Production} (hp : Isolates m p p')
    (hps : IsolatesAll m ps ps') : IsolatesAll m (p :: ps) (p' :: ps') := by
  constructor
  · rintro q' (_ | ⟨_, hq'⟩)
    · exact ⟨p, List.mem_cons_self .., hp⟩
    · obtain ⟨q, hq, h⟩ := hps.source q' hq'
      exact ⟨q, List.mem_cons_of_mem _ hq, h⟩
  · rintro q (_ | ⟨_, hq⟩)
    · exact ⟨p', List.mem_cons_self .., hp⟩
    · obtain ⟨q', hq', h⟩ := hps.kept q hq
      exact ⟨q', List.mem_cons_of_mem _ hq', h⟩

theorem Wrappers.Valid.wrapAll (hW : W.Valid used) (ps : List Production) :
    (wrapAll W ps).1.Valid used ∧ W.Grows (wrapAll W ps).1 ∧
      IsolatesAll (wrapAll W ps).1.wrappers ps (wrapAll W ps).2 := by
  induction ps generalizing W with
  | nil =>
    refine ⟨hW, .refl, fun p hp => ?_, fun p hp => ?_⟩ <;> exact absurd hp List.not_mem_nil
  | cons p ps ih =>
    by_cases hlen : p.body.length < 2
    · obtain ⟨hV, hg, hps⟩ := ih hW
      simp only [Production.wrapAll, hlen, if_true]
      exact ⟨hV, hg, hps.cons ⟨rfl, .inl ⟨hlen, rfl⟩⟩⟩
    · obtain ⟨hV, hg, hbody⟩ := hW.wrapBody p.body
      obtain ⟨hV', hg', hps⟩ := ih hV
      have hlen' : 2 ≤ p.body.length := Nat.le_of_not_lt hlen
      simp only [Production.wrapAll, hlen, if_false]
      exact ⟨hV', hg.trans hg', hps.cons ⟨rfl, .inr ⟨hlen', hbody.mono hg'.wrappers⟩⟩⟩

/-! ## What the wrappers are made for -/

theorem mem_wrap {e : String × String} (he : e ∈ (W.wrap t).1.wrappers) :
    e ∈ W.wrappers ∨ e.2 = (W.wrap t).2 := by
  unfold Wrappers.wrap at he ⊢
  split at he
  · exact .inl he
  · rcases List.mem_append.mp he with he | he
    · exact .inl he
    · exact .inr (List.mem_singleton.mp he ▸ rfl)

theorem mem_wrapBody {e : String × String} (he : e ∈ (wrapBody W body).1.wrappers) :
    e ∈ W.wrappers ∨ .nonterminal e.2 ∈ (wrapBody W body).2 := by
  induction body generalizing W with
  | nil => exact .inl he
  | cons s body ih =>
    cases s with
    | terminal t =>
      rcases ih he with he | he
      · refine (mem_wrap he).imp_right fun he => ?_
        rw [he]
        exact List.mem_cons_self ..
      · exact .inr (List.mem_cons_of_mem _ he)
    | nonterminal v => exact (ih he).imp_right (List.mem_cons_of_mem _)

/-- The variable of each new wrapper stands in the body that it was made for. -/
theorem mem_wrapAll {e : String × String} (he : e ∈ (wrapAll W ps).1.wrappers) :
    e ∈ W.wrappers ∨ ∃ p ∈ (wrapAll W ps).2, .nonterminal e.2 ∈ p.body := by
  induction ps generalizing W with
  | nil => exact .inl he
  | cons p ps ih =>
    rw [wrapAll] at he ⊢
    rcases ih he with he | ⟨q, hq, he⟩
    · split at he
      · exact .inl he
      · next hlen =>
        refine (mem_wrapBody he).imp_right fun he => ⟨_, List.mem_cons_self .., ?_⟩
        rwa [if_neg hlen]
    · exact .inr ⟨q, List.mem_cons_of_mem _ hq, he⟩

/-! ## Expanding the wrappers -/

/-- The terminal that a wrapper's variable stands for. -/
def wrapped (m : List (String × String)) (v : String) : Option (List Symbol) :=
  (m.find? fun e => e.2 = v).map fun e => [.terminal e.1]

theorem wrapped_eq_none_iff : wrapped m v = none ↔ ∀ e ∈ m, e.2 ≠ v := by
  rw [wrapped, Option.map_eq_none_iff, List.find?_eq_none]
  simp only [decide_eq_true_eq, ne_eq]

/-- Where the wrappers' variables differ, each stands for its own terminal. -/
theorem wrapped_eq_some_iff (hm : (m.map (·.2)).Nodup) :
    wrapped m v = some x ↔ ∃ t, (t, v) ∈ m ∧ x = [.terminal t] := by
  rw [wrapped, Option.map_eq_some_iff]
  constructor
  · rintro ⟨⟨t, u⟩, he, rfl⟩
    have hu : u = v := by simpa using List.find?_some he
    exact ⟨t, hu ▸ List.mem_of_find?_eq_some he, rfl⟩
  · rintro ⟨t, ht, rfl⟩
    cases he : m.find? fun e => e.2 = v with
    | none => simpa using List.find?_eq_none.mp he _ ht
    | some e =>
      have hv : e.2 = v := by simpa using List.find?_some he
      have := List.inj_on_of_nodup_map hm (List.mem_of_find?_eq_some he) ht hv
      exact ⟨e, rfl, by rw [this]⟩

/-- Expanding the wrappers gives back the body. -/
theorem Wraps.expand (hm : (m.map (·.2)).Nodup) (h : Wraps m body body')
    (hbody : ∀ v, .nonterminal v ∈ body → wrapped m v = none) :
    body'.flatMap (Symbol.expand (wrapped m)) = body := by
  induction h with
  | nil => rfl
  | @terminal t v _ _ ht _ ih =>
    have hv : wrapped m v = some [.terminal t] := (wrapped_eq_some_iff hm).mpr ⟨t, ht, rfl⟩
    rw [List.flatMap_cons, ih fun u hu => hbody u (List.mem_cons_of_mem _ hu), Symbol.expand, hv]
    rfl
  | @nonterminal v _ _ _ ih =>
    have hv : wrapped m v = none := hbody v (List.mem_cons_self ..)
    rw [List.flatMap_cons, ih fun u hu => hbody u (List.mem_cons_of_mem _ hu), Symbol.expand, hv]
    rfl

theorem Isolates.expand (hm : (m.map (·.2)).Nodup) (h : Isolates m p p')
    (hbody : ∀ v, .nonterminal v ∈ p.body → wrapped m v = none) :
    p'.body.flatMap (Symbol.expand (wrapped m)) = p.body := by
  rcases h.2 with ⟨-, heq⟩ | ⟨-, hwraps⟩
  · rw [heq]
    exact flatMap_expand_eq_self hbody
  · exact hwraps.expand hm hbody

/-- With the productions of the wrappers, a body with wrappers derives what the body derives. -/
theorem Wraps.derives {Q : Bodies} (hQ : ∀ e ∈ m, Q e.2 [.terminal e.1]) (h : Wraps m body body')
    (hw : Derives Q body w) : Derives Q body' w := by
  induction h generalizing w with
  | nil => exact hw
  | @terminal t v _ _ ht _ ih =>
    obtain ⟨w', rfl, hw'⟩ := derives_terminal_cons_iff.mp hw
    exact .nonterminal (hQ _ ht) (.terminal .nil) (ih hw')
  | @nonterminal v _ _ _ ih =>
    obtain ⟨u, w', rfl, hu, hw'⟩ := derives_nonterminal_cons_iff.mp hw
    exact derives_nonterminal_cons_iff.mpr ⟨u, w', rfl, hu, ih hw'⟩

/-- The variables of a body with wrappers are those of the body and the wrappers'. -/
theorem Wraps.mem_or (h : Wraps m body body') (hv : .nonterminal v ∈ body') :
    .nonterminal v ∈ body ∨ ∃ t, (t, v) ∈ m := by
  induction h with
  | nil => exact .inl hv
  | terminal ht _ ih =>
    rcases List.mem_cons.mp hv with heq | hv
    · cases heq
      exact .inr ⟨_, ht⟩
    · exact (ih hv).imp_left (List.mem_cons_of_mem _)
  | nonterminal _ ih =>
    rcases List.mem_cons.mp hv with heq | hv
    · cases heq
      exact .inl (List.mem_cons_self ..)
    · exact (ih hv).imp_left (List.mem_cons_of_mem _)

/-- A body with wrappers keeps its variables. -/
theorem Wraps.mem (h : Wraps m body body') (hv : .nonterminal v ∈ body) :
    .nonterminal v ∈ body' := by
  induction h with
  | nil => exact hv
  | terminal _ _ ih =>
    rcases List.mem_cons.mp hv with heq | hv
    · cases heq
    · exact List.mem_cons_of_mem _ (ih hv)
  | nonterminal _ ih =>
    rcases List.mem_cons.mp hv with heq | hv
    · exact heq ▸ List.mem_cons_self ..
    · exact List.mem_cons_of_mem _ (ih hv)

/-! ## The productions with wrappers -/

/-- The productions of the wrappers. -/
def Wrappers.productions (W : Wrappers) : List Production :=
  W.wrappers.map fun (t, v) => ⟨v, [.terminal t]⟩

theorem Wrappers.mem_productions :
    p ∈ W.productions ↔ ∃ e ∈ W.wrappers, p = ⟨e.2, [.terminal e.1]⟩ := by
  rw [productions, List.mem_map]
  simp only [eq_comm]

/-- The wrappers that the conversion ends with, all of them in use, and its productions with
wrappers. -/
theorem exists_wrappers (names : NameSupply) (ps : List Production) :
    ∃ (W : Wrappers) (ps' : List Production), W.Valid names.taken ∧
      IsolatesAll W.wrappers ps ps' ∧
      (∀ e ∈ W.wrappers, ∃ p ∈ ps', .nonterminal e.2 ∈ p.body) ∧
      isolateTerminals names ps = (W.names, ps' ++ W.productions) := by
  have hvalid : Wrappers.Valid names.taken ⟨names, []⟩ := by
    refine ⟨fun _ h => h, fun e he => ?_, fun e he => ?_, List.nodup_nil⟩ <;>
      exact absurd he List.not_mem_nil
  obtain ⟨hV, -, hps⟩ := hvalid.wrapAll ps
  exact ⟨_, _, hV, hps, fun e he => (mem_wrapAll he).resolve_left List.not_mem_nil, rfl⟩

theorem Wrappers.Valid.wrapped_eq_none (hW : W.Valid used) (hv : v ∈ used) :
    wrapped W.wrappers v = none :=
  wrapped_eq_none_iff.mpr fun e he heq => hW.unused e he (heq ▸ hv)

/-- **Isolation**: variables that were in use derive the same words. -/
theorem derives_isolateTerminals_iff (hps : ∀ p ∈ ps, p.Over names.taken)
    (hx : ∀ v, .nonterminal v ∈ x → v ∈ names.taken) :
    Derives (bodies (isolateTerminals names ps).2) x w ↔ Derives (bodies ps) x w := by
  obtain ⟨W, ps', hW, hiso, -, heq⟩ := exists_wrappers names ps
  have hnone : ∀ p ∈ ps, ∀ v, .nonterminal v ∈ p.body → wrapped W.wrappers v = none :=
    fun p hp v hv => hW.wrapped_eq_none ((hps p hp).body v hv)
  have hwrapper : ∀ e ∈ W.wrappers, bodies (ps' ++ W.productions) e.2 [.terminal e.1] :=
    fun e he => List.mem_append_right _ (Wrappers.mem_productions.mpr ⟨e, he, rfl⟩)
  rw [heq]
  refine @derives_iff_of_stands (bodies ps) _ x w (wrapped W.wrappers) ?_ ?_ ?_
    fun v hv => hW.wrapped_eq_none (hx v hv)
  · intro v body hmem hv
    rcases List.mem_append.mp hmem with hmem | hmem
    · obtain ⟨p, hp, hhead, hbody⟩ := hiso.source _ hmem
      rw [Isolates.expand hW.nodup ⟨hhead, hbody⟩ (hnone p hp)]
      exact (congrArg (⟨·, p.body⟩ ∈ ps) hhead).mpr hp
    · obtain ⟨e, he, hp⟩ := Wrappers.mem_productions.mp hmem
      cases hp
      exact absurd rfl (wrapped_eq_none_iff.mp hv e he)
  · intro v body s hmem hv
    obtain ⟨t, ht, rfl⟩ := (wrapped_eq_some_iff hW.nodup).mp hv
    rcases List.mem_append.mp hmem with hmem | hmem
    · obtain ⟨p, hp, hhead, -⟩ := hiso.source _ hmem
      have hused : v ∈ names.taken := by
        rw [show v = p.head from hhead]
        exact (hps p hp).head
      exact absurd hused (hW.unused _ ht)
    · obtain ⟨e, he, hp⟩ := Wrappers.mem_productions.mp hmem
      cases hp
      have : e = (t, e.2) := List.inj_on_of_nodup_map hW.nodup he ht rfl
      rw [this]
      rfl
  · intro v body w hmem hw
    obtain ⟨p', hp', hhead, hbody⟩ := hiso.kept _ hmem
    have hP : bodies (ps' ++ W.productions) v p'.body :=
      (congrArg (⟨·, p'.body⟩ ∈ ps' ++ W.productions) hhead).mp (List.mem_append_left _ hp')
    refine derives_nonterminal_iff.mpr ⟨p'.body, hP, ?_⟩
    rcases hbody with ⟨-, heq⟩ | ⟨-, hwraps⟩
    · exact heq ▸ hw
    · exact hwraps.derives hwrapper hw

/-- The names in use stay in use, and those of all productions are. -/
theorem over_isolateTerminals (hps : ∀ p ∈ ps, p.Over names.taken) :
    (∀ v ∈ names.taken, v ∈ (isolateTerminals names ps).1.taken) ∧
      ∀ p ∈ (isolateTerminals names ps).2, p.Over (isolateTerminals names ps).1.taken := by
  obtain ⟨W, ps', hW, hiso, -, heq⟩ := exists_wrappers names ps
  rw [heq]
  refine ⟨hW.used_taken, fun p' hp' => ?_⟩
  rcases List.mem_append.mp hp' with hp' | hp'
  · obtain ⟨p, hp, hhead, hbody⟩ := hiso.source p' hp'
    refine ⟨hhead ▸ hW.used_taken _ (hps p hp).head, fun v hv => ?_⟩
    rcases hbody with ⟨-, heq⟩ | ⟨-, hwraps⟩
    · exact hW.used_taken _ ((hps p hp).body v (heq ▸ hv))
    · rcases hwraps.mem_or hv with hv | ⟨t, ht⟩
      · exact hW.used_taken _ ((hps p hp).body v hv)
      · exact hW.taken _ ht
  · obtain ⟨e, he, rfl⟩ := Wrappers.mem_productions.mp hp'
    refine ⟨hW.taken e he, fun v hv => ?_⟩
    cases List.mem_singleton.mp hv

/-- A body that is empty, a terminal, or two or more variables. -/
inductive Isolated : List Symbol → Prop where
  | nil : Isolated []
  | terminal (t : String) : Isolated [.terminal t]
  | allVariables {body : List Symbol} :
      2 ≤ body.length → (∀ s ∈ body, ∃ v, s = .nonterminal v) → Isolated body

theorem Wraps.length_eq (h : Wraps m body body') : body'.length = body.length := by
  induction h with
  | nil => rfl
  | terminal _ _ ih | nonterminal _ ih => exact congrArg (· + 1) ih

theorem Wraps.exists_eq_nonterminal (h : Wraps m body body') :
    ∀ s ∈ body', ∃ v, s = .nonterminal v := by
  induction h with
  | nil => exact fun s hs => absurd hs List.not_mem_nil
  | terminal _ _ ih | nonterminal _ ih =>
    rintro s (_ | ⟨_, hs⟩)
    · exact ⟨_, rfl⟩
    · exact ih s hs

theorem isolated_of_length_lt (hlen : p.body.length < 2) (hp : p.unitTarget? = none) :
    Isolated p.body := by
  obtain ⟨head, _ | ⟨t | v, _ | ⟨s, body⟩⟩⟩ := p
  · exact .nil
  · exact .terminal t
  · exact absurd hlen (by simp)
  · exact absurd hp (by simp [unitTarget?])
  · exact absurd hlen (by simp)

/-- **Form**: where there are no units, terminals stand alone. -/
theorem isolated_isolateTerminals (hps : ∀ p ∈ ps, p.unitTarget? = none) :
    ∀ p ∈ (isolateTerminals names ps).2, Isolated p.body := by
  obtain ⟨W, ps', -, hiso, -, heq⟩ := exists_wrappers names ps
  rw [heq]
  intro p' hp'
  rcases List.mem_append.mp hp' with hp' | hp'
  · obtain ⟨p, hp, -, ⟨hlen, hbody⟩ | ⟨hlen, hwraps⟩⟩ := hiso.source p' hp'
    · rw [hbody]
      exact isolated_of_length_lt hlen (hps p hp)
    · exact .allVariables (hwraps.length_eq ▸ hlen) hwraps.exists_eq_nonterminal
  · obtain ⟨e, he, rfl⟩ := Wrappers.mem_productions.mp hp'
    exact .terminal e.1

end PathQuery.Production
