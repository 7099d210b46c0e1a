import Mathlib.Algebra.BigOperators.Group.List.Basic
import Mathlib.Computability.Language
import PathQuery.Proofs.Regex.Nfa

/-!
# Proofs/Regex/Denotation — the automaton of an expression accepts what the expression denotes

`Regex.language` reads an expression as a set of words: concatenations are products, unions sums,
and a repetition is any of the powers that its bounds admit.

* `Bounded.tryAccepts_toNfa` — where each greatest count is at least the least one, the automaton
  of an expression accepts the words that the expression denotes.

A fragment passed any number of times denotes a star (`Builder.denotes_loop`): a path from inside
the fragment to the exit of the loop leaves the fragment, and then passes it some more times.
-/

namespace PathQuery.Regex

open Computability

variable {e : Regex} {es : List Regex} {b : Builder} {bs : List Builder} {F : Fragment}
  {L : Language String} {Ls : List (Language String)} {w w' : List String} {k p q m d : Nat}
  {max : Option Nat}

/-! ## The words of an expression -/

/-- The words of between `min` and `max` words of a language, one after another. -/
def powers (L : Language String) (min : Nat) (max : Option Nat) : Language String :=
  {w | ∃ n, min ≤ n ∧ (∀ m, max = some m → n ≤ m) ∧ w ∈ L ^ n}

mutual

/-- **The words that an expression denotes.** -/
def language : Regex → Language String
  | epsilon => 1
  | symbol name => {w | w = [name]}
  | concat parts => (languages parts).prod
  | union branches => (languages branches).sum
  | star inner => (language inner)∗
  | repetition inner min max => powers (language inner) min max

/-- The languages of a list of expressions. -/
def languages : List Regex → List (Language String)
  | [] => []
  | e :: es => language e :: languages es

end

mutual

/-- The symbols of an expression. -/
def symbols : Regex → List String
  | epsilon => []
  | symbol name => [name]
  | concat parts => symbolsOf parts
  | union branches => symbolsOf branches
  | star inner => symbols inner
  | repetition inner _ _ => symbols inner

/-- The symbols of a list of expressions. -/
def symbolsOf : List Regex → List String
  | [] => []
  | e :: es => symbols e ++ symbolsOf es

end

/-- The expressions in which each greatest count is at least the least one. -/
inductive Bounded : Regex → Prop where
  | epsilon : Bounded epsilon
  | symbol (name : String) : Bounded (symbol name)
  | concat {parts : List Regex} : (∀ e ∈ parts, Bounded e) → Bounded (concat parts)
  | union {branches : List Regex} : (∀ e ∈ branches, Bounded e) → Bounded (union branches)
  | star {inner : Regex} : Bounded inner → Bounded (star inner)
  | repetition {inner : Regex} {min : Nat} {max : Option Nat} :
      Bounded inner → (∀ m, max = some m → min ≤ m) → Bounded (repetition inner min max)

theorem languages_eq_map : languages es = es.map language := by
  induction es with
  | nil => rfl
  | cons e es ih => rw [languages, ih, List.map_cons]

theorem mem_symbolsOf {s : String} : s ∈ symbolsOf es ↔ ∃ e ∈ es, s ∈ e.symbols := by
  induction es with
  | nil => simp [symbolsOf]
  | cons e es ih => rw [symbolsOf, List.mem_append, ih, List.exists_mem_cons_iff]

/-! ## Parts and branches -/

theorem bounded_ofParts (h : ∀ e ∈ es, e.Bounded) : (ofParts es).Bounded := by
  match es with
  | [] => exact .epsilon
  | [e] => exact h e (List.mem_singleton.mpr rfl)
  | _ :: _ :: _ => exact .concat h

theorem bounded_ofBranches (h : ∀ e ∈ es, e.Bounded) : (ofBranches es).Bounded := by
  match es with
  | [] => exact .union h
  | [e] => exact h e (List.mem_singleton.mpr rfl)
  | _ :: _ :: _ => exact .union h

theorem language_ofParts : (ofParts es).language = (es.map language).prod := by
  match es with
  | [] => rfl
  | [e] => exact (List.prod_singleton).symm
  | e :: e' :: es => rw [ofParts, language, languages_eq_map]; all_goals simp

theorem language_ofBranches : (ofBranches es).language = (es.map language).sum := by
  match es with
  | [] => rfl
  | [e] => exact (List.sum_singleton).symm
  | e :: e' :: es => rw [ofBranches, language, languages_eq_map]; all_goals simp

/-! ## Products and powers -/

theorem sequence_iff_mem_prod :
    Builder.Sequence (Ls.map fun L w => w ∈ L) w ↔ w ∈ Ls.prod := by
  induction Ls generalizing w with
  | nil => exact (Language.mem_one w).symm
  | cons L Ls ih =>
    rw [List.prod_cons, Language.mem_mul, List.map_cons, Builder.Sequence]
    constructor
    · rintro ⟨u, v, rfl, hu, hv⟩
      exact ⟨u, hu, v, ih.mp hv, rfl⟩
    · rintro ⟨u, hu, v, hv, rfl⟩
      exact ⟨u, v, rfl, hu, ih.mpr hv⟩

theorem mem_sum_iff : w ∈ Ls.sum ↔ ∃ L ∈ Ls, w ∈ L := by
  induction Ls with
  | nil => exact iff_of_false (Language.notMem_zero w) (by simp)
  | cons L Ls ih => rw [List.sum_cons, Language.mem_add, ih, List.exists_mem_cons_iff]

theorem exists_mem_of_mem_prod {s : String} (hw : w ∈ Ls.prod) (hs : s ∈ w) :
    ∃ L ∈ Ls, ∃ u ∈ L, s ∈ u := by
  induction Ls generalizing w with
  | nil =>
    rw [(Language.mem_one w).mp hw] at hs
    exact absurd hs List.not_mem_nil
  | cons L Ls ih =>
    rw [List.prod_cons, Language.mem_mul] at hw
    obtain ⟨u, hu, v, hv, rfl⟩ := hw
    rcases List.mem_append.mp hs with hs | hs
    · exact ⟨L, List.mem_cons_self .., u, hu, hs⟩
    · obtain ⟨K, hK, hv⟩ := ih hv hs
      exact ⟨K, List.mem_cons_of_mem _ hK, hv⟩

/-- Symbols one after another denote their word. -/
theorem mem_prod_symbols_iff {ks : List String} :
    w ∈ ((ks.map symbol).map language).prod ↔ w = ks := by
  induction ks generalizing w with
  | nil => exact Language.mem_one w
  | cons key ks ih =>
    rw [List.map_cons, List.map_cons, List.prod_cons, Language.mem_mul]
    constructor
    · rintro ⟨u, rfl, v, hv, rfl⟩
      rw [ih.mp hv]
      rfl
    · rintro rfl
      exact ⟨[key], rfl, ks, ih.mpr rfl, rfl⟩

/-- Optional words one after another are at most so many words. -/
theorem mem_add_one_pow : w ∈ (L + 1) ^ d ↔ ∃ n ≤ d, w ∈ L ^ n := by
  induction d generalizing w with
  | zero =>
    constructor
    · exact fun hw => ⟨0, Nat.le_refl 0, hw⟩
    · rintro ⟨n, hn, hw⟩
      rwa [Nat.le_zero.mp hn] at hw
  | succ d ih =>
    rw [pow_succ', add_mul, one_mul, Language.mem_add, Language.mem_mul, ih]
    constructor
    · rintro (⟨u, hu, v, hv, rfl⟩ | ⟨n, hn, hw⟩)
      · obtain ⟨n, hn, hv⟩ := ih.mp hv
        refine ⟨n + 1, Nat.succ_le_succ hn, ?_⟩
        rw [pow_succ']
        exact Language.append_mem_mul hu hv
      · exact ⟨n, Nat.le_succ_of_le hn, hw⟩
    · rintro ⟨n, hn, hw⟩
      rcases n with _ | n
      · exact .inr ⟨0, Nat.zero_le d, hw⟩
      · rw [pow_succ', Language.mem_mul] at hw
        obtain ⟨u, hu, v, hv, rfl⟩ := hw
        exact .inl ⟨u, hu, v, ih.mpr ⟨n, Nat.le_of_succ_le_succ hn, hv⟩, rfl⟩

/-- Required copies, followed by any number of copies or by optional ones, are a repetition. -/
theorem mem_pow_mul_iff {K : Language String} (hK : ∀ w, w ∈ K ↔ ∃ n, (∀ m', max = some m' →
    m + n ≤ m') ∧ w ∈ L ^ n) : w ∈ L ^ m * K ↔ w ∈ powers L m max := by
  rw [Language.mem_mul]
  constructor
  · rintro ⟨u, hu, v, hv, rfl⟩
    obtain ⟨n, hn, hv⟩ := (hK v).mp hv
    refine ⟨m + n, Nat.le_add_right m n, hn, ?_⟩
    rw [pow_add]
    exact Language.append_mem_mul hu hv
  · rintro ⟨n, hmn, hn, hw⟩
    obtain ⟨n, rfl⟩ := Nat.exists_eq_add_of_le hmn
    rw [pow_add, Language.mem_mul] at hw
    obtain ⟨u, hu, v, hv, rfl⟩ := hw
    exact ⟨u, hu, v, (hK v).mpr ⟨n, hn, hv⟩, rfl⟩

namespace Builder

/-! ## Loops -/

theorem mem_loop_arcs {a : Nat × Option String × Nat} : a ∈ (loop b k).arcs ↔
    a ∈ (b (k + 2)).arcs ∨ a = (k, none, k + 1) ∨ a = (k, none, (b (k + 2)).entry) ∨
      a = ((b (k + 2)).exit, none, (b (k + 2)).entry) ∨ a = ((b (k + 2)).exit, none, k + 1) := by
  simp [loop]

theorem within_loop (hF : (b (k + 2)).Within (k + 2)) : (loop b k).Within k := by
  have hnext : (loop b k).next = (b (k + 2)).next := rfl
  have hentry := hF.entry
  have hexit := hF.exit
  refine ⟨⟨Nat.le_refl k, ?_⟩, ⟨Nat.le_succ k, ?_⟩, fun a ha => ?_⟩
  · show k < _
    omega
  · show k + 1 < _
    omega
  · rw [hnext]
    rcases mem_loop_arcs.mp ha with ha | rfl | rfl | rfl | rfl
    · have := hF.arcs a ha
      omega
    all_goals dsimp only; omega

/-- No arc leaves the exit of a loop. -/
theorem loop_exit_ne (hF : (b (k + 2)).Within (k + 2)) :
    ∀ a ∈ (loop b k).arcs, a.1 ≠ k + 1 := by
  intro a ha
  have hexit := hF.exit
  rcases mem_loop_arcs.mp ha with ha | rfl | rfl | rfl | rfl
  · have := (hF.arcs a ha).1
    omega
  all_goals dsimp only; omega

/-- The arcs out of the entry of a loop make empty moves to the exit and into the fragment. -/
theorem loop_arc_of_entry {l : Option String} (hF : (b (k + 2)).Within (k + 2))
    (ha : (k, l, q) ∈ (loop b k).arcs) : l = none ∧ (q = k + 1 ∨ q = (b (k + 2)).entry) := by
  have hexit := hF.exit
  rcases mem_loop_arcs.mp ha with ha | heq | heq | heq | heq
  · have : k + 2 ≤ k := (hF.arcs _ ha).1.1
    omega
  · cases heq
    exact ⟨rfl, .inl rfl⟩
  · cases heq
    exact ⟨rfl, .inr rfl⟩
  all_goals
    obtain ⟨heq, -⟩ := Prod.mk.inj heq
    omega

/-- The arcs out of the fragment of a loop are those of the fragment, and empty moves from its exit
to its entry and to the exit of the loop. -/
theorem loop_arc_of_inner {l : Option String} (hF : (b (k + 2)).Within (k + 2)) (hp : k + 2 ≤ p)
    (ha : (p, l, q) ∈ (loop b k).arcs) : (p, l, q) ∈ (b (k + 2)).arcs ∧ k + 2 ≤ q ∨
      p = (b (k + 2)).exit ∧ l = none ∧ (q = (b (k + 2)).entry ∨ q = k + 1) := by
  rcases mem_loop_arcs.mp ha with ha | heq | heq | heq | heq
  · exact .inl ⟨ha, (hF.arcs _ ha).2.1⟩
  · cases heq
    omega
  · cases heq
    omega
  · cases heq
    exact .inr ⟨rfl, rfl, .inl rfl⟩
  · cases heq
    exact .inr ⟨rfl, rfl, .inr rfl⟩

/-- A path from a state of the fragment to the exit of the loop leaves the fragment by its exit, and
then passes the fragment some more times. -/
theorem exists_star_of_path (hF : (b (k + 2)).Within (k + 2))
    (hL : ∀ w, ArcPath (b (k + 2)).arcs (b (k + 2)).entry w (b (k + 2)).exit ↔ w ∈ L)
    (hp : k + 2 ≤ p) (h : ArcPath (loop b k).arcs p w (k + 1)) :
    ∃ u v, w = u ++ v ∧ ArcPath (b (k + 2)).arcs p u (b (k + 2)).exit ∧ v ∈ L∗ := by
  generalize hx : k + 1 = x at h
  induction h with
  | nil => omega
  | silent ha hpath ih =>
    subst hx
    rcases loop_arc_of_inner hF hp ha with ⟨ha, hq⟩ | ⟨rfl, -, rfl | rfl⟩
    · obtain ⟨u, v, rfl, hu, hv⟩ := ih hq rfl
      exact ⟨u, v, rfl, .silent ha hu, hv⟩
    · obtain ⟨u, v, rfl, hu, hv⟩ := ih hF.entry.1 rfl
      refine ⟨[], u ++ v, rfl, .nil _, ?_⟩
      rw [← Language.one_add_self_mul_kstar_eq_kstar]
      exact .inr (Language.append_mem_mul ((hL u).mp hu) hv)
    · rw [(hpath.eq_nil (loop_exit_ne hF)).1]
      exact ⟨[], [], rfl, .nil _, Language.nil_mem_kstar L⟩
  | move ha hpath ih =>
    subst hx
    rcases loop_arc_of_inner hF hp ha with ⟨ha, hq⟩ | ⟨-, hnone, -⟩
    · obtain ⟨u, v, rfl, hu, hv⟩ := ih hq rfl
      exact ⟨_ :: u, v, rfl, .move ha hu, hv⟩
    · exact absurd hnone (Option.some_ne_none _)

/-- Words that the fragment spells lead from its exit to the exit of the loop. -/
theorem path_of_star (hL : ∀ w, ArcPath (b (k + 2)).arcs (b (k + 2)).entry w (b (k + 2)).exit ↔
    w ∈ L) {l : List (List String)} (hl : ∀ u ∈ l, u ∈ L) :
    ArcPath (loop b k).arcs (b (k + 2)).exit l.flatten (k + 1) := by
  induction l with
  | nil =>
    exact .silent (mem_loop_arcs.mpr (.inr (.inr (.inr (.inr rfl))))) (.nil _)
  | cons u l ih =>
    have hu := ((hL u).mpr (hl u (List.mem_cons_self ..))).mono
      (fun a ha => (mem_loop_arcs (k := k)).mpr (.inl ha))
    rw [List.flatten_cons]
    refine .silent (mem_loop_arcs.mpr (.inr (.inr (.inr (.inl rfl))))) (hu.append ?_)
    exact ih fun v hv => hl v (List.mem_cons_of_mem _ hv)

/-- **Loops** denote what their fragment denotes any number of times. -/
theorem denotes_loop (hb : b.Denotes (· ∈ L)) : (loop b).Denotes (· ∈ L∗) := by
  intro k
  obtain ⟨hF, hL⟩ := hb (k + 2)
  refine ⟨within_loop hF, fun w => ?_⟩
  show ArcPath (loop b k).arcs k w (k + 1) ↔ w ∈ L∗
  rw [← Language.one_add_self_mul_kstar_eq_kstar, Language.mem_add, Language.mem_one,
    Language.mem_mul]
  constructor
  · intro h
    cases h with
    | silent ha hpath =>
      obtain ⟨-, rfl | rfl⟩ := loop_arc_of_entry hF ha
      · exact .inl (hpath.eq_nil (loop_exit_ne hF)).1
      · obtain ⟨u, v, rfl, hu, hv⟩ := exists_star_of_path hF hL hF.entry.1 hpath
        exact .inr ⟨u, (hL u).mp hu, v, hv, rfl⟩
    | move ha _ => exact absurd (loop_arc_of_entry hF ha).1 (Option.some_ne_none _)
  · rintro (rfl | ⟨u, hu, v, hv, rfl⟩)
    · exact .silent (mem_loop_arcs.mpr (.inr (.inl rfl))) (.nil _)
    · obtain ⟨l, rfl, hl⟩ := Language.mem_kstar.mp hv
      have hu := ((hL u).mpr hu).mono (fun a ha => (mem_loop_arcs (k := k)).mpr (.inl ha))
      exact .silent (mem_loop_arcs.mpr (.inr (.inr (.inl rfl)))) (hu.append (path_of_star hL hl))

/-! ## Repetitions -/

/-- An optional fragment. -/
theorem denotes_optional (hb : b.Denotes (· ∈ L)) :
    (choice [b, arc none]).Denotes (· ∈ L + 1) :=
  (denotes_choice (.cons hb (.cons (denotes_arc none) .nil))).congr fun w => by
    have hL : w ∈ L + 1 ↔ w ∈ L ∨ w = [] := Iff.rfl
    simpa only [List.exists_mem_cons_iff, List.not_mem_nil, false_and, exists_false, or_false,
      Option.toList_none] using hL.symm

/-- Fragments one after another denote a product. -/
theorem denotes_chain_prod (hb : List.Forall₂ Denotes bs (Ls.map fun L w => w ∈ L)) :
    (chain bs).Denotes (· ∈ Ls.prod) := (denotes_chain hb).congr fun _ => sequence_iff_mem_prod

/-- **Copies** denote the powers that the bounds admit. -/
theorem denotes_copies (hb : b.Denotes (· ∈ L)) (hmax : ∀ m', max = some m' → m ≤ m') :
    (copies b m max).Denotes (· ∈ powers L m max) := by
  cases max with
  | none =>
    have hparts : List.Forall₂ Denotes (List.replicate m b ++ [loop b])
        ((List.replicate m L ++ [L∗]).map fun L w => w ∈ L) := by
      rw [List.map_append, List.map_replicate]
      exact List.rel_append (forall₂_replicate hb m) (.cons (denotes_loop hb) .nil)
    refine (denotes_chain_prod hparts).congr fun w => ?_
    rw [List.prod_append, List.prod_replicate, List.prod_singleton]
    refine mem_pow_mul_iff fun v => ?_
    rw [Language.kstar_eq_iSup_pow, Language.mem_iSup]
    simp
  | some m' =>
    have hparts : List.Forall₂ Denotes
        (List.replicate m b ++ List.replicate (m' - m) (choice [b, arc none]))
        ((List.replicate m L ++ List.replicate (m' - m) (L + 1)).map fun L w => w ∈ L) := by
      rw [List.map_append, List.map_replicate, List.map_replicate]
      exact List.rel_append (forall₂_replicate hb m) (forall₂_replicate (denotes_optional hb) _)
    refine (denotes_chain_prod hparts).congr fun w => ?_
    rw [List.prod_append, List.prod_replicate, List.prod_replicate]
    refine mem_pow_mul_iff fun v => ?_
    have hle := hmax m' rfl
    rw [mem_add_one_pow]
    refine exists_congr fun n => and_congr_left fun _ => ?_
    simp only [Option.some.injEq, forall_eq']
    omega

end Builder

/-! ## The automaton of an expression -/

theorem forall₂_builders (h : ∀ e ∈ es, Builder.Denotes e.builder (· ∈ e.language)) :
    List.Forall₂ Builder.Denotes (builders es) ((languages es).map fun L w => w ∈ L) := by
  rw [builders_eq_map, languages_eq_map, List.map_map]
  exact List.forall₂_map_left_iff.mpr (List.forall₂_map_right_iff.mpr (List.forall₂_same.mpr h))

/-- **The fragment of an expression** denotes what the expression denotes. -/
theorem Bounded.denotes (h : e.Bounded) : Builder.Denotes e.builder (· ∈ e.language) := by
  induction h with
  | epsilon => exact Builder.denotes_arc none
  | symbol name => exact Builder.denotes_arc (some name)
  | concat _ ih => exact Builder.denotes_chain_prod (forall₂_builders ih)
  | union _ ih =>
    exact (Builder.denotes_choice (forall₂_builders ih)).congr fun w => by
      simp [language, mem_sum_iff]
  | star _ ih => exact Builder.denotes_loop ih
  | repetition _ hmax ih => exact Builder.denotes_copies ih hmax

/-- The words of an expression have symbols of the expression. -/
theorem Bounded.mem_symbols (h : e.Bounded) {s : String} (hw : w ∈ e.language) (hs : s ∈ w) :
    s ∈ e.symbols := by
  induction h generalizing w with
  | epsilon =>
    rw [(Language.mem_one w).mp hw] at hs
    exact absurd hs List.not_mem_nil
  | symbol name =>
    obtain rfl : w = [name] := hw
    exact hs
  | concat _ ih =>
    obtain ⟨L, hL, u, hu, hs⟩ := exists_mem_of_mem_prod hw hs
    rw [languages_eq_map] at hL
    obtain ⟨e, he, rfl⟩ := List.mem_map.mp hL
    exact mem_symbolsOf.mpr ⟨e, he, ih e he hu hs⟩
  | union _ ih =>
    obtain ⟨L, hL, hw⟩ := mem_sum_iff.mp hw
    rw [languages_eq_map] at hL
    obtain ⟨e, he, rfl⟩ := List.mem_map.mp hL
    exact mem_symbolsOf.mpr ⟨e, he, ih e he hw hs⟩
  | star _ ih =>
    obtain ⟨l, rfl, hl⟩ := Language.mem_kstar.mp hw
    obtain ⟨u, hu, hs⟩ := List.mem_flatten.mp hs
    exact ih (hl u hu) hs
  | repetition _ _ ih =>
    obtain ⟨n, -, -, hw⟩ := hw
    obtain ⟨l, rfl, -, hl⟩ := Language.mem_pow.mp hw
    obtain ⟨u, hu, hs⟩ := List.mem_flatten.mp hs
    exact ih (hl u hu) hs

/-- **The automaton of an expression** accepts the words that the expression denotes. -/
theorem Bounded.accepts_toNfa_iff (h : e.Bounded) : e.toNfa.accepts w = true ↔ w ∈ e.language :=
  Regex.accepts_toNfa_iff h.denotes

/-- **Thompson's construction** is exact: the automaton of an expression follows every word without
a fault, and accepts it where the expression denotes it. -/
theorem Bounded.tryAccepts_toNfa (h : e.Bounded) (w : List String) :
    e.toNfa.tryAccepts w = .ok (e.toNfa.accepts w) ∧
      (e.toNfa.accepts w = true ↔ w ∈ e.language) :=
  ⟨Nfa.tryAccepts_eq_ok (wellFormed_toNfa h.denotes), h.accepts_toNfa_iff⟩

/-- A star of a star, a repetition of a nullable expression, one without copies and an empty
concatenation, one after another. -/
def nestedRegex : Regex :=
  concat [star (star (symbol "a")), repetition (star (symbol "b")) 1 (some 2),
    repetition (symbol "c") 0 (some 0), concat []]

theorem tryAccepts_toNfa_nestedRegex :
    nestedRegex.Bounded ∧ nestedRegex.toNfa.tryAccepts ["a", "b"] = .ok true ∧
      ["a", "b"] ∈ nestedRegex.language ∧ nestedRegex.toNfa.tryAccepts ["c"] = .ok false ∧
      ["c"] ∉ nestedRegex.language := by
  have h : nestedRegex.Bounded := .concat <| List.forall_mem_cons.mpr
    ⟨.star (.star (.symbol "a")), List.forall_mem_cons.mpr
      ⟨.repetition (.star (.symbol "b")) (by simp), List.forall_mem_cons.mpr
        ⟨.repetition (.symbol "c") (by simp), List.forall_mem_singleton.mpr (.concat (by simp))⟩⟩⟩
  have hab : nestedRegex.toNfa.accepts ["a", "b"] = true := by decide +kernel
  have hc : nestedRegex.toNfa.accepts ["c"] = false := by decide +kernel
  obtain ⟨hokab, hiffab⟩ := h.tryAccepts_toNfa ["a", "b"]
  obtain ⟨hokc, hiffc⟩ := h.tryAccepts_toNfa ["c"]
  refine ⟨h, hab ▸ hokab, hiffab.mp hab, hc ▸ hokc, fun hmem => ?_⟩
  exact Bool.false_ne_true (hc.symm.trans (hiffc.mpr hmem))

theorem Bounded.accepts_toMinimalDfa_iff (h : e.Bounded) :
    e.toMinimalDfa.accepts w = true ↔ w ∈ e.language :=
  Regex.accepts_toMinimalDfa_iff h.denotes

end PathQuery.Regex
