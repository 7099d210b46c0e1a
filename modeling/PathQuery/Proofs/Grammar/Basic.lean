import PathQuery.Grammar.Basic
import PathQuery.Proofs.Grammar.Derivation

/-!
# Proofs/Grammar/Basic — grammars as lists of productions

Of a list of productions only the members matter for the words that are derived
(`derives_congr`), and a grammar has the productions that it was given (`Grammar.mem_ofList`).
`Production.Over` bounds the variables that a production mentions; those of a grammar are all among
its `nonterminals`.
-/

namespace PathQuery

namespace Production

variable {ps cs : List Production} {p : Production} {v : String} {x : List Symbol}
  {w : List String}

/-- The variables of a body are among some variables. -/
theorem mem_filterMap_nonterminal? :
    v ∈ x.filterMap Symbol.nonterminal? ↔ .nonterminal v ∈ x := by
  simp only [List.mem_filterMap]
  constructor
  · rintro ⟨_ | u, hs, h⟩
    · cases h
    · cases h
      exact hs
  · exact fun h => ⟨_, h, rfl⟩

/-- The variables of a production are among some names. -/
structure Over (names : List String) (p : Production) : Prop where
  head : p.head ∈ names
  body : ∀ v, .nonterminal v ∈ p.body → v ∈ names

theorem Over.mono {used used' : List String} (h : p.Over used) (hused : ∀ v ∈ used, v ∈ used') :
    p.Over used' :=
  ⟨hused _ h.head, fun v hv => hused v (h.body v hv)⟩

/-- The order of productions and their number do not matter. -/
theorem derives_congr (h : ∀ p, p ∈ ps ↔ p ∈ cs) :
    Derives (bodies ps) x w ↔ Derives (bodies cs) x w :=
  ⟨Derives.mono fun _ _ => (h _).mp, Derives.mono fun _ _ => (h _).mpr⟩

end Production

namespace Grammar

open Production (bodies)

variable {g : Grammar} {start : String} {ps : List Production} {w : List String}

/-! ## Lists of productions as grammars -/

theorem start_foldl_add : (ps.foldl (fun g p => (g.add p).1) g).start = g.start := by
  induction ps generalizing g with
  | nil => rfl
  | cons p ps ih =>
    rw [List.foldl_cons, ih, add]
    split <;> rfl

@[simp] theorem start_ofList : (ofList start ps).start = start := start_foldl_add

/-- Of the productions that are added, those that are new stand behind the others. -/
theorem productions_foldl_add : (ps.foldl (fun g p => (g.add p).1) g).productions =
    g.productions ++ Distinct.unseen g.productions ps := by
  induction ps generalizing g with
  | nil => exact (List.append_nil _).symm
  | cons p ps ih =>
    rw [List.foldl_cons, ih, Distinct.unseen, add]
    split
    · rfl
    · rw [List.append_assoc, List.singleton_append]
      refine congrArg (g.productions ++ p :: ·) (Distinct.unseen_congr (fun q => ?_) ps)
      rw [List.mem_append, List.mem_singleton, List.mem_cons, or_comm]

theorem productions_ofList : (ofList start ps).productions = Distinct.ofList ps :=
  productions_foldl_add

@[simp] theorem mem_ofList {q : Production} : q ∈ (ofList start ps).productions ↔ q ∈ ps := by
  rw [productions_ofList, Distinct.mem_ofList]

theorem generates_ofList_iff :
    (ofList start ps).Generates w ↔ Derives (bodies ps) [.nonterminal start] w := by
  rw [Generates, start_ofList]
  exact Production.derives_congr fun _ => mem_ofList

/-! ## The variables of a grammar -/

theorem over_nonterminals : ∀ p ∈ g.productions, p.Over g.nonterminals := by
  intro p hp
  constructor
  · exact Ascending.mem_ofList.mpr
      (List.mem_cons_of_mem _ (List.mem_flatMap.mpr ⟨p, hp, List.mem_cons_self ..⟩))
  · intro v hv
    refine Ascending.mem_ofList.mpr
      (List.mem_cons_of_mem _ (List.mem_flatMap.mpr ⟨p, hp, List.mem_cons_of_mem _ ?_⟩))
    exact Production.mem_filterMap_nonterminal?.mpr hv

theorem start_mem_nonterminals : g.start ∈ g.nonterminals :=
  Ascending.mem_ofList.mpr (List.mem_cons_self ..)

end Grammar

end PathQuery
