import PathQuery.Grammar.Normal

/-!
# Proofs/Grammar/Derivation — the words that variables derive

`Derives P x w` says that the symbols `x` derive the word `w` when each variable may be replaced by
the bodies that `P` gives it; a grammar, a normal form and a recursive state machine differ only in
these bodies.  Derivations are compared in two ways:

* `Derives.transfer` — where each body of `P` is covered by derivations of `Q`, every derivation
  of `P` becomes one of `Q`.
* `Derives.expand` — where the variables of `Q` that `P` lacks stand for symbols of `P`, expanding
  them turns every derivation of `Q` into one of `P`.
-/

namespace PathQuery

/-- Which bodies each variable may be replaced by. -/
abbrev Bodies := String → List Symbol → Prop

/-- **Derivation**: the symbols of a list become the letters of a word, a terminal itself and a
variable what one of its bodies derives. -/
inductive Derives (P : Bodies) : List Symbol → List String → Prop where
  | nil : Derives P [] []
  | terminal {t : String} {x : List Symbol} {w : List String} :
      Derives P x w → Derives P (.terminal t :: x) (t :: w)
  | nonterminal {v : String} {body x : List Symbol} {u w : List String} :
      P v body → Derives P body u → Derives P x w → Derives P (.nonterminal v :: x) (u ++ w)

/-- The bodies that some productions give to each variable. -/
def Production.bodies (ps : List Production) : Bodies := fun v body => ⟨v, body⟩ ∈ ps

/-- The start variable derives a word. -/
def Grammar.Generates (g : Grammar) (w : List String) : Prop :=
  Derives (Production.bodies g.productions) [.nonterminal g.start] w

/-- The bodies that the rules of a normal form give to each variable. -/
def NormalGrammar.bodies (N : NormalGrammar) : Bodies :=
  Production.bodies (N.rules.map Rule.toProduction)

/-- The start variable derives a word by the rules. -/
def NormalGrammar.Generates (N : NormalGrammar) (w : List String) : Prop :=
  Derives N.bodies [.nonterminal N.start] w

section

variable {P Q : Bodies} {x y : List Symbol} {v t : String} {w : List String}

/-! ## Taking derivations apart -/

theorem derives_nil_iff : Derives P [] w ↔ w = [] := by
  constructor
  · rintro ⟨⟩
    rfl
  · rintro rfl
    exact .nil

theorem derives_terminal_cons_iff :
    Derives P (.terminal t :: x) w ↔ ∃ w', w = t :: w' ∧ Derives P x w' := by
  constructor
  · rintro (_ | h | _)
    exact ⟨_, rfl, h⟩
  · rintro ⟨w', rfl, h⟩
    exact .terminal h

/-- A variable derives what one of its bodies derives. -/
theorem derives_nonterminal_iff :
    Derives P [.nonterminal v] w ↔ ∃ body, P v body ∧ Derives P body w := by
  constructor
  · intro h
    cases h with
    | nonterminal hv hu hx =>
      rw [derives_nil_iff.mp hx, List.append_nil]
      exact ⟨_, hv, hu⟩
  · rintro ⟨body, hv, h⟩
    rw [← List.append_nil w]
    exact .nonterminal hv h .nil

theorem derives_nonterminal_cons_iff :
    Derives P (.nonterminal v :: x) w ↔
      ∃ u w', w = u ++ w' ∧ Derives P [.nonterminal v] u ∧ Derives P x w' := by
  constructor
  · intro h
    cases h with
    | nonterminal hv hu hx => exact ⟨_, _, rfl, derives_nonterminal_iff.mpr ⟨_, hv, hu⟩, hx⟩
  · rintro ⟨u, w', rfl, hv, hx⟩
    obtain ⟨body, hbody, hu⟩ := derives_nonterminal_iff.mp hv
    exact .nonterminal hbody hu hx

theorem derives_terminal_iff : Derives P [.terminal t] w ↔ w = [t] := by
  simp [derives_terminal_cons_iff, derives_nil_iff]

/-- Terminals derive their own word. -/
theorem derives_map_terminal_iff {u : List String} :
    Derives P (u.map .terminal) w ↔ w = u := by
  induction u generalizing w with
  | nil => exact derives_nil_iff
  | cons t u ih =>
    rw [List.map_cons, derives_terminal_cons_iff]
    simp [ih]

/-- A list of symbols derives what its first symbol and the others derive. -/
theorem derives_cons_iff {s : Symbol} :
    Derives P (s :: x) w ↔ ∃ u w', w = u ++ w' ∧ Derives P [s] u ∧ Derives P x w' := by
  cases s with
  | terminal t =>
    rw [derives_terminal_cons_iff]
    constructor
    · rintro ⟨w', rfl, h⟩
      exact ⟨[t], w', rfl, derives_terminal_iff.mpr rfl, h⟩
    · rintro ⟨u, w', rfl, hu, h⟩
      rw [derives_terminal_iff.mp hu]
      exact ⟨w', rfl, h⟩
  | nonterminal v => exact derives_nonterminal_cons_iff

/-- What two lists of symbols derive, the two together derive one after the other. -/
theorem Derives.append {u : List String} (hx : Derives P x u) (hy : Derives P y w) :
    Derives P (x ++ y) (u ++ w) := by
  induction hx with
  | nil => exact hy
  | terminal _ ih => exact .terminal ih
  | nonterminal hv hu _ _ ihx =>
    rw [List.append_assoc]
    exact .nonterminal hv hu ihx

/-! ## Comparing bodies -/

/-- **Transfer**: derivations follow where each single replacement is covered by derivations. -/
theorem Derives.transfer
    (h : ∀ v body w, P v body → Derives Q body w → Derives Q [.nonterminal v] w)
    (hx : Derives P x w) : Derives Q x w := by
  induction hx with
  | nil => exact .nil
  | terminal _ ih => exact .terminal ih
  | nonterminal hv _ _ ihu ihw =>
    exact derives_nonterminal_cons_iff.mpr ⟨_, _, rfl, h _ _ _ hv ihu, ihw⟩

/-- More bodies derive more words. -/
theorem Derives.mono (h : ∀ v body, P v body → Q v body) (hx : Derives P x w) : Derives Q x w :=
  hx.transfer fun v body _ hv hw => derives_nonterminal_iff.mpr ⟨body, h v body hv, hw⟩

/-! ## Variables that stand for symbols -/

/-- The symbols that a symbol stands for, where some variables abbreviate others. -/
def Symbol.expand (stands : String → Option (List Symbol)) : Symbol → List Symbol
  | .terminal t => [.terminal t]
  | .nonterminal v => (stands v).getD [.nonterminal v]

/-- Symbols without abbreviations stand for themselves. -/
theorem flatMap_expand_eq_self {stands : String → Option (List Symbol)}
    (h : ∀ v, .nonterminal v ∈ x → stands v = none) : x.flatMap (Symbol.expand stands) = x := by
  induction x with
  | nil => rfl
  | cons s x ih =>
    rw [List.flatMap_cons, ih fun v hv => h v (List.mem_cons_of_mem _ hv)]
    cases s with
    | terminal t => rfl
    | nonterminal v =>
      rw [Symbol.expand, h v (List.mem_cons_self ..)]
      rfl

/-- **Definitional extension**: bodies that are right once abbreviations are expanded derive nothing
new, an abbreviation only what it stands for. -/
theorem Derives.expand {stands : String → Option (List Symbol)}
    (hnone : ∀ v body, Q v body → stands v = none → P v (body.flatMap (Symbol.expand stands)))
    (hsome : ∀ v body s, Q v body → stands v = some s → body.flatMap (Symbol.expand stands) = s)
    (hx : Derives Q x w) : Derives P (x.flatMap (Symbol.expand stands)) w := by
  induction hx with
  | nil => exact .nil
  | terminal _ ih => exact .terminal ih
  | @nonterminal v body x u w hv _ _ ihu ihw =>
    rw [List.flatMap_cons, Symbol.expand]
    cases hs : stands v with
    | none => exact .nonterminal (hnone v body hv hs) ihu ihw
    | some s => exact (hsome v body s hv hs ▸ ihu).append ihw

/-- **Definitional extension, both ways**: if besides `Q` covers the bodies of `P`, the two derive
the same words from symbols without abbreviations. -/
theorem derives_iff_of_stands {stands : String → Option (List Symbol)}
    (hnone : ∀ v body, Q v body → stands v = none → P v (body.flatMap (Symbol.expand stands)))
    (hsome : ∀ v body s, Q v body → stands v = some s → body.flatMap (Symbol.expand stands) = s)
    (hcover : ∀ v body w, P v body → Derives Q body w → Derives Q [.nonterminal v] w)
    (hx : ∀ v, .nonterminal v ∈ x → stands v = none) : Derives Q x w ↔ Derives P x w := by
  constructor
  · intro h
    have := h.expand hnone hsome
    rwa [flatMap_expand_eq_self hx] at this
  · exact Derives.transfer hcover

end

end PathQuery
