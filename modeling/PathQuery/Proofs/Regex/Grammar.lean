import Mathlib.Data.List.Basic
import PathQuery.Regex.Parse

/-!
# Proofs/Regex/Grammar — which texts are patterns, and of which expressions

A pattern is a list of tokens with white space before each and at the end (`Spells`).  A token is
its text: a sign, a symbol of one character, a quoted symbol or the digits of a count.  `Phrase` has
one rule for each alternative of the grammar at the head of `Regex/Parse`, and says beside the
tokens which expressions they stand for.  Lists of branches and of parts grow at their ends, so that
the signs of repetition apply from left to right.
-/

namespace PathQuery.Regex

open Text (isAlphanumeric isBlank)

/-- A list of white space. -/
def Blanks (cs : List Char) : Prop := ∀ c ∈ cs, isBlank c = true

/-- **Spelling**: the tokens one after another, with white space before each and at the end. -/
inductive Spells : List (List Char) → List Char → Prop where
  | nil {bs : List Char} : Blanks bs → Spells [] bs
  | cons {bs t cs : List Char} {ts : List (List Char)} :
      Blanks bs → Spells ts cs → Spells (t :: ts) (bs ++ (t ++ cs))

/-- The number that digits are worth after those worth `value`. -/
def valueFrom (value : Nat) (digits : List Char) : Nat :=
  digits.foldl (fun value c => 10 * value + (c.toNat - '0'.toNat)) value

/-- The digits of a 32-bit number. -/
structure Count (digits : List Char) (n : Nat) : Prop where
  ne_nil : digits ≠ []
  isDigit : ∀ c ∈ digits, c.isDigit = true
  value : valueFrom 0 digits = n
  le_max : n ≤ Word32.max

/-- The bounds of a repetition: a count alone, or a least one, perhaps with a greatest one. -/
inductive Bounds : List (List Char) → Nat → Option Nat → Prop where
  | exactly {ds : List Char} {m : Nat} :
      Count ds m → Bounds [['\x7b'], ds, ['\x7d']] m (some m)
  | atLeast {ds : List Char} {m : Nat} :
      Count ds m → Bounds [['\x7b'], ds, [','], ['\x7d']] m none
  | between {ds ds' : List Char} {m n : Nat} : Count ds m → Count ds' n → m ≤ n →
      Bounds [['\x7b'], ds, [','], ds', ['\x7d']] m (some n)

/-- The variables of the grammar. -/
inductive Kind where
  /-- A whole pattern. -/
  | union
  /-- The branches of a union so far. -/
  | branches
  /-- A branch. -/
  | branch
  /-- The parts of a branch so far, at least one. -/
  | parts
  /-- An atom with the repetitions behind it. -/
  | part
  /-- A symbol, the empty word or a group. -/
  | atom

/-- **The grammar of patterns**: the tokens of each variable with the expressions they stand for,
which are a single one but for lists of branches and parts. -/
inductive Phrase : Kind → List (List Char) → List Regex → Prop where
  | oneBranch {ts : List (List Char)} {e : Regex} :
      Phrase .branches ts [e] → Phrase .union ts [e]
  | manyBranches {ts : List (List Char)} {es : List Regex} :
      Phrase .branches ts es → 1 < es.length → Phrase .union ts [.union es]
  | firstBranch {ts : List (List Char)} {e : Regex} :
      Phrase .branch ts [e] → Phrase .branches ts [e]
  | nextBranch {ts us : List (List Char)} {es : List Regex} {e : Regex} :
      Phrase .branches ts es → Phrase .branch us [e] →
        Phrase .branches (ts ++ ['|'] :: us) (es ++ [e])
  | noPart : Phrase .branch [] [.epsilon]
  | onePart {ts : List (List Char)} {e : Regex} : Phrase .parts ts [e] → Phrase .branch ts [e]
  | manyParts {ts : List (List Char)} {es : List Regex} :
      Phrase .parts ts es → 1 < es.length → Phrase .branch ts [.concat es]
  | firstPart {ts : List (List Char)} {e : Regex} : Phrase .part ts [e] → Phrase .parts ts [e]
  | nextPart {ts us : List (List Char)} {es : List Regex} {e : Regex} :
      Phrase .parts ts es → Phrase .part us [e] → Phrase .parts (ts ++ us) (es ++ [e])
  | dotPart {ts us : List (List Char)} {es : List Regex} {e : Regex} :
      Phrase .parts ts es → Phrase .part us [e] → Phrase .parts (ts ++ ['.'] :: us) (es ++ [e])
  | atom {ts : List (List Char)} {e : Regex} : Phrase .atom ts [e] → Phrase .part ts [e]
  | star {ts : List (List Char)} {e : Regex} :
      Phrase .part ts [e] → Phrase .part (ts ++ [['*']]) [.star e]
  | plus {ts : List (List Char)} {e : Regex} :
      Phrase .part ts [e] → Phrase .part (ts ++ [['+']]) [.repetition e 1 none]
  | optional {ts : List (List Char)} {e : Regex} :
      Phrase .part ts [e] → Phrase .part (ts ++ [['?']]) [.repetition e 0 (some 1)]
  | bounded {ts bounds : List (List Char)} {e : Regex} {m : Nat} {n : Option Nat} :
      Phrase .part ts [e] → Bounds bounds m n →
        Phrase .part (ts ++ ['^'] :: bounds) [.repetition e m n]
  | symbol {c : Char} : (isAlphanumeric c || c == '_') = true →
      Phrase .atom [[c]] [.symbol (String.singleton c)]
  | quoted {name : List Char} : name ≠ [] → '\x22' ∉ name →
      Phrase .atom ['\x22' :: (name ++ ['\x22'])] [.symbol (String.ofList name)]
  | epsilon : Phrase .atom [['$']] [.epsilon]
  | group {ts : List (List Char)} {e : Regex} :
      Phrase .union ts [e] → Phrase .atom (['('] :: (ts ++ [[')']])) [e]

variable {ts us : List (List Char)} {t cs cs' bs : List Char} {c : Char} {e : Regex}
  {es : List Regex}

/-! ## Spelling -/

theorem blanks_nil : Blanks [] := fun _ hc => absurd hc List.not_mem_nil

theorem Blanks.append (hb : Blanks bs) (hc : Blanks cs) : Blanks (bs ++ cs) := fun c h =>
  (List.mem_append.mp h).elim (hb c) (hc c)

theorem spells_cons_iff :
    Spells (t :: ts) cs ↔ ∃ bs cs', cs = bs ++ (t ++ cs') ∧ Blanks bs ∧ Spells ts cs' := by
  constructor
  · rintro ⟨⟩
    exact ⟨_, _, rfl, ‹_›, ‹_›⟩
  · rintro ⟨bs, cs', rfl, hb, h⟩
    exact .cons hb h

theorem Spells.append (h : Spells ts cs) (h' : Spells us cs') : Spells (ts ++ us) (cs ++ cs') := by
  induction h with
  | @nil bs hb =>
    cases h' with
    | nil hb' => exact .nil (hb.append hb')
    | cons hb' h' =>
      rw [← List.append_assoc]
      exact .cons (hb.append hb') h'
  | cons hb _ ih =>
    rw [List.append_assoc, List.append_assoc]
    exact .cons hb ih

/-- A text of tokens in two parts is cut between them. -/
theorem exists_of_spells_append (h : Spells (ts ++ us) cs) :
    ∃ cs₁ cs₂, cs = cs₁ ++ cs₂ ∧ Spells ts cs₁ ∧ Spells us cs₂ := by
  induction ts generalizing cs with
  | nil => exact ⟨[], cs, rfl, .nil blanks_nil, h⟩
  | cons t ts ih =>
    obtain ⟨bs, cs', rfl, hb, h⟩ := spells_cons_iff.mp h
    obtain ⟨cs₁, cs₂, rfl, h₁, h₂⟩ := ih h
    exact ⟨bs ++ (t ++ cs₁), cs₂, by simp only [List.append_assoc], .cons hb h₁, h₂⟩

theorem spells_token (t : List Char) : Spells [t] t := by
  have h : Spells [t] ([] ++ (t ++ [])) := .cons blanks_nil (.nil blanks_nil)
  rwa [List.nil_append, List.append_nil] at h

theorem Spells.token (h : Spells ts cs) (t : List Char) : Spells (ts ++ [t]) (cs ++ t) :=
  h.append (spells_token t)

theorem Spells.token_append (h : Spells (ts ++ us) cs) (t : List Char) :
    Spells (ts ++ (us ++ [t])) (cs ++ t) := by
  rw [← List.append_assoc]
  exact h.token t

theorem Spells.blank (h : Spells ts cs) (hc : isBlank c = true) : Spells ts (cs ++ [c]) := by
  have h := h.append (.nil fun b hb => List.mem_singleton.mp hb ▸ hc)
  rwa [List.append_nil] at h

/-! ## Branches and parts that collapse -/

theorem ofBranches_of_lt (h : 1 < es.length) : ofBranches es = .union es := by
  match es, h with
  | _ :: _ :: _, _ => rfl

theorem ofParts_of_lt (h : 1 < es.length) : ofParts es = .concat es := by
  match es, h with
  | _ :: _ :: _, _ => rfl

theorem Phrase.ne_nil_of_branches (h : Phrase .branches ts es) : es ≠ [] := by
  cases h with
  | firstBranch => exact List.cons_ne_nil _ _
  | nextBranch => exact List.append_ne_nil_of_right_ne_nil _ (List.cons_ne_nil _ _)

theorem Phrase.union_ofBranches (h : Phrase .branches ts es) :
    Phrase .union ts [ofBranches es] := by
  match es with
  | [] => exact absurd rfl h.ne_nil_of_branches
  | [e] => exact .oneBranch h
  | e :: e' :: es => exact .manyBranches h (by simp)

theorem Phrase.ne_nil_of_parts (h : Phrase .parts ts es) : es ≠ [] := by
  cases h with
  | firstPart => exact List.cons_ne_nil _ _
  | nextPart | dotPart => exact List.append_ne_nil_of_right_ne_nil _ (List.cons_ne_nil _ _)

theorem Phrase.branch_ofParts (h : Phrase .parts ts es) : Phrase .branch ts [ofParts es] := by
  match es with
  | [] => exact absurd rfl h.ne_nil_of_parts
  | [e] => exact .onePart h
  | e :: e' :: es => exact .manyParts h (by simp)

/-- What may stand behind the last part of a branch goes on with it. -/
theorem Phrase.modifyLast {f : Regex → Regex}
    (hf : ∀ vs e, Phrase .part vs [e] → Phrase .part (vs ++ us) [f e])
    (h : Phrase .parts ts (es ++ [e])) : Phrase .parts (ts ++ us) (es ++ [f e]) := by
  generalize hes : es ++ [e] = es' at h
  cases h with
  | firstPart h =>
    obtain ⟨rfl, heq⟩ := List.append_inj' (show es ++ [e] = [] ++ [_] from hes) rfl
    exact .firstPart (hf _ _ (List.singleton_inj.mp heq ▸ h))
  | nextPart h h' =>
    obtain ⟨rfl, heq⟩ := List.append_inj' hes rfl
    rw [List.append_assoc]
    exact .nextPart h (hf _ _ (List.singleton_inj.mp heq ▸ h'))
  | dotPart h h' =>
    obtain ⟨rfl, heq⟩ := List.append_inj' hes rfl
    rw [List.append_assoc, List.cons_append]
    exact .dotPart h (hf _ _ (List.singleton_inj.mp heq ▸ h'))

end PathQuery.Regex
