import PathQuery.Proofs.Regex.Agreement

/-!
# Proofs/Regex/Position — where a pattern is refused

* `parse?_located` — recursive descent ends on every pattern, with what the reader makes of it, and
  a refusal points at a character that shows its problem, or at the end.

A character shows a problem if the problem is one of it (`Problem.ShownBy`): a group that is not
closed is shown by its parenthesis, and a sign that stands where another one is expected by itself.
Most refusals are noticed there, but some of them later, behind characters of more than one byte:
`Reader.Marked` says of the offsets that the reader keeps for them which characters stand there.
Each character keeps this, or is refused with such an offset (`Reader.Marked.step`).
-/

namespace PathQuery.Text

/-- **What stands at a byte offset** of a text: a character, or nothing where the text ends. -/
inductive StandsAt (text : String) : Nat → Option Char → Prop where
  | character {before after : String} {c : Char} :
      text = before ++ String.singleton c ++ after → StandsAt text before.utf8ByteSize (some c)
  | ending : StandsAt text text.utf8ByteSize none

end PathQuery.Text

namespace PathQuery.Regex

open Text (isBlank StandsAt)

/-- **Which character shows a problem**, or that the end of the pattern does. -/
inductive Problem.ShownBy : Problem → Option Char → Prop where
  | unexpected {c : Char} : ShownBy (unexpected c) (some c)
  | loneDot : ShownBy loneDot (some '.')
  | nothingToRepeat {c : Char} : c ∈ Descent.repetitionSigns → ShownBy (nothingToRepeat c) (some c)
  | unclosedGroup : ShownBy unclosedGroup (some '(')
  | unterminatedQuote : ShownBy unterminatedQuote (some '\x22')
  | emptyQuote : ShownBy emptyQuote (some '\x22')
  | expected {want : Char} {found : Option Char} : found ≠ some want →
      ShownBy (expected want found) found
  | expectedCount {found : Option Char} : ShownBy expectedCount found
  | invalidRange {c : Char} {min max : Nat} : c.isDigit = true → max < min →
      ShownBy (invalidRange min max) (some c)

/-- **A refusal** that points at what shows its problem, which is no white space. -/
inductive Refusal (text : String) : Error → Prop where
  | mk {pos : Nat} {problem : Problem} {next : Option Char} : StandsAt text pos next →
      next.any isBlank = false → problem.ShownBy next → Refusal text (.regexSyntax pos problem)

variable {text : String} {pos : Nat} {c : Char} {problem : Problem} {α β : Type}

theorem Refusal.at_character (h : StandsAt text pos (some c)) (hc : isBlank c = false)
    (hp : problem.ShownBy (some c)) : Refusal text (.regexSyntax pos problem) :=
  .mk h hc hp

theorem Refusal.at_ending (h : StandsAt text pos none) (hp : problem.ShownBy none) :
    Refusal text (.regexSyntax pos problem) := .mk h rfl hp

theorem Refusal.expected {want : Char} (h : StandsAt text pos (some c)) (hc : isBlank c = false)
    (hne : c ≠ want) : Refusal text (.regexSyntax pos (.expected want (some c))) :=
  .at_character h hc (.expected fun heq => hne (Option.some.inj heq))

/-- A result with a property, or a refusal that points at what shows its problem. -/
def Located (text : String) (P : α → Prop) : Except Error α → Prop
  | .ok a => P a
  | .error e => Refusal text e

theorem Located.bind {P : α → Prop} {P' : β → Prop} {x : Except Error α} {f : α → Except Error β}
    (h : Located text P x) (hf : ∀ a, P a → Located text P' (f a)) :
    Located text P' (x >>= f) := by
  cases x with
  | error e => exact h
  | ok a => exact hf a h

/-! ## Bounds -/

/-- A digit stands at an offset. -/
def DigitAt (text : String) (pos : Nat) : Prop :=
  ∃ c : Char, c.isDigit = true ∧ StandsAt text pos (some c)

theorem DigitAt.refusal (h : DigitAt text pos)
    (hp : ∀ c : Char, c.isDigit = true → problem.ShownBy (some c)) :
    Refusal text (.regexSyntax pos problem) := by
  obtain ⟨c, hc, hstands⟩ := h
  exact .at_character hstands (Text.isBlank_eq_false_of_isDigit hc) (hp c hc)

namespace Bound

/-- The offset of a count that is being read is that of a digit. -/
def Marked (text : String) : Bound → Prop
  | minDigits start _ | maxDigits _ start _ => DigitAt text start
  | _ => True

/-- The offset of a count is that of a digit, in a bound that goes on. -/
def OutcomeMarked (text : String) : Bound ⊕ Nat × Option Nat → Prop
  | .inl bound => bound.Marked text
  | .inr _ => True

variable {bound : Bound} {min start value : Nat}

theorem located_count (h : DigitAt text start) :
    Located text (fun _ => True) (count start value) := by
  rw [count]
  split
  · trivial
  · exact h.refusal fun _ _ => .expectedCount

theorem located_upperCount (h : DigitAt text start) :
    Located text (fun _ => True) (upperCount min start value) := by
  refine (located_count h).bind fun max _ => ?_
  split
  · next hlt => exact h.refusal fun c hc => .invalidRange hc hlt
  · trivial

theorem Marked.afterCount (hb : bound.Marked text) (h : StandsAt text pos (some c)) :
    Located text (OutcomeMarked text) (bound.afterCount pos c) := by
  cases bound with
  | min m =>
    rw [Bound.afterCount]
    split
    · trivial
    split
    · trivial
    split
    · trivial
    · next hblank _ hclosing =>
      exact .expected h (Bool.eq_false_iff.mpr hblank) hclosing
  | max m n =>
    rw [Bound.afterCount]
    split
    · trivial
    split
    · trivial
    · next hblank hclosing =>
      exact .expected h (Bool.eq_false_iff.mpr hblank) hclosing
  | _ => exact hb

/-- **Each character** of a bound keeps the offset that of a digit, or is refused with it. -/
theorem Marked.step (hb : bound.Marked text) (h : StandsAt text pos (some c)) :
    Located text (OutcomeMarked text) (bound.step pos c) := by
  have hdigit {d : Nat} (hd : digit? c = some d) : DigitAt text pos :=
    ⟨c, (digit?_eq_some_iff.mp hd).1, h⟩
  cases bound with
  | caret =>
    rw [Bound.step]
    split
    · trivial
    split
    · trivial
    · next hblank hopening =>
      exact .expected h (Bool.eq_false_iff.mpr hblank) hopening
  | brace =>
    rw [Bound.step]
    split
    · trivial
    · next hblank =>
      split
      · next hd => exact hdigit hd
      · exact .at_character h (Bool.eq_false_iff.mpr hblank) .expectedCount
  | minDigits start value =>
    rw [Bound.step]
    split
    · exact hb
    · refine (located_count hb).bind fun m _ => ?_
      exact Marked.afterCount (show (min m).Marked text from trivial) h
  | comma m =>
    rw [Bound.step]
    split
    · trivial
    · next hblank =>
      split
      · trivial
      split
      · next hd => exact hdigit hd
      · exact .at_character h (Bool.eq_false_iff.mpr hblank) .expectedCount
  | maxDigits m start value =>
    rw [Bound.step]
    split
    · exact hb
    · refine (located_upperCount hb).bind fun n _ => ?_
      exact Marked.afterCount (show (max m n).Marked text from trivial) h
  | min m => exact hb.afterCount h
  | max m n => exact hb.afterCount h

/-- The end of the pattern is refused within a bound. -/
theorem Marked.refusal_endError (hb : bound.Marked text) (h : StandsAt text pos none) :
    Refusal text (bound.endError pos) := by
  have hexpected {want : Char} : Problem.ShownBy (.expected want none) none := .expected nofun
  cases bound with
  | minDigits start value =>
    have hcount : Located text (fun _ => True) (count start value) := located_count hb
    rw [endError]
    split
    · exact .at_ending h hexpected
    · next e he =>
      rw [he] at hcount
      exact hcount
  | maxDigits m start value =>
    have hcount : Located text (fun _ => True) (upperCount m start value) := located_upperCount hb
    rw [endError]
    split
    · exact .at_ending h hexpected
    · next e he =>
      rw [he] at hcount
      exact hcount
  | caret | min | max => exact .at_ending h hexpected
  | brace | comma => exact .at_ending h .expectedCount

end Bound

/-! ## The reader -/

/-- The offset of the token that is being read is that of its first character. -/
def Pending.Marked (text : String) : Pending → Prop
  | .nothing => True
  | .dot start => StandsAt text start (some '.')
  | .quote start _ => StandsAt text start (some '\x22')
  | .bound b => b.Marked text

namespace Reader

/-- **The offsets that a reader keeps** are those of the parentheses of the groups around the
current one, and that of the current token. -/
structure Marked (text : String) (reader : Reader) : Prop where
  outer : ∀ o ∈ reader.outer, StandsAt text o.1 (some '(')
  pending : reader.pending.Marked text

variable {reader : Reader}

theorem marked_start (text : String) : start.Marked text :=
  ⟨fun _ ho => absurd ho List.not_mem_nil, trivial⟩

namespace Marked

variable {f : Regex → Regex}

theorem repeatLast (hr : reader.Marked text) (h : StandsAt text pos (some c))
    (hc : isBlank c = false) (hsign : c ∈ Descent.repetitionSigns) :
    Located text (Marked text) (reader.repeatLast pos c f) := by
  rw [Reader.repeatLast]
  split
  · exact .at_character h hc (.nothingToRepeat hsign)
  · exact ⟨hr.outer, hr.pending⟩

theorem startToken (hr : reader.Marked text) (h : StandsAt text pos (some c))
    (hc : isBlank c = false) : Located text (Marked text) (reader.startToken pos c) := by
  rw [Reader.startToken]
  -- each test in turn, so that no test on letters is evaluated at a character
  by_cases hquote : c = '\x22'
  · rw [if_pos hquote]
    subst hquote
    exact ⟨hr.outer, h⟩
  rw [if_neg hquote]
  by_cases hepsilon : c = '$'
  · rw [if_pos hepsilon]
    exact ⟨hr.outer, trivial⟩
  rw [if_neg hepsilon]
  by_cases hopening : c = '('
  · rw [if_pos hopening]
    exact ⟨List.forall_mem_cons.mpr ⟨hopening ▸ h, hr.outer⟩, trivial⟩
  rw [if_neg hopening]
  split
  · exact ⟨hr.outer, trivial⟩
  split
  · next hdot =>
    subst hdot
    split
    · exact .at_character h hc .loneDot
    · exact ⟨hr.outer, h⟩
  split
  · next hstar => exact hr.repeatLast h hc (by simp [Descent.repetitionSigns, hstar])
  split
  · next hplus => exact hr.repeatLast h hc (by simp [Descent.repetitionSigns, hplus])
  split
  · next hoptional => exact hr.repeatLast h hc (by simp [Descent.repetitionSigns, hoptional])
  split
  · next hcaret =>
    have hrepeat := hr.repeatLast (f := id) h hc (by simp [Descent.repetitionSigns, hcaret])
    exact hrepeat.bind fun r hr' => ⟨hr'.outer, trivial⟩
  split
  · exact ⟨hr.outer, hr.pending⟩
  split
  · exact .at_character h hc .unexpected
  · next opening level outer houter =>
    have hmem := hr.outer
    rw [houter] at hmem
    obtain ⟨hmem, houter⟩ := List.forall_mem_cons.mp hmem
    split
    · exact ⟨houter, trivial⟩
    · exact .at_character hmem rfl .unclosedGroup

/-- **Each character** keeps the offsets as they are, or is refused with one of them or its own. -/
theorem step (hr : reader.Marked text) (h : StandsAt text pos (some c)) :
    Located text (Marked text) (reader.step pos c) := by
  have hpending := hr.pending
  rw [Reader.step]
  split
  · split
    · exact hr
    · next hblank => exact hr.startToken h (Bool.eq_false_iff.mpr hblank)
  · next start heq =>
    rw [heq] at hpending
    split
    · exact hr
    · next hblank =>
      split
      · have hnothing : Reader.Marked text { reader with pending := .nothing } :=
          ⟨hr.outer, trivial⟩
        exact hnothing.startToken h (Bool.eq_false_iff.mpr hblank)
      · exact .at_character hpending rfl .loneDot
  · next start name heq =>
    rw [heq] at hpending
    split
    · split
      · exact .at_character hpending rfl .emptyQuote
      · exact ⟨hr.outer, trivial⟩
    · exact ⟨hr.outer, hpending⟩
  · next bound heq =>
    rw [heq] at hpending
    refine (Bound.Marked.step hpending h).bind fun outcome houtcome => ?_
    cases outcome with
    | inl bound => exact ⟨hr.outer, houtcome⟩
    | inr counts => exact ⟨hr.outer, trivial⟩

/-- The end of the pattern. -/
theorem ending (hr : reader.Marked text) (h : StandsAt text pos none) :
    Located text (fun _ => True) (reader.run pos []) := by
  have hpending := hr.pending
  rw [Reader.run]
  split
  · split
    · trivial
    · next opening level outer houter =>
      have hopening := hr.outer (opening, level) (houter ▸ List.mem_cons_self ..)
      exact .at_character hopening rfl .unclosedGroup
  · next start heq =>
    rw [heq] at hpending
    exact .at_character hpending rfl .loneDot
  · next start name heq =>
    rw [heq] at hpending
    exact .at_character hpending rfl .unterminatedQuote
  · next bound heq =>
    rw [heq] at hpending
    exact Bound.Marked.refusal_endError hpending h

/-- **The rest of a pattern**, behind what is read. -/
theorem run {read : String} {rest : List Char} (hr : reader.Marked text)
    (htext : text = read ++ String.ofList rest) :
    Located text (fun _ => True) (reader.run read.utf8ByteSize rest) := by
  induction rest generalizing reader read with
  | nil =>
    have hread : text = read := by rw [htext, String.ofList_nil, String.append_empty]
    exact hr.ending (hread ▸ .ending)
  | cons c rest ih =>
    have hread : text = read ++ String.singleton c ++ String.ofList rest := by
      rw [htext, String.ofList_cons, String.append_assoc]
    have hpos : read.utf8ByteSize + c.utf8Size = (read ++ String.singleton c).utf8ByteSize := by
      rw [String.utf8ByteSize_append, String.utf8ByteSize_singleton]
    rw [Reader.run]
    refine (hr.step (.character hread)).bind fun r hr' => ?_
    rw [hpos]
    exact ih hr' hread

end Marked

end Reader

/-- **Where a pattern is refused**: recursive descent ends on every pattern, within a depth, with
what the reader makes of it and never with anything else.  This is an expression, or a refusal at
the end of the pattern or at a character that is no white space, and either of them shows the
problem. -/
theorem parse?_located (pattern : String) :
    descend? (4 * pattern.length + 2) pattern = some (parse? pattern) ∧
      (∀ result, (∃ depth, descend? depth pattern = some result) ↔ result = parse? pattern) ∧
      ((∃ e, parse? pattern = .ok e) ∨
        ∃ pos problem next, parse? pattern = .error (.regexSyntax pos problem) ∧
          StandsAt pattern pos next ∧ next.any isBlank = false ∧ problem.ShownBy next) := by
  refine ⟨descend?_eq (Nat.le_refl _), fun _ => exists_descend?_iff, ?_⟩
  have hpattern : pattern = "" ++ String.ofList pattern.toList := by
    rw [String.ofList_toList, String.empty_append]
  have hlocated : Located pattern (fun _ => True) (parse? pattern) :=
    (Reader.marked_start pattern).run hpattern
  cases hparse : parse? pattern with
  | ok e => exact .inl ⟨e, rfl⟩
  | error e =>
    rw [hparse] at hlocated
    obtain ⟨hstands, hblank, hshown⟩ := hlocated
    exact .inr ⟨_, _, _, rfl, hstands, hblank, hshown⟩

/-- White space of three bytes stands before a quote that nothing closes. -/
example : parse? "\u3000\x22日" = .error (.regexSyntax 3 .unterminatedQuote) := rfl

end PathQuery.Regex
