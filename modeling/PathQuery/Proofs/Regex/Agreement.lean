import PathQuery.Proofs.Regex.Complete
import PathQuery.Proofs.Regex.Descent

/-!
# Proofs/Regex/Agreement — recursive descent ends, as the reader does

* `descend?_eq` — recursive descent ends on every pattern, with the result or the refusal of the
  reader that takes one character at a time: its calls nest at most four times for each character,
  and twice more.
* `exists_descend?_iff` — it comes to nothing else within any depth.

`Descent.Agrees` compares a computation with a reader from an input on: both refuse what is left
with one error, or the computation takes some of it and leads to where the reader goes on as another
one does.  `Descent.Calls.Agree` says this of the functions of the descent, where they may nest deep
enough for what is left.  Each further call keeps it (`Descent.Calls.Agree.next`): what is taken
before a call is less to read behind it, and no more than four calls stand between two characters.
-/

namespace PathQuery.Regex

open Text (isAlphanumeric isBlank)

/-! ## Counts at their ends -/

theorem digit?_eq_none_iff {c : Char} : digit? c = none ↔ c.isDigit = false := by
  rw [digit?]
  split
  · next h => simp [h]
  · next h => simp [h]

namespace Bound

variable {start value pos m n : Nat} {c : Char} {e : Error}

theorem count_of_lt (h : Word32.max < value) :
    count start value = .error (.regexSyntax start .expectedCount) := if_neg (Nat.not_le.mpr h)

theorem upperCount_of_lt (h : Word32.max < value) :
    upperCount m start value = .error (.regexSyntax start .expectedCount) := by
  rw [upperCount, count_of_lt h]
  rfl

theorem upperCount_of_lt_min (h : value ≤ Word32.max) (hlt : value < m) :
    upperCount m start value = .error (.regexSyntax start (.invalidRange m value)) := by
  rw [upperCount, count_eq_ok_iff.mpr ⟨h, rfl⟩]
  exact if_pos hlt

/-- Behind the last digit of a count, a bound refuses everything with an error. -/
structure Refuses (bound : Bound) (e : Error) : Prop where
  step : ∀ pos c, digit? c = none → bound.step pos c = .error e
  ending : ∀ pos, bound.endError pos = e

/-- Behind the last digit of a count, two bounds go on alike. -/
structure Alike (bound bound' : Bound) : Prop where
  step : ∀ pos c, digit? c = none → bound.step pos c = bound'.step pos c
  ending : ∀ pos, bound.endError pos = bound'.endError pos

theorem refuses_minDigits (h : count start value = .error e) :
    (minDigits start value).Refuses e where
  step pos c hc := by
    rw [Bound.step, hc]
    simp only [h]
    rfl
  ending pos := by rw [endError, h]

theorem refuses_maxDigits (h : upperCount m start value = .error e) :
    (maxDigits m start value).Refuses e where
  step pos c hc := by
    rw [Bound.step, hc]
    simp only [h]
    rfl
  ending pos := by rw [endError, h]

theorem alike_minDigits (h : count start value = .ok m) :
    (minDigits start value).Alike (min m) where
  step pos c hc := step_minDigits_of_count h hc
  ending pos := by
    rw [endError, h]
    rfl

theorem alike_maxDigits (h : upperCount m start value = .ok n) :
    (maxDigits m start value).Alike (max m n) where
  step pos c hc := step_maxDigits_of_upperCount h hc
  ending pos := by
    rw [endError, h]
    rfl

end Bound

namespace Reader

variable {r : Reader} {i : Input} {outer : List (Nat × Level)} {level : Level}
  {bound bound' : Bound} {pos : Nat} {c : Char} {cs : List Char} {e : Error}

theorem run_cons_of_error (h : r.step pos c = .error e) : r.run pos (c :: cs) = .error e := by
  rw [run, h]
  rfl

theorem step_atBound_error (h : bound.step pos c = .error e) :
    (atBound outer level bound).step pos c = .error e := by
  simp only [step, h]
  rfl

theorem SkipsBlanks.run_skip (h : r.SkipsBlanks) :
    r.run i.pos i.rest = r.run i.skip.pos i.skip.rest := by
  have hblanks : ∀ c ∈ i.rest.takeWhile isBlank, isBlank c = true :=
    List.all_eq_true.mp List.all_takeWhile
  have hrun := run_append (fun _ => r) (fun _ => h) hblanks [] i.pos (i.rest.dropWhile isBlank)
  rwa [List.takeWhile_append_dropWhile] at hrun

end Reader

/-- The digits of a count end here. -/
def Input.AfterDigits (i : Input) : Prop := ∀ c cs, i.rest = c :: cs → digit? c = none

namespace Input.AfterDigits

variable {i : Input} {outer : List (Nat × Level)} {level : Level} {bound bound' : Bound} {e : Error}

theorem run_congr (hi : i.AfterDigits) (h : bound.Alike bound') :
    (Reader.atBound outer level bound).run i.pos i.rest =
      (Reader.atBound outer level bound').run i.pos i.rest := by
  match i, hi with
  | ⟨pos, []⟩, _ => exact congrArg Except.error (h.ending pos)
  | ⟨pos, c :: cs⟩, hi =>
    rw [Reader.run, Reader.run, Reader.step_atBound_congr (h.step pos c (hi c cs rfl))]

theorem run_error (hi : i.AfterDigits) (h : bound.Refuses e) :
    (Reader.atBound outer level bound).run i.pos i.rest = .error e := by
  match i, hi with
  | ⟨pos, []⟩, _ => exact congrArg Except.error (h.ending pos)
  | ⟨pos, c :: cs⟩, hi =>
    exact Reader.run_cons_of_error (Reader.step_atBound_error (h.step pos c (hi c cs rfl)))

end Input.AfterDigits

namespace Descent

open Reader

variable {α β : Type} {f : Descent α} {g : α → Descent β} {i i' : Input} {r r' : Reader} {a : α}
  {Q : α → Input → Reader → Prop} {Q' : β → Input → Reader → Prop} {pos m n start : Nat}
  {c : Char} {cs : List Char} {outer : List (Nat × Level)} {level : Level} {problem : Problem}
  {bound : Bound} {digits : Nat → Nat → Bound} {e : Regex} {branches parts : List Regex}

/-- **Agreement**: from an input on, a computation refuses what is left as a reader does, or it
takes some of it and leads to where the reader goes on as another one does. -/
inductive Agrees (f : Descent α) (i : Input) (r : Reader) (Q : α → Input → Reader → Prop) :
    Prop where
  | fails {e : Error} : f.outcome i = some (.error e) → r.run i.pos i.rest = .error e →
      Agrees f i r Q
  | ends {a : α} {i' : Input} {r' : Reader} : f.outcome i = some (.ok (a, i')) →
      r.run i.pos i.rest = r'.run i'.pos i'.rest → i'.rest.length ≤ i.rest.length → Q a i' r' →
        Agrees f i r Q

namespace Agrees

theorem pure (h : Q a i r) : Agrees (pure a) i r Q := .ends outcome_pure rfl (Nat.le_refl _) h

theorem fail (h : r.run i.pos i.rest = .error (.regexSyntax pos problem)) :
    Agrees (fail pos problem) i r Q := .fails outcome_fail h

/-- Readers that go on alike are as good as each other. -/
theorem of_run_eq (h : Agrees f i r' Q) (hr : r.run i.pos i.rest = r'.run i.pos i.rest) :
    Agrees f i r Q := by
  cases h with
  | fails hf hr' => exact .fails hf (hr.trans hr')
  | ends hf hr' hle hQ => exact .ends hf (hr.trans hr') hle hQ

theorem mono {Q' : α → Input → Reader → Prop} (h : Agrees f i r Q)
    (hQ : ∀ a i' r', i'.rest.length ≤ i.rest.length → Q a i' r' → Q' a i' r') :
    Agrees f i r Q' := by
  cases h with
  | fails hf hr => exact .fails hf hr
  | ends hf hr hle h => exact .ends hf hr hle (hQ _ _ _ hle h)

/-- **One computation behind another.** -/
theorem bind (h : Agrees f i r Q)
    (h' : ∀ a i' r', i'.rest.length ≤ i.rest.length → Q a i' r' → Agrees (g a) i' r' Q') :
    Agrees (f >>= g) i r Q' := by
  cases h with
  | fails hf hr => exact .fails (outcome_bind_of_error hf) hr
  | ends hf hr hle hQ =>
    cases h' _ _ _ hle hQ with
    | fails hg hr' => exact .fails ((outcome_bind_of_ok hf).trans hg) (hr.trans hr')
    | ends hg hr' hle' hQ' =>
      exact .ends ((outcome_bind_of_ok hf).trans hg) (hr.trans hr') (Nat.le_trans hle' hle) hQ'

/-- A computation behind one whose result is known. -/
theorem bind_of_ok (hf : f.outcome i = some (.ok (a, i')))
    (hr : r.run i.pos i.rest = r'.run i'.pos i'.rest) (hle : i'.rest.length ≤ i.rest.length)
    (h : Agrees (g a) i' r' Q') : Agrees (f >>= g) i r Q' := by
  have hf : Agrees f i r fun a' i'' r'' => a' = a ∧ i'' = i' ∧ r'' = r' :=
    .ends hf hr hle ⟨rfl, rfl, rfl⟩
  refine hf.bind ?_
  rintro _ _ _ - ⟨rfl, rfl, rfl⟩
  exact h

theorem offset {g : Nat → Descent β} (hr : r.SkipsBlanks) (h : Agrees (g i.skip.pos) i.skip r Q') :
    Agrees (offset >>= g) i r Q' :=
  bind_of_ok outcome_offset hr.run_skip Input.length_dropWhile_le h

theorem offset_cons {g : Nat → Descent β} (hc : isBlank c = false)
    (h : Agrees (g pos) ⟨pos, c :: cs⟩ r Q') :
    Agrees (Descent.offset >>= g) ⟨pos, c :: cs⟩ r Q' := by
  refine bind_of_ok (outcome_offset.trans ?_) rfl (Nat.le_refl _) h
  rw [Input.skip_cons hc]

/-- The next character that is no white space is looked at. -/
theorem peek {g : Option Char → Descent β} (hr : r.SkipsBlanks)
    (hend : ∀ pos, i.skip = ⟨pos, []⟩ → Agrees (g none) ⟨pos, []⟩ r Q')
    (hnext : ∀ pos c cs, i.skip = ⟨pos, c :: cs⟩ → isBlank c = false →
      Agrees (g (some c)) ⟨pos, c :: cs⟩ r Q') : Agrees (peek >>= g) i r Q' := by
  refine bind_of_ok outcome_peek hr.run_skip Input.length_dropWhile_le ?_
  obtain ⟨pos, hi⟩ | ⟨pos, c, cs, hi, hc⟩ := i.skip_cases
  · exact hi ▸ hend pos hi
  · exact hi ▸ hnext pos c cs hi hc

theorem advance (hstep : r.step pos c = .ok r') : Agrees advance ⟨pos, c :: cs⟩ r
    fun _ _ r'' => r'' = r' :=
  .ends outcome_advance (run_cons_of_step hstep) (Nat.le_succ _) rfl

theorem advance_bind {g : Unit → Descent β} (r' : Reader) (hstep : r.step pos c = .ok r')
    (h : Agrees (g ()) ⟨pos + c.utf8Size, cs⟩ r' Q') :
    Agrees (Descent.advance >>= g) ⟨pos, c :: cs⟩ r Q' :=
  bind_of_ok outcome_advance (run_cons_of_step hstep) (Nat.le_succ _) h

end Agrees

/-- A sign is expected where the reader refuses all other characters. -/
theorem agrees_expect {want : Char} (hr : r.SkipsBlanks)
    (hend : ∀ pos, i.skip = ⟨pos, []⟩ →
      r.run pos [] = .error (.regexSyntax pos (.expected want none)))
    (hother : ∀ pos c cs, i.skip = ⟨pos, c :: cs⟩ → isBlank c = false → c ≠ want →
      r.step pos c = .error (.regexSyntax pos (.expected want (some c))))
    (hwant : ∀ pos, r.step pos want = .ok r') :
    Agrees (expect want) i r fun _ _ r'' => r'' = r' := by
  refine .offset hr (.peek hr (fun pos hi => ?_) fun pos c cs hi hc => ?_)
  · rw [Input.skip_skip] at hi
    rw [hi]
    exact .fail (hend pos hi)
  · rw [Input.skip_skip] at hi
    rw [hi]
    by_cases h : c = want
    · subst h
      rw [if_pos rfl]
      exact .advance (hwant pos)
    · rw [if_neg fun heq => h (Option.some.inj heq)]
      exact .fail (run_cons_of_error (hother pos c cs hi hc h))

/-! ## Bounds -/

/-- The digits of a count, from the first one on. -/
theorem agrees_digits (hcount : bound.Counting digits) (hc : c.isDigit = true) :
    Agrees (takeWhile Char.isDigit) ⟨pos, c :: cs⟩ (atBound outer level bound) fun ds i' r' =>
      ds ≠ [] ∧ r' = atBound outer level (digits pos (valueFrom 0 ds)) ∧ i'.AfterDigits := by
  have hne : (c :: cs).takeWhile Char.isDigit ≠ [] := by
    rw [List.takeWhile_cons_of_pos hc]
    exact List.cons_ne_nil _ _
  have hrun := run_count outer level hcount hne (List.all_eq_true.mp List.all_takeWhile) pos
    ((c :: cs).dropWhile Char.isDigit)
  rw [List.takeWhile_append_dropWhile] at hrun
  refine .ends outcome_takeWhile hrun Input.length_dropWhile_le ⟨hne, rfl, fun c' cs' h => ?_⟩
  exact digit?_eq_none_iff.mpr (Input.head_dropWhile h)

/-- A count is expected where the reader refuses all that is no digit, and counts beyond the 32-bit
range. -/
theorem agrees_number (hr : (atBound outer level bound).SkipsBlanks)
    (hcount : bound.Counting digits)
    (hend : ∀ pos, bound.endError pos = .regexSyntax pos .expectedCount)
    (hother : ∀ pos c cs, i.skip = ⟨pos, c :: cs⟩ → isBlank c = false → digit? c = none →
      bound.step pos c = .error (.regexSyntax pos .expectedCount))
    (hexcess : ∀ start value, Word32.max < value →
      (digits start value).Refuses (.regexSyntax start .expectedCount)) :
    Agrees number i (atBound outer level bound) fun n i' r' =>
      r' = atBound outer level (digits i.skip.pos n) ∧ n ≤ Word32.max ∧ i'.AfterDigits := by
  refine .offset hr ?_
  obtain ⟨pos, hi⟩ | ⟨pos, c, cs, hi, hc⟩ := i.skip_cases
  · rw [hi]
    refine .bind_of_ok outcome_takeWhile rfl (Nat.le_refl _) (.fail ?_)
    exact congrArg Except.error (hend pos)
  rw [hi]
  cases hd : c.isDigit with
  | false =>
    have hdrop : Input.dropWhile Char.isDigit ⟨pos, c :: cs⟩ = ⟨pos, c :: cs⟩ :=
      Input.dropWhile_cons_of_neg hd
    have htake : (c :: cs).takeWhile Char.isDigit = [] :=
      List.takeWhile_cons_of_neg (by simp [hd])
    refine .bind_of_ok (outcome_takeWhile.trans (by rw [hdrop, htake])) rfl (Nat.le_refl _) ?_
    refine .fail (run_cons_of_error (step_atBound_error ?_))
    exact hother pos c cs hi hc (digit?_eq_none_iff.mpr hd)
  | true =>
    refine (agrees_digits hcount hd).bind ?_
    rintro ds i' _ - ⟨hne, rfl, hi'⟩
    rw [if_neg (by simpa using hne)]
    split
    · next hlt => exact .fail (hi'.run_error (hexcess _ _ hlt))
    · next hle => exact .pure ⟨rfl, Nat.le_of_not_lt hle, hi'⟩

/-- The least count. -/
theorem agrees_least : Agrees number i (atBound outer level .brace) fun m i' r' =>
    r' = atBound outer level (.minDigits i.skip.pos m) ∧ m ≤ Word32.max ∧ i'.AfterDigits := by
  refine agrees_number skipsBlanks_brace Bound.counting_brace (fun _ => rfl)
    (fun pos c cs _ hc hd => ?_) fun start value hlt =>
      Bound.refuses_minDigits (Bound.count_of_lt hlt)
  rw [Bound.step, hc, hd]
  rfl

/-- The greatest count. -/
theorem agrees_upper (hi : i.Ahead (· ≠ '\x7d')) :
    Agrees (upper m) i (atBound outer level (.comma m)) fun n _ r' =>
      r' = atBound outer level (.max m n) := by
  have hnumber : Agrees number i.skip (atBound outer level (.comma m)) fun n i' r' =>
      r' = atBound outer level (.maxDigits m i.skip.skip.pos n) ∧ n ≤ Word32.max ∧
        i'.AfterDigits := by
    refine agrees_number skipsBlanks_comma Bound.counting_comma (fun _ => rfl)
      (fun pos c cs hskip hc hd => ?_) fun start value hlt =>
        Bound.refuses_maxDigits (Bound.upperCount_of_lt hlt)
    rw [Bound.step, hc, hd, if_neg (by decide), if_neg (hi.skip pos c cs hskip)]
  rw [Input.skip_skip] at hnumber
  refine .offset skipsBlanks_comma (hnumber.bind ?_)
  rintro n i' _ - ⟨rfl, hn, hi'⟩
  split
  · next hlt =>
    exact .fail (hi'.run_error (Bound.refuses_maxDigits (Bound.upperCount_of_lt_min hn hlt)))
  · next hle =>
    have hupper : Bound.upperCount m i.skip.pos n = .ok n :=
      Bound.upperCount_eq_ok_iff.mpr ⟨⟨hn, rfl⟩, Nat.le_of_not_lt hle⟩
    exact .of_run_eq (.pure rfl) (hi'.run_congr (Bound.alike_maxDigits hupper))

/-- What the reader holds of a bound whose counts are read, by what follows the least one. -/
inductive Counted (m : Nat) (i : Input) : Option Nat → Bound → Prop where
  | exactly : i.Ahead (· ≠ ',') → Counted m i (some m) (.min m)
  | atLeast {pos : Nat} {cs : List Char} : i.skip = ⟨pos, '\x7d' :: cs⟩ →
      Counted m i none (.comma m)
  | between {n : Nat} : Counted m i (some n) (.max m n)

theorem agrees_greatest : Agrees (greatest m) i (atBound outer level (.min m)) fun most i' r' =>
    ∃ bound, r' = atBound outer level bound ∧ Counted m i' most bound := by
  have hupper {i : Input} (hi : i.Ahead (· ≠ '\x7d')) : Agrees (return some (← upper m)) i
      (atBound outer level (.comma m)) fun most i' r' =>
        ∃ bound, r' = atBound outer level bound ∧ Counted m i' most bound :=
    (agrees_upper hi).bind fun n i' r' _ hr' => .pure ⟨_, hr', .between⟩
  refine .peek skipsBlanks_min (fun pos _ => ?_) fun pos c cs _ hc => ?_
  · exact .pure ⟨_, rfl, .exactly Input.ahead_nil⟩
  by_cases hcomma : c = ','
  · subst hcomma
    refine .advance_bind (atBound outer level (.comma m)) (step_atBound_inl rfl) ?_
    refine .peek skipsBlanks_comma (fun pos _ => hupper Input.ahead_nil) fun pos c cs _ hc => ?_
    by_cases hclosing : c = '\x7d'
    · subst hclosing
      exact .pure ⟨_, rfl, .atLeast (Input.skip_cons hc)⟩
    · rw [if_neg fun heq => hclosing (Option.some.inj heq)]
      exact hupper (Input.ahead_cons hc hclosing)
  · rw [if_neg fun heq => hcomma (Option.some.inj heq)]
    exact .pure ⟨_, rfl, .exactly (Input.ahead_cons hc hcomma)⟩

theorem agrees_closing {most : Option Nat} (h : Counted m i most bound) :
    Agrees (expect '\x7d') i (atBound outer level bound) fun _ _ r' =>
      r' = ⟨outer, level.modifyLast (.repetition · m most), .nothing⟩ := by
  cases h with
  | exactly hi =>
    refine agrees_expect skipsBlanks_min (fun _ _ => rfl) (fun pos c cs hskip hc hne => ?_)
      fun _ => step_atBound_inr rfl
    refine step_atBound_error ?_
    have hcomma := hi pos c cs hskip
    simp only [Bound.step, Bound.afterCount, hc, Bool.false_eq_true, if_false, if_neg hcomma,
      if_neg hne]
  | atLeast hi =>
    refine agrees_expect skipsBlanks_comma (fun pos h => ?_) (fun pos c cs h _ hne => ?_)
      fun _ => step_atBound_inr rfl
    · cases hi.symm.trans h
    · cases hi.symm.trans h
      exact absurd rfl hne
  | between =>
    refine agrees_expect skipsBlanks_max (fun _ _ => rfl) (fun pos c cs _ hc hne => ?_)
      fun _ => step_atBound_inr rfl
    refine step_atBound_error ?_
    simp only [Bound.step, Bound.afterCount, hc, Bool.false_eq_true, if_false, if_neg hne]

/-- **Bounds** of repetitions. -/
theorem agrees_bounds : Agrees bounds i (atBound outer level .caret) fun counts _ r' =>
    r' = ⟨outer, level.modifyLast (.repetition · counts.1 counts.2), .nothing⟩ := by
  have hopening : Agrees (expect '\x7b') i (atBound outer level .caret) fun _ _ r' =>
      r' = atBound outer level .brace := by
    refine agrees_expect skipsBlanks_caret (fun _ _ => rfl) (fun pos c cs _ hc hne => ?_)
      fun _ => step_atBound_inl rfl
    refine step_atBound_error ?_
    simp only [Bound.step, hc, Bool.false_eq_true, if_false, if_neg hne]
  refine hopening.bind ?_
  rintro _ i' _ - rfl
  refine agrees_least.bind ?_
  rintro m i'' _ - ⟨rfl, hm, hi''⟩
  have hcount : Bound.count i'.skip.pos m = .ok m := Bound.count_eq_ok_iff.mpr ⟨hm, rfl⟩
  refine .of_run_eq (agrees_greatest.bind ?_) (hi''.run_congr (Bound.alike_minDigits hcount))
  rintro most i' _ - ⟨bound, rfl, hcounted⟩
  exact (agrees_closing hcounted).bind fun _ _ _ _ hr' => .pure hr'

/-! ## Symbols -/

/-- **Quoted symbols**, behind the first quote. -/
theorem agrees_quoted : Agrees (quoted start) i ⟨outer, level, .quote start []⟩ fun e _ r' =>
    r' = ⟨outer, level.push e, .nothing⟩ := by
  have hname : Agrees (takeWhile (· != '\x22')) i ⟨outer, level, .quote start []⟩ fun name i' r' =>
      r' = ⟨outer, level, .quote start name.reverse⟩ ∧ ∀ c cs, i'.rest = c :: cs → c = '\x22' := by
    have hne : ∀ c ∈ i.rest.takeWhile (· != '\x22'), c ≠ '\x22' := by
      intro c hc
      simpa using List.all_eq_true.mp List.all_takeWhile c hc
    have hrun := run_quote outer level start hne i.pos (i.rest.dropWhile (· != '\x22'))
    rw [List.takeWhile_append_dropWhile] at hrun
    refine .ends outcome_takeWhile hrun Input.length_dropWhile_le ⟨rfl, fun c cs h => ?_⟩
    simpa using Input.head_dropWhile h
  refine hname.bind ?_
  rintro name ⟨pos, rest⟩ _ - ⟨rfl, hend⟩
  refine .bind_of_ok outcome_get rfl (Nat.le_refl _) ?_
  cases rest with
  | nil => exact .fail rfl
  | cons c rest =>
    obtain rfl := hend c rest rfl
    cases name with
    | nil => exact .fails rfl rfl
    | cons c name => exact .advance_bind _ (step_quote (List.cons_ne_nil c name)) (.pure rfl)

/-- A character that no branch goes on with. -/
structure EndsBranch (c : Char) : Prop where
  atom : startsAtom c = false
  dot : c ≠ '.'
  sign : c ∉ repetitionSigns

theorem EndsBranch.ne (h : EndsBranch c) :
    c ≠ '\x22' ∧ c ≠ '$' ∧ c ≠ '(' ∧ (isAlphanumeric c || c == '_') = false ∧ c ≠ '*' ∧ c ≠ '+' ∧
      c ≠ '?' ∧ c ≠ '^' := by
  obtain ⟨hatom, -, hsign⟩ := h
  simp only [startsAtom, Bool.or_eq_false_iff, beq_eq_false_iff_ne] at hatom
  obtain ⟨⟨⟨⟨halphanumeric, hline⟩, hquote⟩, hepsilon⟩, hopening⟩ := hatom
  simp only [repetitionSigns, List.mem_cons, List.not_mem_nil, or_false, not_or] at hsign
  refine ⟨hquote, hepsilon, hopening, ?_, hsign⟩
  rw [halphanumeric, Bool.false_or, beq_eq_false_iff_ne]
  exact hline

/-- What no union goes on with is unexpected outside all groups. -/
theorem EndsBranch.startToken_nil (h : EndsBranch c) (hbar : c ≠ '|') :
    startToken ⟨[], level, .nothing⟩ pos c = .error (.regexSyntax pos (.unexpected c)) := by
  obtain ⟨hquote, hepsilon, hopening, hsymbol, hstar, hplus, hoptional, hcaret⟩ := h.ne
  simp only [Reader.startToken, hquote, hepsilon, hopening, hsymbol, h.dot, hstar, hplus,
    hoptional, hcaret, hbar, Bool.false_eq_true, if_false]

/-- What no union goes on with leaves a group open that it does not close. -/
theorem EndsBranch.startToken_cons (h : EndsBranch c) (hbar : c ≠ '|') (hclosing : c ≠ ')')
    {level' : Level} :
    startToken ⟨(start, level') :: outer, level, .nothing⟩ pos c =
      .error (.regexSyntax start .unclosedGroup) := by
  obtain ⟨hquote, hepsilon, hopening, hsymbol, hstar, hplus, hoptional, hcaret⟩ := h.ne
  simp only [Reader.startToken, hquote, hepsilon, hopening, hsymbol, h.dot, hstar, hplus,
    hoptional, hcaret, hbar, hclosing, Bool.false_eq_true, if_false]

theorem startToken_of_sign (h : c ∈ repetitionSigns) :
    startToken ⟨outer, ⟨branches, []⟩, .nothing⟩ pos c =
      .error (.regexSyntax pos (.nothingToRepeat c)) := by
  simp only [repetitionSigns, List.mem_cons, List.not_mem_nil, or_false] at h
  obtain rfl | rfl | rfl | rfl := h <;> rfl

theorem not_mem_repetitionSigns (h : startsAtom c = true) : c ∉ repetitionSigns := by
  intro hsign
  simp only [repetitionSigns, List.mem_cons, List.not_mem_nil, or_false] at hsign
  obtain rfl | rfl | rfl | rfl := hsign <;> cases h

/-! ## Calls -/

/-- A union is taken, up to what no union goes on with. -/
abbrev UnionTaken (outer : List (Nat × Level)) (e : Regex) (i : Input) (r : Reader) : Prop :=
  ∃ level : Level, r = ⟨outer, level, .nothing⟩ ∧ level.close = e ∧
    i.Ahead fun c => EndsBranch c ∧ c ≠ '|'

/-- A branch is taken, up to what no branch goes on with. -/
abbrev BranchTaken (outer : List (Nat × Level)) (branches : List Regex) (e : Regex) (i : Input)
    (r : Reader) : Prop :=
  ∃ parts, r = ⟨outer, ⟨branches, parts⟩, .nothing⟩ ∧ ofParts parts.reverse = e ∧
    i.Ahead EndsBranch

/-- **The functions of the descent agree with the reader**, where they may nest deep enough for what
is left.  No sign of repetition stands behind the parts of a branch: it is taken with them. -/
structure Calls.Agree (calls : Calls) (depth : Nat) : Prop where
  union {i : Input} (hdepth : 4 * i.rest.length + 2 ≤ depth) (outer : List (Nat × Level))
    (branches : List Regex) :
    Agrees (calls.union branches) i ⟨outer, ⟨branches, []⟩, .nothing⟩ (UnionTaken outer)
  branch {i : Input} (hdepth : 4 * i.rest.length + 1 ≤ depth) (outer : List (Nat × Level))
    (branches : List Regex) {parts : List Regex}
    (hparts : parts ≠ [] → i.Ahead (· ∉ repetitionSigns)) :
    Agrees (calls.branch parts) i ⟨outer, ⟨branches, parts⟩, .nothing⟩ (BranchTaken outer branches)
  repeated {i : Input} (hdepth : i.rest.length + 1 ≤ depth) (outer : List (Nat × Level))
    (level : Level) (e : Regex) :
    Agrees (calls.repeated e) i ⟨outer, level.push e, .nothing⟩ fun e' i' r' =>
      r' = ⟨outer, level.push e', .nothing⟩ ∧ i'.Ahead (· ∉ repetitionSigns)
  atom {pos : Nat} {c : Char} {cs : List Char} (hdepth : 4 * cs.length + 4 ≤ depth)
    (outer : List (Nat × Level)) (level : Level) (hatom : startsAtom c = true)
    (hc : isBlank c = false) :
    Agrees (calls.atom c) ⟨pos, c :: cs⟩ ⟨outer, level, .nothing⟩ fun e i' r' =>
      r' = ⟨outer, level.push e, .nothing⟩ ∧ i'.rest.length ≤ cs.length
  group {i : Input} (hdepth : 4 * i.rest.length + 3 ≤ depth) (outer : List (Nat × Level))
    (level : Level) (start : Nat) :
    Agrees (calls.group start) i ⟨(start, level) :: outer, .empty, .nothing⟩ fun e _ r' =>
      r' = ⟨outer, level.push e, .nothing⟩

namespace Calls.Agree

variable {calls : Calls} {depth : Nat}

theorem nextUnion (h : calls.Agree depth) (hdepth : 4 * i.rest.length + 1 ≤ depth) :
    Agrees (calls.nextUnion branches) i ⟨outer, ⟨branches, []⟩, .nothing⟩ (UnionTaken outer) := by
  rw [Calls.nextUnion]
  refine (h.branch hdepth outer branches fun hne => absurd rfl hne).bind ?_
  rintro _ i' _ hle ⟨parts, rfl, rfl, hahead⟩
  refine .peek skipsBlanks_nothing
    (fun pos _ => .pure ⟨⟨branches, parts⟩, rfl, rfl, Input.ahead_nil⟩) fun pos c cs hi hc => ?_
  by_cases hbar : c = '|'
  · subst hbar
    have hlt := Input.length_lt_of_skip hi
    refine .advance_bind ⟨outer, Level.branch ⟨branches, parts⟩, .nothing⟩ rfl ?_
    exact h.union (show 4 * cs.length + 2 ≤ depth by omega) outer _
  · rw [if_neg fun heq => hbar (Option.some.inj heq)]
    have hends : Input.Ahead ⟨pos, c :: cs⟩ fun c => EndsBranch c ∧ c ≠ '|' :=
      Input.ahead_cons hc ⟨hahead pos c cs hi, hbar⟩
    exact .pure ⟨⟨branches, parts⟩, rfl, rfl, hends⟩

/-- Behind a dot an atom is expected. -/
theorem nextDot (h : calls.Agree depth) (hdepth : 4 * i.rest.length + 1 ≤ depth) {part : Regex} :
    Agrees (calls.nextDot start (part :: parts)) i ⟨outer, ⟨branches, part :: parts⟩, .dot start⟩
      (BranchTaken outer branches) := by
  rw [Calls.nextDot]
  refine .peek skipsBlanks_dot (fun pos _ => .fail rfl) fun pos c cs hi hc => ?_
  have hlt := Input.length_lt_of_skip hi
  rw [List.isEmpty_cons, Bool.false_or, Option.any_some]
  cases hatom : startsAtom c with
  | false =>
    refine .fail (run_cons_of_error ?_)
    simp only [Reader.step, hc, hatom, Bool.false_eq_true, if_false]
  | true =>
    -- the atom is read as one without a dot before it
    have hahead : Input.Ahead ⟨pos, c :: cs⟩ (· ∉ repetitionSigns) :=
      Input.ahead_cons hc (not_mem_repetitionSigns hatom)
    refine .of_run_eq (h.branch ?_ outer branches fun _ => hahead) ?_
    · show 4 * (cs.length + 1) + 1 ≤ depth
      omega
    · rw [run, run, step_nothing hc, Idle.dot.step hatom hc]

theorem nextBranch (h : calls.Agree depth) (hdepth : 4 * i.rest.length ≤ depth)
    (hparts : parts ≠ [] → i.Ahead (· ∉ repetitionSigns)) :
    Agrees (calls.nextBranch parts) i ⟨outer, ⟨branches, parts⟩, .nothing⟩
      (BranchTaken outer branches) := by
  rw [Calls.nextBranch]
  refine .peek skipsBlanks_nothing (fun pos _ => .pure ⟨parts, rfl, rfl, Input.ahead_nil⟩)
    fun pos c cs hi hc => ?_
  have hlt := Input.length_lt_of_skip hi
  refine .offset_cons hc ?_
  by_cases hdot : c = '.'
  · subst hdot
    cases parts with
    | nil => exact .fails rfl rfl
    | cons part parts =>
      refine .advance_bind ⟨outer, ⟨branches, part :: parts⟩, .dot pos⟩ rfl ?_
      exact h.nextDot (show 4 * cs.length + 1 ≤ depth by omega)
  rw [if_neg hdot]
  by_cases hatom : startsAtom c = true
  · rw [if_pos hatom]
    refine (h.atom (by omega) outer _ hatom hc).bind ?_
    rintro e i' _ - ⟨rfl, hle⟩
    refine (h.repeated (by omega) outer _ e).bind ?_
    rintro e' i'' _ hle' ⟨rfl, hahead⟩
    exact h.branch (by omega) outer branches fun _ => hahead
  rw [if_neg hatom]
  by_cases hsign : c ∈ repetitionSigns
  · rw [if_pos hsign]
    have hnil : parts = [] := Classical.byContradiction fun hne => hparts hne pos c cs hi hsign
    subst hnil
    refine .fail (run_cons_of_error ?_)
    rw [step_nothing hc]
    exact startToken_of_sign hsign
  · rw [if_neg hsign]
    have hends : EndsBranch c := ⟨Bool.eq_false_iff.mpr hatom, hdot, hsign⟩
    exact .pure ⟨parts, rfl, rfl, Input.ahead_cons hc hends⟩

theorem nextRepeated (h : calls.Agree depth) (hdepth : i.rest.length ≤ depth) :
    Agrees (calls.nextRepeated e) i ⟨outer, level.push e, .nothing⟩ fun e' i' r' =>
      r' = ⟨outer, level.push e', .nothing⟩ ∧ i'.Ahead (· ∉ repetitionSigns) := by
  rw [Calls.nextRepeated]
  refine .peek skipsBlanks_nothing (fun pos _ => .pure ⟨rfl, Input.ahead_nil⟩)
    fun pos c cs hi hc => ?_
  have hlt := Input.length_lt_of_skip hi
  have hrepeated (pos : Nat) (e : Regex) := h.repeated
    (show (Input.mk pos cs).rest.length + 1 ≤ depth from Nat.le_trans hlt hdepth) outer level e
  split
  · next heq =>
    obtain rfl := Option.some.inj heq
    exact .advance_bind _ (step_repeat hc fun _ _ => rfl) (hrepeated _ _)
  · next heq =>
    obtain rfl := Option.some.inj heq
    exact .advance_bind ⟨outer, level.push (.repetition e 1 none), .nothing⟩
      (step_repeat (f := (.repetition · 1 none)) hc fun _ _ => rfl) (hrepeated _ _)
  · next heq =>
    obtain rfl := Option.some.inj heq
    exact .advance_bind ⟨outer, level.push (.repetition e 0 (some 1)), .nothing⟩
      (step_repeat (f := (.repetition · 0 (some 1))) hc fun _ _ => rfl) (hrepeated _ _)
  · next heq =>
    obtain rfl := Option.some.inj heq
    refine .advance_bind (atBound outer (level.push e) .caret) rfl (agrees_bounds.bind ?_)
    rintro ⟨m, most⟩ i' _ hle rfl
    have hle : i'.rest.length ≤ cs.length := hle
    exact h.repeated (by omega) outer level _
  · next hstar hplus hoptional hcaret =>
    refine .pure ⟨rfl, Input.ahead_cons hc ?_⟩
    simp only [repetitionSigns, List.mem_cons, List.not_mem_nil, or_false, not_or]
    exact ⟨fun h => hstar (congrArg some h), fun h => hplus (congrArg some h),
      fun h => hoptional (congrArg some h), fun h => hcaret (congrArg some h)⟩

theorem nextAtom (h : calls.Agree depth) (hdepth : 4 * cs.length + 3 ≤ depth)
    (hatom : startsAtom c = true) (hc : isBlank c = false) :
    Agrees (calls.nextAtom c) ⟨pos, c :: cs⟩ ⟨outer, level, .nothing⟩ fun e i' r' =>
      r' = ⟨outer, level.push e, .nothing⟩ ∧ i'.rest.length ≤ cs.length := by
  rw [Calls.nextAtom]
  refine .offset_cons hc ?_
  by_cases hopening : c = '('
  · subst hopening
    refine .advance_bind ⟨(pos, level) :: outer, .empty, .nothing⟩ rfl ?_
    exact (h.group hdepth outer level pos).mono fun _ _ _ hle hr' => ⟨hr', hle⟩
  by_cases hepsilon : c = '$'
  · subst hepsilon
    refine .advance_bind ⟨outer, level.push .epsilon, .nothing⟩ rfl ?_
    exact .pure ⟨rfl, Nat.le_refl _⟩
  by_cases hquote : c = '\x22'
  · subst hquote
    refine .advance_bind ⟨outer, level, .quote pos []⟩ rfl ?_
    exact agrees_quoted.mono fun _ _ _ hle hr' => ⟨hr', hle⟩
  have hsymbol : (isAlphanumeric c || c == '_') = true := by
    simpa [startsAtom, hopening, hepsilon, hquote] using hatom
  refine .advance_bind _ ((step_nothing hc).trans (startToken_of_symbol hsymbol)) ?_
  rw [if_neg hopening, if_neg hepsilon, if_neg hquote, if_pos hsymbol]
  exact .pure ⟨rfl, Nat.le_refl _⟩

theorem nextGroup (h : calls.Agree depth) (hdepth : 4 * i.rest.length + 2 ≤ depth) :
    Agrees (calls.nextGroup start) i ⟨(start, level) :: outer, .empty, .nothing⟩ fun e _ r' =>
      r' = ⟨outer, level.push e, .nothing⟩ := by
  rw [Calls.nextGroup]
  refine (h.union hdepth _ []).bind ?_
  rintro _ i' _ - ⟨level', rfl, rfl, hahead⟩
  refine .peek skipsBlanks_nothing (fun pos _ => .fail rfl) fun pos c cs hi hc => ?_
  by_cases hclosing : c = ')'
  · subst hclosing
    exact .advance_bind ⟨outer, level.push level'.close, .nothing⟩ rfl (.pure rfl)
  · rw [if_neg fun heq => hclosing (Option.some.inj heq)]
    obtain ⟨hends, hbar⟩ := hahead pos c cs hi
    refine .fail (run_cons_of_error ?_)
    rw [step_nothing hc, hends.startToken_cons hbar hclosing]

/-- **Each further call** keeps the agreement. -/
theorem next (h : calls.Agree depth) : calls.next.Agree (depth + 1) where
  union hdepth _ _ := h.nextUnion (by omega)
  branch hdepth _ _ := h.nextBranch (by omega)
  repeated hdepth _ _ _ := h.nextRepeated (by omega)
  atom hdepth _ _ := h.nextAtom (by omega)
  group hdepth _ _ _ := h.nextGroup (by omega)

/-- **Calls within a depth** agree with the reader. -/
theorem within (depth : Nat) : (Calls.within depth).Agree depth := by
  induction depth with
  | zero => exact ⟨by omega, by omega, by omega, by omega, by omega⟩
  | succ depth ih => exact ih.next

end Calls.Agree

theorem agrees_whole {depth : Nat} (hdepth : 4 * i.rest.length + 2 ≤ depth) :
    Agrees (whole depth) i Reader.start fun e i' r' => r'.run i'.pos i'.rest = .ok e := by
  refine ((Calls.Agree.within depth).union hdepth [] []).bind ?_
  rintro _ i' _ - ⟨level, rfl, rfl, hahead⟩
  refine .peek skipsBlanks_nothing (fun pos _ => .pure rfl) fun pos c cs hi hc => ?_
  obtain ⟨hends, hbar⟩ := hahead pos c cs hi
  refine .offset_cons hc (.fail (run_cons_of_error ?_))
  rw [step_nothing hc, hends.startToken_nil hbar]

end Descent

/-- **Recursive descent ends**, with what the reader makes of the pattern. -/
theorem descend?_eq {depth : Nat} {pattern : String}
    (hdepth : 4 * pattern.length + 2 ≤ depth) :
    descend? depth pattern = some (parse? pattern) := by
  rw [← String.length_toList] at hdepth
  have hwhole : (Descent.whole depth).Agrees ⟨0, pattern.toList⟩ Reader.start fun e i' r' =>
    r'.run i'.pos i'.rest = .ok e := Descent.agrees_whole hdepth
  rw [descend?, parse?]
  cases hwhole with
  | fails hf hr =>
    rw [hf, hr]
    rfl
  | ends hf hr _ h =>
    rw [hf, hr, h]
    rfl

/-- Recursive descent comes to what the reader makes of the pattern, and to nothing else. -/
theorem exists_descend?_iff {pattern : String} {result : Except Error Regex} :
    (∃ depth, descend? depth pattern = some result) ↔ result = parse? pattern := by
  constructor
  · rintro ⟨depth, h⟩
    have hdeep := descend?_eq (Nat.le_add_left (4 * pattern.length + 2) depth)
    exact Option.some.inj ((descend?_add h _).symm.trans hdeep)
  · rintro rfl
    exact ⟨_, descend?_eq (Nat.le_refl _)⟩

end PathQuery.Regex
