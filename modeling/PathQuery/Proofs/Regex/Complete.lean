import PathQuery.Proofs.Regex.Sound

/-!
# Proofs/Regex/Complete — every pattern is read

* `parse?_eq_ok_iff` — a text is read where the grammar makes it a pattern, and as an expression of
  that pattern.

`Reader.Takes` follows the reader along the spelling of some tokens, wherever they stand in a text.
Its last argument says which readers this leads to: offsets are of no account for that, so that a
reader is known but for the offset of the dot or the parentheses that it holds.  The tokens of a
phrase lead on by induction on the phrase (`Phrase.takes`); a count is left to the sign behind it,
which ends it.
-/

namespace PathQuery.Text

variable {ranges : List (Nat × Nat)} {n : Nat} {c : Char}

theorem exists_range_of_inRanges (h : inRanges ranges n = true) :
    ∃ r ∈ ranges, r.1 ≤ n ∧ n ≤ r.2 := by
  induction ranges with
  | nil => cases h
  | cons r ranges ih =>
    rw [inRanges, Bool.and_eq_true, Bool.or_eq_true, Nat.ble_eq, Nat.ble_eq] at h
    rcases h with ⟨hfirst, hlast | h⟩
    · exact ⟨r, List.mem_cons_self .., hfirst, hlast⟩
    · obtain ⟨r', hr', hn⟩ := ih h
      exact ⟨r', List.mem_cons_of_mem _ hr', hn⟩

/-- White space is no letter and no number. -/
theorem isAlphanumeric_eq_false_of_isBlank (h : isBlank c = true) : isAlphanumeric c = false := by
  have hranges : ∀ r ∈ blankRanges, ∀ i < r.2 + 1 - r.1,
      inRanges alphanumericRanges (r.1 + i) = false := by decide +kernel
  obtain ⟨r, hr, hfirst, hlast⟩ := exists_range_of_inRanges h
  have := hranges r hr (c.toNat - r.1) (by omega)
  rwa [Nat.add_sub_cancel' hfirst] at this

theorem isBlank_eq_false_of_isDigit (h : c.isDigit = true) : isBlank c = false := by
  have hdigits : ∀ i < 10, inRanges blankRanges (48 + i) = false := by decide
  simp only [Char.isDigit, ge_iff_le, Bool.and_eq_true, decide_eq_true_eq,
    UInt32.le_iff_toNat_le] at h
  obtain ⟨hfirst, hlast⟩ : 48 ≤ c.toNat ∧ c.toNat ≤ 57 := h
  have := hdigits (c.toNat - 48) (by omega)
  rwa [Nat.add_sub_cancel' hfirst] at this

end PathQuery.Text

namespace PathQuery.Regex

open Text (isAlphanumeric isBlank)

variable {ts us : List (List Char)} {cs bs ds t : List Char} {c : Char} {e : Regex}
  {es : List Regex} {m : Nat} {n : Option Nat} {level : Level} {outer : List (Nat × Level)}

/-! ## Counts -/

namespace Bound

/-- A bound that goes on with a count, the digits of which it reads in the form `digits`. -/
structure Counting (bound : Bound) (digits : Nat → Nat → Bound) : Prop where
  first : ∀ pos c d, digit? c = some d → bound.step pos c = .ok (.inl (digits pos d))
  next : ∀ start value pos c d, digit? c = some d →
    (digits start value).step pos c = .ok (.inl (digits start (10 * value + d)))

theorem counting_brace : Counting .brace .minDigits where
  first pos c d hd := by
    have hblank := Text.isBlank_eq_false_of_isDigit (digit?_eq_some_iff.mp hd).1
    rw [Bound.step, if_neg (by simp [hblank]), hd]
  next start value pos c d hd := by rw [Bound.step, hd]

theorem counting_comma : Counting (.comma m) (.maxDigits m) where
  first pos c d hd := by
    have hblank := Text.isBlank_eq_false_of_isDigit (digit?_eq_some_iff.mp hd).1
    have hclosing : c ≠ '\x7d' := by
      rintro rfl
      cases hd
    rw [Bound.step, if_neg (by simp [hblank]), if_neg hclosing, hd]
  next start value pos c d hd := by rw [Bound.step, hd]

variable {start value pos n : Nat}

/-- Behind the last digit of a count, the digits are as good as the count. -/
theorem step_minDigits_of_count (h : count start value = .ok m) (hc : digit? c = none) :
    (minDigits start value).step pos c = (min m).step pos c := by
  rw [Bound.step, hc]
  simp only [h]
  rfl

theorem step_maxDigits_of_upperCount (h : upperCount m start value = .ok n)
    (hc : digit? c = none) : (maxDigits m start value).step pos c = (max m n).step pos c := by
  rw [Bound.step, hc]
  simp only [h]
  rfl

end Bound

namespace Reader

/-! ## Following the reader -/

/-- Characters lead from a reader to one of some readers. -/
def Reaches (r : Reader) (cs : List Char) (Q : Reader → Prop) : Prop :=
  ∀ pos rest, ∃ pos' r', Q r' ∧ r.run pos (cs ++ rest) = r'.run pos' rest

/-- **Taking tokens**: each spelling of the tokens leads from a reader to one of some readers. -/
def Takes (r : Reader) (ts : List (List Char)) (Q : Reader → Prop) : Prop :=
  ∀ cs, Spells ts cs → r.Reaches cs Q

/-- White space leaves a reader as it is. -/
def SkipsBlanks (r : Reader) : Prop := ∀ pos c, isBlank c = true → r.step pos c = .ok r

variable {r r' : Reader} {Q Q' : Reader → Prop} {pending : Pending}

theorem run_cons_of_step {pos : Nat} {rest : List Char} (h : r.step pos c = .ok r') :
    r.run pos (c :: rest) = r'.run (pos + c.utf8Size) rest := by
  rw [run, h]
  rfl

/-- Characters that keep a reader in one form are read one after another. -/
theorem run_append {p : Char → Prop} (form : List Char → Reader)
    (h : ∀ read pos c, p c → (form read).step pos c = .ok (form (read ++ [c])))
    (hcs : ∀ c ∈ cs, p c) (read : List Char) (pos : Nat) (rest : List Char) :
    (form read).run pos (cs ++ rest) =
      (form (read ++ cs)).run (pos + (String.ofList cs).utf8ByteSize) rest := by
  induction cs generalizing read pos with
  | nil => rw [List.nil_append, List.append_nil, String.ofList_nil, String.utf8ByteSize_empty,
      Nat.add_zero]
  | cons c cs ih =>
    obtain ⟨hc, hcs⟩ := List.forall_mem_cons.mp hcs
    rw [List.cons_append, run_cons_of_step (h read pos c hc), ih hcs, List.append_assoc,
      String.ofList_cons, String.utf8ByteSize_append, String.utf8ByteSize_singleton,
      Nat.add_assoc, List.singleton_append]

theorem Reaches.append (h : r.Reaches cs Q) (h' : ∀ r', Q r' → r'.Reaches ds Q') :
    r.Reaches (cs ++ ds) Q' := by
  intro pos rest
  obtain ⟨pos', r', hQ, heq⟩ := h pos (ds ++ rest)
  obtain ⟨pos'', r'', hQ', heq'⟩ := h' r' hQ pos' rest
  exact ⟨pos'', r'', hQ', by rw [List.append_assoc, heq, heq']⟩

theorem reaches_char (h : ∀ pos, ∃ r', Q r' ∧ r.step pos c = .ok r') : r.Reaches [c] Q := by
  intro pos rest
  obtain ⟨r', hQ, hstep⟩ := h pos
  exact ⟨_, r', hQ, run_cons_of_step hstep⟩

theorem SkipsBlanks.reaches (h : r.SkipsBlanks) (hb : Blanks bs) : r.Reaches bs (· = r) :=
  fun pos rest => ⟨_, r, rfl, run_append (fun _ => r) (fun _ => h) hb [] pos rest⟩

theorem Takes.append (h : r.Takes ts Q) (h' : ∀ r', Q r' → r'.Takes us Q') :
    r.Takes (ts ++ us) Q' := by
  intro cs hcs
  obtain ⟨cs₁, cs₂, rfl, h₁, h₂⟩ := exists_of_spells_append hcs
  exact (h cs₁ h₁).append fun r' hr => h' r' hr cs₂ h₂

theorem Takes.cons (h : r.Takes [t] Q) (h' : ∀ r', Q r' → r'.Takes us Q') :
    r.Takes (t :: us) Q' := Takes.append h h'

theorem Takes.mono (h : r.Takes ts Q) (hQ : ∀ r', Q r' → Q' r') : r.Takes ts Q' := by
  intro cs hcs pos rest
  obtain ⟨pos', r', hr, heq⟩ := h cs hcs pos rest
  exact ⟨pos', r', hQ r' hr, heq⟩

theorem SkipsBlanks.takes_nil (h : r.SkipsBlanks) : r.Takes [] (· = r) := by
  intro cs hcs
  cases hcs with
  | nil hb => exact h.reaches hb

/-- A token is taken where its text leads from one reader that skips white space to another. -/
theorem SkipsBlanks.takes (h : r.SkipsBlanks) (ht : r.Reaches t Q)
    (hQ : ∀ r', Q r' → r'.SkipsBlanks) : r.Takes [t] Q := by
  intro cs hcs
  obtain ⟨bs, cs', rfl, hb, hcs⟩ := spells_cons_iff.mp hcs
  refine (h.reaches hb).append fun r' hr => hr ▸ ht.append fun r'' hr' => ?_
  intro pos rest
  obtain ⟨pos', r', rfl, heq⟩ := (hQ r'' hr').takes_nil cs' hcs pos rest
  exact ⟨pos', r', hr', heq⟩

/-- A sign is taken in one step. -/
theorem SkipsBlanks.takes_sign (h : r.SkipsBlanks)
    (hstep : ∀ pos, ∃ r', (Q r' ∧ r'.SkipsBlanks) ∧ r.step pos c = .ok r') : r.Takes [[c]] Q := by
  have htakes := h.takes (reaches_char hstep) fun r' hr => hr.2
  exact htakes.mono fun r' hr => hr.1

/-! ## Bounds -/

theorem digit?_eq_none_of_isBlank (h : isBlank c = true) : digit? c = none := by
  rw [digit?, if_neg]
  intro hd
  rw [Text.isBlank_eq_false_of_isDigit hd] at h
  cases h

/-- A text that begins with a sign or with white space begins with no digit. -/
theorem exists_cons_of_spells_sign (h : Spells ([c] :: ts) cs) (hc : digit? c = none) :
    ∃ c' cs', cs = c' :: cs' ∧ digit? c' = none := by
  obtain ⟨bs, cs', rfl, hb, -⟩ := spells_cons_iff.mp h
  cases bs with
  | nil => exact ⟨c, cs', rfl, hc⟩
  | cons b bs =>
    exact ⟨b, bs ++ ([c] ++ cs'), rfl, digit?_eq_none_of_isBlank (hb b (List.mem_cons_self ..))⟩

/-- A reader in the midst of a bound. -/
abbrev atBound (outer : List (Nat × Level)) (level : Level) (bound : Bound) : Reader :=
  ⟨outer, level, .bound bound⟩

variable {bound bound' : Bound} {digits : Nat → Nat → Bound}

theorem step_atBound_inl {pos : Nat} (h : bound.step pos c = .ok (.inl bound')) :
    (atBound outer level bound).step pos c = .ok (atBound outer level bound') := by
  simp only [step, h]
  rfl

theorem step_atBound_inr {pos : Nat} (h : bound.step pos c = .ok (.inr (m, n))) :
    (atBound outer level bound).step pos c =
      .ok ⟨outer, level.modifyLast (.repetition · m n), .nothing⟩ := by
  simp only [step, h]
  rfl

theorem step_atBound_congr {pos : Nat} (h : bound.step pos c = bound'.step pos c) :
    (atBound outer level bound).step pos c = (atBound outer level bound').step pos c := by
  simp only [step, h]

/-- Between the tokens of a bound white space is skipped. -/
theorem skipsBlanks_atBound
    (h : ∀ pos c, isBlank c = true → bound.step pos c = .ok (.inl bound)) :
    (atBound outer level bound).SkipsBlanks := fun pos c hc => step_atBound_inl (h pos c hc)

theorem skipsBlanks_caret : (atBound outer level .caret).SkipsBlanks :=
  skipsBlanks_atBound fun _ _ hc => if_pos hc

theorem skipsBlanks_brace : (atBound outer level .brace).SkipsBlanks :=
  skipsBlanks_atBound fun _ _ hc => if_pos hc

theorem skipsBlanks_min : (atBound outer level (.min m)).SkipsBlanks :=
  skipsBlanks_atBound fun _ _ hc => if_pos hc

theorem skipsBlanks_comma : (atBound outer level (.comma m)).SkipsBlanks :=
  skipsBlanks_atBound fun _ _ hc => if_pos hc

theorem skipsBlanks_max {n : Nat} : (atBound outer level (.max m n)).SkipsBlanks :=
  skipsBlanks_atBound fun _ _ hc => if_pos hc

theorem skipsBlanks_nothing : SkipsBlanks ⟨outer, level, .nothing⟩ := fun _ _ hc => if_pos hc

theorem skipsBlanks_dot {pos : Nat} : SkipsBlanks ⟨outer, level, .dot pos⟩ :=
  fun _ _ hc => if_pos hc

/-- The digits of a count are read one after another. -/
theorem run_count (outer : List (Nat × Level)) (level : Level) (hcount : bound.Counting digits)
    (hne : ds ≠ []) (hds : ∀ c ∈ ds, c.isDigit = true) (pos : Nat) (rest : List Char) :
    (atBound outer level bound).run pos (ds ++ rest) =
      (atBound outer level (digits pos (valueFrom 0 ds))).run
        (pos + (String.ofList ds).utf8ByteSize) rest := by
  cases ds with
  | nil => exact absurd rfl hne
  | cons d ds =>
    obtain ⟨hd, hds⟩ := List.forall_mem_cons.mp hds
    have hd := Bound.digit?_eq_some_iff.mpr ⟨hd, rfl⟩
    have hdigits := run_append (fun ds => atBound outer level (digits pos (valueFrom 0 (d :: ds))))
      (fun ds pos' c hc => step_atBound_inl ?_) hds [] (pos + d.utf8Size) rest
    · rw [List.cons_append, run_cons_of_step (step_atBound_inl (hcount.first pos d _ hd)),
        ← Bound.valueFrom_singleton hd, hdigits, String.ofList_cons, String.utf8ByteSize_append,
        String.utf8ByteSize_singleton, Nat.add_assoc, List.nil_append]
    · have hc := Bound.digit?_eq_some_iff.mpr ⟨hc, rfl⟩
      rw [hcount.next _ _ _ _ _ hc, ← List.cons_append, Bound.valueFrom_append hc]

/-- **Counts** are taken together with the sign behind them. -/
theorem SkipsBlanks.takes_count (h : (atBound outer level bound).SkipsBlanks)
    (hcount : bound.Counting digits)
    (hlast : ∀ start pos c, digit? c = none → (digits start m).step pos c = bound'.step pos c)
    (hm : Count ds m) (hc : digit? c = none)
    (htakes : (atBound outer level bound').Takes [[c]] Q) :
    (atBound outer level bound).Takes [ds, [c]] Q := by
  intro cs hcs
  obtain ⟨bs, cs', rfl, hb, hsign⟩ := spells_cons_iff.mp hcs
  obtain ⟨c', cs', rfl, hc'⟩ := exists_cons_of_spells_sign hsign hc
  refine (h.reaches hb).append fun r'' hr pos rest => hr ▸ ?_
  rw [List.append_assoc, run_count outer level hcount hm.ne_nil hm.isDigit, hm.value,
    List.cons_append, run, step_atBound_congr (hlast pos _ c' hc')]
  exact htakes _ hsign _ rest

theorem digit?_comma : digit? ',' = none := rfl

theorem digit?_closing : digit? '\x7d' = none := rfl

theorem takes_opening :
    (atBound outer level .caret).Takes [['\x7b']] (· = atBound outer level .brace) :=
  skipsBlanks_caret.takes_sign fun _ => ⟨_, ⟨rfl, skipsBlanks_brace⟩, step_atBound_inl rfl⟩

theorem takes_comma : (atBound outer level (.min m)).Takes [[',']]
    (· = atBound outer level (.comma m)) :=
  skipsBlanks_min.takes_sign fun _ => ⟨_, ⟨rfl, skipsBlanks_comma⟩, step_atBound_inl rfl⟩

/-- The closing brace of a bound. -/
theorem SkipsBlanks.takes_closing (h : (atBound outer level bound).SkipsBlanks)
    (hstep : ∀ pos, bound.step pos '\x7d' = .ok (.inr (m, n))) :
    (atBound outer level bound).Takes [['\x7d']]
      (· = ⟨outer, level.modifyLast (.repetition · m n), .nothing⟩) :=
  h.takes_sign fun pos => ⟨_, ⟨rfl, skipsBlanks_nothing⟩, step_atBound_inr (hstep pos)⟩

theorem takes_min (hm : Count ds m) (hc : digit? c = none)
    (h : (atBound outer level (.min m)).Takes [[c]] Q) :
    (atBound outer level .brace).Takes [ds, [c]] Q := by
  refine skipsBlanks_brace.takes_count Bound.counting_brace (fun start pos c hc => ?_) hm hc h
  exact Bound.step_minDigits_of_count (Bound.count_eq_ok_iff.mpr ⟨hm.le_max, rfl⟩) hc

theorem takes_max {n : Nat} (hn : Count ds n) (hle : m ≤ n) (hc : digit? c = none)
    (h : (atBound outer level (.max m n)).Takes [[c]] Q) :
    (atBound outer level (.comma m)).Takes [ds, [c]] Q := by
  refine skipsBlanks_comma.takes_count Bound.counting_comma (fun start pos c hc => ?_) hn hc h
  exact Bound.step_maxDigits_of_upperCount
    (Bound.upperCount_eq_ok_iff.mpr ⟨⟨hn.le_max, rfl⟩, hle⟩) hc

/-- **Bounds** are taken as a repetition of the last part. -/
theorem takes_bounds (h : Bounds ts m n) : (atBound outer level .caret).Takes ts
    (· = ⟨outer, level.modifyLast (.repetition · m n), .nothing⟩) := by
  cases h with
  | exactly hm =>
    refine takes_opening.cons fun r hr => hr ▸ ?_
    exact takes_min hm digit?_closing (skipsBlanks_min.takes_closing fun _ => rfl)
  | @atLeast ds m hm =>
    refine takes_opening.cons fun r hr => hr ▸ ?_
    refine Takes.append (takes_min hm digit?_comma takes_comma) fun r hr => ?_
    exact hr ▸ skipsBlanks_comma.takes_closing fun _ => rfl
  | @between ds ds' m n hm hn hle =>
    refine takes_opening.cons fun r hr => hr ▸ ?_
    refine Takes.append (takes_min hm digit?_comma takes_comma) fun r hr => ?_
    exact hr ▸ takes_max hn hle digit?_closing (skipsBlanks_max.takes_closing fun _ => rfl)

/-! ## Atoms and repetitions -/

/-- No token is incomplete but perhaps a dot, so that an atom may follow. -/
inductive Idle : Pending → Prop where
  | nothing : Idle .nothing
  | dot {pos : Nat} : Idle (.dot pos)

theorem Idle.skipsBlanks (h : Idle pending) : SkipsBlanks ⟨outer, level, pending⟩ := by
  cases h with
  | nothing => exact skipsBlanks_nothing
  | dot => exact skipsBlanks_dot

theorem step_nothing {pos : Nat} (hb : isBlank c = false) :
    step ⟨outer, level, .nothing⟩ pos c = startToken ⟨outer, level, .nothing⟩ pos c := by
  simp only [step, hb, Bool.false_eq_true, if_false]

theorem Idle.step (h : Idle pending) {pos : Nat} (hc : startsAtom c = true)
    (hb : isBlank c = false) :
    Reader.step ⟨outer, level, pending⟩ pos c = startToken ⟨outer, level, .nothing⟩ pos c := by
  cases h with
  | nothing => exact step_nothing hb
  | dot => simp only [Reader.step, hb, hc, Bool.false_eq_true, if_false, if_true]

theorem startToken_of_symbol {pos : Nat} (h : (isAlphanumeric c || c == '_') = true) :
    r.startToken pos c = .ok (r.push (.symbol (String.singleton c))) := by
  have hquote : c ≠ '\x22' := by
    rintro rfl
    revert h
    decide
  have hepsilon : c ≠ '$' := by
    rintro rfl
    revert h
    decide
  have hopening : c ≠ '(' := by
    rintro rfl
    revert h
    decide
  rw [startToken, if_neg hquote, if_neg hepsilon, if_neg hopening, if_pos h]

theorem isBlank_eq_false_of_symbol (h : (isAlphanumeric c || c == '_') = true) :
    isBlank c = false := by
  cases hb : isBlank c with
  | false => rfl
  | true =>
    rw [Text.isAlphanumeric_eq_false_of_isBlank hb, Bool.false_or, beq_iff_eq] at h
    subst h
    cases hb

theorem Idle.takes_symbol (h : Idle pending) (hc : (isAlphanumeric c || c == '_') = true) :
    Takes ⟨outer, level, pending⟩ [[c]]
      (· = ⟨outer, level.push (.symbol (String.singleton c)), .nothing⟩) := by
  refine h.skipsBlanks.takes_sign fun pos => ⟨_, ⟨rfl, skipsBlanks_nothing⟩, ?_⟩
  rw [h.step (by simp only [startsAtom, hc, Bool.true_or]) (isBlank_eq_false_of_symbol hc)]
  exact startToken_of_symbol hc

theorem Idle.takes_epsilon (h : Idle pending) : Takes ⟨outer, level, pending⟩ [['$']]
    (· = ⟨outer, level.push .epsilon, .nothing⟩) :=
  h.skipsBlanks.takes_sign fun _ => ⟨_, ⟨rfl, skipsBlanks_nothing⟩, h.step rfl rfl⟩

theorem Idle.takes_opening (h : Idle pending) : Takes ⟨outer, level, pending⟩ [['(']]
    fun r => ∃ pos, r = ⟨(pos, level) :: outer, .empty, .nothing⟩ :=
  h.skipsBlanks.takes_sign fun pos => ⟨_, ⟨⟨pos, rfl⟩, skipsBlanks_nothing⟩, h.step rfl rfl⟩

theorem takes_closing {pos : Nat} {level' : Level} :
    Takes ⟨(pos, level) :: outer, level', .nothing⟩ [[')']]
      (· = ⟨outer, level.push level'.close, .nothing⟩) :=
  skipsBlanks_nothing.takes_sign fun _ => ⟨_, ⟨rfl, skipsBlanks_nothing⟩, rfl⟩

/-- The characters of a quoted symbol are read one after another. -/
theorem run_quote (outer : List (Nat × Level)) (level : Level) (start : Nat) {name : List Char}
    (hname : ∀ c ∈ name, c ≠ '\x22') (pos : Nat) (rest : List Char) :
    Reader.run ⟨outer, level, .quote start []⟩ pos (name ++ rest) =
      Reader.run ⟨outer, level, .quote start name.reverse⟩
        (pos + (String.ofList name).utf8ByteSize) rest := by
  refine run_append (fun name => ⟨outer, level, .quote start name.reverse⟩)
    (fun name pos c hc => ?_) hname [] pos rest
  rw [List.reverse_concat]
  exact if_neg hc

/-- The closing quote of a symbol. -/
theorem step_quote {start pos : Nat} {name : List Char} (hne : name ≠ []) :
    step ⟨outer, level, .quote start name.reverse⟩ pos '\x22' =
      .ok ⟨outer, level.push (.symbol (String.ofList name)), .nothing⟩ := by
  have hempty : ¬name.reverse.isEmpty = true := by simpa using hne
  simp only [step, if_true, if_neg hempty, List.reverse_reverse]
  rfl

theorem Idle.takes_quoted (h : Idle pending) {name : List Char} (hne : name ≠ [])
    (hname : '\x22' ∉ name) : Takes ⟨outer, level, pending⟩ ['\x22' :: (name ++ ['\x22'])]
      (· = ⟨outer, level.push (.symbol (String.ofList name)), .nothing⟩) := by
  refine h.skipsBlanks.takes (fun pos rest => ?_) fun r hr => hr ▸ skipsBlanks_nothing
  have hopening : Reader.step ⟨outer, level, pending⟩ pos '\x22' =
    .ok ⟨outer, level, .quote pos []⟩ := h.step rfl rfl
  rw [List.cons_append, List.append_assoc, run_cons_of_step hopening,
    run_quote outer level pos fun c hc => ne_of_mem_of_not_mem hc hname, List.singleton_append,
    run_cons_of_step (step_quote hne)]
  exact ⟨_, _, rfl, rfl⟩

/-- A sign of repetition behind a part. -/
theorem step_repeat {f : Regex → Regex} {pos : Nat} (hb : isBlank c = false)
    (hstep : ∀ r pos, startToken r pos c = repeatLast r pos c f) :
    step ⟨outer, level.push e, .nothing⟩ pos c = .ok ⟨outer, level.push (f e), .nothing⟩ := by
  rw [step_nothing hb, hstep]
  rfl

theorem takes_repeat {f : Regex → Regex} (hb : isBlank c = false)
    (hstep : ∀ r pos, startToken r pos c = repeatLast r pos c f) :
    Takes ⟨outer, level.push e, .nothing⟩ [[c]] (· = ⟨outer, level.push (f e), .nothing⟩) :=
  skipsBlanks_nothing.takes_sign fun _ => ⟨_, ⟨rfl, skipsBlanks_nothing⟩, step_repeat hb hstep⟩

theorem takes_caret : Takes ⟨outer, level.push e, .nothing⟩ [['^']]
    (· = atBound outer (level.push e) .caret) :=
  skipsBlanks_nothing.takes_sign fun _ => ⟨_, ⟨rfl, skipsBlanks_caret⟩, rfl⟩

theorem takes_dot {level : Level} (hne : level.parts ≠ []) : Takes ⟨outer, level, .nothing⟩ [['.']]
    fun r => ∃ pos, r = ⟨outer, level, .dot pos⟩ := by
  refine skipsBlanks_nothing.takes_sign fun pos => ⟨_, ⟨⟨pos, rfl⟩, skipsBlanks_dot⟩, ?_⟩
  exact if_neg (by simpa using hne)

theorem takes_bar : Takes ⟨outer, level, .nothing⟩ [['|']]
    (· = ⟨outer, level.branch, .nothing⟩) :=
  skipsBlanks_nothing.takes_sign fun _ => ⟨_, ⟨rfl, skipsBlanks_nothing⟩, rfl⟩

/-! ## Phrases -/

/-- What the tokens of a phrase lead to, from where such a phrase may begin. -/
def Completes : Kind → List (List Char) → List Regex → Prop
  | .union, ts, es => ∀ outer, Takes ⟨outer, .empty, .nothing⟩ ts fun r =>
      ∃ level, r = ⟨outer, level, .nothing⟩ ∧ [level.close] = es
  | .branches, ts, es => ∀ outer, Takes ⟨outer, .empty, .nothing⟩ ts fun r =>
      ∃ level, r = ⟨outer, level, .nothing⟩ ∧
        (ofParts level.parts.reverse :: level.branches).reverse = es
  | .branch, ts, es => ∀ outer branches, Takes ⟨outer, ⟨branches, []⟩, .nothing⟩ ts fun r =>
      ∃ parts, r = ⟨outer, ⟨branches, parts⟩, .nothing⟩ ∧ [ofParts parts.reverse] = es
  | .parts, ts, es => ∀ outer branches, Takes ⟨outer, ⟨branches, []⟩, .nothing⟩ ts
      (· = ⟨outer, ⟨branches, es.reverse⟩, .nothing⟩)
  | .part, ts, es => ∀ outer level pending, Idle pending → ∀ e, es = [e] →
      Takes ⟨outer, level, pending⟩ ts (· = ⟨outer, level.push e, .nothing⟩)
  | .atom, ts, es => ∀ outer level pending, Idle pending → ∀ e, es = [e] →
      Takes ⟨outer, level, pending⟩ ts (· = ⟨outer, level.push e, .nothing⟩)

/-- **The tokens of a phrase** are taken as the expressions that it stands for. -/
theorem completes_of_phrase {kind : Kind} (h : Phrase kind ts es) : Completes kind ts es := by
  induction h with
  | oneBranch _ ih =>
    refine fun outer => (ih outer).mono ?_
    rintro _ ⟨level, rfl, heq⟩
    exact ⟨level, rfl, by rw [Level.close, heq, ofBranches]⟩
  | @manyBranches _ es _ hlt ih =>
    refine fun outer => (ih outer).mono ?_
    rintro _ ⟨level, rfl, heq⟩
    refine ⟨level, rfl, ?_⟩
    rw [Level.close, heq, ofBranches_of_lt hlt]
  | firstBranch _ ih =>
    refine fun outer => (ih outer []).mono ?_
    rintro _ ⟨parts, rfl, heq⟩
    exact ⟨_, rfl, heq⟩
  | nextBranch _ _ ih ih' =>
    refine fun outer => (ih outer).append ?_
    rintro _ ⟨level, rfl, rfl⟩
    refine takes_bar.cons fun r hr => hr ▸ (ih' outer _).mono ?_
    rintro _ ⟨parts, rfl, heq⟩
    exact ⟨_, rfl, by rw [List.reverse_cons, heq]⟩
  | noPart =>
    refine fun outer branches => skipsBlanks_nothing.takes_nil.mono ?_
    rintro _ rfl
    exact ⟨[], rfl, rfl⟩
  | onePart _ ih =>
    refine fun outer branches => (ih outer branches).mono ?_
    rintro _ rfl
    exact ⟨_, rfl, rfl⟩
  | @manyParts _ es _ hlt ih =>
    refine fun outer branches => (ih outer branches).mono ?_
    rintro _ rfl
    refine ⟨_, rfl, ?_⟩
    rw [List.reverse_reverse, ofParts_of_lt hlt]
  | firstPart _ ih => exact fun outer branches => ih outer _ _ .nothing _ rfl
  | nextPart _ _ ih ih' =>
    refine fun outer branches => (ih outer branches).append ?_
    rintro _ rfl
    rw [List.reverse_append]
    exact ih' outer _ _ .nothing _ rfl
  | dotPart h _ ih ih' =>
    refine fun outer branches => (ih outer branches).append ?_
    rintro _ rfl
    refine (takes_dot (by simpa using h.ne_nil_of_parts)).cons ?_
    rintro _ ⟨pos, rfl⟩
    rw [List.reverse_append]
    exact ih' outer _ _ .dot _ rfl
  | atom _ ih => exact ih
  | star _ ih =>
    rintro outer level pending hidle _ ⟨⟩
    refine (ih outer level pending hidle _ rfl).append fun r hr => hr ▸ ?_
    exact takes_repeat rfl fun _ _ => rfl
  | plus _ ih =>
    rintro outer level pending hidle _ ⟨⟩
    refine (ih outer level pending hidle _ rfl).append fun r hr => hr ▸ ?_
    exact takes_repeat (f := (.repetition · 1 none)) rfl fun _ _ => rfl
  | optional _ ih =>
    rintro outer level pending hidle _ ⟨⟩
    refine (ih outer level pending hidle _ rfl).append fun r hr => hr ▸ ?_
    exact takes_repeat (f := (.repetition · 0 (some 1))) rfl fun _ _ => rfl
  | bounded _ hbounds ih =>
    rintro outer level pending hidle _ ⟨⟩
    refine (ih outer level pending hidle _ rfl).append fun r hr => hr ▸ ?_
    exact takes_caret.cons fun r hr => hr ▸ takes_bounds hbounds
  | symbol hc =>
    rintro outer level pending hidle _ ⟨⟩
    exact hidle.takes_symbol hc
  | quoted hne hname =>
    rintro outer level pending hidle _ ⟨⟩
    exact hidle.takes_quoted hne hname
  | epsilon =>
    rintro outer level pending hidle _ ⟨⟩
    exact hidle.takes_epsilon
  | group _ ih =>
    rintro outer level pending hidle _ ⟨⟩
    refine hidle.takes_opening.cons ?_
    rintro _ ⟨pos, rfl⟩
    refine (ih _).append ?_
    rintro _ ⟨level', rfl, heq⟩
    rw [← List.singleton_inj.mp heq]
    exact takes_closing

end Reader

/-- **Patterns**: a text is read as an expression where it is spelled as tokens that the grammar
makes a pattern of that expression. -/
theorem parse?_eq_ok_iff {pattern : String} : parse? pattern = .ok e ↔
    ∃ ts, Spells ts pattern.toList ∧ Phrase .union ts [e] := by
  constructor
  · exact exists_phrase_of_parse?
  · rintro ⟨ts, hs, h⟩
    obtain ⟨pos, _, ⟨level, rfl, heq⟩, hrun⟩ := Reader.completes_of_phrase h [] _ hs 0 []
    rw [List.append_nil] at hrun
    rw [← List.singleton_inj.mp heq]
    exact hrun

end PathQuery.Regex
