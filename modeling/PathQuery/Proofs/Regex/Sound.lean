import Mathlib.Tactic.SplitIfs
import PathQuery.Proofs.Data
import PathQuery.Proofs.Regex.Grammar

/-!
# Proofs/Regex/Sound — what is read is a pattern

* `exists_phrase_of_parse?` — a text that the reader takes is a pattern of the grammar, of the
  expression that the reader makes.

`Reader.Read` relates the characters read so far to what the reader holds: the tokens of the groups
around the current one, those of the current group, and the token that is not complete.  Each
character keeps this (`Reader.Read.step`).
-/

namespace PathQuery.Regex

open Text (isAlphanumeric isBlank)

variable {ts us vs : List (List Char)} {cs ds : List Char} {c : Char} {e : Regex}
  {es : List Regex} {f : Regex → Regex} {level : Level} {outer : List (Nat × Level)} {pos : Nat}

/-! ## Groups -/

/-- The tokens of complete branches, the last of them with a bar behind it. -/
inductive BranchesRead : List (List Char) → List Regex → Prop where
  | nil : BranchesRead [] []
  | bar {ts : List (List Char)} {es : List Regex} :
      Phrase .branches ts es.reverse → BranchesRead (ts ++ [['|']]) es

/-- The tokens of the parts of a branch. -/
inductive PartsRead : List (List Char) → List Regex → Prop where
  | nil : PartsRead [] []
  | parts {ts : List (List Char)} {es : List Regex} :
      Phrase .parts ts es.reverse → PartsRead ts es

theorem BranchesRead.branch (h : BranchesRead ts es) (h' : Phrase .branch us [e]) :
    Phrase .branches (ts ++ us) (e :: es).reverse := by
  rw [List.reverse_cons]
  cases h with
  | nil => exact .firstBranch h'
  | bar h =>
    rw [List.append_assoc]
    exact .nextBranch h h'

theorem PartsRead.branch (h : PartsRead ts es) : Phrase .branch ts [ofParts es.reverse] := by
  cases h with
  | nil => exact .noPart
  | parts h => exact h.branch_ofParts

namespace Level

/-- The tokens of a group that is being read. -/
inductive Read : List (List Char) → Level → Prop where
  | mk {ts us : List (List Char)} {bs ps : List Regex} :
      BranchesRead ts bs → PartsRead us ps → Read (ts ++ us) ⟨bs, ps⟩

/-- The tokens of a group that is being read, perhaps with a dot behind them. -/
inductive Awaits : List (List Char) → Level → Prop where
  | plain {ts : List (List Char)} {level : Level} : level.Read ts → Awaits ts level
  | dot {ts : List (List Char)} {level : Level} :
      level.Read ts → level.parts ≠ [] → Awaits (ts ++ [['.']]) level

theorem read_empty : empty.Read [] := .mk .nil .nil

theorem Read.branches (h : level.Read ts) :
    Phrase .branches ts (ofParts level.parts.reverse :: level.branches).reverse := by
  cases h with
  | mk hb hp => exact hb.branch hp.branch

theorem Read.branch (h : level.Read ts) : level.branch.Read (ts ++ [['|']]) := by
  have h' := Read.mk (.bar h.branches) .nil
  rwa [List.append_nil] at h'

theorem Read.close (h : level.Read ts) : Phrase .union ts [level.close] :=
  h.branches.union_ofBranches

theorem Awaits.push (h : level.Awaits ts) (h' : Phrase .part us [e]) :
    (level.push e).Read (ts ++ us) := by
  rcases h with ⟨hb, hp⟩ | ⟨⟨hb, hp⟩, hne⟩
  · rw [List.append_assoc]
    refine .mk hb (.parts ?_)
    rw [List.reverse_cons]
    cases hp with
    | nil => exact .firstPart h'
    | parts hp => exact .nextPart hp h'
  · rw [List.append_assoc, List.append_assoc]
    refine .mk hb (.parts ?_)
    rw [List.reverse_cons]
    cases hp with
    | nil => exact absurd rfl hne
    | parts hp => exact .dotPart hp h'

theorem Read.modifyLast (h : level.Read ts) (hne : level.parts ≠ [])
    (hf : ∀ vs e, Phrase .part vs [e] → Phrase .part (vs ++ us) [f e]) :
    (level.modifyLast f).Read (ts ++ us) := by
  cases h with
  | @mk ts us bs ps hb hp =>
    rw [List.append_assoc]
    cases ps with
    | nil => exact absurd rfl hne
    | cons p ps =>
      cases hp with
      | parts hp =>
        refine .mk hb (.parts ?_)
        rw [List.reverse_cons] at hp ⊢
        exact hp.modifyLast hf

end Level

/-! ## Bounds -/

namespace Bound

/-- The tokens of a bound that is being read, and the digits of a count that may go on. -/
inductive Read : List (List Char) → List Char → Bound → Prop where
  | caret : Read [] [] caret
  | brace : Read [['\x7b']] [] brace
  | minDigits {ds : List Char} {pos value : Nat} : ds ≠ [] → (∀ c ∈ ds, c.isDigit = true) →
      valueFrom 0 ds = value → Read [['\x7b']] ds (minDigits pos value)
  | min {ds : List Char} {m : Nat} : Count ds m → Read [['\x7b'], ds] [] (min m)
  | comma {ds : List Char} {m : Nat} : Count ds m → Read [['\x7b'], ds, [',']] [] (comma m)
  | maxDigits {ds ds' : List Char} {m pos value : Nat} : Count ds m → ds' ≠ [] →
      (∀ c ∈ ds', c.isDigit = true) → valueFrom 0 ds' = value →
        Read [['\x7b'], ds, [',']] ds' (maxDigits m pos value)
  | max {ds ds' : List Char} {m n : Nat} : Count ds m → Count ds' n → m ≤ n →
      Read [['\x7b'], ds, [','], ds'] [] (max m n)

/-- What is read of a bound behind some tokens. -/
def Reads (ts : List (List Char)) (cs : List Char) (bound : Bound) : Prop :=
  ∃ vs ds cs', bound.Read vs ds ∧ Spells (ts ++ vs) cs' ∧ cs = cs' ++ ds

/-- What is read of a bound that goes on or is complete. -/
def OutcomeReads (ts : List (List Char)) (cs : List Char) : Bound ⊕ Nat × Option Nat → Prop
  | .inl bound => bound.Reads ts cs
  | .inr (m, n) => ∃ vs, Bounds vs m n ∧ Spells (ts ++ vs) cs

variable {bound bound' : Bound} {outcome : Bound ⊕ Nat × Option Nat} {m start value d : Nat}

theorem digit?_eq_some_iff : digit? c = some d ↔ c.isDigit = true ∧ d = c.toNat - '0'.toNat := by
  rw [digit?]
  split
  · next h => simp only [h, true_and, Option.some.injEq, eq_comm]
  · next h => simp only [h, false_and, reduceCtorEq]

theorem valueFrom_append (hd : digit? c = some d) :
    valueFrom value (ds ++ [c]) = 10 * valueFrom value ds + d := by
  rw [(digit?_eq_some_iff.mp hd).2, valueFrom, List.foldl_append]
  rfl

theorem count_eq_ok_iff : count start value = .ok m ↔ value ≤ Word32.max ∧ m = value := by
  rw [count]
  split
  · next h => simp only [h, true_and, Except.ok.injEq, eq_comm]
  · next h => simp only [h, false_and, reduceCtorEq]

theorem upperCount_eq_ok_iff {n : Nat} :
    upperCount m start value = .ok n ↔ (value ≤ Word32.max ∧ n = value) ∧ m ≤ n := by
  constructor
  · intro h
    obtain ⟨n', hn, h⟩ := exists_of_bind_eq_ok h
    split_ifs at h with hlt
    obtain rfl := Except.ok.inj h
    exact ⟨count_eq_ok_iff.mp hn, Nat.le_of_not_lt hlt⟩
  · rintro ⟨hn, hle⟩
    rw [upperCount, count_eq_ok_iff.mpr hn]
    exact if_neg (Nat.not_lt.mpr hle)

theorem reads_caret (hs : Spells ts cs) : caret.Reads ts cs :=
  ⟨[], [], cs, .caret, by rwa [List.append_nil], (List.append_nil _).symm⟩

/-- White space between two tokens of a bound is skipped. -/
theorem Read.blank (h : bound.Read vs []) (hs : Spells (ts ++ vs) cs) (hc : isBlank c = true) :
    bound.Reads ts (cs ++ [c]) :=
  ⟨vs, [], _, h, hs.blank hc, (List.append_nil _).symm⟩

/-- A token of a bound is one character. -/
theorem Read.sign (h : bound.Read (vs ++ [[c]]) []) (hs : Spells (ts ++ vs) cs) :
    bound.Reads ts (cs ++ [c]) :=
  ⟨_, [], _, h, hs.token_append [c], (List.append_nil _).symm⟩

theorem outcomeReads_of_bounds {n : Option Nat} (h : Bounds (vs ++ [[c]]) m n)
    (hs : Spells (ts ++ vs) cs) : OutcomeReads ts (cs ++ [c]) (.inr (m, n)) :=
  ⟨_, h, hs.token_append [c]⟩

/-- A count is complete behind its last digit. -/
theorem reads_min_of_count (h : (minDigits start value).Reads ts cs)
    (hm : count start value = .ok m) : (min m).Reads ts cs := by
  obtain ⟨vs, ds, cs', hread, hs, rfl⟩ := h
  obtain ⟨hle, rfl⟩ := count_eq_ok_iff.mp hm
  cases hread with
  | minDigits hne hdigit hvalue =>
    exact ⟨_, [], _, .min ⟨hne, hdigit, hvalue, hle⟩, hs.token_append ds,
      (List.append_nil _).symm⟩

theorem reads_max_of_upperCount {n : Nat} (h : (maxDigits m start value).Reads ts cs)
    (hn : upperCount m start value = .ok n) : (max m n).Reads ts cs := by
  obtain ⟨vs, ds, cs', hread, hs, rfl⟩ := h
  obtain ⟨⟨hle, rfl⟩, hmn⟩ := upperCount_eq_ok_iff.mp hn
  cases hread with
  | maxDigits hm hne hdigit hvalue =>
    exact ⟨_, [], _, .max hm ⟨hne, hdigit, hvalue, hle⟩ hmn, hs.token_append ds,
      (List.append_nil _).symm⟩

theorem reads_afterCount_min (h : (min m).Reads ts cs)
    (hstep : (min m).afterCount pos c = .ok outcome) : OutcomeReads ts (cs ++ [c]) outcome := by
  obtain ⟨vs, ds, cs', hread, hs, rfl⟩ := h
  cases hread with
  | min hm =>
    rw [List.append_nil]
    rw [afterCount] at hstep
    split_ifs at hstep with hblank hcomma hbrace
    · exact Except.ok.inj hstep ▸ Read.blank (.min hm) hs hblank
    · subst hcomma
      exact Except.ok.inj hstep ▸ Read.sign (.comma hm) hs
    · subst hbrace
      exact Except.ok.inj hstep ▸ outcomeReads_of_bounds (.exactly hm) hs

theorem reads_afterCount_max {n : Nat} (h : (max m n).Reads ts cs)
    (hstep : (max m n).afterCount pos c = .ok outcome) : OutcomeReads ts (cs ++ [c]) outcome := by
  obtain ⟨vs, ds, cs', hread, hs, rfl⟩ := h
  cases hread with
  | max hm hn hle =>
    rw [List.append_nil]
    rw [afterCount] at hstep
    split_ifs at hstep with hblank hbrace
    · exact Except.ok.inj hstep ▸ Read.blank (.max hm hn hle) hs hblank
    · subst hbrace
      exact Except.ok.inj hstep ▸ outcomeReads_of_bounds (.between hm hn hle) hs

theorem forall_isDigit_append (hds : ∀ c ∈ ds, c.isDigit = true) (hd : digit? c = some d) :
    ∀ c' ∈ ds ++ [c], c'.isDigit = true := by
  intro c' hc'
  rcases List.mem_append.mp hc' with hc' | hc'
  · exact hds c' hc'
  · exact List.mem_singleton.mp hc' ▸ (digit?_eq_some_iff.mp hd).1

theorem forall_isDigit_singleton (hd : digit? c = some d) : ∀ c' ∈ [c], c'.isDigit = true :=
  @forall_isDigit_append [] c d (fun _ hc => absurd hc List.not_mem_nil) hd

theorem valueFrom_singleton (hd : digit? c = some d) : valueFrom 0 [c] = d :=
  (@valueFrom_append [] c 0 d hd).trans (Nat.zero_add d)

/-- **Each character** of a bound goes on with what is read. -/
theorem Reads.step (h : bound.Reads ts cs) (hstep : bound.step pos c = .ok outcome) :
    OutcomeReads ts (cs ++ [c]) outcome := by
  obtain ⟨vs, ds, cs', hread, hs, rfl⟩ := id h
  cases hread with
  | caret =>
    rw [List.append_nil]
    rw [Bound.step] at hstep
    split_ifs at hstep with hblank hbrace
    · exact Except.ok.inj hstep ▸ Read.blank .caret hs hblank
    · subst hbrace
      exact Except.ok.inj hstep ▸ Read.sign .brace hs
  | brace =>
    rw [List.append_nil]
    rw [Bound.step] at hstep
    split at hstep
    · next hblank => exact Except.ok.inj hstep ▸ Read.blank .brace hs hblank
    split at hstep
    · next d hd =>
      have hread : (minDigits pos d).Read [['\x7b']] [c] :=
        .minDigits (List.cons_ne_nil _ _) (forall_isDigit_singleton hd) (valueFrom_singleton hd)
      exact Except.ok.inj hstep ▸ ⟨_, _, cs', hread, hs, rfl⟩
    · cases hstep
  | @minDigits ds start value hne hdigit hvalue =>
    rw [Bound.step] at hstep
    split at hstep
    · next d hd =>
      have hread : (minDigits start (10 * value + d)).Read [['\x7b']] (ds ++ [c]) :=
        .minDigits (List.append_ne_nil_of_left_ne_nil hne [c]) (forall_isDigit_append hdigit hd)
          (hvalue ▸ valueFrom_append hd)
      exact Except.ok.inj hstep ▸ ⟨_, _, cs', hread, hs, List.append_assoc ..⟩
    · obtain ⟨m, hm, hstep⟩ := exists_of_bind_eq_ok hstep
      exact reads_afterCount_min (reads_min_of_count h hm) hstep
  | min hm => exact reads_afterCount_min h hstep
  | comma hm =>
    rw [List.append_nil]
    rw [Bound.step] at hstep
    split at hstep
    · next hblank => exact Except.ok.inj hstep ▸ Read.blank (.comma hm) hs hblank
    split at hstep
    · next hbrace =>
      subst hbrace
      exact Except.ok.inj hstep ▸ outcomeReads_of_bounds (.atLeast hm) hs
    split at hstep
    · next d hd =>
      have hread : (maxDigits _ pos d).Read _ [c] :=
        .maxDigits hm (List.cons_ne_nil _ _) (forall_isDigit_singleton hd) (valueFrom_singleton hd)
      exact Except.ok.inj hstep ▸ ⟨_, _, cs', hread, hs, rfl⟩
    · cases hstep
  | @maxDigits _ ds m start value hm hne hdigit hvalue =>
    rw [Bound.step] at hstep
    split at hstep
    · next d hd =>
      have hread : (maxDigits m start (10 * value + d)).Read _ (ds ++ [c]) :=
        .maxDigits hm (List.append_ne_nil_of_left_ne_nil hne [c])
          (forall_isDigit_append hdigit hd) (hvalue ▸ valueFrom_append hd)
      exact Except.ok.inj hstep ▸ ⟨_, _, cs', hread, hs, List.append_assoc ..⟩
    · obtain ⟨n, hn, hstep⟩ := exists_of_bind_eq_ok hstep
      exact reads_afterCount_max (reads_max_of_upperCount h hn) hstep
  | max hm hn hle => exact reads_afterCount_max h hstep

end Bound

/-! ## The reader -/

/-- The tokens of the groups around the current one, each with its parenthesis behind it. -/
inductive OuterRead : List (List Char) → List (Nat × Level) → Prop where
  | nil : OuterRead [] []
  | cons {ts us : List (List Char)} {outer : List (Nat × Level)} {level : Level} {pos : Nat} :
      OuterRead ts outer → level.Awaits us →
        OuterRead (ts ++ (us ++ [['(']])) ((pos, level) :: outer)

namespace Reader

/-- **What is read**: the groups around the current one, the current group, and the token that is
not complete. -/
inductive Read : List Char → Reader → Prop where
  | nothing {ts us : List (List Char)} {cs : List Char} {outer : List (Nat × Level)}
      {level : Level} : OuterRead ts outer → level.Read us → Spells (ts ++ us) cs →
        Read cs ⟨outer, level, .nothing⟩
  | dot {ts us : List (List Char)} {cs : List Char} {outer : List (Nat × Level)} {level : Level}
      {pos : Nat} : OuterRead ts outer → level.Read us → level.parts ≠ [] →
        Spells (ts ++ (us ++ [['.']])) cs → Read cs ⟨outer, level, .dot pos⟩
  | quote {ts us : List (List Char)} {cs name : List Char} {outer : List (Nat × Level)}
      {level : Level} {pos : Nat} : OuterRead ts outer → level.Awaits us → Spells (ts ++ us) cs →
        '\x22' ∉ name → Read (cs ++ '\x22' :: name.reverse) ⟨outer, level, .quote pos name⟩
  | bound {ts us : List (List Char)} {cs : List Char} {outer : List (Nat × Level)}
      {level : Level} {bound : Bound} : OuterRead ts outer → level.Read us → level.parts ≠ [] →
        bound.Reads (ts ++ (us ++ [['^']])) cs → Read cs ⟨outer, level, .bound bound⟩

variable {reader reader' : Reader} {pending : Pending}

theorem read_start : start.Read [] := .nothing .nil Level.read_empty (.nil blanks_nil)

theorem read_push (hts : OuterRead ts outer) (hus : level.Awaits us) (hs : Spells (ts ++ us) cs)
    {t : List Char} (ht : Phrase .atom [t] [e]) :
    Read (cs ++ t) (push ⟨outer, level, pending⟩ e) :=
  .nothing hts (hus.push (.atom ht)) (hs.token_append t)

theorem read_repeatLast (hts : OuterRead ts outer) (hus : level.Read us)
    (hs : Spells (ts ++ us) cs)
    (hf : ∀ vs e, Phrase .part vs [e] → Phrase .part (vs ++ [[c]]) [f e])
    (hr : repeatLast ⟨outer, level, .nothing⟩ pos c f = .ok reader') :
    Read (cs ++ [c]) reader' := by
  rw [repeatLast] at hr
  split_ifs at hr with hne
  rw [List.isEmpty_iff] at hne
  exact Except.ok.inj hr ▸ .nothing hts (hus.modifyLast hne hf) (hs.token_append [c])

theorem modifyLast_id : level.modifyLast id = level := by
  rw [Level.modifyLast]
  split
  · rfl
  · next h => rw [id, ← h]

/-- The first character of a token.  Behind a dot it starts an atom. -/
theorem read_startToken (hts : OuterRead ts outer) (hus : level.Awaits us)
    (hs : Spells (ts ++ us) cs) (hsign : startsAtom c = false → level.Read us)
    (hr : startToken ⟨outer, level, .nothing⟩ pos c = .ok reader') : Read (cs ++ [c]) reader' := by
  rw [startToken] at hr
  by_cases hquote : c = '\x22'
  · rw [if_pos hquote] at hr
    subst hquote
    exact Except.ok.inj hr ▸ .quote hts hus hs List.not_mem_nil
  rw [if_neg hquote] at hr
  by_cases hepsilon : c = '$'
  · rw [if_pos hepsilon] at hr
    subst hepsilon
    exact Except.ok.inj hr ▸ read_push hts hus hs .epsilon
  rw [if_neg hepsilon] at hr
  by_cases hopening : c = '('
  · rw [if_pos hopening] at hr
    subst hopening
    refine Except.ok.inj hr ▸ .nothing (.cons hts hus) Level.read_empty ?_
    rw [List.append_nil]
    exact hs.token_append ['(']
  rw [if_neg hopening] at hr
  by_cases hsymbol : (isAlphanumeric c || c == '_') = true
  · rw [if_pos hsymbol] at hr
    exact Except.ok.inj hr ▸ read_push hts hus hs (.symbol hsymbol)
  rw [if_neg hsymbol] at hr
  have hus := hsign (by simp [startsAtom, hquote, hepsilon, hopening, hsymbol])
  split at hr
  · next hdot =>
    subst hdot
    split_ifs at hr with hne
    rw [List.isEmpty_iff] at hne
    exact Except.ok.inj hr ▸ .dot hts hus hne (hs.token_append ['.'])
  split at hr
  · next hstar =>
    subst hstar
    exact read_repeatLast hts hus hs (fun _ _ => .star) hr
  split at hr
  · next hplus =>
    subst hplus
    exact read_repeatLast hts hus hs (fun _ _ => .plus) hr
  split at hr
  · next hoptional =>
    subst hoptional
    exact read_repeatLast hts hus hs (fun _ _ => .optional) hr
  split at hr
  · next hcaret =>
    subst hcaret
    obtain ⟨r, hr', hr⟩ := exists_of_bind_eq_ok hr
    rw [repeatLast] at hr'
    split_ifs at hr' with hne
    rw [List.isEmpty_iff] at hne
    obtain rfl := Except.ok.inj hr'
    rw [modifyLast_id] at hr
    exact Except.ok.inj hr ▸ .bound hts hus hne (Bound.reads_caret (hs.token_append ['^']))
  split at hr
  · next hbar =>
    subst hbar
    exact Except.ok.inj hr ▸ .nothing hts hus.branch (hs.token_append ['|'])
  cases hts with
  | nil => cases hr
  | cons hts hus' =>
    simp only at hr
    split_ifs at hr with hclosing
    subst hclosing
    refine Except.ok.inj hr ▸ .nothing hts (hus'.push (.atom (.group hus.close))) ?_
    simpa only [List.append_assoc, List.singleton_append] using hs.token_append [')']

/-- **Each character** goes on with what is read. -/
theorem Read.step (h : reader.Read cs) (hr : reader.step pos c = .ok reader') :
    reader'.Read (cs ++ [c]) := by
  cases h with
  | nothing hts hus hs =>
    simp only [Reader.step] at hr
    split_ifs at hr with hblank
    · exact Except.ok.inj hr ▸ .nothing hts hus (hs.blank hblank)
    · exact read_startToken hts (.plain hus) hs (fun _ => hus) hr
  | dot hts hus hne hs =>
    simp only [Reader.step] at hr
    split_ifs at hr with hblank hatom
    · exact Except.ok.inj hr ▸ .dot hts hus hne (hs.blank hblank)
    · exact read_startToken hts (.dot hus hne) hs (fun h => absurd hatom (by simp [h])) hr
  | @quote _ _ cs name _ _ _ hts hus hs hname =>
    simp only [Reader.step] at hr
    rw [List.append_assoc, List.cons_append]
    split_ifs at hr with hquote hempty
    · subst hquote
      have hne : name.reverse ≠ [] := by simpa using hempty
      have hname' : '\x22' ∉ name.reverse := by simpa using hname
      exact Except.ok.inj hr ▸ read_push hts hus hs (.quoted hne hname')
    · rw [← List.reverse_cons]
      have hname' : '\x22' ∉ c :: name := by simp [hname, Ne.symm hquote]
      exact Except.ok.inj hr ▸ .quote hts hus hs hname'
  | bound hts hus hne hreads =>
    obtain ⟨outcome, hstep, hr⟩ := exists_of_bind_eq_ok hr
    have hreads := hreads.step hstep
    cases outcome with
    | inl bound => exact Except.ok.inj hr ▸ .bound hts hus hne hreads
    | inr counts =>
      obtain ⟨vs, hbounds, hs⟩ := hreads
      have hus' := hus.modifyLast hne fun _ _ h => .bounded h hbounds
      refine Except.ok.inj hr ▸ .nothing hts hus' ?_
      simpa only [List.append_assoc, List.singleton_append] using hs

theorem Read.run {cs' : List Char} (h : reader.Read cs) (hr : reader.run pos cs' = .ok e) :
    ∃ ts, Spells ts (cs ++ cs') ∧ Phrase .union ts [e] := by
  induction cs' generalizing reader cs pos with
  | nil =>
    rw [List.append_nil]
    cases h with
    | nothing hts hus hs =>
      cases hts with
      | nil => exact ⟨_, hs, Except.ok.inj hr ▸ hus.close⟩
      | cons => cases hr
    | _ => cases hr
  | cons c cs' ih =>
    obtain ⟨reader', hstep, hr⟩ := exists_of_bind_eq_ok hr
    rw [List.append_cons]
    exact ih (h.step hstep) hr

end Reader

/-- **Soundness**: a text that the reader takes is a pattern of the grammar. -/
theorem exists_phrase_of_parse? {pattern : String} (h : parse? pattern = .ok e) :
    ∃ ts, Spells ts pattern.toList ∧ Phrase .union ts [e] := Reader.read_start.run h

end PathQuery.Regex
