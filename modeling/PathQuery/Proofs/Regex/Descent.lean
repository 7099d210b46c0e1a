import PathQuery.Proofs.Regex.Grammar

/-!
# Proofs/Regex/Descent — patterns read by recursive descent

* `descend?_add` — what recursive descent makes of a pattern does not depend on the depth that its
  calls are given.

`Descent.whole` reads a pattern with one function for each variable of the grammar.  The functions
call each other, and themselves in place of loops, without a bound of their own: `Calls.next` says
what each of them does with the functions that it calls, and `Calls.within` makes the calls that
nest up to some depth.  A `Descent` has three outcomes, a result, a refusal, and none at all where
the calls nest deeper, so that a pattern is read to an end where there is an outcome within some
depth; `descend?` is that outcome.

White space is skipped where the next character is looked at (`Descent.peek`) and where its offset
is asked for (`Descent.offset`), but not within counts and quoted symbols, which are read character
by character (`Descent.takeWhile`).
-/

namespace PathQuery.Regex

open Text (isAlphanumeric isBlank)

/-- What is left of a pattern: the byte offset of the next character, and the characters. -/
structure Input where
  pos : Nat
  rest : List Char

namespace Input

/-- What is left behind the characters up to the first one that fails a test. -/
def dropWhile (p : Char → Bool) (i : Input) : Input :=
  ⟨i.pos + (String.ofList (i.rest.takeWhile p)).utf8ByteSize, i.rest.dropWhile p⟩

/-- What is left behind white space. -/
def skip (i : Input) : Input := i.dropWhile isBlank

/-- What is left behind the next character. -/
def next (i : Input) : Input :=
  match i.rest with
  | [] => i
  | c :: cs => ⟨i.pos + c.utf8Size, cs⟩

/-- The next character that is no white space, if there is one, has a property. -/
def Ahead (i : Input) (P : Char → Prop) : Prop := ∀ pos c cs, i.skip = ⟨pos, c :: cs⟩ → P c

variable {i : Input} {p : Char → Bool} {pos : Nat} {c : Char} {cs : List Char} {P : Char → Prop}

theorem length_dropWhile_le : (i.dropWhile p).rest.length ≤ i.rest.length :=
  (List.dropWhile_suffix p).length_le

theorem head_dropWhile (h : (i.dropWhile p).rest = c :: cs) : p c = false := by
  have hhead := List.head?_dropWhile_not p i.rest
  rw [show i.rest.dropWhile p = c :: cs from h] at hhead
  exact hhead

theorem dropWhile_cons_of_neg (h : p c = false) : dropWhile p ⟨pos, c :: cs⟩ = ⟨pos, c :: cs⟩ := by
  rw [dropWhile, List.takeWhile_cons_of_neg (by simp [h]), List.dropWhile_cons_of_neg (by simp [h])]
  rfl

theorem skip_cons (h : isBlank c = false) : skip ⟨pos, c :: cs⟩ = ⟨pos, c :: cs⟩ :=
  dropWhile_cons_of_neg h

theorem skip_cases (i : Input) : (∃ pos, i.skip = ⟨pos, []⟩) ∨
    ∃ pos c cs, i.skip = ⟨pos, c :: cs⟩ ∧ isBlank c = false := by
  match h : i.skip with
  | ⟨pos, []⟩ => exact .inl ⟨pos, rfl⟩
  | ⟨pos, c :: cs⟩ => exact .inr ⟨pos, c, cs, rfl, head_dropWhile (congrArg Input.rest h)⟩

theorem skip_skip (i : Input) : i.skip.skip = i.skip := by
  obtain ⟨pos, hi⟩ | ⟨pos, c, cs, hi, hc⟩ := i.skip_cases
  · rw [hi]
    rfl
  · rw [hi, skip_cons hc]

/-- Each character that is taken leaves less to read. -/
theorem length_lt_of_skip (h : i.skip = ⟨pos, c :: cs⟩) : cs.length < i.rest.length := by
  have hle : i.skip.rest.length ≤ i.rest.length := length_dropWhile_le
  rw [h] at hle
  exact hle

theorem ahead_nil : Ahead ⟨pos, []⟩ P := by
  intro pos' c cs h
  cases h

theorem ahead_cons (hc : isBlank c = false) (h : P c) : Ahead ⟨pos, c :: cs⟩ P := by
  intro pos' c' cs' hskip
  rw [skip_cons hc] at hskip
  cases hskip
  exact h

theorem Ahead.skip (h : i.Ahead P) : i.skip.Ahead P := by
  rw [Ahead, skip_skip]
  exact h

end Input

/-- **A computation that reads a pattern**: it may refuse the pattern, and it has no outcome where
its calls nest too deep. -/
abbrev Descent := StateT Input (ExceptT Error Option)

namespace Descent

/-- The next character that is no white space. -/
def peek : Descent (Option Char) := do
  modify Input.skip
  return (← get).rest.head?

/-- The byte offset of the next character that is no white space, or of the end. -/
def offset : Descent Nat := do
  modify Input.skip
  return (← get).pos

/-- Takes the next character. -/
def advance : Descent Unit := modify Input.next

/-- Takes the characters up to the first one that fails a test. -/
def takeWhile (p : Char → Bool) : Descent (List Char) :=
  modifyGet fun i => (i.rest.takeWhile p, i.dropWhile p)

/-- Refuses the pattern. -/
def fail {α : Type} (pos : Nat) (problem : Problem) : Descent α := throw (.regexSyntax pos problem)

/-- Takes a sign. -/
def expect (want : Char) : Descent Unit := do
  let pos ← offset
  let found ← peek
  if found = some want then advance else fail pos (.expected want found)

/-- Takes a count, which is within the 32-bit range. -/
def number : Descent Nat := do
  let pos ← offset
  let digits ← takeWhile Char.isDigit
  if digits.isEmpty then fail pos .expectedCount
  else if Word32.max < valueFrom 0 digits then fail pos .expectedCount
  else return valueFrom 0 digits

/-- Takes the greatest count of a bound, which is not below the least one. -/
def upper (min : Nat) : Descent Nat := do
  let pos ← offset
  let max ← number
  if max < min then fail pos (.invalidRange min max) else return max

/-- Takes what follows the least count of a bound: nothing, a comma, or a comma and the greatest
count. -/
def greatest (min : Nat) : Descent (Option Nat) := do
  if (← peek) = some ',' then
    advance
    if (← peek) = some '\x7d' then return none else return some (← upper min)
  else return some min

/-- Takes the bound of a repetition, behind its caret. -/
def bounds : Descent (Nat × Option Nat) := do
  expect '\x7b'
  let min ← number
  let max ← greatest min
  expect '\x7d'
  return (min, max)

/-- Takes a quoted symbol, behind its first quote, which stands at `pos`. -/
def quoted (pos : Nat) : Descent Regex := do
  let name ← takeWhile (· != '\x22')
  if (← get).rest.isEmpty then fail pos .unterminatedQuote
  else
    advance
    if name.isEmpty then fail pos .emptyQuote else return .symbol (String.ofList name)

/-- The signs that repeat what they follow. -/
def repetitionSigns : List Char := ['*', '+', '?', '^']

/-- The functions that call each other. -/
structure Calls where
  /-- Takes the branches of a union behind those that are complete, from the last one back. -/
  union (branches : List Regex) : Descent Regex
  /-- Takes the parts of a branch behind those that are complete, from the last one back. -/
  branch (parts : List Regex) : Descent Regex
  /-- Takes the signs of repetition behind a part. -/
  repeated (e : Regex) : Descent Regex
  /-- Takes an atom, the first character of which is `c`. -/
  atom (c : Char) : Descent Regex
  /-- Takes a group, behind its opening parenthesis, which stands at `pos`. -/
  group (pos : Nat) : Descent Regex

namespace Calls

variable (calls : Calls)

/-- What a union comes to by calls. -/
def nextUnion (branches : List Regex) : Descent Regex := do
  let branches := (← calls.branch []) :: branches
  if (← peek) = some '|' then
    advance
    calls.union branches
  else return ofBranches branches.reverse

/-- What a branch comes to by calls, behind a dot, which stands at `pos`. -/
def nextDot (pos : Nat) (parts : List Regex) : Descent Regex := do
  if parts.isEmpty || !(← peek).any startsAtom then fail pos .loneDot else calls.branch parts

/-- What a branch comes to by calls. -/
def nextBranch (parts : List Regex) : Descent Regex := do
  match ← peek with
  | none => return ofParts parts.reverse
  | some c =>
    let pos ← offset
    if c = '.' then
      advance
      calls.nextDot pos parts
    else if startsAtom c then calls.branch ((← calls.repeated (← calls.atom c)) :: parts)
    else if c ∈ repetitionSigns then fail pos (.nothingToRepeat c)
    else return ofParts parts.reverse

/-- What repetitions of a part come to by calls. -/
def nextRepeated (e : Regex) : Descent Regex := do
  match ← peek with
  | some '*' => advance; calls.repeated (.star e)
  | some '+' => advance; calls.repeated (.repetition e 1 none)
  | some '?' => advance; calls.repeated (.repetition e 0 (some 1))
  | some '^' =>
    advance
    let (min, max) ← bounds
    calls.repeated (.repetition e min max)
  | _ => return e

/-- What an atom comes to by calls. -/
def nextAtom (c : Char) : Descent Regex := do
  let pos ← offset
  advance
  if c = '(' then calls.group pos
  else if c = '$' then return .epsilon
  else if c = '\x22' then quoted pos
  else if isAlphanumeric c || c == '_' then return .symbol (String.singleton c)
  else fail pos (.unexpected c)

/-- What a group comes to by calls. -/
def nextGroup (pos : Nat) : Descent Regex := do
  let inner ← calls.union []
  if (← peek) = some ')' then
    advance
    return inner
  else fail pos .unclosedGroup

/-- The functions, by what they call. -/
def next : Calls where
  union := calls.nextUnion
  branch := calls.nextBranch
  repeated := calls.nextRepeated
  atom := calls.nextAtom
  group := calls.nextGroup

/-- **The calls that nest up to a depth.** -/
def within : Nat → Calls
  | 0 => ⟨fun _ => none, fun _ => none, fun _ => none, fun _ => none, fun _ => none⟩
  | depth + 1 => (within depth).next

end Calls

/-- Takes a union that is a whole pattern. -/
def whole (depth : Nat) : Descent Regex := do
  let e ← (Calls.within depth).union []
  match ← peek with
  | none => return e
  | some c => fail (← offset) (.unexpected c)

variable {α β : Type} {f : Descent α} {g : α → Descent β} {i i' : Input} {a : α} {e : Error}

/-- What a computation comes to from some input on. -/
def outcome (f : Descent α) (i : Input) : Option (Except Error (α × Input)) := (f.run i).run

theorem outcome_pure : outcome (pure a) i = some (.ok (a, i)) := rfl

theorem outcome_fail {pos : Nat} {problem : Problem} :
    (fail pos problem : Descent α).outcome i = some (.error (.regexSyntax pos problem)) := rfl

theorem outcome_peek : peek.outcome i = some (.ok (i.skip.rest.head?, i.skip)) := rfl

theorem outcome_offset : offset.outcome i = some (.ok (i.skip.pos, i.skip)) := rfl

theorem outcome_get : (get : Descent Input).outcome i = some (.ok (i, i)) := rfl

theorem outcome_advance : advance.outcome i = some (.ok ((), i.next)) := rfl

theorem outcome_takeWhile {p : Char → Bool} :
    (takeWhile p).outcome i = some (.ok (i.rest.takeWhile p, i.dropWhile p)) := rfl

theorem outcome_bind_of_ok (h : f.outcome i = some (.ok (a, i'))) :
    (f >>= g).outcome i = (g a).outcome i' := by
  have hf : f i = some (Except.ok (a, i')) := h
  show (f i >>= _) = _
  rw [hf]
  rfl

theorem outcome_bind_of_error (h : f.outcome i = some (.error e)) :
    (f >>= g).outcome i = some (.error e) := by
  have hf : f i = some (Except.error e) := h
  show (f i >>= _) = _
  rw [hf]
  rfl

theorem outcome_bind_of_none (h : f.outcome i = none) : (f >>= g).outcome i = none := by
  have hf : f i = none := h
  show (f i >>= _) = _
  rw [hf]
  rfl

/-! ## Deeper calls -/

/-- **Where one computation has an outcome**, another one has the same. -/
def Extends (f' f : Descent α) : Prop := ∀ i x, f.outcome i = some x → f'.outcome i = some x

namespace Extends

variable {f' : Descent α} {g' : α → Descent β} {p : Prop} [Decidable p]

theorem refl (f : Descent α) : f.Extends f := fun _ _ h => h

theorem bind (hf : f'.Extends f) (hg : ∀ a, (g' a).Extends (g a)) :
    (f' >>= g').Extends (f >>= g) := by
  intro i x h
  cases hfi : f.outcome i with
  | none =>
    rw [outcome_bind_of_none hfi] at h
    cases h
  | some y =>
    cases y with
    | error e =>
      rw [outcome_bind_of_error hfi] at h
      exact (outcome_bind_of_error (hf i _ hfi)).trans h
    | ok y =>
      rw [outcome_bind_of_ok hfi] at h
      exact (outcome_bind_of_ok (hf i _ hfi)).trans (hg y.1 y.2 x h)

theorem ite {f₁ f₁' f₂ f₂' : Descent α} (h₁ : f₁'.Extends f₁) (h₂ : f₂'.Extends f₂) :
    (if p then f₁' else f₂').Extends (if p then f₁ else f₂) := by
  split
  · exact h₁
  · exact h₂

end Extends

/-- Where one function has an outcome, the other one has the same. -/
structure Calls.Extends (calls' calls : Calls) : Prop where
  union (branches : List Regex) : (calls'.union branches).Extends (calls.union branches)
  branch (parts : List Regex) : (calls'.branch parts).Extends (calls.branch parts)
  repeated (e : Regex) : (calls'.repeated e).Extends (calls.repeated e)
  atom (c : Char) : (calls'.atom c).Extends (calls.atom c)
  group (pos : Nat) : (calls'.group pos).Extends (calls.group pos)

namespace Calls.Extends

variable {calls calls' : Calls}

theorem nextUnion (h : calls'.Extends calls) (branches : List Regex) :
    (calls'.nextUnion branches).Extends (calls.nextUnion branches) := by
  refine (h.branch []).bind fun b => (Descent.Extends.refl _).bind fun c => .ite ?_ (.refl _)
  exact (Descent.Extends.refl _).bind fun _ => h.union _

theorem nextDot (h : calls'.Extends calls) (pos : Nat) (parts : List Regex) :
    (calls'.nextDot pos parts).Extends (calls.nextDot pos parts) :=
  (Descent.Extends.refl _).bind fun _ => .ite (.refl _) (h.branch parts)

theorem nextBranch (h : calls'.Extends calls) (parts : List Regex) :
    (calls'.nextBranch parts).Extends (calls.nextBranch parts) := by
  refine (Descent.Extends.refl _).bind fun c => ?_
  cases c with
  | none => exact .refl _
  | some c =>
    refine (Descent.Extends.refl _).bind fun pos => .ite ?_ (.ite ?_ (.refl _))
    · exact (Descent.Extends.refl _).bind fun _ => h.nextDot pos parts
    · exact (h.atom c).bind fun e => (h.repeated e).bind fun e' => h.branch _

theorem nextRepeated (h : calls'.Extends calls) (e : Regex) :
    (calls'.nextRepeated e).Extends (calls.nextRepeated e) := by
  refine (Descent.Extends.refl _).bind fun c => ?_
  have hsign (e : Regex) : (advance >>= fun _ => calls'.repeated e).Extends
      (advance >>= fun _ => calls.repeated e) := (Descent.Extends.refl _).bind fun _ => h.repeated e
  split
  · exact hsign _
  · exact hsign _
  · exact hsign _
  · refine (Descent.Extends.refl _).bind fun _ => (Descent.Extends.refl _).bind fun counts => ?_
    exact h.repeated _
  · exact .refl _

theorem nextAtom (h : calls'.Extends calls) (c : Char) :
    (calls'.nextAtom c).Extends (calls.nextAtom c) :=
  (Descent.Extends.refl _).bind fun pos => (Descent.Extends.refl _).bind fun _ =>
    .ite (h.group pos) (.refl _)

theorem nextGroup (h : calls'.Extends calls) (pos : Nat) :
    (calls'.nextGroup pos).Extends (calls.nextGroup pos) :=
  (h.union []).bind fun _ => .refl _

/-- **Each further call** keeps the outcomes. -/
theorem next (h : calls'.Extends calls) : calls'.next.Extends calls.next where
  union := h.nextUnion
  branch := h.nextBranch
  repeated := h.nextRepeated
  atom := h.nextAtom
  group := h.nextGroup

theorem within (depth : Nat) : (Calls.within (depth + 1)).Extends (Calls.within depth) := by
  induction depth with
  | zero => exact ⟨fun _ => nofun, fun _ => nofun, fun _ => nofun, fun _ => nofun, fun _ => nofun⟩
  | succ depth ih => exact ih.next

end Calls.Extends

theorem extends_whole (depth : Nat) : (whole (depth + 1)).Extends (whole depth) :=
  ((Calls.Extends.within depth).union []).bind fun _ => .refl _

end Descent

/-- **What recursive descent makes of a pattern**, if its calls nest up to a depth. -/
def descend? (depth : Nat) (pattern : String) : Option (Except Error Regex) :=
  ((Descent.whole depth).outcome ⟨0, pattern.toList⟩).map (Except.map Prod.fst)

/-- **The depth is of no account** where a pattern is read to an end. -/
theorem descend?_add {depth : Nat} {pattern : String} {result : Except Error Regex}
    (h : descend? depth pattern = some result) (more : Nat) :
    descend? (depth + more) pattern = some result := by
  induction more with
  | zero => exact h
  | succ more ih =>
    obtain ⟨x, hx, hresult⟩ := Option.map_eq_some_iff.mp ih
    exact Option.map_eq_some_iff.mpr ⟨x, Descent.extends_whole _ _ x hx, hresult⟩

end PathQuery.Regex
