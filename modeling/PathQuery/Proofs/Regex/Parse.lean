import Mathlib.Tactic.SplitIfs
import PathQuery.Proofs.Data
import PathQuery.Proofs.Regex.Denotation

/-!
# Proofs/Regex/Parse — what the reader of patterns makes

The groups that a reader holds are made of bounded expressions, and a bound whose two counts are
read has them in order (`Reader.Bounded`).  Each character keeps this (`Reader.Bounded.step`), so
the expression of a pattern is bounded (`bounded_of_parse?`).
-/

namespace PathQuery.Regex

variable {e : Regex} {f : Regex → Regex} {level : Level} {pos : Nat} {c : Char}

/-! ## Groups -/

/-- A group of bounded expressions. -/
structure Level.Bounded (level : Level) : Prop where
  branches : ∀ e ∈ level.branches, e.Bounded
  parts : ∀ e ∈ level.parts, e.Bounded

theorem Level.bounded_empty : Level.empty.Bounded :=
  ⟨fun _ he => absurd he List.not_mem_nil, fun _ he => absurd he List.not_mem_nil⟩

namespace Level.Bounded

theorem bounded_current (h : level.Bounded) : (ofParts level.parts.reverse).Bounded :=
  bounded_ofParts fun e he => h.parts e (List.mem_reverse.mp he)

theorem branch (h : level.Bounded) : level.branch.Bounded :=
  ⟨List.forall_mem_cons.mpr ⟨h.bounded_current, h.branches⟩,
    fun _ he => absurd he List.not_mem_nil⟩

theorem close (h : level.Bounded) : level.close.Bounded :=
  bounded_ofBranches fun e he =>
    List.forall_mem_cons.mpr ⟨h.bounded_current, h.branches⟩ e (List.mem_reverse.mp he)

theorem push (h : level.Bounded) (he : e.Bounded) : (level.push e).Bounded :=
  ⟨h.branches, List.forall_mem_cons.mpr ⟨he, h.parts⟩⟩

theorem modifyLast (h : level.Bounded) (hf : ∀ e : Regex, e.Bounded → (f e).Bounded) :
    (level.modifyLast f).Bounded := by
  rw [Level.modifyLast]
  split
  · exact h
  · next part parts hparts =>
    obtain ⟨hpart, hrest⟩ := List.forall_mem_cons.mp (hparts ▸ h.parts)
    exact ⟨h.branches, List.forall_mem_cons.mpr ⟨hf part hpart, hrest⟩⟩

end Level.Bounded

/-! ## Bounds of repetitions -/

namespace Bound

/-- The counts of a bound, where both are read, are in order. -/
def Ordered : Bound → Prop
  | max m n => m ≤ n
  | _ => True

/-- The counts of a bound that goes on or is complete are in order. -/
def OutcomeOrdered : Bound ⊕ Nat × Option Nat → Prop
  | .inl bound => bound.Ordered
  | .inr (m, n) => ∀ n', n = some n' → m ≤ n'

variable {bound : Bound} {outcome : Bound ⊕ Nat × Option Nat}

theorem le_of_upperCount {m n value : Nat} (h : upperCount m pos value = .ok n) : m ≤ n := by
  obtain ⟨n', -, h⟩ := exists_of_bind_eq_ok h
  split_ifs at h with hlt
  exact Except.ok.inj h ▸ Nat.le_of_not_lt hlt

theorem Ordered.afterCount (hb : bound.Ordered) (h : bound.afterCount pos c = .ok outcome) :
    OutcomeOrdered outcome := by
  cases bound with
  | min m =>
    rw [Bound.afterCount] at h
    split_ifs at h
    · exact Except.ok.inj h ▸ trivial
    · exact Except.ok.inj h ▸ trivial
    · exact Except.ok.inj h ▸ fun n' hn => (Option.some.inj hn).le
  | max m n =>
    rw [Bound.afterCount] at h
    split_ifs at h
    · exact Except.ok.inj h ▸ hb
    · exact Except.ok.inj h ▸ fun n' hn => Option.some.inj hn ▸ hb
  | _ => exact Except.ok.inj h ▸ trivial

/-- Each character keeps the counts in order. -/
theorem Ordered.step (hb : bound.Ordered) (h : bound.step pos c = .ok outcome) :
    OutcomeOrdered outcome := by
  cases bound with
  | caret =>
    rw [Bound.step] at h
    split_ifs at h
    · exact Except.ok.inj h ▸ trivial
    · exact Except.ok.inj h ▸ trivial
  | brace =>
    rw [Bound.step] at h
    split at h
    · exact Except.ok.inj h ▸ trivial
    split at h
    · exact Except.ok.inj h ▸ trivial
    · cases h
  | minDigits start value =>
    rw [Bound.step] at h
    split at h
    · exact Except.ok.inj h ▸ trivial
    · obtain ⟨m, -, h⟩ := exists_of_bind_eq_ok h
      exact Ordered.afterCount (show (min m).Ordered from trivial) h
  | comma m =>
    rw [Bound.step] at h
    split at h
    · exact Except.ok.inj h ▸ trivial
    split at h
    · exact Except.ok.inj h ▸ nofun
    split at h
    · exact Except.ok.inj h ▸ trivial
    · cases h
  | maxDigits m start value =>
    rw [Bound.step] at h
    split at h
    · exact Except.ok.inj h ▸ trivial
    · obtain ⟨n, hn, h⟩ := exists_of_bind_eq_ok h
      exact Ordered.afterCount (show (max m n).Ordered from le_of_upperCount hn) h
  | _ => exact hb.afterCount h

end Bound

/-! ## The reader -/

namespace Reader

/-- The groups are made of bounded expressions, and the counts that are read are in order. -/
structure Bounded (reader : Reader) : Prop where
  outer : ∀ o ∈ reader.outer, o.2.Bounded
  level : reader.level.Bounded
  pending : ∀ bound, reader.pending = .bound bound → bound.Ordered

variable {reader reader' : Reader}

theorem bounded_start : start.Bounded :=
  ⟨fun _ ho => absurd ho List.not_mem_nil, Level.bounded_empty, nofun⟩

namespace Bounded

theorem push (h : reader.Bounded) (he : e.Bounded) : (reader.push e).Bounded :=
  ⟨h.outer, h.level.push he, nofun⟩

theorem repeatLast (h : reader.Bounded) (hf : ∀ e : Regex, e.Bounded → (f e).Bounded)
    (hr : reader.repeatLast pos c f = .ok reader') : reader'.Bounded := by
  rw [Reader.repeatLast] at hr
  split_ifs at hr
  exact Except.ok.inj hr ▸ ⟨h.outer, h.level.modifyLast hf, h.pending⟩

theorem startToken (h : reader.Bounded) (hr : reader.startToken pos c = .ok reader') :
    reader'.Bounded := by
  rw [Reader.startToken] at hr
  -- each test in turn, so that no test on letters is evaluated at a character
  by_cases hquote : c = '\x22'
  · rw [if_pos hquote] at hr
    exact Except.ok.inj hr ▸ ⟨h.outer, h.level, nofun⟩
  rw [if_neg hquote] at hr
  by_cases hepsilon : c = '$'
  · rw [if_pos hepsilon] at hr
    exact Except.ok.inj hr ▸ h.push .epsilon
  rw [if_neg hepsilon] at hr
  by_cases hopening : c = '('
  · rw [if_pos hopening] at hr
    exact Except.ok.inj hr ▸
      ⟨List.forall_mem_cons.mpr ⟨h.level, h.outer⟩, Level.bounded_empty, nofun⟩
  rw [if_neg hopening] at hr
  split at hr
  · exact Except.ok.inj hr ▸ h.push (.symbol _)
  split at hr
  · split_ifs at hr
    exact Except.ok.inj hr ▸ ⟨h.outer, h.level, nofun⟩
  split at hr
  · exact h.repeatLast (fun e he => .star he) hr
  split at hr
  · refine h.repeatLast (fun e he => .repetition he ?_) hr
    exact nofun
  split at hr
  · exact h.repeatLast (fun e he => .repetition he fun m _ => Nat.zero_le m) hr
  split at hr
  · obtain ⟨r, hr', hr⟩ := exists_of_bind_eq_ok hr
    have hr' := h.repeatLast (fun e he => he) hr'
    refine Except.ok.inj hr ▸ ⟨hr'.outer, hr'.level, fun bound hbound => ?_⟩
    exact Pending.bound.inj hbound ▸ trivial
  split at hr
  · exact Except.ok.inj hr ▸ ⟨h.outer, h.level.branch, h.pending⟩
  split at hr
  · cases hr
  · next opening level outer houter =>
    split_ifs at hr
    obtain ⟨hlevel, hrest⟩ := List.forall_mem_cons.mp (houter ▸ h.outer)
    exact Except.ok.inj hr ▸ ⟨hrest, hlevel.push h.level.close, nofun⟩

/-- **Each character** keeps the expressions bounded. -/
theorem step (h : reader.Bounded) (hr : reader.step pos c = .ok reader') : reader'.Bounded := by
  rw [Reader.step] at hr
  split at hr
  · split_ifs at hr
    · exact Except.ok.inj hr ▸ h
    · exact h.startToken hr
  · split_ifs at hr
    · exact Except.ok.inj hr ▸ h
    · have hnothing : Reader.Bounded { reader with pending := .nothing } :=
        ⟨h.outer, h.level, nofun⟩
      exact hnothing.startToken hr
  · split_ifs at hr
    · exact Except.ok.inj hr ▸ h.push (.symbol _)
    · exact Except.ok.inj hr ▸ ⟨h.outer, h.level, nofun⟩
  · next bound hbound =>
    obtain ⟨outcome, hstep, hr⟩ := exists_of_bind_eq_ok hr
    have hordered := (h.pending bound hbound).step hstep
    cases outcome with
    | inl bound' =>
      refine Except.ok.inj hr ▸ ⟨h.outer, h.level, fun _ heq => ?_⟩
      exact Pending.bound.inj heq ▸ hordered
    | inr counts =>
      exact Except.ok.inj hr ▸
        ⟨h.outer, h.level.modifyLast fun e he => .repetition he hordered, nofun⟩

theorem run {cs : List Char} (h : reader.Bounded) (hr : reader.run pos cs = .ok e) : e.Bounded := by
  induction cs generalizing reader pos with
  | nil =>
    rw [Reader.run] at hr
    split at hr <;> try cases hr
    split at hr
    · exact Except.ok.inj hr ▸ h.level.close
    · cases hr
  | cons c cs ih =>
    obtain ⟨reader', hstep, hr⟩ := exists_of_bind_eq_ok hr
    exact ih (h.step hstep) hr

end Bounded

end Reader

/-- **Patterns** have bounded expressions. -/
theorem bounded_of_parse? {pattern : String} (h : parse? pattern = .ok e) : e.Bounded :=
  Reader.bounded_start.run h

end PathQuery.Regex
