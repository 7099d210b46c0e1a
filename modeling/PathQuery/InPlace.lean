import PathQuery.Error

/-!
# InPlace — computations that change a value in place

`InPlace.runOn` gives the result of such a computation and what it leaves in place, `InPlace.on`
what it makes of a local value, which is lost where the computation fails. `runOn_bind` and its
siblings take a computation apart.
-/

namespace PathQuery

/-- A computation that changes a value in place; where it fails, what it has changed stays. -/
abbrev InPlace (σ α : Type) := ExceptT Error (StateM σ) α

namespace InPlace

variable {σ α β : Type} {s : σ}

/-- The result of a computation, and what it leaves in place. -/
def runOn (f : InPlace σ α) (s : σ) : Except Error α × σ := f.run.run s

@[simp] theorem runOn_get : (get : InPlace σ σ).runOn s = (.ok s, s) := rfl

@[simp] theorem runOn_modify {f : σ → σ} :
    (modify f : InPlace σ PUnit).runOn s = (.ok ⟨⟩, f s) := rfl

@[simp] theorem runOn_pure {a : α} : (pure a : InPlace σ α).runOn s = (.ok a, s) := rfl

@[simp] theorem runOn_throw {e : Error} : (throw e : InPlace σ α).runOn s = (.error e, s) := rfl

@[simp] theorem runOn_bind {f : InPlace σ α} {g : α → InPlace σ β} :
    (f >>= g).runOn s = match f.runOn s with
      | (.ok a, t) => (g a).runOn t
      | (.error e, t) => (.error e, t) := by
  simp only [runOn, ExceptT.run_bind, StateT.run_bind]
  show (match f.run.run s with | (r, t) => _) = _
  cases f.run.run s with
  | mk r t => cases r <;> rfl

theorem runOn_tryCatch {f : InPlace σ α} {g : Error → InPlace σ α} :
    (tryCatch f g).runOn s = match f.runOn s with
      | (.ok a, t) => (.ok a, t)
      | (.error e, t) => (g e).runOn t := by
  simp only [runOn, ExceptT.run_tryCatch, StateT.run_bind]
  show (match f.run.run s with | (r, t) => _) = _
  cases f.run.run s with
  | mk r t => cases r <;> rfl

/-- A computation that the caller runs only where it has a result: that it fails is a fault. -/
def required (f : InPlace σ α) : InPlace σ α := tryCatch f fun e => throw e.asFault

theorem runOn_required {f : InPlace σ α} :
    (required f).runOn s = ((f.runOn s).1.mapError Error.asFault, (f.runOn s).2) := by
  rw [required, runOn_tryCatch]
  cases f.runOn s with
  | mk r t => cases r <;> rfl

/-- What a computation makes of a local value. -/
def on (f : InPlace σ α) (s : σ) : Except Error (σ × α) :=
  match f.runOn s with
  | (.ok a, s) => .ok (s, a)
  | (.error e, _) => .error e

theorem on_bind {f : InPlace σ α} {g : α → InPlace σ β} :
    (f >>= g).on s = f.on s >>= fun (t, a) => (g a).on t := by
  rw [on, runOn_bind, on]
  cases f.runOn s with
  | mk r t => cases r <;> rfl

/-- The outcome where the result of a function is put in the place of a value, and nothing is
changed where it has none. -/
def putting (store : β → σ) (s : σ) : Except Error (β × α) → Except Error α × σ
  | .ok (b, a) => (.ok a, store b)
  | .error e => (.error e, s)

theorem on_of_runOn_eq {f : InPlace σ α} {store : β → σ} {r : Except Error (β × α)}
    (h : f.runOn s = putting store s r) : f.on s = (fun (b, a) => (store b, a)) <$> r := by
  rw [on, h]
  cases r <;> rfl

end InPlace

end PathQuery
