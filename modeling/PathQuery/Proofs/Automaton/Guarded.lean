import PathQuery.Automaton.Guarded
import PathQuery.Proofs.BoolMatrix.Shaped
import PathQuery.Proofs.Data

/-!
# Proofs/Automaton/Guarded — guards that hold

All matrices of an automaton have one shape, so that they can be joined to each other and to any
matrix of that shape (`tryUnion_shaped`), and its paths can be found where the number of its states
is a word (`tryClosure_eq`) and not otherwise (`tryClosure_of_lt`).
-/

namespace PathQuery.Automaton

universe u

variable {σ : Type u} {A : Automaton σ} {symbol : String} {i j : Nat}

theorem tryUnion_shaped {M : BoolMatrix A.states.size A.states.size} :
    A.tryUnion symbol M.shaped = .ok (A.modify symbol (·.union M)) := by
  rw [tryUnion, BoolMatrix.reshape_shaped]

theorem tryAddMove_of_lt (hi : i < A.numStates) (hj : j < A.numStates) :
    A.tryAddMove i symbol j = .ok (A.addMove i symbol j, !(A.matrix symbol).get i j) := by
  have hcheck : checkMove A.numStates i j = .ok () :=
    (if_neg (Nat.not_le_of_lt hj)).trans (if_neg (Nat.not_le_of_lt hi))
  rw [tryAddMove, hcheck]

/-- Symbols can get matrices where the number of states is a word. -/
theorem forM_checkSize {α : Type} {l : List α} {n : Nat} : (l.forM fun _ => checkSize n) =
    if l = [] ∨ n ≤ Word32.max then .ok ()
    else .error (.fault (.oversizedShape (n, n) ShapedMatrix.limit)) := by
  by_cases hn : n ≤ Word32.max
  · rw [if_pos (.inr hn)]
    refine forM_eq_ok fun _ _ => ?_
    rw [checkSize, BoolMatrix.tryZero_eq hn]
    rfl
  · have hcheck : checkSize n = .error (.fault (.oversizedShape (n, n) ShapedMatrix.limit)) := by
      rw [checkSize, ShapedMatrix.tryZero, if_neg (mt BoolMatrix.fits_self_iff.mp hn)]
      rfl
    cases l with
    | nil => rw [if_pos (.inl rfl)]; rfl
    | cons a l =>
      rw [if_neg (not_or_intro (List.cons_ne_nil a l) hn), List.forM_eq_forM, List.forM_cons, hcheck]
      rfl

/-- A word is followed without a fault from start states that are states. -/
theorem tryAccepts_eq_ok {w : List String} (hA : ∀ i ∈ A.start, i < A.numStates) :
    A.tryAccepts w = .ok (A.accepts w) := by
  have hstart : A.startOutOfRange = false := List.any_eq_false.mpr fun i hi => by
    simpa using hA i hi
  cases w with
  | nil => rfl
  | cons s w =>
    rw [tryAccepts, hstart, Bool.and_false]
    rfl

theorem foldlM_union_shaped {n : Nat} {l : List (String × BoolMatrix n n)} {M : BoolMatrix n n} :
    l.foldlM (fun (M : ShapedMatrix) (_, N) => return (← M.union N.shaped).1) M.shaped =
      (.ok (l.foldl (fun M (_, N) => M.union N) M).shaped : Except Error ShapedMatrix) := by
  refine (foldlM_eq_ok (I := fun _ => True) (fun e _ M _ => ⟨?_, trivial⟩) trivial).1
  simp only [bind, Except.bind, BoolMatrix.union_shaped]
  rfl

theorem tryAdjacency_eq (hn : A.numStates ≤ Word32.max) :
    A.tryAdjacency = .ok A.adjacency.shaped := by
  rw [tryAdjacency, BoolMatrix.tryZero_eq hn]
  exact foldlM_union_shaped

/-- **The paths** of an automaton with few enough states. -/
theorem tryClosure_eq (hn : A.numStates ≤ Word32.max) : A.tryClosure = .ok A.closure.shaped := by
  rw [tryClosure, tryAdjacency_eq hn]
  exact BoolMatrix.closure_shaped hn

/-- The paths between too many states are refused, with the shape that does not fit. -/
theorem tryClosure_of_lt (hn : Word32.max < A.numStates) : A.tryClosure =
    .error (.dimensionMismatch (A.numStates, A.numStates) ShapedMatrix.limit) := by
  have hfits : ShapedMatrix.fits A.numStates A.numStates ≠ true := fun h =>
    Nat.not_le_of_lt hn (BoolMatrix.fits_self_iff.mp h)
  rw [tryClosure, tryAdjacency, ShapedMatrix.tryZero, if_neg hfits]
  rfl

end PathQuery.Automaton
