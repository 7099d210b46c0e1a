import PathQuery.Error

/-!
# Word32 — the range of an index

State numbers, columns and repetition counts are 32-bit words, of which `Word32.max` is the
greatest. `Word32.tryAdd` and `Word32.tryMul` are the sum and the product of two words; they fail
exactly where the result is no word (`tryAdd_of_le`, `tryMul_of_le`).
-/

namespace PathQuery.Word32

/-- The greatest 32-bit word. -/
def max : Nat := 4294967295

/-- The sum of two words, unless it is beyond the range. -/
def tryAdd (a b : Nat) : Except Error Nat :=
  if a + b ≤ max then .ok (a + b) else .error (.fault .sumOverflow)

/-- The product of two words, unless it is beyond the range. -/
def tryMul (a b : Nat) : Except Error Nat :=
  if a * b ≤ max then .ok (a * b) else .error (.fault .productOverflow)

theorem tryAdd_of_le {a b : Nat} (h : a + b ≤ max) : tryAdd a b = .ok (a + b) := if_pos h

theorem tryMul_of_le {a b : Nat} (h : a * b ≤ max) : tryMul a b = .ok (a * b) := if_pos h

end PathQuery.Word32
