/-!
# Grammar/FreshName — names that are not in use

A `NameSupply` holds the names in use and a counter. A fresh name is a hint, the sign `#` and the
next number of the counter for which the name is not in use.
-/

namespace PathQuery

/-- The names in use and the last number given. -/
structure NameSupply where
  taken : List String
  counter : Nat

namespace NameSupply

/-- A supply of names different from some names in use. -/
def ofTaken (taken : List String) : NameSupply := ⟨taken, 0⟩

/-- A hint with a number. -/
def numbered (hint : String) (k : Nat) : String := hint ++ "#" ++ toString k

/-- The first number from `k` on for which the numbered hint is not taken. Of one number more than
there are names taken, one is free, so that the last of those needs no test. -/
def freeNumber (taken : List String) (hint : String) : Nat → Nat → Nat
  | 0, k => k
  | tests + 1, k =>
    if numbered hint k ∈ taken then freeNumber taken hint tests (k + 1) else k

/-- A name that is not in use, and the supply after that. -/
def fresh (S : NameSupply) (hint : String) : NameSupply × String :=
  let k := freeNumber S.taken hint S.taken.length (S.counter + 1)
  (⟨numbered hint k :: S.taken, k⟩, numbered hint k)

end NameSupply

end PathQuery
