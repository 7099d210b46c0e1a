import PathQuery.BoolMatrix.Product

/-!
# BoolMatrix/Family — matrices of one size, indexed by names

A fixpoint over several variables holds one square matrix for each of them. `Family.get` is the view
of a family, with no true entries for a name that it does not list; `Family.tabulate` lists the
values of a function, and `get_tabulate` reads them back. Changing one matrix changes one value of
the function (`modify_tabulate`).
-/

namespace PathQuery.BoolMatrix

/-- Square matrices of one size, listed by name. -/
abbrev Family (n : Nat) := List (String × BoolMatrix n n)

namespace Family

variable {n : Nat}

/-- The matrix with a name. -/
def get (F : Family n) (name : String) : BoolMatrix n n :=
  (List.lookup name F).getD (.zero n n)

/-- The values of a function on some names. -/
def tabulate (names : List String) (f : String → BoolMatrix n n) : Family n :=
  names.map fun name => (name, f name)

/-- The family with the matrix of a name changed. -/
def modify (F : Family n) (name : String) (f : BoolMatrix n n → BoolMatrix n n) : Family n :=
  F.map fun (s, M) => (s, if s = name then f M else M)

/-- The number of true entries of all matrices. -/
def count (F : Family n) : Nat := (F.flatMap fun (_, M) => M.rows.flatten).length

theorem get_tabulate (names : List String) (f : String → BoolMatrix n n) (name : String) :
    (tabulate names f).get name = if name ∈ names then f name else .zero n n := by
  unfold get tabulate
  induction names with
  | nil => simp
  | cons a names ih =>
    by_cases h : name = a
    · subst h
      simp
    · rw [List.map_cons, List.lookup_cons, beq_eq_false_iff_ne.mpr h]
      simpa [h] using ih

theorem modify_tabulate (names : List String) (f : String → BoolMatrix n n) (name : String)
    (h : BoolMatrix n n → BoolMatrix n n) : (tabulate names f).modify name h =
      tabulate names fun v => if v = name then h (f v) else f v := List.map_map

end Family

end PathQuery.BoolMatrix
