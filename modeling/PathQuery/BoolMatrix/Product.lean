import PathQuery.BoolMatrix.Basic

/-!
# BoolMatrix/Product — the product and the Kronecker product

`mul` composes matrices as relations: an entry of the product is true where some column of the first
matrix is a row of the second that joins the two. `kron` pairs them: rows and columns of the result
number pairs of rows and of columns, the second component counting fastest.
-/

namespace PathQuery.BoolMatrix

universe u v

variable {m n p q : Nat}

/-- The union of some ascending lists. -/
def unions (rows : List (List Nat)) : List Nat := rows.foldr Ascending.union []

theorem mem_unions {rows : List (List Nat)} {j : Nat} :
    j ∈ unions rows ↔ ∃ r ∈ rows, j ∈ r := by
  induction rows with
  | nil => simp [unions]
  | cons r rows ih => simpa [unions] using or_congr_right ih

theorem isAscending_unions {rows : List (List Nat)}
    (h : ∀ r ∈ rows, Ascending.IsAscending r) : Ascending.IsAscending (unions rows) := by
  induction rows with
  | nil => exact List.Pairwise.nil
  | cons r rows ih =>
    exact Ascending.isAscending_union (h r (List.mem_cons_self ..))
      (ih fun s hs => h s (List.mem_cons_of_mem _ hs))

/-- The product of two matrices. -/
def mul (M : BoolMatrix m n) (N : BoolMatrix n p) : BoolMatrix m p where
  rows := M.rows.map fun r => unions (r.map N.row)
  length_rows := by simp [M.length_rows]
  ascending r hr := by
    obtain ⟨s, _, rfl⟩ := List.mem_map.mp hr
    refine isAscending_unions fun t ht => ?_
    obtain ⟨j, _, rfl⟩ := List.mem_map.mp ht
    exact N.isAscending_row j
  lt_columns r hr c hc := by
    obtain ⟨s, _, rfl⟩ := List.mem_map.mp hr
    obtain ⟨t, ht, hc⟩ := mem_unions.mp hc
    obtain ⟨j, _, rfl⟩ := List.mem_map.mp ht
    exact lt_of_mem_row hc

/-- The row of a Kronecker product that pairs two rows, the second of a matrix with `q` columns. -/
def kronRow (q : Nat) (r s : List Nat) : List Nat := r.flatMap fun j => s.map fun l => j * q + l

theorem isAscending_kronRow {r s : List Nat} (hr : Ascending.IsAscending r)
    (hs : Ascending.IsAscending s) (hq : ∀ l ∈ s, l < q) :
    Ascending.IsAscending (kronRow q r s) := by
  refine List.pairwise_flatMap.mpr ⟨fun j _ => ?_, hr.imp fun {j k} hjk => ?_⟩
  · refine List.pairwise_map.mpr (hs.imp fun h => ?_)
    simp only [precedes_nat] at h ⊢
    omega
  · simp only [List.mem_map]
    rintro _ ⟨a, ha, rfl⟩ _ ⟨b, _, rfl⟩
    rw [precedes_nat] at hjk ⊢
    have h₁ : j * q + q ≤ k * q := by
      rw [← Nat.succ_mul]
      exact Nat.mul_le_mul_right q hjk
    have h₂ := hq a ha
    omega

theorem lt_of_mem_kronRow {n : Nat} {r s : List Nat} (hr : ∀ j ∈ r, j < n) (hs : ∀ l ∈ s, l < q)
    {c : Nat} (hc : c ∈ kronRow q r s) : c < n * q := by
  obtain ⟨j, hj, hc⟩ := List.mem_flatMap.mp hc
  obtain ⟨l, hl, rfl⟩ := List.mem_map.mp hc
  have h₁ : (j + 1) * q ≤ n * q := Nat.mul_le_mul_right q (hr j hj)
  have h₂ := hs l hl
  rw [Nat.succ_mul] at h₁
  omega

/-- The Kronecker product of two matrices. -/
def kron (M : BoolMatrix m n) (N : BoolMatrix p q) : BoolMatrix (m * p) (n * q) where
  rows := M.rows.flatMap fun r => N.rows.map (kronRow q r)
  length_rows := by
    simp [List.length_flatMap, List.map_const', M.length_rows, N.length_rows]
  ascending t ht := by
    obtain ⟨r, hr, ht⟩ := List.mem_flatMap.mp ht
    obtain ⟨s, hs, rfl⟩ := List.mem_map.mp ht
    exact isAscending_kronRow (M.ascending r hr) (N.ascending s hs) (N.lt_columns s hs)
  lt_columns t ht c hc := by
    obtain ⟨r, hr, ht⟩ := List.mem_flatMap.mp ht
    obtain ⟨s, hs, rfl⟩ := List.mem_map.mp ht
    exact lt_of_mem_kronRow (M.lt_columns r hr) (N.lt_columns s hs) hc

/-! ## The entries of the products -/

/-- An entry of a product is true where a row and a column have an index in common. -/
theorem get_mul {M : BoolMatrix m n} {N : BoolMatrix n p} {i j : Nat} :
    (M.mul N).get i j = true ↔ ∃ k, M.get i k = true ∧ N.get k j = true := by
  have hrow : (M.mul N).row i = unions ((M.row i).map N.row) := by
    simp only [row, mul, List.getElem?_map]
    cases M.rows[i]? <;> rfl
  simp only [get_eq_true_iff, hrow, mem_unions, List.mem_map]
  constructor
  · rintro ⟨_, ⟨k, hk, rfl⟩, hj⟩
    exact ⟨k, hk, hj⟩
  · rintro ⟨k, hk, hj⟩
    exact ⟨_, ⟨k, hk, rfl⟩, hj⟩

/-- Blocks of one length are found by their place and the place in the block. -/
theorem getElem?_flatMap_of_length {α : Type u} {β : Type v} {f : α → List β} {p k : Nat}
    (hk : k < p) :
    ∀ {l : List α}, (∀ a ∈ l, (f a).length = p) → ∀ i : Nat,
      (l.flatMap f)[i * p + k]? = l[i]?.bind fun a => (f a)[k]?
  | [], _, i => by simp
  | a :: l, hl, 0 => by
    have ha := hl a (List.mem_cons_self ..)
    rw [List.flatMap_cons, List.getElem?_append_left (by omega)]
    simp
  | a :: l, hl, i + 1 => by
    have ha := hl a (List.mem_cons_self ..)
    have hge : (f a).length ≤ (i + 1) * p + k := by rw [ha, Nat.succ_mul]; omega
    have hsub : (i + 1) * p + k - (f a).length = i * p + k := by rw [ha, Nat.succ_mul]; omega
    rw [List.flatMap_cons, List.getElem?_append_right hge, hsub,
      getElem?_flatMap_of_length hk (fun b hb => hl b (List.mem_cons_of_mem _ hb)),
      List.getElem?_cons_succ]

/-- Division reads back the first component of the number of a pair. -/
theorem mul_add_div_of_lt {j l : Nat} (hl : l < q) : (j * q + l) / q = j := by
  rw [Nat.mul_comm, Nat.mul_add_div (Nat.zero_lt_of_lt hl), Nat.div_eq_of_lt hl, Nat.add_zero]

theorem mem_kronRow {r s : List Nat} {j l : Nat} (hs : ∀ x ∈ s, x < q) (hl : l < q) :
    j * q + l ∈ kronRow q r s ↔ j ∈ r ∧ l ∈ s := by
  simp only [kronRow, List.mem_flatMap, List.mem_map]
  constructor
  · rintro ⟨j', hj', l', hl', h⟩
    have hdiv := congrArg (· / q) h
    have hmod := congrArg (· % q) h
    simp only [mul_add_div_of_lt (hs l' hl'), mul_add_div_of_lt hl] at hdiv
    simp only [Nat.mul_add_mod_of_lt (hs l' hl'), Nat.mul_add_mod_of_lt hl] at hmod
    exact ⟨hdiv ▸ hj', hmod ▸ hl'⟩
  · rintro ⟨hj, hl'⟩
    exact ⟨j, hj, l, hl', rfl⟩

/-- An entry of a Kronecker product is true where both matrices have the entries it pairs. -/
theorem get_kron {M : BoolMatrix m n} {N : BoolMatrix p q} {i j k l : Nat} (hk : k < p)
    (hl : l < q) :
    (M.kron N).get (i * p + k) (j * q + l) = (M.get i j && N.get k l) := by
  rw [Bool.eq_iff_iff, Bool.and_eq_true, get_eq_true_iff, get_eq_true_iff, get_eq_true_iff]
  have hrow : (M.kron N).rows[i * p + k]? = M.rows[i]?.bind fun r =>
      (N.rows.map (kronRow q r))[k]? :=
    getElem?_flatMap_of_length hk (fun _ _ => by simp [N.length_rows]) i
  have hN : k < N.rows.length := N.length_rows.symm ▸ hk
  simp only [row, hrow, List.getElem?_map, List.getElem?_eq_getElem hN]
  cases M.rows[i]? with
  | none => simp
  | some r => simpa using mem_kronRow (N.lt_columns _ (List.getElem_mem hN)) hl

end PathQuery.BoolMatrix
