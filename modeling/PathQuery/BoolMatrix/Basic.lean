import PathQuery.Ascending

/-!
# BoolMatrix/Basic — matrices of truth values

A `BoolMatrix m n` holds for each of its `m` rows the ascending list of the columns below `n` in
which it is true. The number of rows and columns is part of the type, so an operation that needs
matching shapes can only be applied to them. `get` is the view through which a matrix is understood:
matrices with the same entries are equal (`ext_get`), and each operation has a law that gives its
entries.
-/

namespace PathQuery

/-- A matrix of truth values with `m` rows and `n` columns. -/
structure BoolMatrix (m n : Nat) where
  /-- For each row the columns in which it is true. -/
  rows : List (List Nat)
  length_rows : rows.length = m
  ascending : ∀ r ∈ rows, Ascending.IsAscending r
  lt_columns : ∀ r ∈ rows, ∀ j ∈ r, j < n
  deriving DecidableEq

namespace BoolMatrix

variable {m n : Nat}

/-- The columns in which a row is true; a row beyond the last one has none. -/
def row (M : BoolMatrix m n) (i : Nat) : List Nat := (M.rows[i]?).getD []

/-- The entry of a row and a column, false beyond the last ones. -/
def get (M : BoolMatrix m n) (i j : Nat) : Bool := decide (j ∈ M.row i)

/-- The matrix without true entries. -/
def zero (m n : Nat) : BoolMatrix m n where
  rows := List.replicate m []
  length_rows := List.length_replicate
  ascending r hr := by simp [List.eq_of_mem_replicate hr]
  lt_columns r hr := by simp [List.eq_of_mem_replicate hr]

/-- The matrix that is true on the diagonal. -/
def identity (n : Nat) : BoolMatrix n n where
  rows := (List.range n).map fun i => [i]
  length_rows := by simp
  ascending r hr := by
    obtain ⟨i, _, rfl⟩ := List.mem_map.mp hr
    simp
  lt_columns r hr j hj := by
    obtain ⟨i, hi, rfl⟩ := List.mem_map.mp hr
    exact List.mem_singleton.mp hj ▸ List.mem_range.mp hi

/-- The matrix with one more true entry; an entry outside of it is left out. -/
def insert (M : BoolMatrix m n) (i j : Nat) : BoolMatrix m n where
  rows := if j < n then M.rows.modify i (Ascending.insert j) else M.rows
  length_rows := by split <;> simp [M.length_rows]
  ascending r hr := by
    split at hr
    · obtain ⟨k, hk, rfl⟩ := List.mem_iff_getElem.mp hr
      rw [List.getElem_modify]
      split
      · exact Ascending.isAscending_insert (M.ascending _ (List.getElem_mem _))
      · exact M.ascending _ (List.getElem_mem _)
    · exact M.ascending r hr
  lt_columns r hr c hc := by
    split at hr
    · next hj =>
      obtain ⟨k, hk, rfl⟩ := List.mem_iff_getElem.mp hr
      rw [List.getElem_modify] at hc
      split at hc
      · rcases Ascending.mem_insert.mp hc with rfl | hc
        · exact hj
        · exact M.lt_columns _ (List.getElem_mem _) c hc
      · exact M.lt_columns _ (List.getElem_mem _) c hc
    · exact M.lt_columns r hr c hc

/-- The matrix that is true at some entries; those outside of it are left out. -/
def ofEntries (m n : Nat) (entries : List (Nat × Nat)) : BoolMatrix m n :=
  entries.foldl (fun M (i, j) => M.insert i j) (zero m n)

/-- The matrix that is true where either of two is. -/
def union (M N : BoolMatrix m n) : BoolMatrix m n where
  rows := List.zipWith Ascending.union M.rows N.rows
  length_rows := by simp [M.length_rows, N.length_rows]
  ascending r hr := by
    obtain ⟨k, hk, rfl⟩ := List.mem_iff_getElem.mp hr
    rw [List.getElem_zipWith]
    exact Ascending.isAscending_union (M.ascending _ (List.getElem_mem _))
      (N.ascending _ (List.getElem_mem _))
  lt_columns r hr c hc := by
    obtain ⟨k, hk, rfl⟩ := List.mem_iff_getElem.mp hr
    rw [List.getElem_zipWith] at hc
    exact (Ascending.mem_union.mp hc).elim (M.lt_columns _ (List.getElem_mem _) c)
      (N.lt_columns _ (List.getElem_mem _) c)

/-- The matrix that is true where the first of two is and the second is not. -/
def difference (M N : BoolMatrix m n) : BoolMatrix m n where
  rows := List.zipWith (fun r s => r.filter fun j => decide (j ∉ s)) M.rows N.rows
  length_rows := by simp [M.length_rows, N.length_rows]
  ascending r hr := by
    obtain ⟨k, hk, rfl⟩ := List.mem_iff_getElem.mp hr
    rw [List.getElem_zipWith]
    exact (M.ascending _ (List.getElem_mem _)).filter _
  lt_columns r hr c hc := by
    obtain ⟨k, hk, rfl⟩ := List.mem_iff_getElem.mp hr
    rw [List.getElem_zipWith] at hc
    exact M.lt_columns _ (List.getElem_mem _) c (List.mem_filter.mp hc).1

/-- The number of true entries. -/
def count (M : BoolMatrix m n) : Nat := M.rows.flatten.length

/-- Whether no entry is true. -/
def isEmpty (M : BoolMatrix m n) : Bool := M.rows.all List.isEmpty

/-- The true entries, row by row. -/
def entries (M : BoolMatrix m n) : List (Nat × Nat) :=
  M.rows.zipIdx.flatMap fun (r, i) => r.map fun j => (i, j)

/-- The same matrix, with its shape written in another way. -/
def cast {m' n' : Nat} (hm : m = m') (hn : n = n') (M : BoolMatrix m n) : BoolMatrix m' n' where
  rows := M.rows
  length_rows := hm ▸ M.length_rows
  ascending := M.ascending
  lt_columns := hn ▸ M.lt_columns

/-! ## Rows and entries -/

theorem isAscending_row (M : BoolMatrix m n) (i : Nat) : Ascending.IsAscending (M.row i) := by
  unfold row
  cases h : M.rows[i]? with
  | none => exact List.Pairwise.nil
  | some r => exact M.ascending r (List.mem_of_getElem? h)

theorem lt_of_mem_row {M : BoolMatrix m n} {i j : Nat} (hj : j ∈ M.row i) : j < n := by
  unfold row at hj
  cases h : M.rows[i]? with
  | none => simp [h] at hj
  | some r => exact M.lt_columns r (List.mem_of_getElem? h) j (by simpa [h] using hj)

theorem row_lt_of_mem {M : BoolMatrix m n} {i j : Nat} (hj : j ∈ M.row i) : i < m := by
  unfold row at hj
  cases h : M.rows[i]? with
  | none => simp [h] at hj
  | some r => exact M.length_rows ▸ (List.getElem?_eq_some_iff.mp h).1

theorem get_eq_true_iff {M : BoolMatrix m n} {i j : Nat} :
    M.get i j = true ↔ j ∈ M.row i := decide_eq_true_iff

/-- Matrices with the same entries are equal. -/
theorem ext_get {M N : BoolMatrix m n} (h : ∀ i j, M.get i j = N.get i j) : M = N := by
  have hrow : ∀ i, M.row i = N.row i := fun i =>
    Ascending.eq_of_mem_iff (M.isAscending_row i) (N.isAscending_row i) fun j => by
      rw [← get_eq_true_iff, ← get_eq_true_iff, h]
  have hrows : M.rows = N.rows := by
    refine List.ext_getElem (M.length_rows.trans N.length_rows.symm) fun i hM hN => ?_
    simpa [row, List.getElem?_eq_getElem hM, List.getElem?_eq_getElem hN] using hrow i
  cases M
  cases N
  simp_all

/-! ## The entries of each operation -/

@[simp] theorem get_zero (i j : Nat) : (zero m n).get i j = false := by
  simp only [get, row, zero, List.getElem?_replicate]
  split <;> simp

theorem get_identity {i j : Nat} : (identity n).get i j = true ↔ i = j ∧ i < n := by
  rw [get_eq_true_iff]
  by_cases hi : i < n
  · simp [row, identity, hi, eq_comm]
  · simp [row, identity, hi]

theorem get_insert {M : BoolMatrix m n} {i j a b : Nat} :
    (M.insert i j).get a b = true ↔
      M.get a b = true ∨ (a = i ∧ b = j ∧ i < m ∧ j < n) := by
  rw [get_eq_true_iff, get_eq_true_iff]
  by_cases hj : j < n
  · simp only [row, insert, hj, if_true, List.getElem?_modify]
    by_cases hai : i = a
    · subst hai
      by_cases hi : i < m
      · have hlt : i < M.rows.length := M.length_rows.symm ▸ hi
        simp [List.getElem?_eq_getElem hlt, hi, or_comm]
      · have hge : M.rows.length ≤ i := M.length_rows.symm ▸ Nat.le_of_not_lt hi
        simp [List.getElem?_eq_none hge, hi]
    · simp [hai, Ne.symm hai]
  · simp [row, insert, hj]

theorem get_ofEntries {entries : List (Nat × Nat)} {i j : Nat} :
    (ofEntries m n entries).get i j = true ↔ (i, j) ∈ entries ∧ i < m ∧ j < n := by
  have key : ∀ (M : BoolMatrix m n),
      (entries.foldl (fun M (i, j) => M.insert i j) M).get i j = true ↔
        M.get i j = true ∨ (i, j) ∈ entries ∧ i < m ∧ j < n := by
    induction entries with
    | nil => simp
    | cons e entries ih =>
      intro M
      rw [List.foldl_cons, ih, get_insert, List.mem_cons, or_assoc, or_and_right]
      refine or_congr_right (or_congr_left ⟨?_, ?_⟩)
      · rintro ⟨rfl, rfl, h⟩
        exact ⟨rfl, h⟩
      · rintro ⟨rfl, h⟩
        exact ⟨rfl, rfl, h⟩
  simpa [ofEntries] using key (zero m n)

theorem get_union {M N : BoolMatrix m n} {i j : Nat} :
    (M.union N).get i j = (M.get i j || N.get i j) := by
  rw [Bool.eq_iff_iff, Bool.or_eq_true, get_eq_true_iff, get_eq_true_iff, get_eq_true_iff]
  simp only [row, union, List.getElem?_zipWith]
  by_cases hi : i < m
  · have hM : i < M.rows.length := M.length_rows.symm ▸ hi
    have hN : i < N.rows.length := N.length_rows.symm ▸ hi
    simp [List.getElem?_eq_getElem hM, List.getElem?_eq_getElem hN]
  · have hM : M.rows.length ≤ i := M.length_rows.symm ▸ Nat.le_of_not_lt hi
    have hN : N.rows.length ≤ i := N.length_rows.symm ▸ Nat.le_of_not_lt hi
    simp [List.getElem?_eq_none hM, List.getElem?_eq_none hN]

theorem get_difference {M N : BoolMatrix m n} {i j : Nat} :
    (M.difference N).get i j = (M.get i j && !N.get i j) := by
  rw [Bool.eq_iff_iff, Bool.and_eq_true, Bool.not_eq_true', ← Bool.not_eq_true, get_eq_true_iff,
    get_eq_true_iff, get_eq_true_iff]
  simp only [row, difference, List.getElem?_zipWith]
  by_cases hi : i < m
  · have hM : i < M.rows.length := M.length_rows.symm ▸ hi
    have hN : i < N.rows.length := N.length_rows.symm ▸ hi
    simp [List.getElem?_eq_getElem hM, List.getElem?_eq_getElem hN]
  · have hM : M.rows.length ≤ i := M.length_rows.symm ▸ Nat.le_of_not_lt hi
    have hN : N.rows.length ≤ i := N.length_rows.symm ▸ Nat.le_of_not_lt hi
    simp [List.getElem?_eq_none hM, List.getElem?_eq_none hN]

@[simp] theorem get_cast {m' n' : Nat} (hm : m = m') (hn : n = n') (M : BoolMatrix m n)
    (i j : Nat) : (M.cast hm hn).get i j = M.get i j := rfl

theorem mem_entries {M : BoolMatrix m n} {i j : Nat} :
    (i, j) ∈ M.entries ↔ M.get i j = true := by
  rw [get_eq_true_iff]
  simp only [entries, List.mem_flatMap, List.mem_map, Prod.exists, Prod.mk.injEq,
    List.mk_mem_zipIdx_iff_getElem?, row]
  constructor
  · rintro ⟨r, k, hr, c, hc, rfl, rfl⟩
    simpa [hr] using hc
  · intro h
    cases hr : M.rows[i]? with
    | none => simp [hr] at h
    | some r => exact ⟨r, i, hr, j, by simpa [hr] using h, rfl, rfl⟩

end BoolMatrix

end PathQuery
