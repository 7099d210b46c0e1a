import Mathlib.Data.List.Perm.Subperm
import Mathlib.Data.List.ProdSigma
import PathQuery.BoolMatrix.Family
import PathQuery.Search

/-!
# Proofs/BoolMatrix/Count — growing matrices stop growing

A fixpoint is recognized by its number of true entries.  That is enough: of a matrix within another
one, the two are equal as soon as the second has no more entries (`get_of_count_le`), and no matrix
has more entries than places (`count_le`).  Both carry over to families over one list of names
(`Family.eq_of_count_le`, `Family.count_tabulate_le`).
-/

namespace PathQuery.BoolMatrix

variable {m n : Nat} {M N : BoolMatrix m n} {i j : Nat}

/-- A matrix is within another where all its true entries are true there. -/
instance : LE (BoolMatrix m n) := ⟨fun M N => ∀ i j, M.get i j = true → N.get i j = true⟩

theorem le_union : M ≤ M.union N := fun i j h => by rw [get_union, h, Bool.true_or]

/-! ## Entries -/

theorem lt_of_get (h : M.get i j = true) : i < m ∧ j < n :=
  ⟨row_lt_of_mem (get_eq_true_iff.mp h), lt_of_mem_row (get_eq_true_iff.mp h)⟩

theorem nodup_entries (M : BoolMatrix m n) : M.entries.Nodup := by
  have hplaces : M.rows.zipIdx.Pairwise fun r s => r.2 ≠ s.2 := by
    refine List.pairwise_map.mp ?_
    rw [List.zipIdx_map_snd]
    exact List.nodup_range'
  refine List.pairwise_flatMap.mpr ⟨fun r hr => ?_, hplaces.imp fun {r s} hrs => ?_⟩
  · have hrow := M.ascending _ (List.fst_mem_of_mem_zipIdx hr)
    refine List.pairwise_map.mpr ((Ascending.nodup_of_isAscending hrow).imp fun h h' => h ?_)
    exact (Prod.ext_iff.mp h').2
  · simp only [List.mem_map]
    rintro _ ⟨a, _, rfl⟩ _ ⟨b, _, rfl⟩ h
    exact hrs (Prod.ext_iff.mp h).1

theorem length_entries (M : BoolMatrix m n) : M.entries.length = M.count := by
  have h : ∀ (rows : List (List Nat)) (k : Nat),
      ((rows.zipIdx k).flatMap fun e => e.1.map fun j => (e.2, j)).length =
        rows.flatten.length := by
    intro rows
    induction rows with
    | nil => exact fun _ => rfl
    | cons r rows ih =>
      intro k
      rw [List.zipIdx_cons, List.flatMap_cons, List.length_append, ih, List.length_map,
        List.flatten_cons, List.length_append]
  exact h M.rows 0

/-! ## Counts -/

variable {m' n' : Nat} {N' : BoolMatrix m' n'}

theorem entries_subset (h : ∀ i j, M.get i j = true → N'.get i j = true) :
    M.entries ⊆ N'.entries := fun (i, j) he => mem_entries.mpr (h i j (mem_entries.mp he))

theorem count_le_count (h : ∀ i j, M.get i j = true → N'.get i j = true) : M.count ≤ N'.count := by
  rw [← length_entries, ← length_entries]
  exact Search.length_le_of_nodup M.nodup_entries (entries_subset h)

/-- **No growth, no change**: where a matrix has no more entries than one within it, it has no
others.  The two need not be given with the same shape. -/
theorem get_of_count_le (h : ∀ i j, M.get i j = true → N'.get i j = true)
    (hcount : N'.count ≤ M.count) (hij : N'.get i j = true) : M.get i j = true := by
  rw [← length_entries, ← length_entries] at hcount
  have hperm : M.entries.Perm N'.entries :=
    (List.subperm_of_subset M.nodup_entries (entries_subset h)).perm_of_length_le hcount
  exact mem_entries.mp (hperm.mem_iff.mpr (mem_entries.mpr hij))

theorem eq_of_count_le (h : M ≤ N) (hcount : N.count ≤ M.count) : M = N :=
  ext_get fun i j => Bool.eq_iff_iff.mpr ⟨h i j, get_of_count_le h hcount⟩

theorem count_le (M : BoolMatrix m n) : M.count ≤ m * n := by
  have h := @Search.length_le_of_nodup _ _ M.entries (List.range m ×ˢ List.range n) M.nodup_entries
    fun (i, j) he => by
      obtain ⟨hi, hj⟩ := lt_of_get (mem_entries.mp he)
      exact List.mem_product.mpr ⟨List.mem_range.mpr hi, List.mem_range.mpr hj⟩
  rwa [length_entries, List.length_product, List.length_range, List.length_range] at h

theorem count_eq_zero_iff : M.count = 0 ↔ ∀ i j, ¬M.get i j = true := by
  rw [← length_entries, List.length_eq_zero_iff, List.eq_nil_iff_forall_not_mem, Prod.forall]
  simp only [mem_entries]

theorem isEmpty_iff : M.isEmpty = true ↔ ∀ i j, ¬M.get i j = true := by
  rw [← count_eq_zero_iff, isEmpty, count, List.length_eq_zero_iff, List.flatten_eq_nil_iff]
  simp only [List.all_eq_true, List.isEmpty_iff]

theorem get_foldl_union {ι : Type} {l : List ι} {c : ι → Prop} [DecidablePred c]
    {f : ι → BoolMatrix m n} :
    (l.foldl (fun M a => if c a then M.union (f a) else M) M).get i j = true ↔
      M.get i j = true ∨ ∃ a ∈ l, c a ∧ (f a).get i j = true := by
  induction l generalizing M with
  | nil => simp
  | cons a l ih =>
    rw [List.foldl_cons, ih, List.exists_mem_cons_iff, ← or_assoc]
    refine or_congr_left ?_
    split
    · next h => rw [get_union, Bool.or_eq_true, and_iff_right h]
    · next h => rw [or_iff_left fun ha => h ha.1]

/-! ## Families -/

namespace Family

variable {names : List String} {f f' : String → BoolMatrix n n} {v : String}

/-- A matrix of the family has a true entry. -/
def Has (F : Family n) (v : String) (i j : Nat) : Prop := (F.get v).get i j = true

theorem has_tabulate_iff : (tabulate names f).Has v i j ↔ v ∈ names ∧ (f v).get i j = true := by
  rw [Has, get_tabulate]
  split
  · next hv => rw [and_iff_right hv]
  · next hv => simp [hv]

theorem count_tabulate_cons :
    (tabulate (v :: names) f).count = (f v).count + (tabulate names f).count := by
  rw [count, tabulate, List.map_cons, List.flatMap_cons, List.length_append]
  rfl

/-- Families over one list of names with the same true entries are equal. -/
theorem tabulate_eq_of_has_iff
    (h : ∀ v i j, (tabulate names f).Has v i j ↔ (tabulate names f').Has v i j) :
    tabulate names f = tabulate names f' := by
  refine List.map_congr_left fun v hv => Prod.ext rfl (ext_get fun i j => ?_)
  have hvij := h v i j
  rw [has_tabulate_iff, has_tabulate_iff, and_iff_right hv, and_iff_right hv] at hvij
  exact Bool.eq_iff_iff.mpr hvij

theorem count_tabulate_le : (tabulate names f).count ≤ names.length * (n * n) := by
  induction names with
  | nil => exact Nat.zero_le _
  | cons v names ih =>
    rw [count_tabulate_cons, List.length_cons, Nat.succ_mul, Nat.add_comm]
    exact Nat.add_le_add ih (f v).count_le

theorem count_tabulate_mono (h : ∀ v ∈ names, f v ≤ f' v) :
    (tabulate names f).count ≤ (tabulate names f').count := by
  induction names with
  | nil => exact Nat.le_refl _
  | cons v names ih =>
    rw [count_tabulate_cons, count_tabulate_cons]
    exact Nat.add_le_add (count_le_count (h v (List.mem_cons_self ..)))
      (ih fun u hu => h u (List.mem_cons_of_mem _ hu))

/-- **No growth, no change**, for each matrix of a family. -/
theorem eq_of_count_le (h : ∀ v ∈ names, f v ≤ f' v)
    (hcount : (tabulate names f').count ≤ (tabulate names f).count) : ∀ v ∈ names, f v = f' v := by
  induction names with
  | nil => exact fun v hv => absurd hv List.not_mem_nil
  | cons v names ih =>
    have hv := h v (List.mem_cons_self ..)
    have hrest : ∀ u ∈ names, f u ≤ f' u := fun u hu => h u (List.mem_cons_of_mem _ hu)
    have hmono := count_tabulate_mono hrest
    rw [count_tabulate_cons, count_tabulate_cons] at hcount
    have hle := count_le_count hv
    rintro u (_ | ⟨_, hu⟩)
    · exact BoolMatrix.eq_of_count_le hv (by omega)
    · exact ih hrest (by omega) u hu

end Family

end PathQuery.BoolMatrix
