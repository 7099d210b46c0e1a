import PathQuery.BoolMatrix.Table
import PathQuery.Proofs.BoolMatrix.Shaped
import PathQuery.Proofs.Data

/-!
# Proofs/BoolMatrix/Table — tables of matrices of one size

The matrices of a family have one size, so the checks of a table that is made of a family
(`Family.table`) do not fail: what is done to a matrix of the table is done to the one of the family
(`Family.trySet_table`, `Family.tryUnion_table`), provided that its name is listed, and once.
-/

namespace PathQuery.BoolMatrix.Family

variable {n : Nat} {F : Family n} {l : List String} {u v : String} {i j : Nat}
  {M : BoolMatrix n n} {f : BoolMatrix n n → BoolMatrix n n}

/-- The matrices of a family as ones that carry their shapes. -/
def table (F : Family n) : MatrixTable := F.map fun (v, M) => (v, M.shaped)

/-- The names that a family lists. -/
abbrev names (F : Family n) : List String := F.map (·.1)

/-! ## Changes of one matrix -/

@[simp] theorem names_tabulate {f : String → BoolMatrix n n} : (tabulate l f).names = l := by
  simp [tabulate, names, Function.comp_def]

@[simp] theorem names_modify : (F.modify v f).names = F.names := by
  simp [modify, names, Function.comp_def]

theorem lookup_eq_some_get (hv : v ∈ F.names) : List.lookup v F = some (F.get v) := by
  rw [get]
  cases h : List.lookup v F with
  | none =>
    obtain ⟨a, ha, rfl⟩ := List.mem_map.mp hv
    have := List.lookup_eq_none_iff.mp h a ha
    simp at this
  | some M => rfl

theorem get_modify (hv : v ∈ F.names) :
    (F.modify v f).get u = if u = v then f (F.get v) else F.get u := by
  rw [get, modify, lookup_map (f := fun s M => if s = v then f M else M)]
  split
  · next h =>
    subst h
    simp [lookup_eq_some_get hv]
  · next h =>
    rw [get]
    cases List.lookup u F <;> simp

/-- A family that lists no name twice is given by its matrices. -/
theorem eq_tabulate (hF : F.names.Nodup) : F = tabulate F.names F.get := by
  rw [tabulate, List.map_map]
  refine (List.map_id F).symm.trans (List.map_congr_left fun e he => Prod.ext rfl ?_)
  rw [Function.comp_apply, get, (lookup_eq_some_iff_mem hF).mpr he]
  rfl

/-- Families that list the same names, none of them twice, with the same true entries are equal. -/
theorem ext_has {G : Family n} (hF : F.names.Nodup) (hnames : G.names = F.names)
    (h : ∀ v i j, F.Has v i j ↔ G.Has v i j) : F = G := by
  have hG : G = tabulate F.names G.get := hnames ▸ eq_tabulate (hnames ▸ hF)
  rw [eq_tabulate hF, hG]
  refine tabulate_eq_of_has_iff fun v i j => ?_
  rw [← eq_tabulate hF, ← hG]
  exact h v i j

/-- **No growth, no change**, for families that list the same names, none of them twice. -/
theorem eq_of_has_of_count_le {G : Family n} (hF : F.names.Nodup) (hnames : G.names = F.names)
    (h : ∀ v i j, F.Has v i j → G.Has v i j) (hcount : G.count ≤ F.count) : F = G := by
  have hG : G = tabulate F.names G.get := hnames ▸ eq_tabulate (hnames ▸ hF)
  rw [eq_tabulate hF, hG] at hcount
  rw [eq_tabulate hF, hG]
  refine List.map_congr_left fun v hv => ?_
  rw [eq_of_count_le (fun v _ => h v) hcount v hv]

/-! ## The table of a family -/

theorem table_tabulate_const : (tabulate l fun _ => M).table = MatrixTable.const l M.shaped :=
  List.map_map

theorem count_table : F.table.count = F.count := by
  rw [MatrixTable.count, count, List.length_flatMap, table, List.foldl_map,
    List.sum_eq_foldl_nat, List.foldl_map]
  rfl

theorem tryGet_table (hv : v ∈ F.names) : F.table.tryGet v = .ok (F.get v).shaped := by
  have hlookup : List.lookup v F.table = some (F.get v).shaped :=
    (lookup_map (f := fun _ => BoolMatrix.shaped)).trans (congrArg _ (lookup_eq_some_get hv))
  rw [MatrixTable.tryGet, hlookup]

theorem replace_table (hF : F.names.Nodup) :
    F.table.replace v (f (F.get v)).shaped = (F.modify v f).table := by
  rw [MatrixTable.replace, table, modify, table, List.map_map, List.map_map]
  refine List.map_congr_left fun e he => Prod.ext rfl ?_
  simp only [Function.comp_apply]
  split
  · next h => rw [← h, get, (lookup_eq_some_iff_mem hF).mpr he]; rfl
  · rfl

theorem trySet_table (hF : F.names.Nodup) (hv : v ∈ F.names) (hi : i < n) (hj : j < n) :
    F.table.trySet v i j = .ok (F.modify v (·.insert i j)).table := by
  rw [MatrixTable.trySet, tryGet_table hv, ← replace_table hF]
  simp only [bind, Except.bind, trySet_shaped hi hj]
  rfl

theorem tryUnion_table (hF : F.names.Nodup) (hv : v ∈ F.names) : F.table.tryUnion v M.shaped =
    .ok ((F.modify v (·.union M)).table, ((F.get v).union M).count - (F.get v).count) := by
  rw [MatrixTable.tryUnion, tryGet_table hv, ← replace_table hF]
  simp only [bind, Except.bind, union_shaped]
  rfl

/-! ## Added entries -/

/-- A table is that of a family with further true entries. -/
def Adds (F : Family n) (result : Except Error MatrixTable) (P : String → Nat → Nat → Prop) :
    Prop :=
  ∃ F' : Family n, F'.names = F.names ∧ result = .ok F'.table ∧
    ∀ v i j, F'.Has v i j ↔ F.Has v i j ∨ P v i j

theorem Adds.congr {result : Except Error MatrixTable} {P Q : String → Nat → Nat → Prop}
    (h : F.Adds result P) (hPQ : ∀ v i j, P v i j ↔ Q v i j) : F.Adds result Q := by
  obtain ⟨F', hnames, hresult, hhas⟩ := h
  exact ⟨F', hnames, hresult, fun v i j => (hhas v i j).trans (or_congr_right (hPQ v i j))⟩

theorem adds_ite {c : Prop} [Decidable c] {result : Except Error MatrixTable}
    {P : String → Nat → Nat → Prop} (h : c → F.Adds result P) :
    F.Adds (if c then result else .ok F.table) fun v i j => c ∧ P v i j := by
  split
  · next hc => simpa only [hc, true_and] using h hc
  · next hc => exact ⟨F, rfl, rfl, fun _ _ _ => (or_iff_left fun hP => hc hP.1).symm⟩

theorem adds_trySet (hF : F.names.Nodup) (hv : v ∈ F.names) (hi : i < n) (hj : j < n) :
    F.Adds (F.table.trySet v i j) fun u a b => u = v ∧ a = i ∧ b = j := by
  refine ⟨_, names_modify, trySet_table hF hv hi hj, fun u a b => ?_⟩
  rw [Has, get_modify hv]
  split
  · next h =>
    subst h
    rw [BoolMatrix.get_insert]
    exact or_congr_right ⟨fun h => ⟨rfl, h.1, h.2.1⟩, fun h => ⟨h.2.1, h.2.2, hi, hj⟩⟩
  · next h => exact (or_iff_left fun hu => h hu.1).symm

theorem adds_tryUnion (hF : F.names.Nodup) (hv : v ∈ F.names) :
    F.Adds ((F.table.tryUnion v M.shaped).map (·.1)) fun u a b => u = v ∧ M.get a b = true := by
  refine ⟨F.modify v (·.union M), names_modify, ?_, fun u a b => ?_⟩
  · rw [tryUnion_table hF hv]
    rfl
  · rw [Has, get_modify hv]
    split
    · next h =>
      subst h
      rw [BoolMatrix.get_union, Bool.or_eq_true]
      exact or_congr_right (and_iff_right rfl).symm
    · next h => exact (or_iff_left fun hu => h hu.1).symm

/-- What the steps of a loop add, one after another. -/
theorem adds_foldlM {ι : Type} {l : List ι} {step : MatrixTable → ι → Except Error MatrixTable}
    {P : ι → String → Nat → Nat → Prop}
    (hstep : ∀ x ∈ l, ∀ G : Family n, G.names = F.names → G.Adds (step G.table x) (P x)) :
    F.Adds (l.foldlM step F.table) fun v i j => ∃ x ∈ l, P x v i j := by
  induction l generalizing F with
  | nil => exact ⟨F, rfl, rfl, fun v i j => by simp⟩
  | cons x l ih =>
    obtain ⟨G, hG, hx, hhas⟩ := hstep x (List.mem_cons_self ..) F rfl
    obtain ⟨G', hG', hl, hhas'⟩ := @ih G fun y hy H hH =>
      hstep y (List.mem_cons_of_mem _ hy) H (hH.trans hG)
    refine ⟨G', hG'.trans hG, ?_, fun v i j => ?_⟩
    · rw [List.foldlM_cons, hx]
      exact hl
    · simp only [hhas', hhas, List.exists_mem_cons_iff, or_assoc]

end PathQuery.BoolMatrix.Family
