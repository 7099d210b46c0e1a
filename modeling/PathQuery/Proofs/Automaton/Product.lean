import PathQuery.Automaton.Product
import PathQuery.Proofs.Automaton.Basic
import PathQuery.Proofs.BoolMatrix.Shaped

/-!
# Proofs/Automaton/Product — paths of a product are common walks

* `get_closure_product_iff` — the closure of a product joins two pairs of states where both automata
  have walks along one word.

The number of a pair is read back by division (`pairIndex_div`, `pairIndex_mod`), and each number
below the size of the product is that of a pair (`pairIndex_div_mod`).
-/

namespace PathQuery.Automaton

open Relation (ReflTransGen)

universe u v

variable {σ : Type u} {τ : Type v} {A : Automaton σ} {B : Automaton τ} {n i j k l c d : Nat}
  {w : List String}

/-! ## Numbers of pairs -/

theorem pairIndex_div (hk : k < n) : pairIndex n i k / n = i := BoolMatrix.mul_add_div_of_lt hk

theorem pairIndex_mod (hk : k < n) : pairIndex n i k % n = k := Nat.mul_add_mod_of_lt hk

theorem pairIndex_div_mod : pairIndex n (c / n) (c % n) = c := Nat.div_add_mod' c n

theorem pairIndex_lt {m : Nat} (hi : i < m) (hk : k < n) : pairIndex n i k < m * n := by
  have := Nat.mul_le_mul_right n hi
  rw [Nat.succ_mul] at this
  rw [pairIndex]
  omega

/-! ## Moves of the product -/

theorem size_product : (A.product B).states.size = A.numStates * B.numStates :=
  Numbering.size_product ..

theorem exists_matrix_product_iff : (∃ e ∈ (A.product B).matrices, e.2.get c d = true) ↔
    ∃ e ∈ A.matrices, ∃ N, B.matrix? e.1 = some N ∧ (e.2.kron N).get c d = true := by
  constructor
  · rintro ⟨_, hmem, hget⟩
    obtain ⟨_, hcommon, rfl⟩ := List.mem_map.mp hmem
    obtain ⟨e, he, hmap⟩ := List.mem_filterMap.mp hcommon
    obtain ⟨N, hN, rfl⟩ := Option.map_eq_some_iff.mp hmap
    exact ⟨e, he, N, hN, hget⟩
  · rintro ⟨e, he, N, hN, hget⟩
    have hmem : (e.1, e.2.kron N) ∈ commonMatrices A B :=
      List.mem_filterMap.mpr ⟨e, he, Option.map_eq_some_iff.mpr ⟨N, hN, rfl⟩⟩
    exact ⟨_, List.mem_map.mpr ⟨_, hmem, rfl⟩, hget⟩

/-- The entries of a Kronecker product, by the numbers of pairs. -/
theorem get_kron_pairIndex {M : BoolMatrix A.states.size A.states.size}
    {N : BoolMatrix B.states.size B.states.size} (hk : k < B.numStates) (hl : l < B.numStates) :
    (M.kron N).get (pairIndex B.numStates i k) (pairIndex B.numStates j l) = true ↔
      M.get i j = true ∧ N.get k l = true := by
  rw [← Bool.and_eq_true]
  exact Bool.eq_iff_iff.mp (BoolMatrix.get_kron hk hl)

/-- Two pairs are adjacent in the product where both automata make a move on one symbol. -/
theorem adjacent_product_iff (hA : A.Separated) (hk : k < B.numStates) (hl : l < B.numStates) :
    (A.product B).adjacency.get (pairIndex B.numStates i k) (pairIndex B.numStates j l) = true ↔
      ∃ s, A.Moves s i j ∧ B.Moves s k l := by
  rw [get_adjacency_iff, exists_matrix_product_iff]
  calc (∃ e ∈ A.matrices, ∃ N, B.matrix? e.1 = some N ∧
        (e.2.kron N).get (pairIndex B.numStates i k) (pairIndex B.numStates j l) = true)
    _ ↔ ∃ e ∈ A.matrices, B.Moves e.1 k l ∧ e.2.get i j = true := by
      refine exists_congr fun e => and_congr_right fun _ => ?_
      simp only [get_kron_pairIndex hk hl, ← exists_matrix?_iff]
      constructor
      · rintro ⟨N, hN, hM, hN'⟩
        exact ⟨⟨N, hN, hN'⟩, hM⟩
      · rintro ⟨⟨N, hN, hN'⟩, hM⟩
        exact ⟨N, hN, hM, hN'⟩
    _ ↔ ∃ s, B.Moves s k l ∧ A.Moves s i j := @exists_matrix_iff _ A i j hA (B.Moves · k l)
    _ ↔ ∃ s, A.Moves s i j ∧ B.Moves s k l := by simp only [and_comm]

/-! ## Paths of the product -/

theorem exists_walks_of_path (hA : A.Separated) (hi : i < A.numStates) (hk : k < B.numStates)
    (h : ReflTransGen (A.product B).adjacency.Adjacent (pairIndex B.numStates i k) c) :
    ∃ w, A.frame.Walk i w (c / B.numStates) ∧ B.frame.Walk k w (c % B.numStates) := by
  induction h with
  | refl =>
    rw [pairIndex_div hk, pairIndex_mod hk]
    exact ⟨[], .nil hi, .nil hk⟩
  | @tail c d _ hcd ih =>
    obtain ⟨w, hwA, hwB⟩ := ih
    have hpos : 0 < B.numStates := Nat.zero_lt_of_lt hk
    rw [← @pairIndex_div_mod B.numStates c, ← @pairIndex_div_mod B.numStates d] at hcd
    obtain ⟨s, hmA, hmB⟩ :=
      (adjacent_product_iff hA (Nat.mod_lt c hpos) (Nat.mod_lt d hpos)).mp hcd
    exact ⟨w ++ [s], hwA.append (.cons hmA (.nil hmA.lt.2)),
      hwB.append (.cons hmB (.nil hmB.lt.2))⟩

theorem path_of_walks (hA : A.Separated) (hwA : A.frame.Walk i w j) (hwB : B.frame.Walk k w l) :
    ReflTransGen (A.product B).adjacency.Adjacent (pairIndex B.numStates i k)
      (pairIndex B.numStates j l) := by
  induction hwA generalizing k with
  | nil =>
    obtain ⟨rfl, -⟩ := Frame.walk_nil_iff.mp hwB
    exact .refl
  | cons hmA _ ih =>
    obtain ⟨k', hmB, hwB⟩ := Frame.walk_cons_iff.mp hwB
    exact .head ((adjacent_product_iff hA hmB.lt.1 hmB.lt.2).mpr ⟨_, hmA, hmB⟩) (ih hwB)

/-- **Paths of a product** are pairs of walks along one word. -/
theorem get_closure_product_iff (hA : A.Separated) : (A.product B).closure.get c d = true ↔
    c < A.numStates * B.numStates ∧ ∃ w, A.frame.Walk (c / B.numStates) w (d / B.numStates) ∧
      B.frame.Walk (c % B.numStates) w (d % B.numStates) := by
  have hsize : c < (A.product B).states.size ↔ c < A.numStates * B.numStates := by
    rw [size_product]
  rw [closure, BoolMatrix.get_closure_iff, hsize]
  refine and_congr_right fun hc => ?_
  have hpos : 0 < B.numStates := Nat.pos_of_ne_zero fun h => by
    rw [h] at hc
    omega
  have hi : c / B.numStates < A.numStates := Nat.div_lt_of_lt_mul (Nat.mul_comm .. ▸ hc)
  constructor
  · intro h
    rw [← @pairIndex_div_mod B.numStates c] at h
    exact exists_walks_of_path hA hi (Nat.mod_lt c hpos) h
  · rintro ⟨w, hwA, hwB⟩
    have := path_of_walks hA hwA hwB
    rwa [pairIndex_div_mod, pairIndex_div_mod] at this

/-- More moves of the second automaton give more paths. -/
theorem get_closure_product_mono {B' : Automaton τ} (hA : A.Separated)
    (hsize : B.numStates = B'.numStates) (hB : ∀ s k l, B.Moves s k l → B'.Moves s k l)
    (h : (A.product B).closure.get c d = true) : (A.product B').closure.get c d = true := by
  have hnode : ∀ k, B.frame.node k → B'.frame.node k := fun k (hk : k < B.numStates) =>
    show k < B'.numStates from hsize ▸ hk
  have hmono : ∀ {w k l}, B.frame.Walk k w l → B'.frame.Walk k w l := fun hw =>
    hw.mono hnode fun k s l => hB s k l
  rw [get_closure_product_iff hA, hsize] at h
  rw [get_closure_product_iff hA]
  exact h.imp_right fun ⟨w, hwA, hwB⟩ => ⟨w, hwA, hmono hwB⟩

/-! ## The checks of a product -/

theorem matrices_product : (A.product B).matrices = (A.matrices.filter fun e => B.hasSymbol e.1).map
    fun e => (e.1, (e.2.kron (B.matrix e.1)).cast size_product.symm size_product.symm) := by
  show (commonMatrices A B).map _ = _
  rw [commonMatrices, List.map_filterMap, ← List.filterMap_eq_filter, List.map_filterMap]
  refine List.filterMap_congr fun e _ => ?_
  cases hN : B.matrix? e.1 with
  | none =>
    simp only [hasSymbol, hN, Option.guard, Option.isSome_none, Bool.false_eq_true, if_false]
    rfl
  | some N =>
    simp only [hasSymbol, matrix, hN, Option.guard, Option.isSome_some, if_true, Option.map_some,
      Option.getD_some]
    rfl

theorem tryCommonMatrices_eq (h : A.numStates * B.numStates ≤ Word32.max) :
    tryCommonMatrices A B (A.product B).numStates = .ok (A.product B).matrices := by
  have hunion : ∀ {n : Nat} {M : BoolMatrix n n}, (BoolMatrix.zero n n).union M = M := by
    refine fun {n M} => BoolMatrix.ext_get fun i j => ?_
    rw [BoolMatrix.get_union, BoolMatrix.get_zero, Bool.false_or]
  rw [matrices_product, tryCommonMatrices]
  refine mapM_eq_ok fun e _ => ?_
  have hkron : e.2.shaped.kron (B.matrix e.1).shaped = .ok (e.2.kron (B.matrix e.1)).shaped :=
    BoolMatrix.kron_shaped h h
  have hreshape : ShapedMatrix.reshape
      (BoolMatrix.zero (A.product B).numStates (A.product B).numStates).shaped
      (e.2.kron (B.matrix e.1)).shaped = .ok ((e.2.kron (B.matrix e.1)).cast _ _) :=
    BoolMatrix.reshape_cast size_product.symm size_product.symm
  simp only [bind, Except.bind, hkron, hreshape]
  exact congrArg (fun M => Except.ok (e.1, M)) hunion

theorem le_of_tryProduct {C : Automaton (σ × τ)} (h : A.tryProduct B = .ok C) :
    A.numStates * B.numStates ≤ Word32.max := by
  refine Nat.le_of_not_lt fun hlt => ?_
  rw [tryProduct, if_neg (Nat.not_le_of_lt hlt)] at h
  cases h

/-- With few enough states only the numbers of the marked pairs are still to be checked. -/
theorem tryProduct_of_le (h : A.numStates * B.numStates ≤ Word32.max) : A.tryProduct B =
    (tryPairIndices B.numStates (statePairs A.start B.start ++ statePairs A.final B.final)).map
      fun _ => A.product B := by
  have hstates : A.states.tryProduct B.states = .ok (A.product B).states :=
    if_pos (Nat.le_succ_of_le h)
  have hmatrices : tryCommonMatrices A B (A.product B).states.size = .ok (A.product B).matrices :=
    tryCommonMatrices_eq h
  rw [tryProduct, if_pos h, hstates]
  dsimp only
  rw [hmatrices]
  cases tryPairIndices B.numStates
    (statePairs A.start B.start ++ statePairs A.final B.final) <;> rfl

theorem eq_product_of_tryProduct {C : Automaton (σ × τ)} (h : A.tryProduct B = .ok C) :
    C = A.product B := by
  rw [tryProduct_of_le (le_of_tryProduct h)] at h
  cases hpairs : tryPairIndices B.numStates
      (statePairs A.start B.start ++ statePairs A.final B.final) with
  | error e =>
    rw [hpairs] at h
    cases h
  | ok _ =>
    rw [hpairs] at h
    exact (Except.ok.inj h).symm

/-- All start and final states are states. -/
def Marks (A : Automaton σ) : Prop := ∀ i, i ∈ A.start ∨ i ∈ A.final → i < A.numStates

theorem marks_iff : A.Marks ↔ ∀ i ∈ A.start ++ A.final, i < A.numStates := by
  simp only [Marks, List.mem_append]

instance : Decidable A.Marks := decidable_of_iff _ marks_iff.symm

theorem Marks.start (hA : A.Marks) : ∀ i ∈ A.start, i < A.numStates := fun i hi => hA i (.inl hi)

theorem Marks.final (hA : A.Marks) : ∀ i ∈ A.final, i < A.numStates := fun i hi => hA i (.inr hi)

/-- **The product** of automata with few enough states is formed. -/
theorem tryProduct_eq (h : A.numStates * B.numStates ≤ Word32.max) (hA : A.Marks) (hB : B.Marks) :
    A.tryProduct B = .ok (A.product B) := by
  have hpairs : tryPairIndices B.numStates
      (statePairs A.start B.start ++ statePairs A.final B.final) = .ok _ :=
    mapM_eq_ok fun e he => by
      have hlt : e.1 < A.numStates ∧ e.2 < B.numStates := by
        simp only [statePairs, List.mem_append, List.mem_flatMap, List.mem_map] at he
        rcases he with ⟨i, hi, j, hj, rfl⟩ | ⟨i, hi, j, hj, rfl⟩
        · exact ⟨hA i (.inl hi), hB j (.inl hj)⟩
        · exact ⟨hA i (.inr hi), hB j (.inr hj)⟩
      exact tryPairIndex_of_lt h hlt.1 hlt.2
  rw [tryProduct_of_le h, hpairs]
  rfl

theorem tryProduct_of_lt (h : Word32.max < A.numStates * B.numStates) : A.tryProduct B =
    .error (.dimensionMismatch (A.numStates, A.numStates) (B.numStates, B.numStates)) :=
  if_neg (Nat.not_le_of_lt h)

end PathQuery.Automaton
