import PathQuery.Proofs.Automaton.Intersection
import PathQuery.Proofs.BoolMatrix.Stored
import PathQuery.Proofs.Engine.Calls

/-!
# Proofs/Automaton/Layout — one numbering of pairs

    state  (p, q)  ──numbered──▸  i * n + k  ◂──row and column──  entry (i, j) beside entry (k, l)
                                      │
                                      ▾ divided by n
                                    (i, k)

* `Automaton.tryProduct_layout` — the states of a product, the rows and columns of its matrices, its
  start and final states, and the division of the tensor engine all go by the same numbers of pairs,
  and the words that compute these numbers do not overflow.

`Automaton.Layout` says where the parts of two automata stand in a third one.  The states are
numbered by taking up all pairs one after another (`Numbering.tryOfList_product`), the matrices by
words for their columns (`StoredMatrix.kron_stored`), and the marked pairs by words as well
(`tryPairIndex_of_lt`).
-/

namespace PathQuery

universe u v

/-- A pair stands where the number of the pair of its numbers says. -/
theorem Numbering.get?_product_iff {σ : Type u} {τ : Type v} {N : Numbering σ} {P : Numbering τ}
    {i k : Nat} {p : σ} {q : τ} (hk : k < P.size) :
    (N.product P).get? (i * P.size + k) = some (p, q) ↔ N.get? i = some p ∧ P.get? k = some q := by
  have hblock : (N.product P).get? (i * P.size + k) =
      (N.get? i).bind fun a => (P.states.map fun b => (a, b))[k]? :=
    BoolMatrix.getElem?_flatMap_of_length hk (fun _ _ => List.length_map ..) i
  rw [hblock, Option.bind_eq_some_iff]
  simp only [List.getElem?_map, Option.map_eq_some_iff, Prod.mk.injEq]
  constructor
  · rintro ⟨_, hp, _, hq, rfl, rfl⟩
    exact ⟨hp, hq⟩
  · exact fun ⟨hp, hq⟩ => ⟨p, hp, q, hq, rfl, rfl⟩

namespace BoolMatrix

variable {m n m' n' : Nat}

theorem shaped_cast (hm : m = m') (hn : n = n') (M : BoolMatrix m n) :
    (M.cast hm hn).shaped = M.shaped := by
  subst hm hn
  rfl

end BoolMatrix

namespace Automaton

variable {σ : Type u} {τ : Type v} {A : Automaton σ} {B : Automaton τ} {m n : Nat} {s : String}

/-! ## The numbers of pairs -/

/-- **The numbers of pairs** with a first component below `m` and a second one below `n`: computing
them in words does not overflow, they are the numbers below `m * n`, and division reads them
back. -/
structure NumbersPairs (m n : Nat) : Prop where
  word : ∀ i k, i < m → k < n → tryPairIndex n i k = .ok (pairIndex n i k)
  lt : ∀ i k, i < m → k < n → pairIndex n i k < m * n
  div : ∀ i k, i < m → k < n → pairIndex n i k / n = i
  mod : ∀ i k, i < m → k < n → pairIndex n i k % n = k
  div_lt : ∀ c, c < m * n → c / n < m
  mod_lt : ∀ c, c < m * n → c % n < n
  pair : ∀ c, c < m * n → pairIndex n (c / n) (c % n) = c

theorem numbersPairs (h : m * n ≤ Word32.max) : NumbersPairs m n where
  word _ _ := tryPairIndex_of_lt h
  lt _ _ := pairIndex_lt
  div _ _ _ := pairIndex_div
  mod _ _ _ := pairIndex_mod
  div_lt _ hc := Nat.div_lt_of_lt_mul (Nat.mul_comm .. ▸ hc)
  mod_lt _ hc := Nat.mod_lt _ (Nat.pos_of_mul_pos_left (Nat.zero_lt_of_lt hc))
  pair _ _ := pairIndex_div_mod

/-! ## The matrices of a product -/

theorem hasSymbol_product : (A.product B).hasSymbol s = (A.hasSymbol s && B.hasSymbol s) := by
  show ((A.product B).matrix? s).isSome = _
  rw [matrix?_product]
  by_cases hB : B.hasSymbol s = true
  · rw [if_pos hB, hB, Option.isSome_map, Bool.and_true]
    rfl
  · rw [if_neg hB, Bool.eq_false_of_not_eq_true hB, Bool.and_false]
    rfl

/-- The matrix of a symbol that both automata have. -/
theorem shaped_matrix_product (h : (A.product B).hasSymbol s = true) :
    ((A.product B).matrix s).shaped = ((A.matrix s).kron (B.matrix s)).shaped := by
  rw [hasSymbol_product, Bool.and_eq_true] at h
  obtain ⟨M, hM⟩ := Option.isSome_iff_exists.mp h.1
  have hA : A.matrix s = M := by
    rw [matrix, hM]
    rfl
  have hproduct : (A.product B).matrix s =
      ((A.matrix s).kron (B.matrix s)).cast size_product.symm size_product.symm := by
    rw [matrix, matrix?_product, if_pos h.2, hM, hA]
    rfl
  rw [hproduct]
  exact BoolMatrix.shaped_cast ..

/-- **Where the parts of two automata stand** in a third one whose states are pairs: the states are
all pairs, taken up one after another; a symbol has a matrix where it has one in both automata, with
an entry for each pair of entries, and computing its columns in words gives the same matrix; and the
start and final states are the pairs of start and final states. -/
structure Layout [DecidableEq σ] [DecidableEq τ] (A : Automaton σ) (B : Automaton τ)
    (C : Automaton (σ × τ)) : Prop where
  pairs : Numbering.tryOfList
    (A.states.states.flatMap fun p => B.states.states.map fun q => (p, q)) = .ok C.states
  state : ∀ i k p q, k < B.numStates → (C.states.get? (pairIndex B.numStates i k) = some (p, q) ↔
    A.states.get? i = some p ∧ B.states.get? k = some q)
  hasSymbol : ∀ s, C.hasSymbol s = (A.hasSymbol s && B.hasSymbol s)
  entry : ∀ s i j k l, k < B.numStates → l < B.numStates →
    ((C.matrix s).get (pairIndex B.numStates i k) (pairIndex B.numStates j l) = true ↔
      (A.matrix s).get i j = true ∧ (B.matrix s).get k l = true)
  words : ∀ s, C.hasSymbol s = true →
    (A.matrix s).shaped.stored.kron (B.matrix s).shaped.stored = .ok (C.matrix s).shaped.stored
  start : ∀ c, c ∈ C.start ↔ ∃ i ∈ A.start, ∃ k ∈ B.start, c = pairIndex B.numStates i k
  final : ∀ c, c ∈ C.final ↔ ∃ i ∈ A.final, ∃ k ∈ B.final, c = pairIndex B.numStates i k

theorem layout_product [DecidableEq σ] [DecidableEq τ]
    (h : A.numStates * B.numStates ≤ Word32.max) : Layout A B (A.product B) where
  pairs := (Numbering.tryOfList_product ..).trans (if_pos (Nat.le_succ_of_le h))
  state _ _ _ _ := Numbering.get?_product_iff
  hasSymbol _ := hasSymbol_product
  entry _ _ _ _ _ := moves_product_iff
  words s hs := by
    have hkron : (A.matrix s).shaped.kron (B.matrix s).shaped =
        .ok ((A.matrix s).kron (B.matrix s)).shaped := BoolMatrix.kron_shaped h h
    rw [StoredMatrix.kron_stored, hkron, shaped_matrix_product hs]
    rfl
  start _ := mem_pairIndices
  final _ := mem_pairIndices

/-- **One layout**: where the states of two automata have few enough pairs, the pairs are numbered
in words; the tensor engine takes the numbers of two pairs apart into those of a path through a box
and of the nodes beside it; and the product is formed if the marked states are states, and wherever
it is formed it has the pairs, their moves and their marks where these numbers say. -/
theorem tryProduct_layout [DecidableEq σ] [DecidableEq τ]
    (h : A.numStates * B.numStates ≤ Word32.max) :
    NumbersPairs A.numStates B.numStates ∧
      (∀ boxes names i j k l v name w, k < B.numStates → l < B.numStates →
        (Tensor.callMove? boxes names B.numStates (pairIndex B.numStates i k)
            (pairIndex B.numStates j l) = some (v, name, w) ↔
          Tensor.Passes boxes names name i j ∧ v = k ∧ w = l)) ∧
      (A.Marks → B.Marks → ∃ C, A.tryProduct B = .ok C) ∧
      ∀ C, A.tryProduct B = .ok C → Layout A B C := by
  refine ⟨numbersPairs h, fun boxes names i j k l v name w hk hl => ?_,
    fun hA hB => ⟨_, tryProduct_eq h hA hB⟩, fun C hC => ?_⟩
  · rw [Tensor.callMove?_iff_passes, pairIndex_div hk, pairIndex_div hl, pairIndex_mod hk,
      pairIndex_mod hl]
  · rw [eq_product_of_tryProduct hC]
    exact layout_product h

/-- States in a number of one's choice, with a move from the last one, which is the start state, to
the first one, which is the final state. -/
def returnAutomaton (n : Nat) : Automaton Nat :=
  .ofMoves (.range (n + 1)) [(n, "a", 0)] [n] [0]

theorem numStates_returnAutomaton (n : Nat) : (returnAutomaton n).numStates = n + 1 :=
  Numbering.size_range (n + 1)

theorem marks_returnAutomaton (n : Nat) : (returnAutomaton n).Marks := by
  intro i hi
  rw [numStates_returnAutomaton]
  rcases hi with hi | hi
  · exact List.mem_singleton.mp hi ▸ Nat.lt_succ_self n
  · exact List.mem_singleton.mp hi ▸ Nat.succ_pos n

theorem move_returnAutomaton (n : Nat) : (returnAutomaton n).Moves "a" n 0 :=
  moves_ofMoves_iff.mpr ⟨List.mem_singleton.mpr rfl, by
    rw [Numbering.size_range]
    exact ⟨Nat.lt_succ_self n, Nat.succ_pos n⟩⟩

/-- A product with as many states as there are words above zero, up to the last pair of states. -/
theorem tryProduct_layout_returnAutomaton :
    (returnAutomaton 65536).numStates * (returnAutomaton 65534).numStates = Word32.max ∧
      (returnAutomaton 65536).Marks ∧ (returnAutomaton 65534).Marks ∧
      tryPairIndex 65535 65536 65534 = .ok 4294967294 ∧
      4294967294 / 65535 = 65536 ∧ 4294967294 % 65535 = 65534 ∧
      ∃ C, (returnAutomaton 65536).tryProduct (returnAutomaton 65534) = .ok C ∧
        C.states.get? 4294967294 = some (65536, 65534) ∧ 4294967294 ∈ C.start ∧
        (C.matrix "a").get 4294967294 0 = true := by
  have hA := numStates_returnAutomaton 65536
  have hB := numStates_returnAutomaton 65534
  have hmarksA := marks_returnAutomaton 65536
  have hmarksB := marks_returnAutomaton 65534
  have hsize : (returnAutomaton 65536).numStates * (returnAutomaton 65534).numStates =
      Word32.max := by
    rw [hA, hB]
    rfl
  obtain ⟨hpairs, -, hformed, hlayout⟩ := tryProduct_layout (Nat.le_of_eq hsize)
  obtain ⟨C, hC⟩ := hformed hmarksA hmarksB
  have hl := hlayout C hC
  have hword := hpairs.word 65536 65534 (by omega) (by omega)
  have hdiv := hpairs.div 65536 65534 (by omega) (by omega)
  have hmod := hpairs.mod 65536 65534 (by omega) (by omega)
  rw [hB] at hword hdiv hmod
  refine ⟨hsize, hmarksA, hmarksB, hword, hdiv, hmod, C, hC, ?_, ?_, ?_⟩
  · have hstate := hl.state 65536 65534 65536 65534 (by omega)
    rw [hB] at hstate
    exact hstate.mpr ⟨Numbering.get?_range_eq_some_iff.mpr ⟨rfl, by omega⟩,
      Numbering.get?_range_eq_some_iff.mpr ⟨rfl, by omega⟩⟩
  · refine (hl.start _).mpr
      ⟨65536, List.mem_singleton.mpr rfl, 65534, List.mem_singleton.mpr rfl, ?_⟩
    rw [hB]
    rfl
  · have hentry := hl.entry "a" 65536 0 65534 0 (by omega) (by omega)
    rw [hB] at hentry
    exact hentry.mpr ⟨move_returnAutomaton 65536, move_returnAutomaton 65534⟩

end Automaton

end PathQuery
