import PathQuery.Proofs.Automaton.Guarded
import PathQuery.Proofs.Automaton.Product
import PathQuery.Proofs.Automaton.Reach

/-!
# Proofs/Automaton/Intersection — the words of a product

* `tryProduct_accepts_both` — the product of two automata is refused where it has more states than
  words can number, and accepts else the words that both automata accept.

The matrix of a symbol in the product is the Kronecker product of its matrices in the two automata
(`matrix?_product`), so that a move between two pairs is a pair of moves on one symbol
(`moves_product_iff`), and a walk a pair of walks along one word (`walk_product_iff`).
-/

namespace PathQuery.Automaton

universe u v

variable {σ : Type u} {τ : Type v} {A : Automaton σ} {B : Automaton τ} {n i j k l c : Nat}
  {s : String} {w : List String} {is js : List Nat}

/-! ## Moves -/

/-- A symbol has a matrix in the product where it has one in both automata. -/
theorem matrix?_product : (A.product B).matrix? s =
    if B.hasSymbol s then (A.matrix? s).map fun M =>
      (M.kron (B.matrix s)).cast size_product.symm size_product.symm
    else none := by
  have hlookup : (A.product B).matrix? s =
      ((A.matrices.filter fun e => B.hasSymbol e.1).lookup s).map fun M =>
        (M.kron (B.matrix s)).cast size_product.symm size_product.symm := by
    rw [matrix?, matrices_product]
    exact @lookup_map String _ _ _ _ s _
      fun t (M : BoolMatrix A.states.size A.states.size) =>
        (M.kron (B.matrix t)).cast size_product.symm size_product.symm
  rw [hlookup, lookup_filter]
  split <;> rfl

/-- A move between two pairs is a pair of moves on one symbol. -/
theorem moves_product_iff (hk : k < B.numStates) (hl : l < B.numStates) :
    (A.product B).Moves s (pairIndex B.numStates i k) (pairIndex B.numStates j l) ↔
      A.Moves s i j ∧ B.Moves s k l := by
  rw [← exists_matrix?_iff, matrix?_product, ← @exists_matrix?_iff _ A]
  constructor
  · rintro ⟨_, hK, hget⟩
    obtain ⟨-, hK⟩ := Option.ite_none_right_eq_some.mp hK
    obtain ⟨M, hM, rfl⟩ := Option.map_eq_some_iff.mp hK
    obtain ⟨hMget, hNget⟩ := (get_kron_pairIndex hk hl).mp hget
    exact ⟨⟨M, hM, hMget⟩, hNget⟩
  · rintro ⟨⟨M, hM, hMget⟩, hB : B.Moves s k l⟩
    refine ⟨(M.kron (B.matrix s)).cast size_product.symm size_product.symm, ?_,
      (get_kron_pairIndex hk hl).mpr ⟨hMget, hB⟩⟩
    rw [if_pos hB.hasSymbol, hM]
    rfl

/-! ## Walks -/

/-- **Walks of a product** are pairs of walks along one word. -/
theorem walk_product_iff (hi : i < A.numStates) (hk : k < B.numStates) :
    (A.product B).frame.Walk (pairIndex B.numStates i k) w c ↔
      A.frame.Walk i w (c / B.numStates) ∧ B.frame.Walk k w (c % B.numStates) := by
  induction w generalizing i k with
  | nil =>
    simp only [Frame.walk_nil_iff]
    constructor
    · rintro ⟨rfl, -⟩
      exact ⟨⟨(pairIndex_div hk).symm, hi⟩, (pairIndex_mod hk).symm, hk⟩
    · rintro ⟨⟨rfl, -⟩, rfl, -⟩
      have hnode : pairIndex B.numStates (c / B.numStates) (c % B.numStates) <
          (A.product B).states.size := size_product.symm ▸ pairIndex_lt hi hk
      exact ⟨pairIndex_div_mod, hnode⟩
  | cons s w ih =>
    simp only [Frame.walk_cons_iff]
    constructor
    · rintro ⟨d, hmove, hw⟩
      have hmod : d % B.numStates < B.numStates := Nat.mod_lt d (Nat.zero_lt_of_lt hk)
      rw [← @pairIndex_div_mod B.numStates d] at hmove hw
      obtain ⟨hmA, hmB⟩ := (moves_product_iff hk hmod).mp hmove
      obtain ⟨hwA, hwB⟩ := (ih hmA.lt.2 hmod).mp hw
      exact ⟨⟨_, hmA, hwA⟩, _, hmB, hwB⟩
    · rintro ⟨⟨j, hmA, hwA⟩, l, hmB, hwB⟩
      exact ⟨_, (moves_product_iff hk hmB.lt.2).mpr ⟨hmA, hmB⟩,
        (ih hmA.lt.2 hmB.lt.2).mpr ⟨hwA, hwB⟩⟩

/-! ## Words -/

theorem mem_pairIndices : c ∈ pairIndices n is js ↔
    ∃ i ∈ is, ∃ j ∈ js, c = pairIndex n i j := by
  simp only [pairIndices, statePairs, Ascending.mem_ofList, List.mem_map, List.mem_flatMap,
    Prod.exists, Prod.mk.injEq]
  constructor
  · rintro ⟨_, _, ⟨i, hi, j, hj, rfl, rfl⟩, rfl⟩
    exact ⟨i, hi, j, hj, rfl⟩
  · rintro ⟨i, hi, j, hj, rfl⟩
    exact ⟨i, j, ⟨i, hi, j, hj, rfl, rfl⟩, rfl⟩

theorem marks_product (hA : A.Marks) (hB : B.Marks) : (A.product B).Marks := by
  intro c hc
  show c < (A.product B).states.size
  rw [size_product]
  rcases hc with hc | hc
  · obtain ⟨i, hi, k, hk, rfl⟩ := mem_pairIndices.mp hc
    exact pairIndex_lt (hA.start i hi) (hB.start k hk)
  · obtain ⟨i, hi, k, hk, rfl⟩ := mem_pairIndices.mp hc
    exact pairIndex_lt (hA.final i hi) (hB.final k hk)

theorem accepts_product_iff (hA : A.Marks) (hB : B.Marks) :
    (A.product B).accepts w = true ↔ A.accepts w = true ∧ B.accepts w = true := by
  rw [accepts_iff_walk (marks_product hA hB).start, accepts_iff_walk hA.start,
    accepts_iff_walk hB.start]
  constructor
  · rintro ⟨c, hc, d, hd, hw⟩
    obtain ⟨i, hi, k, hk, rfl⟩ := mem_pairIndices.mp hc
    obtain ⟨j, hj, l, hl, rfl⟩ := mem_pairIndices.mp hd
    obtain ⟨hwA, hwB⟩ := (walk_product_iff (hA.start i hi) (hB.start k hk)).mp hw
    rw [pairIndex_div (hB.final l hl)] at hwA
    rw [pairIndex_mod (hB.final l hl)] at hwB
    exact ⟨⟨i, hi, j, hj, hwA⟩, k, hk, l, hl, hwB⟩
  · rintro ⟨⟨i, hi, j, hj, hwA⟩, k, hk, l, hl, hwB⟩
    refine ⟨_, mem_pairIndices.mpr ⟨i, hi, k, hk, rfl⟩, _,
      mem_pairIndices.mpr ⟨j, hj, l, hl, rfl⟩, ?_⟩
    rw [walk_product_iff (hA.start i hi) (hB.start k hk), pairIndex_div (hB.final l hl),
      pairIndex_mod (hB.final l hl)]
    exact ⟨hwA, hwB⟩

/-! ## The product with its checks -/

theorem tryProduct_eq_error_iff (hA : A.Marks) (hB : B.Marks) {e : Error} :
    A.tryProduct B = .error e ↔ Word32.max < A.numStates * B.numStates ∧
      e = .dimensionMismatch (A.numStates, A.numStates) (B.numStates, B.numStates) := by
  rcases Nat.lt_or_ge Word32.max (A.numStates * B.numStates) with hlt | hle
  · rw [tryProduct_of_lt hlt, and_iff_right hlt, eq_comm, Except.error.injEq]
  · rw [tryProduct_eq hle hA hB]
    exact iff_of_false nofun fun h => Nat.not_lt_of_le hle h.1

/-- **Intersection**: the product of two automata whose marked states are states is refused exactly
where it has more states than words can number, with the shapes of the two as the only error. It is
formed else, and all three automata follow every word without a fault: the product accepts the words
that both others accept. -/
theorem tryProduct_accepts_both (hA : A.Marks) (hB : B.Marks) :
    (∀ e, A.tryProduct B = .error e ↔ Word32.max < A.numStates * B.numStates ∧
      e = .dimensionMismatch (A.numStates, A.numStates) (B.numStates, B.numStates)) ∧
      (A.numStates * B.numStates ≤ Word32.max → ∃ C, A.tryProduct B = .ok C ∧
        ∀ w, A.tryAccepts w = .ok (A.accepts w) ∧ B.tryAccepts w = .ok (B.accepts w) ∧
          C.tryAccepts w = .ok (A.accepts w && B.accepts w)) := by
  refine ⟨fun e => tryProduct_eq_error_iff hA hB, fun hle =>
    ⟨A.product B, tryProduct_eq hle hA hB, fun w =>
      ⟨tryAccepts_eq_ok hA.start, tryAccepts_eq_ok hB.start, ?_⟩⟩⟩
  have haccepts : (A.product B).accepts w = (A.accepts w && B.accepts w) :=
    Bool.eq_iff_iff.mpr ((accepts_product_iff hA hB).trans (Bool.and_eq_true _ _).symm.to_iff)
  rw [tryAccepts_eq_ok (marks_product hA hB).start, haccepts]

/-- The words with an even number of letters `a`, and any letters `b`. -/
def evenAutomaton : Automaton Nat :=
  .ofMoves (.range 2) [(0, "a", 1), (1, "a", 0), (0, "b", 0), (1, "b", 1)] [0] [0]

/-- An automaton with two start states, one of them final, and a symbol that the other one does not
have. -/
def twoStartAutomaton : Automaton Nat :=
  .ofMoves (.range 3) [(0, "a", 2), (1, "c", 2), (2, "a", 2)] [0, 1] [1, 2]

/-- States in such a number that pairs of them are too many. -/
def wideAutomaton : Automaton Nat := .ofStates (.range 70000)

theorem tryProduct_accepts_both_evenAutomaton :
    evenAutomaton.Marks ∧ twoStartAutomaton.Marks ∧ wideAutomaton.Marks ∧
      (∃ C, evenAutomaton.tryProduct twoStartAutomaton = .ok C ∧
        C.tryAccepts [] = .ok true ∧ C.tryAccepts ["a", "a"] = .ok true ∧
        C.tryAccepts ["a"] = .ok false ∧ C.tryAccepts ["b"] = .ok false ∧
        C.tryAccepts ["c"] = .ok false) ∧
      wideAutomaton.tryProduct wideAutomaton =
        .error (.dimensionMismatch (70000, 70000) (70000, 70000)) := by
  have heven : evenAutomaton.Marks := by decide
  have htwo : twoStartAutomaton.Marks := by decide
  have hwide : wideAutomaton.Marks := by decide
  have hsize : wideAutomaton.numStates = 70000 := Numbering.size_range 70000
  obtain ⟨-, hok⟩ := tryProduct_accepts_both heven htwo
  obtain ⟨C, hC, haccepts⟩ := hok (by decide)
  refine ⟨heven, htwo, hwide, ⟨C, hC, (haccepts _).2.2, (haccepts _).2.2, (haccepts _).2.2,
    (haccepts _).2.2, (haccepts _).2.2⟩, ((tryProduct_accepts_both hwide hwide).1 _).mpr ?_⟩
  rw [hsize]
  exact ⟨by decide, rfl⟩

end PathQuery.Automaton
