import PathQuery.Automaton.Build
import PathQuery.Proofs.BoolMatrix.Closure
import PathQuery.Proofs.Data
import PathQuery.Proofs.Path.Walk

/-!
# Proofs/Automaton/Basic — the moves of an automaton

`Automaton.Moves` reads the moves off the matrices, and the operations on automata are told by what
they do to the moves: `moves_ofMoves_iff`, `moves_addMove_iff`, `moves_modify_iff` and
`moves_renameSymbols_iff`.
-/

namespace PathQuery.Automaton

universe u

variable {σ : Type u} {A : Automaton σ} {i j p q : Nat} {s t : String}

/-- The moves on a symbol. -/
def Moves (A : Automaton σ) (s : String) (i j : Nat) : Prop := (A.matrix s).get i j = true

/-- The states of an automaton and its moves. -/
def frame (A : Automaton σ) : Frame Nat String where
  node i := i < A.numStates
  edge i s j := A.Moves s i j
  source h := (BoolMatrix.lt_of_get h).1

theorem Moves.lt (h : A.Moves s i j) : i < A.numStates ∧ j < A.numStates := BoolMatrix.lt_of_get h

/-- Moves are true entries of the matrix of a symbol that has one. -/
theorem exists_matrix?_iff : (∃ M, A.matrix? s = some M ∧ M.get i j = true) ↔ A.Moves s i j := by
  rw [Moves, matrix]
  cases A.matrix? s with
  | none => simp
  | some M => simp

/-! ## Lists of moves -/

theorem lookup_map_eq {β : Type} {names : List String} {f : String → β} :
    (names.map fun name => (name, f name)).lookup s = if s ∈ names then some (f s) else none := by
  induction names with
  | nil => rfl
  | cons name names ih =>
    rw [List.map_cons, List.lookup_cons, ih]
    by_cases h : s = name
    · subst h
      simp
    · simp [beq_eq_false_iff_ne.mpr h, h]

/-- The moves that an automaton is made of, as far as they join its states. -/
theorem moves_ofMoves_iff {states : Numbering σ} {moves : List (Nat × String × Nat)}
    {start final : List Nat} : (ofMoves states moves start final).Moves s i j ↔
      (i, s, j) ∈ moves ∧ i < states.size ∧ j < states.size := by
  have hentries : (BoolMatrix.ofEntries states.size states.size (moves.filterMap fun e =>
      if e.2.1 = s then some (e.1, e.2.2) else none)).get i j = true ↔
        (i, s, j) ∈ moves ∧ i < states.size ∧ j < states.size := by
    rw [BoolMatrix.get_ofEntries]
    simp only [List.mem_filterMap, Prod.exists, Option.ite_none_right_eq_some, Option.some.injEq,
      Prod.mk.injEq]
    refine and_congr_left fun _ => ⟨?_, fun h => ⟨i, s, j, h, rfl, rfl, rfl⟩⟩
    rintro ⟨_, _, _, h, rfl, rfl, rfl⟩
    exact h
  rw [Moves, matrix, matrix?, ofMoves, lookup_map_eq]
  split
  · exact hentries
  · next hs =>
    refine iff_of_false (by simp) fun h => hs (Distinct.mem_ofList.mpr ?_)
    exact List.mem_map.mpr ⟨_, h.1, rfl⟩

/-! ## Changes -/

theorem lookup_modifyMatrix {n : Nat} {f : BoolMatrix n n → BoolMatrix n n}
    {l : List (String × BoolMatrix n n)} : (modifyMatrix s f l).lookup t =
      if t = s then some (f ((l.lookup s).getD (.zero n n))) else l.lookup t := by
  induction l with
  | nil =>
    rw [modifyMatrix, List.lookup_cons]
    by_cases h : t = s
    · simp [h]
    · simp [h, beq_eq_false_iff_ne.mpr h]
  | cons e l ih =>
    rw [modifyMatrix]
    split
    · next he =>
      subst he
      rw [List.lookup_cons, List.lookup_cons, List.lookup_cons]
      by_cases h : t = e.1
      · simp [h]
      · simp [h, beq_eq_false_iff_ne.mpr h]
    · next he =>
      rw [List.lookup_cons, List.lookup_cons, ih, List.lookup_cons]
      by_cases h : t = e.1
      · subst h
        simp [he]
      · simp [beq_eq_false_iff_ne.mpr h, beq_eq_false_iff_ne.mpr (Ne.symm he)]

/-- Changing the matrix of a symbol changes the moves on this symbol. -/
theorem moves_modify_iff
    {f : BoolMatrix A.states.size A.states.size → BoolMatrix A.states.size A.states.size} :
    (A.modify s f).Moves t i j ↔
      if t = s then (f (A.matrix s)).get i j = true else A.Moves t i j := by
  have h : (A.modify s f).matrix t = if t = s then f (A.matrix s) else A.matrix t := by
    show ((modifyMatrix s f A.matrices).lookup t).getD _ = _
    rw [lookup_modifyMatrix]
    split <;> rfl
  rw [Moves, h]
  split <;> rfl

theorem moves_addMove_iff : (A.addMove p s q).Moves t i j ↔
    A.Moves t i j ∨ t = s ∧ i = p ∧ j = q ∧ p < A.numStates ∧ q < A.numStates := by
  rw [addMove, moves_modify_iff]
  split
  · next h =>
    subst h
    rw [BoolMatrix.get_insert, Moves, and_iff_right rfl]
    rfl
  · next h => rw [or_iff_left fun ht => h ht.1]

theorem lookup_map_fst {β : Type} {f : String → String} (hf : ∀ a b, f a = f b → a = b)
    {l : List (String × β)} : (l.map fun e => (f e.1, e.2)).lookup (f s) = l.lookup s := by
  induction l with
  | nil => rfl
  | cons e l ih =>
    rw [List.map_cons, List.lookup_cons, List.lookup_cons, ih]
    by_cases h : s = e.1
    · simp [h]
    · simp [beq_eq_false_iff_ne.mpr h, beq_eq_false_iff_ne.mpr fun heq => h (hf _ _ heq)]

/-- Renaming the symbols renames them in the moves. -/
theorem moves_renameSymbols_iff {f : String → String} (hf : ∀ a b, f a = f b → a = b) :
    (A.renameSymbols f).Moves t i j ↔ ∃ s, t = f s ∧ A.Moves s i j := by
  have hmatrix : ∀ s, (A.renameSymbols f).matrix (f s) = A.matrix s := fun s => by
    show ((A.matrices.map fun e => (f e.1, e.2)).lookup (f s)).getD _ = _
    rw [lookup_map_fst hf]
    rfl
  constructor
  · intro h
    obtain ⟨M, ht, -⟩ := exists_matrix?_iff.mpr h
    obtain ⟨⟨s, _⟩, -, heq⟩ := List.mem_map.mp (mem_of_lookup_eq_some ht)
    obtain ⟨rfl, -⟩ := Prod.mk.inj heq
    rw [Moves, hmatrix] at h
    exact ⟨s, rfl, h⟩
  · rintro ⟨s, rfl, h⟩
    rwa [Moves, hmatrix]

/-! ## Adjacency -/

/-- Each symbol has one matrix. -/
def Separated (A : Automaton σ) : Prop := (A.matrices.map (·.1)).Nodup

theorem separated_ofMoves {states : Numbering σ} {moves : List (Nat × String × Nat)}
    {start final : List Nat} : (ofMoves states moves start final).Separated := by
  rw [Separated, ofMoves, List.map_map]
  exact (List.map_id _).symm ▸ Distinct.nodup_ofList _

theorem get_foldl_union_snd {n : Nat} {l : List (String × BoolMatrix n n)} {M : BoolMatrix n n} :
    (l.foldl (fun M (_, N) => M.union N) M).get i j = true ↔
      M.get i j = true ∨ ∃ e ∈ l, e.2.get i j = true := by
  induction l generalizing M with
  | nil => simp
  | cons e l ih =>
    rw [List.foldl_cons, ih, List.exists_mem_cons_iff, ← or_assoc, BoolMatrix.get_union,
      Bool.or_eq_true]

theorem get_adjacency_iff : A.adjacency.get i j = true ↔ ∃ e ∈ A.matrices, e.2.get i j = true := by
  rw [adjacency, get_foldl_union_snd, BoolMatrix.get_zero]
  simp

/-- The moves on all symbols, where each symbol has one matrix. -/
theorem exists_matrix_iff (hA : A.Separated) {c : String → Prop} :
    (∃ e ∈ A.matrices, c e.1 ∧ e.2.get i j = true) ↔ ∃ s, c s ∧ A.Moves s i j := by
  constructor
  · rintro ⟨⟨s, M⟩, he, hs, hM⟩
    exact ⟨s, hs, exists_matrix?_iff.mp ⟨M, (lookup_eq_some_iff_mem hA).mpr he, hM⟩⟩
  · rintro ⟨s, hs, hM⟩
    obtain ⟨M, h, hM⟩ := exists_matrix?_iff.mpr hM
    exact ⟨(s, M), mem_of_lookup_eq_some h, hs, hM⟩

end PathQuery.Automaton
