import PathQuery.Distinct

/-!
# Search — breadth-first and depth-first search

`Search.reach next bound seeds` lists what can be reached from the seeds by repeated steps of
`next`, each value once, in breadth-first order. The search visits at most `bound` values; where all
reachable values are among `bound` ones, it visits them all (`mem_reach_iff`), as the search without
a bound does (`loop_reach`). What that one finds is determined (`Loop.unique`) and does not depend
on what the values are called (`Loop.map`).

`Search.finds next goal bound seeds` goes depth-first and ends at the first goal: it finds one where
some reachable value is a goal (`finds_iff`), and as the search without a bound does (`seeks_finds`).
-/

namespace PathQuery.Search

universe u v

variable {α : Type u} [DecidableEq α]

/-- Visits the pending values in order, adding behind them the unseen ones that each leads to, for
at most the given number of visits. -/
def visit (next : α → List α) : Nat → List α → List α → List α
  | 0, visited, _ => visited
  | _ + 1, visited, [] => visited
  | bound + 1, visited, a :: pending =>
    visit next bound (visited ++ [a])
      (pending ++ Distinct.unseen (visited ++ a :: pending) (next a))

/-- The values reachable from the seeds, in breadth-first order. -/
def reach (next : α → List α) (bound : Nat) (seeds : List α) : List α :=
  visit next bound [] (Distinct.ofList seeds)

/-- The visits without a bound, from what is visited and what is pending to all that is found. -/
inductive Loop (next : α → List α) : List α → List α → List α → Prop where
  | stop (visited : List α) : Loop next visited [] visited
  | visit {visited pending found : List α} {a : α} :
      Loop next (visited ++ [a])
        (pending ++ Distinct.unseen (visited ++ a :: pending) (next a)) found →
      Loop next visited (a :: pending) found

/-- What is visited and pending comes first in what is found. -/
theorem Loop.exists_append {next : α → List α} {visited pending found : List α}
    (h : Loop next visited pending found) : ∃ l, found = visited ++ pending ++ l := by
  induction h with
  | stop visited => exact ⟨[], by simp⟩
  | visit _ ih =>
    obtain ⟨l, hl⟩ := ih
    exact ⟨_ ++ l, by simpa using hl⟩

/-- The visits end with one list. -/
theorem Loop.unique {next : α → List α} {visited pending found found' : List α}
    (h : Loop next visited pending found) (h' : Loop next visited pending found') :
    found = found' := by
  induction h with
  | stop =>
    cases h'
    rfl
  | visit _ ih =>
    cases h' with
    | visit h' => exact ih h'

/-- **Renaming** the values of a search, different ones differently, renames what it finds. -/
theorem Loop.map {β : Type v} [DecidableEq β] {next : α → List α} {next' : β → List β} {f : α → β}
    {visited pending found : List α} (h : Loop next visited pending found)
    (hf : ∀ a ∈ found, ∀ b ∈ found, f a = f b → a = b)
    (hnext : ∀ a ∈ found, next' (f a) = (next a).map f) :
    Loop next' (visited.map f) (pending.map f) (found.map f) := by
  induction h with
  | stop => exact .stop _
  | @visit visited pending found a hrest ih =>
    obtain ⟨l, hl⟩ := hrest.exists_append
    have hfound : found = (visited ++ a :: pending) ++
        (Distinct.unseen (visited ++ a :: pending) (next a) ++ l) := by simpa using hl
    have hmem : ∀ b ∈ visited ++ a :: pending ++ next a, b ∈ found := fun b hb => by
      rw [hfound]
      by_cases hseen : b ∈ visited ++ a :: pending
      · exact List.mem_append_left _ hseen
      · have hnew := Distinct.mem_unseen.mpr ⟨(List.mem_append.mp hb).resolve_left hseen, hseen⟩
        exact List.mem_append_right _ (List.mem_append_left _ hnew)
    have ha : a ∈ found := hmem a (by simp)
    have hunseen : Distinct.unseen (visited.map f ++ f a :: pending.map f) (next' (f a)) =
        (Distinct.unseen (visited ++ a :: pending) (next a)).map f := by
      rw [hnext a ha, ← List.map_cons, ← List.map_append]
      exact Distinct.unseen_map fun b hb c hc => hf b (hmem b (List.mem_append_right _ hb)) c
        (hmem c hc)
    refine .visit ?_
    rw [hunseen]
    simpa using ih hf hnext

/-- Visits the pending values, those added last first, until one of them is a goal, for at most the
given number of visits. -/
def seek (next : α → List α) (goal : α → Bool) : Nat → List α → List α → Bool
  | 0, _, _ => false
  | _ + 1, _, [] => false
  | bound + 1, visited, a :: pending =>
    goal a || seek next goal bound (visited ++ [a])
      ((Distinct.unseen (visited ++ a :: pending) (next a)).reverse ++ pending)

/-- Whether a goal is reachable, by a depth-first search that begins with the last seed. -/
def finds (next : α → List α) (goal : α → Bool) (bound : Nat) (seeds : List α) : Bool :=
  seek next goal bound [] (Distinct.ofList seeds).reverse

/-- The visits without a bound, from what is visited and what is pending to whether they end at a
goal. -/
inductive Seeks (next : α → List α) (goal : α → Bool) : List α → List α → Bool → Prop where
  | stop (visited : List α) : Seeks next goal visited [] false
  | goal {visited pending : List α} {a : α} :
      goal a = true → Seeks next goal visited (a :: pending) true
  | visit {visited pending : List α} {a : α} {found : Bool} : goal a = false →
      Seeks next goal (visited ++ [a])
        ((Distinct.unseen (visited ++ a :: pending) (next a)).reverse ++ pending) found →
      Seeks next goal visited (a :: pending) found

/-- A value that repeated steps lead to from a seed. -/
inductive Reachable {α : Type u} (next : α → List α) (seeds : List α) : α → Prop where
  | seed {a : α} : a ∈ seeds → Reachable next seeds a
  | step {a b : α} : Reachable next seeds a → b ∈ next a → Reachable next seeds b

section Reachable

variable {α : Type u} {next next' : α → List α} {seeds : List α} {a b : α}

theorem reachable_self : Reachable next [a] a := .seed (List.mem_singleton.mpr rfl)

theorem Reachable.trans (ha : Reachable next seeds a) (hb : Reachable next [a] b) :
    Reachable next seeds b := by
  induction hb with
  | seed h => exact List.mem_singleton.mp h ▸ ha
  | step _ hc ih => exact .step ih hc

/-- Where the steps of a search are reached by another one, so is all that they lead to. -/
theorem Reachable.transfer (h : ∀ a b, b ∈ next a → Reachable next' [a] b)
    (ha : Reachable next seeds a) : Reachable next' seeds a := by
  induction ha with
  | seed hs => exact .seed hs
  | step _ hb ih => exact ih.trans (h _ _ hb)

/-- What is reached elsewhere is reached by a first step. -/
theorem Reachable.eq_or_exists_mem (h : Reachable next [a] b) : b = a ∨ ∃ c, c ∈ next a := by
  induction h with
  | seed h => exact .inl (List.mem_singleton.mp h)
  | step _ hb ih =>
    rcases ih with rfl | h
    · exact .inr ⟨_, hb⟩
    · exact .inr h

end Reachable

/-- A list without repetitions is no longer than a list with all its members. -/
theorem length_le_of_nodup {l univ : List α} (hl : l.Nodup) (h : ∀ a ∈ l, a ∈ univ) :
    l.length ≤ univ.length := by
  induction l generalizing univ with
  | nil => exact Nat.zero_le _
  | cons a l ih =>
    obtain ⟨hal, hl⟩ := List.nodup_cons.mp hl
    have ha := h a (List.mem_cons_self ..)
    have hle : l.length ≤ (univ.erase a).length := ih hl fun b hb =>
      (List.mem_erase_of_ne fun hba : b = a => hal (hba ▸ hb)).mpr
        (h b (List.mem_cons_of_mem _ hb))
    have := List.length_erase_of_mem ha
    have := List.length_pos_of_mem ha
    simp only [List.length_cons]
    omega

/-- What a search holds: different values, all of them reachable, and with the visited ones also
those that they lead to. -/
structure Holds (next : α → List α) (seeds visited pending : List α) : Prop where
  nodup : (visited ++ pending).Nodup
  reachable : ∀ a ∈ visited ++ pending, Reachable next seeds a
  closed : ∀ a ∈ visited, ∀ b ∈ next a, b ∈ visited ++ pending
  seeds_mem : ∀ a ∈ seeds, a ∈ visited ++ pending

theorem Holds.ofSeeds (next : α → List α) (seeds : List α) :
    Holds next seeds [] (Distinct.ofList seeds) where
  nodup := Distinct.nodup_ofList seeds
  reachable _ ha := .seed (Distinct.mem_ofList.mp ha)
  closed := by simp
  seeds_mem _ ha := Distinct.mem_ofList.mpr ha

theorem Holds.visit_one {next : α → List α} {seeds visited pending : List α} {a : α}
    (h : Holds next seeds visited (a :: pending)) :
    Holds next seeds (visited ++ [a])
      (pending ++ Distinct.unseen (visited ++ a :: pending) (next a)) := by
  have assoc : ∀ new : List α,
      (visited ++ [a]) ++ (pending ++ new) = (visited ++ a :: pending) ++ new := by simp
  constructor
  · rw [assoc]
    refine List.nodup_append.mpr ⟨h.nodup, Distinct.nodup_unseen .., fun b hb c hc hbc => ?_⟩
    exact (Distinct.mem_unseen.mp hc).2 (hbc ▸ hb)
  · rw [assoc]
    intro b hb
    rcases List.mem_append.mp hb with hb | hb
    · exact h.reachable b hb
    · exact .step (h.reachable a (by simp)) (Distinct.mem_unseen.mp hb).1
  · rw [assoc]
    intro b hb c hc
    rcases List.mem_append.mp hb with hb | hb
    · exact List.mem_append_left _ (h.closed b hb c hc)
    · obtain rfl := List.mem_singleton.mp hb
      by_cases hmem : c ∈ visited ++ b :: pending
      · exact List.mem_append_left _ hmem
      · exact List.mem_append_right _ (Distinct.mem_unseen.mpr ⟨hc, hmem⟩)
  · rw [assoc]
    exact fun b hb => List.mem_append_left _ (h.seeds_mem b hb)

section Pending

variable {α : Type u} {next : α → List α} {seeds visited pending pending' : List α} {a : α}

/-- Once nothing is pending, every reachable value is visited. -/
theorem Holds.mem_visited (h : Holds next seeds visited []) (ha : Reachable next seeds a) :
    a ∈ visited := by
  induction ha with
  | seed hs => simpa using h.seeds_mem _ hs
  | step _ hab ih => simpa using h.closed _ ih _ hab

/-- Once nothing is pending and no goal was visited, none is reachable. -/
theorem Holds.not_exists_goal {goal : α → Bool} (h : Holds next seeds visited [])
    (hgoal : ∀ a ∈ visited, goal a = false) : ¬∃ a, Reachable next seeds a ∧ goal a = true := by
  rintro ⟨a, ha, htrue⟩
  exact Bool.false_ne_true ((hgoal a (h.mem_visited ha)).symm.trans htrue)

/-- The order in which values are pending does not matter. -/
theorem Holds.perm (h : Holds next seeds visited pending) (hperm : pending.Perm pending') :
    Holds next seeds visited pending' := by
  have hmem : ∀ {a}, a ∈ visited ++ pending' ↔ a ∈ visited ++ pending :=
    (hperm.append_left visited).mem_iff.symm
  exact {
    nodup := (hperm.append_left visited).nodup_iff.mp h.nodup
    reachable a ha := h.reachable a (hmem.mp ha)
    closed a ha b hb := hmem.mpr (h.closed a ha b hb)
    seeds_mem a ha := hmem.mpr (h.seeds_mem a ha) }

end Pending

/-- Depth-first search adds what is new in front of what is pending. -/
theorem Holds.seek_one {next : α → List α} {seeds visited pending : List α} {a : α}
    (h : Holds next seeds visited (a :: pending)) :
    Holds next seeds (visited ++ [a])
      ((Distinct.unseen (visited ++ a :: pending) (next a)).reverse ++ pending) :=
  h.visit_one.perm (List.perm_append_comm.trans ((List.reverse_perm _).symm.append_right _))

section Bound

variable {next : α → List α} {seeds univ visited pending : List α}

/-- Nothing is pending where as many values are visited as can be reached. -/
theorem Holds.pending_eq_nil (h : Holds next seeds visited pending)
    (huniv : ∀ a, Reachable next seeds a → a ∈ univ) (hb : univ.length ≤ visited.length) :
    pending = [] := by
  have hle := length_le_of_nodup h.nodup fun b hb => huniv b (h.reachable b hb)
  rw [List.length_append] at hle
  exact List.length_eq_zero_iff.mp (by omega)

/-- A search that may visit all of a list with every reachable value leaves nothing pending, and is
the one without a bound. -/
theorem Holds.visit_all (huniv : ∀ a, Reachable next seeds a → a ∈ univ) (bound : Nat)
    (h : Holds next seeds visited pending) (hb : univ.length ≤ visited.length + bound) :
    Holds next seeds (visit next bound visited pending) [] ∧
      Loop next visited pending (visit next bound visited pending) := by
  induction bound generalizing visited pending with
  | zero =>
    obtain rfl := h.pending_eq_nil huniv hb
    exact ⟨h, .stop visited⟩
  | succ bound ih =>
    match pending with
    | [] => exact ⟨h, .stop visited⟩
    | a :: pending =>
      obtain ⟨hholds, hloop⟩ :=
        ih h.visit_one (by rw [List.length_append, List.length_singleton]; omega)
      exact ⟨hholds, .visit hloop⟩

/-- A search without a goal among the visited values, which may visit all of a list with every
reachable value, ends at a goal exactly where one is reachable, and is the one without a bound. -/
theorem Holds.seek_iff {goal : α → Bool} (huniv : ∀ a, Reachable next seeds a → a ∈ univ)
    (bound : Nat) (h : Holds next seeds visited pending) (hgoal : ∀ a ∈ visited, goal a = false)
    (hb : univ.length ≤ visited.length + bound) :
    Seeks next goal visited pending (seek next goal bound visited pending) ∧
      (seek next goal bound visited pending = true ↔
        ∃ a, Reachable next seeds a ∧ goal a = true) := by
  induction bound generalizing visited pending with
  | zero =>
    obtain rfl := h.pending_eq_nil huniv hb
    exact ⟨.stop visited, iff_of_false Bool.false_ne_true (h.not_exists_goal hgoal)⟩
  | succ bound ih =>
    match pending with
    | [] => exact ⟨.stop visited, iff_of_false Bool.false_ne_true (h.not_exists_goal hgoal)⟩
    | a :: pending =>
      cases ha : goal a with
      | true =>
        have hreach := h.reachable a (List.mem_append_right _ (List.mem_cons_self ..))
        rw [seek, ha, Bool.true_or]
        exact ⟨.goal ha, iff_of_true rfl ⟨a, hreach, ha⟩⟩
      | false =>
        have hvisited : ∀ b ∈ visited ++ [a], goal b = false := fun b hb =>
          (List.mem_append.mp hb).elim (hgoal b) fun hb => List.mem_singleton.mp hb ▸ ha
        have hlength : univ.length ≤ (visited ++ [a]).length + bound := by
          rw [List.length_append, List.length_singleton]
          omega
        obtain ⟨hseeks, hiff⟩ := ih h.seek_one hvisited hlength
        rw [seek, ha, Bool.false_or]
        exact ⟨.visit ha hseeks, hiff⟩

end Bound

section Reach

variable {next : α → List α} {bound : Nat} {seeds univ : List α}

theorem holds_reach (huniv : ∀ a, Reachable next seeds a → a ∈ univ) (hb : univ.length ≤ bound) :
    Holds next seeds (reach next bound seeds) [] ∧
      Loop next [] (Distinct.ofList seeds) (reach next bound seeds) :=
  (Holds.ofSeeds next seeds).visit_all huniv bound (by simpa using hb)

/-- The search finds exactly the reachable values. -/
theorem mem_reach_iff (huniv : ∀ a, Reachable next seeds a → a ∈ univ)
    (hb : univ.length ≤ bound) {a : α} : a ∈ reach next bound seeds ↔ Reachable next seeds a := by
  have h := (holds_reach huniv hb).1
  exact ⟨fun ha => h.reachable a (by simpa using ha), h.mem_visited⟩

/-- The search is not cut short by its bound. -/
theorem loop_reach (huniv : ∀ a, Reachable next seeds a → a ∈ univ) (hb : univ.length ≤ bound) :
    Loop next [] (Distinct.ofList seeds) (reach next bound seeds) := (holds_reach huniv hb).2

theorem finds_spec {goal : α → Bool} (huniv : ∀ a, Reachable next seeds a → a ∈ univ)
    (hb : univ.length ≤ bound) :
    Seeks next goal [] (Distinct.ofList seeds).reverse (finds next goal bound seeds) ∧
      (finds next goal bound seeds = true ↔ ∃ a, Reachable next seeds a ∧ goal a = true) :=
  ((Holds.ofSeeds next seeds).perm (List.reverse_perm _).symm).seek_iff huniv bound
    (fun _ ha => absurd ha List.not_mem_nil) (by simpa using hb)

/-- The depth-first search ends at a goal exactly where a reachable value is one. -/
theorem finds_iff {goal : α → Bool} (huniv : ∀ a, Reachable next seeds a → a ∈ univ)
    (hb : univ.length ≤ bound) :
    finds next goal bound seeds = true ↔ ∃ a, Reachable next seeds a ∧ goal a = true :=
  (finds_spec huniv hb).2

/-- The depth-first search is not cut short by its bound. -/
theorem seeks_finds {goal : α → Bool} (huniv : ∀ a, Reachable next seeds a → a ∈ univ)
    (hb : univ.length ≤ bound) :
    Seeks next goal [] (Distinct.ofList seeds).reverse (finds next goal bound seeds) :=
  (finds_spec huniv hb).1

end Reach

end PathQuery.Search
