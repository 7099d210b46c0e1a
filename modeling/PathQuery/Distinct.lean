/-!
# Distinct — lists without repetitions, in order of first occurrence

`Distinct.unseen known l` keeps of `l` what is not known, each value once, where it first occurs;
`Distinct.ofList` is the case in which nothing is known. `mem_unseen` and `nodup_unseen` say what
they hold, and `unseen_map` that they do so under other names.
-/

namespace PathQuery.Distinct

universe u v

variable {α : Type u} [DecidableEq α]

/-- The members of a list that are not known, each once, in order of first occurrence. -/
def unseen (known : List α) : List α → List α
  | [] => []
  | a :: l => if a ∈ known then unseen known l else a :: unseen (a :: known) l

/-- The members of a list, each once, in order of first occurrence. -/
def ofList (l : List α) : List α := unseen [] l

@[simp] theorem mem_unseen {known l : List α} {x : α} :
    x ∈ unseen known l ↔ x ∈ l ∧ x ∉ known := by
  induction l generalizing known with
  | nil => simp [unseen]
  | cons a l ih =>
    simp only [unseen]
    split
    · next ha =>
      rw [ih, List.mem_cons]
      exact ⟨fun h => ⟨.inr h.1, h.2⟩,
        fun h => ⟨h.1.resolve_left fun hx => h.2 (hx ▸ ha), h.2⟩⟩
    · next ha =>
      rw [List.mem_cons, ih, List.mem_cons, List.mem_cons, not_or]
      constructor
      · rintro (rfl | ⟨hl, _, hk⟩)
        · exact ⟨.inl rfl, ha⟩
        · exact ⟨.inr hl, hk⟩
      · rintro ⟨rfl | hl, hk⟩
        · exact .inl rfl
        · by_cases hx : x = a
          · exact .inl hx
          · exact .inr ⟨hl, hx, hk⟩

/-- Only the members of the known values matter. -/
theorem unseen_congr {known known' : List α} (h : ∀ a, a ∈ known ↔ a ∈ known') (l : List α) :
    unseen known l = unseen known' l := by
  induction l generalizing known known' with
  | nil => rfl
  | cons a l ih =>
    have hcons : ∀ b, b ∈ a :: known ↔ b ∈ a :: known' := fun b => by
      rw [List.mem_cons, List.mem_cons, h]
    simp only [unseen, h, ih h, ih hcons]

theorem unseen_append (known l l' : List α) :
    unseen known (l ++ l') = unseen known l ++ unseen (known ++ unseen known l) l' := by
  induction l generalizing known with
  | nil => simp [unseen]
  | cons a l ih =>
    rw [List.cons_append]
    simp only [unseen]
    split
    · exact ih known
    · have hmem : ∀ b, b ∈ (a :: known) ++ unseen (a :: known) l ↔
          b ∈ known ++ a :: unseen (a :: known) l := fun b => by
        simp only [List.mem_append, List.mem_cons, or_left_comm, or_assoc]
      rw [ih, unseen_congr hmem]
      rfl

theorem nodup_unseen (known l : List α) : (unseen known l).Nodup := by
  induction l generalizing known with
  | nil => exact List.nodup_nil
  | cons a l ih =>
    simp only [unseen]
    split
    · exact ih known
    · exact List.nodup_cons.mpr ⟨fun h => (mem_unseen.mp h).2 (List.mem_cons_self ..), ih _⟩

@[simp] theorem mem_ofList {l : List α} {x : α} : x ∈ ofList l ↔ x ∈ l := by
  simp [ofList]

theorem nodup_ofList (l : List α) : (ofList l).Nodup := nodup_unseen [] l

/-- One more value stands at the end, unless it has occurred. -/
theorem ofList_concat (l : List α) (a : α) :
    ofList (l ++ [a]) = if a ∈ l then ofList l else ofList l ++ [a] := by
  have hlast : ofList (l ++ [a]) = ofList l ++ unseen (ofList l) [a] := unseen_append [] l [a]
  rw [hlast]
  simp only [unseen, mem_ofList]
  split
  · exact List.append_nil _
  · rfl

theorem unseen_of_nodup {known l : List α} (hl : l.Nodup) (hknown : ∀ a ∈ l, a ∉ known) :
    unseen known l = l := by
  induction l generalizing known with
  | nil => rfl
  | cons a l ih =>
    obtain ⟨ha, hl⟩ := List.nodup_cons.mp hl
    rw [unseen, if_neg (hknown a (List.mem_cons_self ..)), ih hl fun b hb => ?_]
    rw [List.mem_cons, not_or]
    exact ⟨fun hab => ha (hab ▸ hb), hknown b (List.mem_cons_of_mem _ hb)⟩

theorem ofList_of_nodup {l : List α} (hl : l.Nodup) : ofList l = l :=
  unseen_of_nodup hl fun _ _ => List.not_mem_nil

/-- Renaming values, different ones differently, changes nothing but the names. -/
theorem unseen_map {β : Type v} [DecidableEq β] {f : α → β} {known l : List α}
    (hf : ∀ a ∈ l, ∀ b ∈ known ++ l, f a = f b → a = b) :
    unseen (known.map f) (l.map f) = (unseen known l).map f := by
  induction l generalizing known with
  | nil => rfl
  | cons a l ih =>
    have hmem : f a ∈ known.map f ↔ a ∈ known := by
      refine ⟨fun h => ?_, List.mem_map_of_mem⟩
      obtain ⟨b, hb, hab⟩ := List.mem_map.mp h
      exact hf a (List.mem_cons_self ..) b (List.mem_append_left _ hb) hab.symm ▸ hb
    have hrest : ∀ b ∈ l, ∀ c ∈ known ++ a :: l, f b = f c → b = c := fun b hb =>
      hf b (List.mem_cons_of_mem _ hb)
    simp only [List.map_cons, unseen, hmem]
    split
    · refine ih fun b hb c hc => hrest b hb c ?_
      exact (List.mem_append.mp hc).elim (List.mem_append_left _)
        fun hc => List.mem_append_right _ (List.mem_cons_of_mem _ hc)
    · rw [← List.map_cons, ih fun b hb c hc => hrest b hb c ?_, List.map_cons]
      simpa only [List.cons_append, List.mem_append, List.mem_cons, or_left_comm] using hc

end PathQuery.Distinct
