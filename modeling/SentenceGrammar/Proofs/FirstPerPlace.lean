import SentenceGrammar.Matching.Reading

/-!
# The first reading per place

Readings that stop where an earlier one stopped are dropped again and again on the way. That makes
no difference in the end: whatever is built from a list in the order of preference keeps the same
first element for each place, whether duplicates are dropped early or late.
-/
namespace SentenceGrammar.Matching

variable {α β : Type}

theorem keepNew_congr {place : α → Nat} {seen seen' : List Nat}
    (same : ∀ p, p ∈ seen ↔ p ∈ seen') (list : List α) :
    keepNew place seen list = keepNew place seen' list := by
  induction list generalizing seen seen' with
  | nil => rfl
  | cons x rest ih =>
    by_cases old : place x ∈ seen
    · simp only [keepNew, if_pos old, if_pos ((same _).mp old), ih same]
    · have old' : place x ∉ seen' := fun h => old ((same _).mpr h)
      simp only [keepNew, if_neg old, if_neg old']
      rw [ih]
      intro p
      simp [same p]

theorem keepNew_sublist (place : α → Nat) (seen : List Nat) (list : List α) :
    (keepNew place seen list).Sublist list := by
  induction list generalizing seen with
  | nil => exact .slnil
  | cons x rest ih =>
    rw [keepNew]
    split
    · exact (ih _).cons x
    · exact (ih _).cons_cons x

/-- Every place of the list is seen before or kept. -/
theorem exists_mem_keepNew {place : α → Nat} {seen : List Nat} {list : List α} {x : α}
    (member : x ∈ list) (new : place x ∉ seen) :
    ∃ kept ∈ keepNew place seen list, place kept = place x := by
  induction list generalizing seen with
  | nil => simp at member
  | cons y rest ih =>
    rw [keepNew]
    rcases List.mem_cons.mp member with rfl | later
    · rw [if_neg new]
      exact ⟨x, List.mem_cons_self, rfl⟩
    · split
      · exact ih later new
      -- If the head stops there too, it is the one that is kept.
      · by_cases same : place x = place y
        · exact ⟨y, List.mem_cons_self, same.symm⟩
        · have new' : place x ∉ place y :: seen := by simp [same, new]
          obtain ⟨kept, found, equal⟩ := ih later new'
          exact ⟨kept, List.mem_cons_of_mem _ found, equal⟩

theorem not_seen_of_mem_keepNew {place : α → Nat} {seen : List Nat} {list : List α} {x : α}
    (kept : x ∈ keepNew place seen list) : place x ∉ seen := by
  induction list generalizing seen with
  | nil => simp [keepNew] at kept
  | cons y rest ih =>
    rw [keepNew] at kept
    split at kept
    · exact ih kept
    next new =>
      rcases List.mem_cons.mp kept with rfl | later
      · exact new
      · exact fun old => ih later (List.mem_cons_of_mem _ old)

theorem pairwise_keepNew (place : α → Nat) (seen : List Nat) (list : List α) :
    (keepNew place seen list).Pairwise fun x y => place x ≠ place y := by
  induction list generalizing seen with
  | nil => exact .nil
  | cons x rest ih =>
    rw [keepNew]
    split
    · exact ih _
    · refine List.pairwise_cons.mpr ⟨?_, ih _⟩
      intro y kept same
      exact not_seen_of_mem_keepNew kept (same ▸ List.mem_cons_self)

theorem keepNew_of_pairwise {place : α → Nat} {seen : List Nat} {list : List α}
    (distinct : list.Pairwise fun x y => place x ≠ place y)
    (new : ∀ x ∈ list, place x ∉ seen) : keepNew place seen list = list := by
  induction list generalizing seen with
  | nil => rfl
  | cons x rest ih =>
    obtain ⟨first, others⟩ := List.pairwise_cons.mp distinct
    rw [keepNew, if_neg (new x List.mem_cons_self), ih others]
    intro y member old
    rcases List.mem_cons.mp old with same | old
    · exact first y member same.symm
    · exact new y (List.mem_cons_of_mem _ member) old

theorem keepNew_append (place : α → Nat) (seen : List Nat) (front back : List α) :
    keepNew place seen (front ++ back) =
      keepNew place seen front ++
        keepNew place ((keepNew place seen front).map place ++ seen) back := by
  induction front generalizing seen with
  | nil => rfl
  | cons x rest ih =>
    rw [List.cons_append, keepNew, keepNew]
    split
    · exact ih _
    · rw [ih, List.cons_append, List.map_cons]
      -- Both sides have seen the same places, only in another order.
      congr 2
      apply keepNew_congr
      intro p
      simp only [List.mem_append, List.mem_cons, or_assoc, or_left_comm]

theorem keepNew_map (place : β → Nat) (f : α → β) (seen : List Nat) (list : List α) :
    keepNew place seen (list.map f) = (keepNew (fun x => place (f x)) seen list).map f := by
  induction list generalizing seen with
  | nil => rfl
  | cons x rest ih =>
    rw [List.map_cons, keepNew, keepNew]
    split
    · exact ih _
    · rw [ih, List.map_cons]

/-- What is seen anyway may be dropped beforehand. -/
theorem keepNew_keepNew (place : α → Nat) {early seen : List Nat} (below : ∀ p ∈ early, p ∈ seen)
    (list : List α) : keepNew place seen (keepNew place early list) = keepNew place seen list := by
  induction list generalizing early seen with
  | nil => rfl
  | cons x rest ih =>
    by_cases old : place x ∈ early
    · rw [keepNew, if_pos old, keepNew, if_pos (below _ old), ih below]
    · rw [keepNew, if_neg old, keepNew, keepNew]
      split
      -- The head is dropped on both sides, though for another reason.
      next seenBefore =>
        apply ih
        intro p member
        rcases List.mem_cons.mp member with rfl | member
        · exact seenBefore
        · exact below p member
      next =>
        rw [ih]
        intro p member
        rcases List.mem_cons.mp member with rfl | member
        · exact List.mem_cons_self
        · exact List.mem_cons_of_mem _ (below p member)

/-- Of what comes behind the elements of a list, only that behind some of them is of a kind. -/
theorem filter_flatMap_of_late {list : List α} {next : α → List β} (early : α → Bool)
    (kind : β → Bool) (late : ∀ x ∈ list, early x = false → ∀ y ∈ next x, kind y = false) :
    (list.flatMap next).filter kind = (list.filter early).flatMap fun x => (next x).filter kind := by
  induction list with
  | nil => rfl
  | cons x rest ih =>
    have others := ih fun y member => late y (List.mem_cons_of_mem _ member)
    rw [List.flatMap_cons, List.filter_append, List.filter_cons, others]
    split
    · rfl
    next never =>
      have nothing : (next x).filter kind = [] := List.filter_eq_nil_iff.mpr fun y member =>
        Bool.eq_false_iff.mp (late x List.mem_cons_self (Bool.eq_false_iff.mpr never) y member)
      rw [nothing, List.nil_append]

/-- What is kept of the elements at some places only depends on what was seen of these places. -/
theorem filter_keepNew (chosen : Nat → Bool) {place : α → Nat} {seen seen' : List Nat}
    (same : ∀ p, chosen p = true → (p ∈ seen ↔ p ∈ seen')) (list : List α) :
    (keepNew place seen list).filter (fun x => chosen (place x)) =
      keepNew place seen' (list.filter fun x => chosen (place x)) := by
  induction list generalizing seen seen' with
  | nil => rfl
  | cons x rest ih =>
    rw [List.filter_cons, keepNew]
    by_cases here : chosen (place x) = true
    · rw [if_pos here, keepNew]
      simp only [same _ here]
      split
      · exact ih same
      · rw [List.filter_cons, if_pos here, ih fun p other => ?_]
        rw [List.mem_cons, List.mem_cons, same p other]
    · rw [if_neg here]
      split
      · exact ih same
      · rw [List.filter_cons, if_neg here]
        refine ih fun p other => ?_
        have differs : p ≠ place x := fun equal => here (equal ▸ other)
        rw [List.mem_cons, or_iff_right differs, same p other]

-- The places seen after a list was kept are those seen before and those of the list.
private theorem mem_places_keepNew {place : α → Nat} {seen : List Nat} {list : List α} {p : Nat} :
    p ∈ (keepNew place seen list).map place ++ seen ↔ (∃ x ∈ list, place x = p) ∨ p ∈ seen := by
  simp only [List.mem_append, List.mem_map]
  constructor
  · rintro (⟨x, kept, rfl⟩ | old)
    · exact .inl ⟨x, (keepNew_sublist _ _ _).subset kept, rfl⟩
    · exact .inr old
  · rintro (⟨x, member, rfl⟩ | old)
    · by_cases old : place x ∈ seen
      · exact .inr old
      · exact .inl (exists_mem_keepNew member old)
    · exact .inr old

theorem keepNew_eq_nil {place : α → Nat} {seen : List Nat} {list : List α}
    (old : ∀ x ∈ list, place x ∈ seen) : keepNew place seen list = [] := by
  rw [List.eq_nil_iff_forall_not_mem]
  intro x kept
  exact not_seen_of_mem_keepNew kept (old x ((keepNew_sublist _ _ _).subset kept))

/-- Each part of a list may be thinned out before the parts are put together. -/
theorem keepNew_flatMap_keepNew (place : β → Nat) (f : α → List β) (seen : List Nat)
    (list : List α) :
    keepNew place seen (list.flatMap fun x => keepNew place [] (f x)) =
      keepNew place seen (list.flatMap f) := by
  induction list generalizing seen with
  | nil => rfl
  | cons x rest ih =>
    rw [List.flatMap_cons, List.flatMap_cons, keepNew_append, keepNew_append,
      keepNew_keepNew place (by simp), ih]

-- The induction is for any state of both lists: `keys` are dropped inside, `seen` outside, and
-- whatever an element with a dropped key leads to has been seen.
private theorem keepNew_keepNew_flatMap_from (key : α → Nat) (place : β → Nat) (f : α → List β)
    (list : List α) (keys seen : List Nat)
    (repeats : ∀ x ∈ list, ∀ y ∈ list, key x = key y → ∀ b ∈ f y, ∃ b' ∈ f x, place b' = place b)
    (passed : ∀ x ∈ list, key x ∈ keys → ∀ b ∈ f x, place b ∈ seen) :
    keepNew place seen ((keepNew key keys list).flatMap f) =
      keepNew place seen (list.flatMap f) := by
  induction list generalizing keys seen with
  | nil => rfl
  | cons x rest ih =>
    have repeats' : ∀ y ∈ rest, ∀ z ∈ rest, key y = key z →
        ∀ b ∈ f z, ∃ b' ∈ f y, place b' = place b :=
      fun y hy z hz => repeats y (List.mem_cons_of_mem _ hy) z (List.mem_cons_of_mem _ hz)
    rw [keepNew, List.flatMap_cons, keepNew_append]
    split
    next old =>
      -- Dropped: nothing behind it is new.
      have nothing := keepNew_eq_nil (passed x List.mem_cons_self old)
      rw [nothing, List.nil_append, List.map_nil, List.nil_append]
      exact ih _ _ repeats' fun y member => passed y (List.mem_cons_of_mem _ member)
    next new =>
      rw [List.flatMap_cons, keepNew_append]
      -- Kept: from now on, elements with its key lead nowhere new.
      congr 1
      apply ih _ _ repeats'
      intro y member old b found
      rw [mem_places_keepNew]
      rcases List.mem_cons.mp old with same | old
      · exact .inl (repeats x List.mem_cons_self y (List.mem_cons_of_mem _ member) same.symm b found)
      · exact .inr (passed y (List.mem_cons_of_mem _ member) old b found)

/-- An element may be dropped for an earlier one from which the same places are reached. -/
theorem keepNew_keepNew_flatMap (key : α → Nat) (place : β → Nat) (f : α → List β)
    (list : List α)
    (repeats : ∀ x ∈ list, ∀ y ∈ list, key x = key y → ∀ b ∈ f y, ∃ b' ∈ f x, place b' = place b) :
    keepNew place [] ((keepNew key [] list).flatMap f) = keepNew place [] (list.flatMap f) :=
  keepNew_keepNew_flatMap_from key place f list [] [] repeats (by simp)

/-- What is kept of two lists depends only on what is kept of the first one. -/
theorem keepNew_append_congr {place : α → Nat} {front front' : List α}
    (same : keepNew place [] front = keepNew place [] front') (back : List α) :
    keepNew place [] (front ++ back) = keepNew place [] (front' ++ back) := by
  rw [keepNew_append, keepNew_append, same]

end SentenceGrammar.Matching
