import Mathlib

/-!
# Paging through a list that grows

A reader takes a list page by page and remembers how many items it has taken.
Between two pages an item may be inserted anywhere.  `Placed` is what should hold
of an item: it was returned once if it is before the cursor and not at all if it
is behind it.  An insertion before the cursor moves the item in front of the
cursor behind it, and from then on that item `Repeats`.

The last section recognises an insertion into a sorted list.
-/

namespace Paging

variable {α : Type*} [DecidableEq α] {listing : List α} {offset : ℕ} {returned : List α} {item : α}

/-- The item was returned if and only if it is before the cursor, and then once. -/
def Placed (listing : List α) (offset : ℕ) (returned : List α) (item : α) : Prop :=
  ∃ k, listing[k]? = some item ∧ returned.count item = if k < offset then 1 else 0

/-- The item was returned twice, or was returned and will be again. -/
def Repeats (listing : List α) (offset : ℕ) (returned : List α) (item : α) : Prop :=
  ∃ k, listing[k]? = some item ∧
    (2 ≤ returned.count item ∨ offset ≤ k ∧ 1 ≤ returned.count item)

/-- What a page of at most `size` items holds. -/
def page (listing : List α) (offset size : ℕ) : List α :=
  (listing.drop offset).take size

omit [DecidableEq α] in
theorem length_page (listing : List α) (offset size : ℕ) :
    (page listing offset size).length = min size (listing.length - offset) := by
  simp [page]

theorem count_page (hnodup : listing.Nodup) {k : ℕ} (hk : listing[k]? = some item) (size : ℕ) :
    (page listing offset size).count item =
      if offset ≤ k ∧ k < offset + (page listing offset size).length then 1 else 0 := by
  have hlt : k < listing.length := (List.getElem?_eq_some_iff.mp hk).1
  have hpage : (page listing offset size).Nodup :=
    hnodup.sublist ((List.take_sublist _ _).trans (List.drop_sublist _ _))
  rw [hpage.count, length_page]
  refine if_congr ?_ rfl rfl
  rw [List.mem_iff_getElem?]
  constructor
  · rintro ⟨j, hj⟩
    rw [page, List.getElem?_take] at hj
    split at hj
    · rw [List.getElem?_drop, ← hk] at hj
      have hsome : offset + j < listing.length := by
        rw [hk] at hj
        exact (List.getElem?_eq_some_iff.mp hj).1
      have := (List.getElem?_inj hsome hnodup).mp hj
      omega
    · simp at hj
  · rintro ⟨hle, hlt'⟩
    refine ⟨k - offset, ?_⟩
    rw [page, List.getElem?_take, if_pos (by omega), List.getElem?_drop,
      Nat.add_sub_cancel' hle, hk]

theorem Placed.page (hnodup : listing.Nodup) (h : Placed listing offset returned item)
    (size : ℕ) :
    Placed listing (offset + (page listing offset size).length)
      (returned ++ page listing offset size) item := by
  obtain ⟨k, hk, hcount⟩ := h
  refine ⟨k, hk, ?_⟩
  rw [List.count_append, hcount, count_page hnodup hk]
  split_ifs <;> omega

theorem Repeats.page (hnodup : listing.Nodup) (h : Repeats listing offset returned item)
    (size : ℕ) :
    Repeats listing (offset + (page listing offset size).length)
      (returned ++ page listing offset size) item := by
  obtain ⟨k, hk, hcount⟩ := h
  refine ⟨k, hk, ?_⟩
  rw [List.count_append, count_page hnodup hk]
  split_ifs <;> omega

/-! ## Insertions -/

variable {before after : List α} {added : α}

omit [DecidableEq α] in
/-- An item keeps its place before an insertion and moves up by one behind it. -/
theorem getElem?_insert {k : ℕ} (hk : (before ++ after)[k]? = some item) :
    (before ++ added :: after)[if k < before.length then k else k + 1]? = some item := by
  rw [List.getElem?_append] at hk
  split_ifs at hk ⊢ with hlt
  · rw [List.getElem?_append_left hlt, hk]
  · rw [List.getElem?_append_right (by omega), show k + 1 - before.length =
      (k - before.length) + 1 by omega, List.getElem?_cons_succ, hk]

/-- An insertion that does not push the item over the cursor. -/
theorem Placed.insert (h : Placed (before ++ after) offset returned item)
    (hclear : before.length < offset → (before ++ after)[offset - 1]? ≠ some item) :
    Placed (before ++ added :: after) offset returned item := by
  obtain ⟨k, hk, hcount⟩ := h
  refine ⟨_, getElem?_insert hk, ?_⟩
  rw [hcount]
  have hnot : before.length < offset → k ≠ offset - 1 := by
    rintro hlt rfl
    exact hclear hlt hk
  split_ifs <;> omega

/-- An insertion before the cursor makes the item in front of the cursor come again. -/
theorem Placed.repeats (h : Placed (before ++ after) offset returned item)
    (hnodup : (before ++ after).Nodup) (hlt : before.length < offset)
    (hlast : (before ++ after)[offset - 1]? = some item) :
    Repeats (before ++ added :: after) offset returned item := by
  obtain ⟨k, hk, hcount⟩ := h
  have hlength : k < (before ++ after).length := (List.getElem?_eq_some_iff.mp hk).1
  obtain rfl : k = offset - 1 := (List.getElem?_inj hlength hnodup).mp (hk.trans hlast.symm)
  rw [if_pos (by omega)] at hcount
  refine ⟨_, getElem?_insert hk, Or.inr ⟨?_, by omega⟩⟩
  rw [if_neg (by omega)]
  omega

theorem Repeats.insert (h : Repeats (before ++ after) offset returned item) :
    Repeats (before ++ added :: after) offset returned item := by
  obtain ⟨k, hk, hcount⟩ := h
  refine ⟨_, getElem?_insert hk, ?_⟩
  rcases hcount with hcount | ⟨hle, hcount⟩
  · exact Or.inl hcount
  · refine Or.inr ⟨?_, hcount⟩
    split_ifs <;> omega

/-! ## The end of the list -/

theorem Placed.count_eq_one (h : Placed listing offset returned item)
    (hend : listing.length ≤ offset) : returned.count item = 1 := by
  obtain ⟨k, hk, hcount⟩ := h
  have := (List.getElem?_eq_some_iff.mp hk).1
  rw [hcount, if_pos (by omega)]

theorem Repeats.two_le_count (h : Repeats listing offset returned item)
    (hend : listing.length ≤ offset) : 2 ≤ returned.count item := by
  obtain ⟨k, hk, hcount⟩ := h
  have := (List.getElem?_eq_some_iff.mp hk).1
  omega

/-! ## Sorted lists -/

section Sorted

variable {lt : α → α → Prop} (hasymm : ∀ a b, lt a b → ¬ lt b a) {xs ys : List α}

include hasymm

omit [DecidableEq α]

theorem nodup_of_sorted (h : xs.Pairwise lt) : xs.Nodup := by
  refine h.imp ?_
  rintro a b hlt rfl
  exact hasymm a a hlt hlt

/-- A sorted list is determined by its members. -/
theorem eq_of_sorted (hxs : xs.Pairwise lt) (hys : ys.Pairwise lt)
    (hmem : ∀ a, a ∈ xs ↔ a ∈ ys) : xs = ys := by
  refine List.Perm.eq_of_pairwise (fun a b _ _ hab hba => absurd hba (hasymm _ _ hab)) hxs hys ?_
  exact (List.perm_ext_iff_of_nodup (nodup_of_sorted hasymm hxs)
    (nodup_of_sorted hasymm hys)).mpr hmem

/-- One more member is an insertion between the smaller and the larger ones. -/
theorem exists_insert_of_sorted (hxs : xs.Pairwise lt) (hys : ys.Pairwise lt) {added : α}
    (hnew : added ∉ xs) (hmem : ∀ a, a ∈ ys ↔ a = added ∨ a ∈ xs) :
    ∃ before after, xs = before ++ after ∧ ys = before ++ added :: after ∧
      (∀ a ∈ before, lt a added) ∧ ∀ a ∈ after, lt added a := by
  obtain ⟨before, after, hsplit⟩ := List.append_of_mem ((hmem added).mpr (Or.inl rfl))
  rw [hsplit, List.pairwise_append, List.pairwise_cons] at hys
  obtain ⟨hbefore, ⟨hadded, hafter⟩, hcross⟩ := hys
  refine ⟨before, after, ?_, hsplit, fun a ha => hcross a ha added List.mem_cons_self, hadded⟩
  apply eq_of_sorted hasymm hxs
  · exact List.pairwise_append.mpr
      ⟨hbefore, hafter, fun a ha b hb => hcross a ha b (List.mem_cons_of_mem _ hb)⟩
  · intro a
    have hiff := hmem a
    rw [hsplit] at hiff
    simp only [List.mem_append, List.mem_cons] at hiff ⊢
    constructor
    · intro ha
      have hne : a ≠ added := fun heq => hnew (heq ▸ ha)
      rcases hiff.mpr (Or.inr ha) with h | h | h
      · exact Or.inl h
      · exact absurd h hne
      · exact Or.inr h
    · intro ha
      have hne : a ≠ added := by
        rintro rfl
        rcases ha with ha | ha
        · have hlt := hcross _ ha _ List.mem_cons_self
          exact hasymm _ _ hlt hlt
        · exact hasymm _ _ (hadded _ ha) (hadded _ ha)
      rcases hiff.mp (ha.elim Or.inl fun h => Or.inr (Or.inr h)) with h | h
      · exact absurd h hne
      · exact h

end Sorted

end Paging
