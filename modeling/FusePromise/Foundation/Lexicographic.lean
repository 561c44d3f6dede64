import Mathlib.Data.List.Lex

/-!
# Lexicographic order and prefixes

A list comes before its extensions, and they come together: whatever lies
between a list and one of its extensions extends it too.
-/

namespace Lexicographic

variable {α β : Type*} {r : α → α → Prop}

theorem lex_append_cons (xs : List α) (y : α) (ys : List α) : List.Lex r xs (xs ++ y :: ys) := by
  simpa using List.Lex.append_left r (List.Lex.nil (r := r) (a := y) (l := ys)) xs

theorem lex_of_append_left (hasymm : ∀ x y, r x y → ¬ r y x) {xs ys zs : List α}
    (h : List.Lex r (xs ++ ys) (xs ++ zs)) : List.Lex r ys zs := by
  induction xs with
  | nil => exact h
  | cons x xs ih =>
      cases h with
      | rel hxx => exact absurd hxx (hasymm _ _ hxx)
      | cons h => exact ih h

theorem not_lex_of_isPrefix (hasymm : ∀ x y, r x y → ¬ r y x) {xs ys : List α}
    (hbegins : xs <+: ys) : ¬ List.Lex r ys xs := by
  obtain ⟨rest, rfl⟩ := hbegins
  intro h
  rw [← List.append_nil xs, List.append_assoc] at h
  simpa using lex_of_append_left hasymm h

/-- Between a list and its extensions there are only extensions of it. -/
theorem isPrefix_of_between (hasymm : ∀ x y, r x y → ¬ r y x) {xs ys rest : List α}
    (hlow : List.Lex r xs ys) (hhigh : List.Lex r ys (xs ++ rest)) : xs <+: ys := by
  induction xs generalizing ys with
  | nil => exact List.nil_prefix
  | cons x xs ih =>
      cases hlow with
      | rel hxy =>
          cases hhigh with
          | rel hyx => exact absurd hyx (hasymm _ _ hxy)
          | cons _ => exact absurd hxy (hasymm _ _ hxy)
      | cons hlow =>
          cases hhigh with
          | rel hxx => exact absurd hxx (hasymm _ _ hxx)
          | cons hhigh => exact List.cons_prefix_cons.mpr ⟨rfl, ih hlow hhigh⟩

/-- In a list sorted by a key, the extensions of a key that come after it come
immediately after it. -/
theorem exists_split_extensions (hasymm : ∀ x y, r x y → ¬ r y x) {key : β → List α} {b : β}
    {later : List β}
    (hsorted : (b :: later).Pairwise fun first second => List.Lex r (key first) (key second)) :
    ∃ below rest, later = below ++ rest ∧ (∀ c ∈ below, key b <+: key c) ∧
      ∀ c ∈ rest, ¬ key b <+: key c := by
  induction later with
  | nil => exact ⟨[], [], rfl, by simp, by simp⟩
  | cons c later ih =>
      obtain ⟨hb, hlater⟩ := List.pairwise_cons.mp hsorted
      obtain ⟨hc, hlater⟩ := List.pairwise_cons.mp hlater
      by_cases hextends : key b <+: key c
      · have hskip := List.pairwise_cons.mpr
          ⟨fun d hd => hb d (List.mem_cons_of_mem _ hd), hlater⟩
        obtain ⟨below, rest, rfl, hbelow, hrest⟩ := ih hskip
        refine ⟨c :: below, rest, rfl, ?_, hrest⟩
        intro d hd
        rcases List.mem_cons.mp hd with rfl | hd
        · exact hextends
        · exact hbelow d hd
      · -- an extension after `c` would have `c` between itself and `b`
        refine ⟨[], c :: later, rfl, by simp, ?_⟩
        intro d hd hbegins
        rcases List.mem_cons.mp hd with rfl | hd
        · exact hextends hbegins
        · obtain ⟨rest, hrest⟩ := hbegins
          have hhigh := hc d hd
          rw [← hrest] at hhigh
          exact hextends (isPrefix_of_between hasymm (hb c List.mem_cons_self) hhigh)

end Lexicographic
