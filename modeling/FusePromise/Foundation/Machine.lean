import Mathlib

/-!
# Texts, machine words and ordered maps

A `str` is the list of its Unicode scalar values.  Machine words are natural
numbers; the checked and saturating operations below are the ones whose result
depends on the width.  Ordered maps and sets are `Std.ExtTreeMap` and
`Std.ExtTreeSet` over the key type's own order, so that iteration is in key
order and two maps with the same entries are equal.
-/

/-- A text: its Unicode scalar values in order. -/
abbrev Text := List Char

/-- An ordered map with the order of its key type. -/
abbrev BTreeMap (K V : Type) [Ord K] := Std.ExtTreeMap K V compare

/-- An ordered set with the order of its element type. -/
abbrev BTreeSet (K : Type) [Ord K] := Std.ExtTreeSet K compare

/-- The values of a map, in the order of their keys. -/
def BTreeMap.valueList {K V : Type} [Ord K] [Std.TransOrd K] (map : BTreeMap K V) : List V :=
  map.toList.map Prod.snd

theorem BTreeMap.mem_valueList {K V : Type} [Ord K] [Std.TransOrd K] [Std.LawfulEqOrd K]
    {map : BTreeMap K V} {value : V} :
    value ∈ map.valueList ↔ ∃ key : K, map[key]? = some value := by
  simp [valueList, Std.ExtTreeMap.mem_toList_iff_getElem?_eq_some]

theorem BTreeMap.mem_of_getElem? {K V : Type} [Ord K] [Std.TransOrd K] {map : BTreeMap K V}
    {key : K} {value : V} (h : map[key]? = some value) : key ∈ map :=
  Std.ExtTreeMap.mem_iff_isSome_getElem?.mpr (by rw [h]; rfl)

namespace Machine

/-- The largest 64-bit word. -/
def u64Max : ℕ := 2 ^ 64 - 1

theorem toNat_le_u64Max (word : UInt64) : word.toNat ≤ u64Max :=
  Nat.le_pred_of_lt word.toNat_lt

/-- The largest 32-bit word. -/
def u32Max : ℕ := 2 ^ 32 - 1

/-- `u64::checked_add`. -/
def checkedAdd (a b : ℕ) : Option ℕ :=
  if a + b ≤ u64Max then some (a + b) else none

/-- `u64::checked_sub`. -/
def checkedSub (a b : ℕ) : Option ℕ :=
  if b ≤ a then some (a - b) else none

/-- `u64::saturating_add`. -/
def saturatingAdd (a b : ℕ) : ℕ :=
  min (a + b) u64Max

/-- `u32::try_from` on a 64-bit word. -/
def toU32 (a : ℕ) : Option ℕ :=
  if a ≤ u32Max then some a else none

/-- 64-bit addition that wraps around. -/
def wrappingAdd (a b : ℕ) : ℕ :=
  (a + b) % 2 ^ 64

@[simp] theorem checkedAdd_eq_some {a b c : ℕ} :
    checkedAdd a b = some c ↔ a + b = c ∧ a + b ≤ u64Max := by
  unfold checkedAdd
  split <;> simp <;> omega

@[simp] theorem checkedAdd_eq_none {a b : ℕ} : checkedAdd a b = none ↔ u64Max < a + b := by
  unfold checkedAdd
  split <;> simp_all

@[simp] theorem checkedSub_eq_some {a b c : ℕ} :
    checkedSub a b = some c ↔ b ≤ a ∧ a - b = c := by
  unfold checkedSub
  split <;> simp_all

@[simp] theorem toU32_eq_some {a b : ℕ} : toU32 a = some b ↔ a = b ∧ a ≤ u32Max := by
  unfold toU32
  split <;> simp <;> omega

/-- The end of a block that starts at `a`, cut off at the largest word. -/
theorem checkedAdd_getD (a b : ℕ) :
    (checkedAdd a b).getD u64Max = min (a + b) u64Max := by
  unfold checkedAdd
  split <;> simp <;> omega

end Machine
