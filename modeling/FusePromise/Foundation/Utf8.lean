import Mathlib.Data.List.Lex
import Mathlib.Data.Char

/-!
# The bytes of a text

A text is a list of characters and its bytes are their UTF-8 encodings.  The
encoding keeps the order: the bytes of two characters differ at a place where
both have one, and the smaller character has the smaller byte there.  Comparing
texts character by character is therefore comparing their bytes.
-/

namespace Utf8

/-- The bytes of a text. -/
def encode (text : List Char) : List UInt8 :=
  text.flatMap String.utf8EncodeChar

@[simp] theorem encode_nil : encode [] = [] := rfl

@[simp] theorem encode_cons (c : Char) (text : List Char) :
    encode (c :: text) = String.utf8EncodeChar c ++ encode text :=
  List.flatMap_cons

@[simp] theorem encode_append (first second : List Char) :
    encode (first ++ second) = encode first ++ encode second :=
  List.flatMap_append

theorem utf8EncodeChar_of_ascii {c : Char} (h : c.val.toNat ≤ 127) :
    String.utf8EncodeChar c = [UInt8.ofNat c.val.toNat] := by
  unfold String.utf8EncodeChar
  exact if_pos h

/-- An ASCII text has as many bytes as characters. -/
theorem length_encode_of_ascii {text : List Char} (h : ∀ c ∈ text, c.val.toNat ≤ 127) :
    (encode text).length = text.length := by
  induction text with
  | nil => rfl
  | cons c text ih =>
      rw [encode_cons, utf8EncodeChar_of_ascii (h c List.mem_cons_self), List.length_append,
        List.length_singleton, ih fun d hd => h d (List.mem_cons_of_mem _ hd), List.length_cons,
        Nat.add_comm]

theorem ofNat_eq_zero {n : ℕ} (hn : n < 256) (h : (0 : UInt8) = UInt8.ofNat n) : n = 0 := by
  have hnat := congrArg UInt8.toNat h
  rw [UInt8.toNat_ofNat_of_lt' hn] at hnat
  exact hnat.symm

/-- Only the NUL character has a NUL byte. -/
theorem zero_mem_utf8EncodeChar {c : Char} (h : 0 ∈ String.utf8EncodeChar c) :
    c = Char.ofNat 0 := by
  by_cases hascii : c.val.toNat ≤ 127
  · rw [utf8EncodeChar_of_ascii hascii, List.mem_singleton] at h
    have hzero := ofNat_eq_zero (by omega) h
    exact Char.ext (UInt32.toNat_inj.mp hzero)
  · -- every byte of a longer encoding has its highest bit set
    unfold String.utf8EncodeChar at h
    dsimp only at h
    generalize c.val.toNat = v at h hascii
    exfalso
    split_ifs at h <;> simp only [List.mem_cons, List.not_mem_nil, or_false] at h
    · rcases h with h | h <;> exact absurd (ofNat_eq_zero (by omega) h) (by omega)
    · rcases h with h | h | h <;> exact absurd (ofNat_eq_zero (by omega) h) (by omega)
    · rcases h with h | h | h | h <;> exact absurd (ofNat_eq_zero (by omega) h) (by omega)

theorem zero_not_mem_encode {text : List Char} (h : Char.ofNat 0 ∉ text) : 0 ∉ encode text := by
  intro hmem
  obtain ⟨c, hc, hzero⟩ := List.mem_flatMap.mp hmem
  exact h (zero_mem_utf8EncodeChar hzero ▸ hc)

/-- The first byte decides, or the bytes after it do. -/
theorem lex_cons_ofNat {a b : ℕ} {first second : List UInt8} (hb : b < 256) (hle : a ≤ b)
    (hrest : a = b → List.Lex (· < ·) first second) :
    List.Lex (· < ·) (UInt8.ofNat a :: first) (UInt8.ofNat b :: second) := by
  rcases hle.eq_or_lt with rfl | hlt
  · exact .cons (hrest rfl)
  · refine .rel (UInt8.lt_iff_toNat_lt.mpr ?_)
    rw [UInt8.toNat_ofNat_of_lt' (hlt.trans hb), UInt8.toNat_ofNat_of_lt' hb]
    exact hlt

/-- A smaller character has smaller bytes, whatever follows. -/
theorem lex_utf8EncodeChar {c d : Char} (h : c < d) (first second : List UInt8) :
    List.Lex (· < ·) (String.utf8EncodeChar c ++ first) (String.utf8EncodeChar d ++ second) := by
  have hlt : c.val.toNat < d.val.toNat := h
  have hd : d.val.toNat < 0x110000 := by
    rcases d.valid with hd | hd
    · exact hd.trans (by decide)
    · exact hd.2
  unfold String.utf8EncodeChar
  dsimp only
  generalize c.val.toNat = v at hlt
  generalize d.val.toNat = w at hlt hd
  -- a longer encoding starts with a larger byte; one of the same length has larger digits
  split_ifs
  all_goals
    simp only [List.cons_append, List.nil_append]
    repeat refine lex_cons_ofNat (by omega) (by omega) fun _ => ?_
    omega

/-- Texts are ordered as their bytes are. -/
theorem lex_encode {first second : List Char} (h : compare first second = .lt) :
    List.Lex (· < ·) (encode first) (encode second) := by
  induction first generalizing second with
  | nil =>
      cases second with
      | nil => simp at h
      | cons d rest =>
          have hne : encode (d :: rest) ≠ [] := by
            rw [encode_cons]
            exact fun hnil => String.utf8EncodeChar_ne_nil (List.append_eq_nil_iff.mp hnil).1
          obtain ⟨byte, bytes, hbytes⟩ := List.exists_cons_of_ne_nil hne
          rw [hbytes, encode_nil]
          exact .nil
  | cons c text ih =>
      cases second with
      | nil => simp at h
      | cons d rest =>
          rw [List.compare_cons_cons, Ordering.then_eq_lt] at h
          rw [encode_cons, encode_cons]
          rcases h with hlt | ⟨heq, hrest⟩
          · exact lex_utf8EncodeChar (compare_lt_iff_lt.mp hlt) _ _
          · rw [compare_eq_iff_eq.mp heq]
            exact (ih hrest).append_left _ _

end Utf8
