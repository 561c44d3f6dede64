import FusePromise.Foundation.Program

/-!
# Frames in a byte stream

Little-endian words, and streams that are a concatenation of frames.  `Framing`
says what a reader of one frame must do: it finds the end of an empty stream, it
takes a whole frame off the front, and it fails on a part of a frame.  Reading
frame by frame, with `Reads`, then gives back the items of a stream, and of a
stream that was cut anywhere those whose frames are complete.
-/

namespace Framing

open Program

/-! ## Little-endian words -/

/-- The lowest bytes of a number, `width` of them. -/
def littleEndian : ℕ → ℕ → List UInt8
  | 0, _ => []
  | width + 1, value => UInt8.ofNat value :: littleEndian width (value / 256)

def ofLittleEndian : List UInt8 → ℕ
  | [] => 0
  | byte :: rest => byte.toNat + 256 * ofLittleEndian rest

@[simp] theorem length_littleEndian (width value : ℕ) :
    (littleEndian width value).length = width := by
  induction width generalizing value with
  | zero => rfl
  | succ width ih => rw [littleEndian, List.length_cons, ih]

theorem ofLittleEndian_littleEndian {width value : ℕ} (h : value < 256 ^ width) :
    ofLittleEndian (littleEndian width value) = value := by
  induction width generalizing value with
  | zero =>
      rw [pow_zero] at h
      simp [littleEndian, ofLittleEndian]
      omega
  | succ width ih =>
      have hrest : value / 256 < 256 ^ width := by
        rw [Nat.div_lt_iff_lt_mul (by decide), ← pow_succ]
        exact h
      rw [littleEndian, ofLittleEndian, ih hrest, UInt8.toNat_ofNat']
      omega

/-! ## Reading frame by frame -/

variable {α β ε : Type}

/-- Reading items off a stream until it ends or the reader fails. -/
inductive Reads (read : Prog (List β) ε (Option α)) : List β → List α → Except ε Unit → Prop
  | stop {stream rest : List β} (h : read stream = (.ok none, rest)) : Reads read stream [] (.ok ())
  | fail {stream rest : List β} {error : ε} (h : read stream = (.error error, rest)) :
      Reads read stream [] (.error error)
  | item {stream rest : List β} {item : α} {items : List α} {ending : Except ε Unit}
      (h : read stream = (.ok (some item), rest)) (hrest : Reads read rest items ending) :
      Reads read stream (item :: items) ending

/-- A reader of one frame of a valid item. -/
structure Framed (read : Prog (List β) ε (Option α)) (frame : α → List β) (valid : α → Prop) :
    Prop where
  stop : ∃ rest, read [] = (.ok none, rest)
  whole : ∀ {item : α} (rest : List β), valid item →
    read (frame item ++ rest) = (.ok (some item), rest)
  part : ∀ {item : α} {cut : List β}, valid item → cut <+: frame item → cut ≠ [] →
    cut ≠ frame item → ∃ error rest, read cut = (.error error, rest)

namespace Framed

variable {read : Prog (List β) ε (Option α)} {frame : α → List β} {valid : α → Prop}
  {items : List α} {cut : List β}

/-- A list of items is read back. -/
theorem reads_all (h : Framed read frame valid) (hitems : ∀ item ∈ items, valid item) :
    Reads read (items.flatMap frame) items (.ok ()) := by
  induction items with
  | nil =>
      obtain ⟨rest, hstop⟩ := h.stop
      exact .stop hstop
  | cons item items ih =>
      exact .item (h.whole _ (hitems item List.mem_cons_self))
        (ih fun other hother => hitems other (List.mem_cons_of_mem _ hother))

/-- How many frames of a list are complete in a part of the stream. -/
structure Complete (frame : α → List β) (items : List α) (cut : List β) (count : ℕ) : Prop where
  le : count ≤ items.length
  there : (items.take count).flatMap frame <+: cut
  most : ∀ {other : ℕ}, other ≤ items.length → (items.take other).flatMap frame <+: cut →
    other ≤ count

theorem complete_zero {item : α} (hshort : ¬ frame item <+: cut) :
    Complete frame (item :: items) cut 0 := by
  refine ⟨Nat.zero_le _, List.nil_prefix, fun {other} hother hthere => ?_⟩
  cases other with
  | zero => exact le_rfl
  | succ other =>
      rw [List.take_succ_cons, List.flatMap_cons] at hthere
      exact absurd ((List.prefix_append _ _).trans hthere) hshort

theorem complete_succ {item : α} {count : ℕ} (h : Complete frame items cut count) :
    Complete frame (item :: items) (frame item ++ cut) (count + 1) := by
  refine ⟨Nat.succ_le_succ h.le, ?_, fun {other} hother hthere => ?_⟩
  · rw [List.take_succ_cons, List.flatMap_cons]
    exact (List.prefix_append_right_inj _).mpr h.there
  · cases other with
    | zero => exact Nat.zero_le _
    | succ other =>
        rw [List.take_succ_cons, List.flatMap_cons, List.prefix_append_right_inj] at hthere
        exact Nat.succ_le_succ (h.most (Nat.le_of_succ_le_succ hother) hthere)

/-- Of a stream that was cut, the items with a complete frame are read back; the reader then
finds the end if the cut is between two frames, and fails otherwise. -/
theorem reads_cut (h : Framed read frame valid) (hitems : ∀ item ∈ items, valid item)
    (hcut : cut <+: items.flatMap frame) :
    ∃ count ending, Complete frame items cut count ∧
      Reads read cut (items.take count) ending ∧
      (cut = (items.take count).flatMap frame ∧ ending = .ok () ∨
        cut ≠ (items.take count).flatMap frame ∧ ∃ error, ending = .error error) := by
  induction items generalizing cut with
  | nil =>
      obtain rfl : cut = [] := List.prefix_nil.mp hcut
      obtain ⟨rest, hstop⟩ := h.stop
      exact ⟨0, .ok (), ⟨le_rfl, List.nil_prefix, fun hother _ => hother⟩, .stop hstop,
        Or.inl ⟨rfl, rfl⟩⟩
  | cons item items ih =>
      have hitem := hitems item List.mem_cons_self
      rw [List.flatMap_cons] at hcut
      by_cases hfirst : frame item <+: cut
      · -- the first frame is complete, and the rest is cut
        obtain ⟨later, rfl⟩ := hfirst
        rw [List.prefix_append_right_inj] at hcut
        obtain ⟨count, ending, hcomplete, hreads, hending⟩ :=
          ih (fun other hother => hitems other (List.mem_cons_of_mem _ hother)) hcut
        refine ⟨count + 1, ending, complete_succ hcomplete, .item (h.whole _ hitem) hreads, ?_⟩
        rw [List.take_succ_cons, List.flatMap_cons]
        simpa only [ne_eq, List.append_cancel_left_eq] using hending
      · have hpart : cut <+: frame item :=
          (List.prefix_or_prefix_of_prefix hcut (List.prefix_append _ _)).resolve_right hfirst
        by_cases hnil : cut = []
        · obtain ⟨rest, hstop⟩ := h.stop
          subst hnil
          exact ⟨0, .ok (), complete_zero hfirst, .stop hstop, Or.inl ⟨rfl, rfl⟩⟩
        · have hne : cut ≠ frame item := fun heq => hfirst (heq ▸ List.prefix_rfl)
          obtain ⟨error, rest, herror⟩ := h.part hitem hpart hnil hne
          exact ⟨0, .error error, complete_zero hfirst, .fail herror,
            Or.inr ⟨hnil, error, rfl⟩⟩

end Framed

end Framing
