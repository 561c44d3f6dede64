import FusePromise.Foundation.Machine

/-!
# Partial maps stored as separated segments

A `Segment` is a list of values that starts at an offset.  A list of segments
denotes the partial map `lookup`; it is `Separated` when the segments are
non-empty, in order, and at least one undefined position lies between any two
of them.  Separation is what makes a contiguous defined stretch lie inside a
single segment (`Separated.exists_covering`), so that a reader may look for one
segment instead of assembling several.

`Reads f start len bytes` says that `bytes` lists the values of the partial map
`f` on `[start, start + len)`; it is the specification of every reader.
-/

namespace ByteMap

variable {α : Type*}

/-! ## Reading a stretch of a map -/

/-- The values of a total map on `[start, start + len)`. -/
def slice (f : ℕ → α) (start len : ℕ) : List α :=
  (List.range len).map fun i => f (start + i)

@[simp] theorem length_slice (f : ℕ → α) (start len : ℕ) : (slice f start len).length = len := by
  simp [slice]

@[simp] theorem slice_zero (f : ℕ → α) (start : ℕ) : slice f start 0 = [] := rfl

theorem getElem?_slice (f : ℕ → α) (start len i : ℕ) :
    (slice f start len)[i]? = if i < len then some (f (start + i)) else none := by
  by_cases hi : i < len
  · simp [slice, hi]
  · rw [if_neg hi, List.getElem?_eq_none (by rw [length_slice]; omega)]

theorem slice_append (f : ℕ → α) (start a b : ℕ) :
    slice f start a ++ slice f (start + a) b = slice f start (a + b) := by
  simp only [slice, List.range_add, List.map_append, List.map_map]
  congr 1
  apply List.map_congr_left
  intro i _
  simp [Nat.add_assoc]

theorem take_slice (f : ℕ → α) (start len n : ℕ) (hn : n ≤ len) :
    (slice f start len).take n = slice f start n := by
  obtain ⟨rest, rfl⟩ := Nat.exists_eq_add_of_le hn
  rw [← slice_append, List.take_append_of_le_length (by simp), List.take_of_length_le (by simp)]

theorem drop_slice (f : ℕ → α) (start len n : ℕ) (hn : n ≤ len) :
    (slice f start len).drop n = slice f (start + n) (len - n) := by
  obtain ⟨rest, rfl⟩ := Nat.exists_eq_add_of_le hn
  rw [← slice_append, List.drop_append_of_le_length (by simp), List.drop_of_length_le (by simp),
    List.nil_append, Nat.add_sub_cancel_left]

/-- `bytes` lists the values of the partial map `f` on `[start, start + len)`. -/
def Reads (f : ℕ → Option α) (start len : ℕ) (bytes : List α) : Prop :=
  bytes.length = len ∧ ∀ i < len, f (start + i) = bytes[i]?

instance [DecidableEq α] (f : ℕ → Option α) (start len : ℕ) (bytes : List α) :
    Decidable (Reads f start len bytes) :=
  inferInstanceAs (Decidable (_ ∧ _))

theorem Reads.zero (f : ℕ → Option α) (start : ℕ) : Reads f start 0 [] :=
  ⟨rfl, fun i hi => absurd hi (Nat.not_lt_zero i)⟩

theorem Reads.append {f : ℕ → Option α} {start a b : ℕ} {xs ys : List α}
    (hxs : Reads f start a xs) (hys : Reads f (start + a) b ys) :
    Reads f start (a + b) (xs ++ ys) := by
  obtain ⟨hxlen, hx⟩ := hxs
  obtain ⟨hylen, hy⟩ := hys
  refine ⟨by simp [hxlen, hylen], fun i hi => ?_⟩
  rcases Nat.lt_or_ge i a with hlt | hge
  · rw [hx i hlt, List.getElem?_append_left (by omega)]
  · have := hy (i - a) (by omega)
    rw [show start + a + (i - a) = start + i by omega] at this
    rw [this, List.getElem?_append_right (by omega), hxlen]

/-- A reading of a stretch splits into readings of its two parts. -/
theorem Reads.split {f : ℕ → Option α} {start a b : ℕ} {bytes : List α}
    (h : Reads f start (a + b) bytes) :
    Reads f start a (bytes.take a) ∧ Reads f (start + a) b (bytes.drop a) := by
  obtain ⟨hlen, hval⟩ := h
  refine ⟨⟨by simp [hlen], fun i hi => ?_⟩, ⟨by simp [hlen], fun i hi => ?_⟩⟩
  · rw [hval i (by omega), List.getElem?_take_of_lt hi]
  · rw [List.getElem?_drop, ← hval (a + i) (by omega), Nat.add_assoc]

theorem Reads.unique {f : ℕ → Option α} {start len : ℕ} {xs ys : List α}
    (hxs : Reads f start len xs) (hys : Reads f start len ys) : xs = ys := by
  apply List.ext_getElem?
  intro i
  rcases Nat.lt_or_ge i len with hlt | hge
  · rw [← hxs.2 i hlt, hys.2 i hlt]
  · rw [List.getElem?_eq_none (by rw [hxs.1]; exact hge),
      List.getElem?_eq_none (by rw [hys.1]; exact hge)]

theorem Reads.isSome {f : ℕ → Option α} {start len : ℕ} {bytes : List α}
    (h : Reads f start len bytes) {i : ℕ} (hi : i < len) : (f (start + i)).isSome := by
  rw [h.2 i hi, List.getElem?_eq_getElem (by rw [h.1]; exact hi)]
  rfl

/-- A stretch can be read where the map is defined all over it. -/
theorem exists_reads_iff {f : ℕ → Option α} {start len : ℕ} :
    (∃ bytes, Reads f start len bytes) ↔ ∀ i < len, (f (start + i)).isSome := by
  constructor
  · rintro ⟨bytes, h⟩ i hi
    exact h.isSome hi
  · intro h
    refine ⟨List.ofFn fun i : Fin len => (f (start + i)).get (h i i.2), by simp, fun i hi => ?_⟩
    simp [hi]

theorem Reads.congr {f g : ℕ → Option α} {start len : ℕ} {bytes : List α}
    (hfg : ∀ i < len, f (start + i) = g (start + i)) :
    Reads f start len bytes ↔ Reads g start len bytes := by
  constructor
  · rintro ⟨hlen, h⟩
    exact ⟨hlen, fun i hi => by rw [← hfg i hi, h i hi]⟩
  · rintro ⟨hlen, h⟩
    exact ⟨hlen, fun i hi => by rw [hfg i hi, h i hi]⟩

/-- A partial map that agrees with a total one where it is defined reads slices of it. -/
theorem Reads.eq_slice {f : ℕ → Option α} {g : ℕ → α} {start len : ℕ} {bytes : List α}
    (h : Reads f start len bytes) (hfg : ∀ i v, f i = some v → v = g i) :
    bytes = slice g start len := by
  apply List.ext_getElem?
  intro i
  rw [getElem?_slice]
  split
  · rename_i hi
    have hdefined := h.isSome hi
    obtain ⟨v, hv⟩ := Option.isSome_iff_exists.mp hdefined
    rw [← h.2 i hi, hv, hfg _ _ hv]
  · rename_i hi
    exact List.getElem?_eq_none (by rw [h.1]; omega)

/-! ## Overwriting a stretch -/

/-- `f` with the values `bytes` written at `start`. -/
def overlay (f : ℕ → Option α) (start : ℕ) (bytes : List α) (i : ℕ) : Option α :=
  if start ≤ i ∧ i < start + bytes.length then bytes[i - start]? else f i

theorem overlay_of_mem {f : ℕ → Option α} {start : ℕ} {bytes : List α} {i : ℕ}
    (h : start ≤ i ∧ i < start + bytes.length) : overlay f start bytes i = bytes[i - start]? :=
  if_pos h

theorem overlay_of_not_mem {f : ℕ → Option α} {start : ℕ} {bytes : List α} {i : ℕ}
    (h : ¬ (start ≤ i ∧ i < start + bytes.length)) : overlay f start bytes i = f i :=
  if_neg h

@[simp] theorem overlay_nil (f : ℕ → Option α) (start : ℕ) : overlay f start [] = f := by
  funext i
  exact overlay_of_not_mem (by simp)

/-- Writing a list is writing its two halves one after the other. -/
theorem overlay_append (f : ℕ → Option α) (start : ℕ) (xs ys : List α) :
    overlay (overlay f start xs) (start + xs.length) ys = overlay f start (xs ++ ys) := by
  funext i
  unfold overlay
  simp only [List.length_append]
  rcases Nat.lt_or_ge i (start + xs.length) with hlt | hge
  · rw [if_neg (by omega)]
    by_cases hstart : start ≤ i
    · rw [if_pos ⟨hstart, hlt⟩, if_pos ⟨hstart, by omega⟩,
        List.getElem?_append_left (by omega)]
    · rw [if_neg (by omega), if_neg (by omega)]
  · by_cases hend : i < start + xs.length + ys.length
    · rw [if_pos ⟨hge, hend⟩, if_pos ⟨by omega, by omega⟩,
        List.getElem?_append_right (by omega), Nat.sub_add_eq]
    · rw [if_neg (by omega), if_neg (by omega), if_neg (by omega)]

/-! ## Segments -/

/-- A list of values that starts at an offset. -/
structure Segment (α : Type*) where
  offset : ℕ
  bytes : List α
  deriving DecidableEq

namespace Segment

/-- The first position after the segment. -/
def stop (segment : Segment α) : ℕ :=
  segment.offset + segment.bytes.length

/-- The partial map a segment denotes. -/
def lookup (segment : Segment α) (i : ℕ) : Option α :=
  if segment.offset ≤ i then segment.bytes[i - segment.offset]? else none

theorem lookup_isSome {segment : Segment α} {i : ℕ} :
    (segment.lookup i).isSome ↔ segment.offset ≤ i ∧ i < segment.stop := by
  unfold lookup stop
  split <;> simp <;> omega

theorem lookup_eq_none {segment : Segment α} {i : ℕ}
    (h : ¬ (segment.offset ≤ i ∧ i < segment.stop)) : segment.lookup i = none := by
  rw [← Option.not_isSome_iff_eq_none, lookup_isSome]
  exact h

theorem lookup_of_le {segment : Segment α} {i : ℕ} (h : segment.offset ≤ i) :
    segment.lookup i = segment.bytes[i - segment.offset]? :=
  if_pos h

end Segment

/-- Writing a segment puts its values before those of the map. -/
theorem overlay_eq_or (f : ℕ → Option α) (start : ℕ) (bytes : List α) (i : ℕ) :
    overlay f start bytes i = ((⟨start, bytes⟩ : Segment α).lookup i).or (f i) := by
  by_cases hi : start ≤ i ∧ i < start + bytes.length
  · rw [overlay_of_mem hi, Segment.lookup_of_le hi.1,
      List.getElem?_eq_getElem (show i - start < bytes.length by omega), Option.some_or]
  · rw [overlay_of_not_mem hi, Segment.lookup_eq_none hi, Option.none_or]

/-- The partial map a list of segments denotes. -/
def lookup (segments : List (Segment α)) (i : ℕ) : Option α :=
  segments.findSome? fun segment => segment.lookup i

/-- No two segments of the list share or touch a position. -/
def Apart (first second : Segment α) : Prop :=
  first.stop < second.offset ∨ second.stop < first.offset

instance : Std.Symm (@Apart α) where
  symm _ _ h := h.symm

/-- Non-empty segments in order, with a gap between any two of them. -/
structure Separated (segments : List (Segment α)) : Prop where
  gaps : segments.Pairwise fun first second => first.stop < second.offset
  nonempty : ∀ segment ∈ segments, segment.bytes ≠ []

@[simp] theorem lookup_nil (i : ℕ) : lookup ([] : List (Segment α)) i = none := rfl

theorem lookup_cons (segment : Segment α) (rest : List (Segment α)) (i : ℕ) :
    lookup (segment :: rest) i = (segment.lookup i).or (lookup rest i) := by
  unfold lookup
  rw [List.findSome?_cons]
  cases segment.lookup i <;> rfl

theorem lookup_eq_none_iff {segments : List (Segment α)} {i : ℕ} :
    lookup segments i = none ↔ ∀ segment ∈ segments, segment.lookup i = none := by
  simp [lookup, List.findSome?_eq_none_iff]

/-- In a list of pairwise apart segments the segment that contains a position
decides its value. -/
theorem lookup_of_mem {segments : List (Segment α)} (hapart : segments.Pairwise Apart)
    {segment : Segment α} (hmem : segment ∈ segments) {i : ℕ}
    (hi : segment.offset ≤ i ∧ i < segment.stop) : lookup segments i = segment.lookup i := by
  induction segments with
  | nil => simp at hmem
  | cons head tail ih =>
      rw [List.pairwise_cons] at hapart
      rw [lookup_cons]
      rcases List.mem_cons.mp hmem with rfl | hmem
      · obtain ⟨v, hv⟩ := Option.isSome_iff_exists.mp (Segment.lookup_isSome.mpr hi)
        simp [hv]
      · have hother : head.lookup i = none := by
          apply Segment.lookup_eq_none
          rcases hapart.1 segment hmem with h | h <;> unfold Segment.stop at * <;> omega
        rw [hother, Option.none_or, ih hapart.2 hmem]

theorem exists_mem_of_isSome {segments : List (Segment α)} {i : ℕ}
    (h : (lookup segments i).isSome) :
    ∃ segment ∈ segments, segment.offset ≤ i ∧ i < segment.stop := by
  by_contra hnone
  push Not at hnone
  have : lookup segments i = none := by
    rw [lookup_eq_none_iff]
    intro segment hmem
    exact Segment.lookup_eq_none fun hi => absurd hi.2 (Nat.not_lt.mpr (hnone segment hmem hi.1))
  simp [this] at h

theorem Separated.apart {segments : List (Segment α)} (h : Separated segments) :
    segments.Pairwise Apart :=
  h.gaps.imp Or.inl

/-- Segments that lie apart within a stretch hold no more than the stretch has
positions. -/
theorem sum_length_le {segments : List (Segment α)} {stop : ℕ} :
    ∀ {start : ℕ}, segments.Pairwise (fun first second => first.stop < second.offset) →
      (∀ segment ∈ segments, start ≤ segment.offset ∧ segment.stop ≤ stop) →
      (segments.map fun segment => segment.bytes.length).sum ≤ stop - start := by
  induction segments with
  | nil => simp
  | cons head tail ih =>
      intro start hgaps hwithin
      obtain ⟨hhead, htail⟩ := List.pairwise_cons.mp hgaps
      have hrest : ∀ segment ∈ tail, head.stop ≤ segment.offset ∧ segment.stop ≤ stop :=
        fun segment hmem => ⟨(hhead segment hmem).le,
          (hwithin segment (List.mem_cons_of_mem _ hmem)).2⟩
      have hsum := ih htail hrest
      obtain ⟨hlow, hhigh⟩ := hwithin head List.mem_cons_self
      have hstop : head.stop = head.offset + head.bytes.length := rfl
      rw [List.map_cons, List.sum_cons]
      omega

/-- The value at a position does not depend on the order of apart segments. -/
theorem lookup_perm {first second : List (Segment α)} (hperm : first.Perm second)
    (hfirst : first.Pairwise Apart) : lookup first = lookup second := by
  have hsecond : second.Pairwise Apart :=
    hperm.pairwise hfirst (fun h => h.symm)
  funext i
  cases hlookup : lookup second i with
  | none =>
      rw [lookup_eq_none_iff] at hlookup ⊢
      exact fun segment hmem => hlookup segment (hperm.mem_iff.mp hmem)
  | some v =>
      obtain ⟨segment, hmem, hi⟩ := exists_mem_of_isSome (by rw [hlookup]; rfl)
      rw [← hlookup, lookup_of_mem hsecond hmem hi,
        lookup_of_mem hfirst (hperm.mem_iff.mpr hmem) hi]

/-- A contiguous defined stretch of a separated list lies inside one segment. -/
theorem Separated.exists_covering {segments : List (Segment α)} (h : Separated segments)
    {start : ℕ} : ∀ {len : ℕ}, 0 < len → (∀ i < len, (lookup segments (start + i)).isSome) →
      ∃ segment ∈ segments, segment.offset ≤ start ∧ start + len ≤ segment.stop := by
  intro len
  induction len with
  | zero => intro hpos; exact absurd hpos (Nat.lt_irrefl 0)
  | succ len ih =>
      intro _ hdefined
      obtain ⟨last, hlast, hin⟩ := exists_mem_of_isSome (hdefined len (Nat.lt_succ_self len))
      rcases Nat.eq_zero_or_pos len with rfl | hpos
      · exact ⟨last, hlast, by omega, by omega⟩
      · obtain ⟨segment, hmem, hlow, hhigh⟩ :=
          ih hpos fun i hi => hdefined i (Nat.lt_succ_of_lt hi)
        -- the segment of the last position touches the one found so far, so they coincide
        have hsame : segment = last := by
          by_contra hne
          have hapart : Apart segment last := h.apart.forall hmem hlast hne
          rcases hapart with hbefore | hafter
          · omega
          · have := List.length_pos_iff.mpr (h.nonempty segment hmem)
            unfold Segment.stop at *
            omega
        subst hsame
        exact ⟨segment, hmem, hlow, by omega⟩

end ByteMap
