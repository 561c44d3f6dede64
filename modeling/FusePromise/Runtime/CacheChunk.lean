import FusePromise.Runtime.Cache

/-!
# One chunk refines a partial map

A chunk whose ranges are separated denotes the partial map
`ByteMap.lookup chunk.ranges`.  `CachedChunk.insert_spec` says that an insertion
overlays the new bytes on that map and keeps the ranges separated, and
`CachedChunk.read_eq_some` that a read succeeds exactly on the stretches where
the map is defined throughout.

The merging loop makes one pass over the ranges while the merged interval grows
in both directions.  That one pass is enough because the ranges are separated:
a range set aside on the left ends before every later range, so it stays apart
when the interval grows to the left, and once a range is set aside on the right
all later ones are too (`MergeInv`).
-/

namespace FusePromise

open Machine ByteMap

namespace CachedChunk

/-! ## Copying into a buffer -/

private theorem length_copyFromSlice {target : List UInt8} {start : ℕ} {source : List UInt8}
    (h : start + source.length ≤ target.length) :
    (copyFromSlice target start source).length = target.length := by
  simp only [copyFromSlice, List.length_append, List.length_take, List.length_drop]
  omega

private theorem getElem?_copyFromSlice {target : List UInt8} {start : ℕ} {source : List UInt8}
    (h : start + source.length ≤ target.length) (j : ℕ) :
    (copyFromSlice target start source)[j]? =
      if start ≤ j ∧ j < start + source.length then source[j - start]? else target[j]? := by
  unfold copyFromSlice
  have htake : (target.take start).length = start := by simp; omega
  rcases Nat.lt_or_ge j start with hlt | hge
  · rw [if_neg (by omega), List.append_assoc, List.getElem?_append_left (by omega),
      List.getElem?_take_of_lt hlt]
  · rcases Nat.lt_or_ge j (start + source.length) with hin | hout
    · rw [if_pos ⟨hge, hin⟩, List.getElem?_append_left (by simp; omega),
        List.getElem?_append_right (by omega), htake]
    · rw [if_neg (by omega), List.getElem?_append_right (by simp; omega), List.getElem?_drop]
      congr 1
      simp
      omega

/-! ## The merging loop -/

private theorem lookup_append_singleton (ranges : List CachedRange) (range : CachedRange) (i : ℕ) :
    lookup (ranges ++ [range]) i = (lookup ranges i).or (range.lookup i) := by
  induction ranges with
  | nil => simp [lookup_cons]
  | cons head tail ih => rw [List.cons_append, lookup_cons, lookup_cons, ih, Option.or_assoc]

/-- The invariant of the merging loop after the ranges `done`: the merged
interval over the retained ranges denotes the new bytes over `done`, and the
merged interval is apart from every retained range. -/
private structure MergeInv (offset : ℕ) (bytes : List UInt8) (done : List CachedRange)
    (state : MergeState) : Prop where
  stop_eq : state.stop = state.offset + state.bytes.length
  bytes_pos : 0 < state.bytes.length
  retained : state.retained.Sublist done
  apart : ∀ range ∈ state.retained, range.stop < state.offset ∨ state.stop < range.offset
  value : overlay (lookup state.retained) state.offset state.bytes =
    overlay (lookup done) offset bytes

private theorem lookup_of_gap {done : List CachedRange} {range : CachedRange}
    (hgap : ∀ earlier ∈ done, earlier.stop < range.offset) {i : ℕ} (hi : range.offset ≤ i) :
    lookup done i = none := by
  rw [lookup_eq_none_iff]
  intro earlier hmem
  have := hgap earlier hmem
  exact Segment.lookup_eq_none (by omega)

/-- A range that is set aside: positions of the merged interval keep their
value, and the others see the range exactly where `done` does not. -/
private theorem MergeInv.keep {offset : ℕ} {bytes : List UInt8} {done : List CachedRange}
    {state : MergeState} (inv : MergeInv offset bytes done state) {range : CachedRange}
    (hapart : range.stop < state.offset ∨ state.stop < range.offset) :
    MergeInv offset bytes (done ++ [range])
      { state with retained := state.retained ++ [range] } := by
  refine ⟨inv.stop_eq, inv.bytes_pos, inv.retained.append (List.Sublist.refl _), ?_, ?_⟩
  · intro other hmem
    rcases List.mem_append.mp hmem with hmem | hmem
    · exact inv.apart other hmem
    · rw [List.mem_singleton.mp hmem]
      exact hapart
  · funext i
    have hvalue := congrFun inv.value i
    have hstop := inv.stop_eq
    by_cases hin : state.offset ≤ i ∧ i < state.offset + state.bytes.length
    · rw [overlay_of_mem hin] at hvalue ⊢
      have hnone : range.lookup i = none := Segment.lookup_eq_none (by omega)
      by_cases hnew : offset ≤ i ∧ i < offset + bytes.length
      · rw [hvalue, overlay_of_mem hnew, overlay_of_mem hnew]
      · rw [hvalue, overlay_of_not_mem hnew, overlay_of_not_mem hnew, lookup_append_singleton,
          hnone, Option.or_none]
    · rw [overlay_of_not_mem hin] at hvalue ⊢
      rw [lookup_append_singleton, hvalue]
      by_cases hnew : offset ≤ i ∧ i < offset + bytes.length
      · rw [overlay_of_mem hnew, overlay_of_mem hnew,
          List.getElem?_eq_getElem (show i - offset < bytes.length by omega), Option.some_or]
      · rw [overlay_of_not_mem hnew, overlay_of_not_mem hnew, lookup_append_singleton]

theorem length_oldBytes {state : MergeState} {range : CachedRange} :
    (copyFromSlice
      (List.replicate (max state.stop range.stop - min state.offset range.offset) 0)
      (range.offset - min state.offset range.offset) range.bytes).length =
      max state.stop range.stop - min state.offset range.offset := by
  have hrange : range.stop = range.offset + range.bytes.length := rfl
  rw [length_copyFromSlice, List.length_replicate]
  rw [List.length_replicate]
  omega

theorem length_mergedBytes {state : MergeState} (range : CachedRange)
    (hstop : state.stop = state.offset + state.bytes.length) :
    (mergedBytes state range (min state.offset range.offset)
      (max state.stop range.stop)).length =
      max state.stop range.stop - min state.offset range.offset := by
  rw [mergedBytes, length_copyFromSlice, length_oldBytes]
  rw [length_oldBytes]
  omega

/-- The buffer a merge produces: the merged bytes where they lie, and the bytes
of the old range elsewhere. -/
private theorem getElem?_mergedBytes {state : MergeState} {range : CachedRange}
    (hstop : state.stop = state.offset + state.bytes.length)
    (htouch : ¬ (range.stop < state.offset ∨ state.stop < range.offset)) {i : ℕ}
    (hi : min state.offset range.offset ≤ i) (hi' : i < max state.stop range.stop) :
    (mergedBytes state range (min state.offset range.offset)
      (max state.stop range.stop))[i - min state.offset range.offset]? =
      if state.offset ≤ i ∧ i < state.stop then state.bytes[i - state.offset]?
      else range.bytes[i - range.offset]? := by
  have hrange : range.stop = range.offset + range.bytes.length := rfl
  rw [mergedBytes, getElem?_copyFromSlice (by rw [length_oldBytes]; omega)]
  by_cases hin : state.offset ≤ i ∧ i < state.stop
  · rw [if_pos hin, if_pos (by omega)]
    congr 1
    omega
  · rw [if_neg hin, if_neg (by omega),
      getElem?_copyFromSlice (by rw [List.length_replicate]; omega), if_pos (by omega)]
    congr 1
    omega

/-- A range that touches the merged interval is absorbed by it. -/
private theorem MergeInv.absorb {offset : ℕ} {bytes : List UInt8} {done : List CachedRange}
    {state : MergeState} (inv : MergeInv offset bytes done state) {range : CachedRange}
    (hgap : ∀ earlier ∈ done, earlier.stop < range.offset)
    (htouch : ¬ (range.stop < state.offset ∨ state.stop < range.offset)) :
    MergeInv offset bytes (done ++ [range])
      ⟨min state.offset range.offset, max state.stop range.stop,
        mergedBytes state range (min state.offset range.offset) (max state.stop range.stop),
        state.retained⟩ := by
  have hstop := inv.stop_eq
  have hpos := inv.bytes_pos
  have hlength := length_mergedBytes range hstop
  refine ⟨?_, ?_, inv.retained.trans (List.sublist_append_left _ _), ?_, ?_⟩
  · simp only [hlength]
    omega
  · simp only [hlength]
    omega
  · intro other hmem
    have hearlier := hgap other (inv.retained.subset hmem)
    have hother : other.offset ≤ other.stop := Nat.le_add_right _ _
    rcases inv.apart other hmem with hleft | hright
    · left
      show other.stop < min state.offset range.offset
      omega
    · omega
  · funext i
    have hvalue := congrFun inv.value i
    have hgone : ∀ {j}, range.offset ≤ j → lookup state.retained j = none := fun hj =>
      lookup_of_gap (fun other hmem => hgap other (inv.retained.subset hmem)) hj
    by_cases hwide : min state.offset range.offset ≤ i ∧ i < max state.stop range.stop
    · rw [overlay_of_mem (by simp only [hlength]; omega)]
      simp only [getElem?_mergedBytes hstop htouch hwide.1 hwide.2]
      by_cases hin : state.offset ≤ i ∧ i < state.stop
      · rw [if_pos hin]
        rw [overlay_of_mem (by omega)] at hvalue
        by_cases hnew : offset ≤ i ∧ i < offset + bytes.length
        · rw [hvalue, overlay_of_mem hnew, overlay_of_mem hnew]
        · rw [overlay_of_not_mem hnew] at hvalue ⊢
          rw [lookup_append_singleton, ← hvalue,
            List.getElem?_eq_getElem (show i - state.offset < state.bytes.length by omega),
            Option.some_or]
      · -- inside the range but not the merged interval: neither `done` nor the
        -- new bytes reach this position
        have hi : range.offset ≤ i := by omega
        rw [if_neg hin]
        rw [overlay_of_not_mem (by omega), hgone hi] at hvalue
        have hnew : ¬ (offset ≤ i ∧ i < offset + bytes.length) := by
          intro hnew
          rw [overlay_of_mem hnew,
            List.getElem?_eq_getElem (show i - offset < bytes.length by omega)] at hvalue
          simp at hvalue
        rw [overlay_of_not_mem hnew, lookup_append_singleton, lookup_of_gap hgap hi,
          Option.none_or, Segment.lookup_of_le hi]
    · have hnone : range.lookup i = none := Segment.lookup_eq_none (by omega)
      rw [overlay_of_not_mem (by simp only [hlength]; omega)]
      rw [overlay_of_not_mem (by omega)] at hvalue
      rw [hvalue]
      by_cases hnew : offset ≤ i ∧ i < offset + bytes.length
      · rw [overlay_of_mem hnew, overlay_of_mem hnew]
      · rw [overlay_of_not_mem hnew, overlay_of_not_mem hnew, lookup_append_singleton, hnone,
          Option.or_none]

private theorem MergeInv.foldl {offset : ℕ} {bytes : List UInt8} (todo : List CachedRange)
    (hfit : ∀ range ∈ todo, range.stop ≤ u64Max) :
    ∀ {done : List CachedRange} {state : MergeState},
      (done ++ todo).Pairwise (fun first second => first.stop < second.offset) →
      MergeInv offset bytes done state →
      MergeInv offset bytes (done ++ todo) (todo.foldl mergeRange state) := by
  induction todo with
  | nil =>
      intro done state _ inv
      simpa using inv
  | cons range rest ih =>
      intro done state hgaps inv
      have hgap : ∀ earlier ∈ done, earlier.stop < range.offset := fun earlier hmem =>
        (List.pairwise_append.mp hgaps).2.2 earlier hmem range (by simp)
      have hend : rangeEnd range = some range.stop :=
        checkedAdd_eq_some.mpr ⟨rfl, hfit range (by simp)⟩
      have hnext : MergeInv offset bytes (done ++ [range]) (mergeRange state range) := by
        unfold mergeRange
        rw [hend]
        by_cases hapart : range.stop < state.offset ∨ state.stop < range.offset
        · simp only [hapart, if_true]
          exact inv.keep hapart
        · simp only [hapart, if_false]
          exact inv.absorb hgap hapart
      have hassoc : done ++ range :: rest = (done ++ [range]) ++ rest := by simp
      rw [hassoc] at hgaps ⊢
      exact ih (fun other hmem => hfit other (List.mem_cons_of_mem _ hmem)) hgaps hnext

/-! ## Insertion -/

/-- Ranges that are pairwise apart and sorted by offset have gaps in order. -/
private theorem gaps_of_sorted {ranges : List CachedRange} (hapart : ranges.Pairwise Apart)
    (hsorted : ranges.Pairwise fun first second => first.offset ≤ second.offset) :
    ranges.Pairwise fun first second => first.stop < second.offset := by
  refine (hapart.and hsorted).imp ?_
  rintro first second ⟨hleft | hright, hle⟩
  · exact hleft
  · have : second.offset ≤ second.stop := Nat.le_add_right _ _
    omega

/-- An insertion overlays the new bytes, and every range of the result consists
of bytes that were there before or are new. -/
theorem insert_spec {chunk : CachedChunk} (hchunk : Separated chunk.ranges)
    (hfit : ∀ range ∈ chunk.ranges, range.stop ≤ u64Max) {offset : ℕ} {bytes : List UInt8}
    (hend : offset + bytes.length ≤ u64Max) :
    Separated (chunk.insert offset bytes).ranges ∧
      lookup (chunk.insert offset bytes).ranges = overlay (lookup chunk.ranges) offset bytes := by
  by_cases hnil : bytes = []
  · subst hnil
    simp [insert, hchunk]
  have hpos : 0 < bytes.length := List.length_pos_iff.mpr hnil
  have hnewEnd : checkedRangeEnd offset bytes.length = some (offset + bytes.length) :=
    checkedAdd_eq_some.mpr ⟨rfl, hend⟩
  have hstart : MergeInv offset bytes [] ⟨offset, offset + bytes.length, bytes, []⟩ :=
    ⟨rfl, hpos, List.Sublist.refl _, by simp, rfl⟩
  -- the loop keeps its invariant, from the new bytes alone to all ranges
  have inv := MergeInv.foldl chunk.ranges hfit (by simpa using hchunk.gaps) hstart
  rw [List.nil_append] at inv
  set merged := chunk.ranges.foldl mergeRange ⟨offset, offset + bytes.length, bytes, []⟩
    with hmerged
  have hranges : (chunk.insert offset bytes).ranges =
      List.insertionSort (fun first second : CachedRange => first.offset ≤ second.offset)
        (merged.retained ++ [⟨merged.offset, merged.bytes⟩]) := by
    simp only [insert, if_neg hnil, hnewEnd, hmerged]
  have hstop : (⟨merged.offset, merged.bytes⟩ : CachedRange).stop = merged.stop :=
    inv.stop_eq.symm
  -- what was retained does not touch what was merged, so sorting is all that is left
  have hapart : List.Pairwise Apart
      (merged.retained ++ [(⟨merged.offset, merged.bytes⟩ : CachedRange)]) := by
    rw [List.pairwise_append]
    refine ⟨(hchunk.gaps.sublist inv.retained).imp Or.inl, by simp, ?_⟩
    intro range hmem other hother
    rw [List.mem_singleton.mp hother]
    rcases inv.apart range hmem with hleft | hright
    · exact Or.inl hleft
    · exact Or.inr (by rw [hstop]; exact hright)
  have hperm := List.perm_insertionSort
    (fun first second : CachedRange => first.offset ≤ second.offset)
    (merged.retained ++ [⟨merged.offset, merged.bytes⟩])
  rw [hranges]
  refine ⟨⟨gaps_of_sorted (hperm.symm.pairwise hapart fun h => h.symm) ?_, ?_⟩, ?_⟩
  · have : Std.Total (fun first second : CachedRange => first.offset ≤ second.offset) :=
      ⟨fun a b => Nat.le_total a.offset b.offset⟩
    have : IsTrans CachedRange fun first second => first.offset ≤ second.offset :=
      ⟨fun _ _ _ => Nat.le_trans⟩
    exact List.pairwise_insertionSort _ _
  · intro range hmem
    rcases List.mem_append.mp (hperm.mem_iff.mp hmem) with hmem | hmem
    · exact hchunk.nonempty range (inv.retained.subset hmem)
    · rw [List.mem_singleton.mp hmem]
      exact List.length_pos_iff.mp inv.bytes_pos
  · rw [lookup_perm hperm (hperm.symm.pairwise hapart fun h => h.symm), ← inv.value]
    funext i
    rw [lookup_append_singleton]
    by_cases hin : merged.offset ≤ i ∧ i < merged.offset + merged.bytes.length
    · rw [overlay_of_mem hin]
      have hnone : lookup merged.retained i = none := by
        rw [lookup_eq_none_iff]
        intro range hmem
        have hstopEq := inv.stop_eq
        rcases inv.apart range hmem with hleft | hright <;>
          exact Segment.lookup_eq_none (by omega)
      rw [hnone, Option.none_or, Segment.lookup_of_le hin.1]
    · rw [overlay_of_not_mem hin, Segment.lookup_eq_none hin, Option.or_none]

/-! ## Reading -/

/-- The bytes a read takes out of a range that covers `[offset, stop)`. -/
private def cut (offset stop : ℕ) (range : CachedRange) : List UInt8 :=
  (range.bytes.take (stop - range.offset)).drop (offset - range.offset)

private theorem readRanges_eq_find? {offset stop : ℕ} (hle : offset ≤ stop) :
    ∀ {ranges : List CachedRange}, (∀ range ∈ ranges, range.stop ≤ u64Max) →
      readRanges offset stop ranges =
        (ranges.find? fun range => range.offset ≤ offset ∧ stop ≤ range.stop).map
          (cut offset stop)
  | [], _ => rfl
  | range :: rest, hfit => by
      have hend : rangeEnd range = some range.stop :=
        checkedAdd_eq_some.mpr ⟨rfl, hfit range (by simp)⟩
      have hrest := readRanges_eq_find? hle fun other hmem =>
        hfit other (List.mem_cons_of_mem _ hmem)
      unfold readRanges
      simp only [hend, Option.bind_eq_bind, Option.bind_some]
      by_cases hcover : range.offset ≤ offset ∧ stop ≤ range.stop
      · have hstart : checkedSub offset range.offset = some (offset - range.offset) :=
          checkedSub_eq_some.mpr ⟨hcover.1, rfl⟩
        have hlast : checkedSub stop range.offset = some (stop - range.offset) :=
          checkedSub_eq_some.mpr ⟨hcover.1.trans hle, rfl⟩
        rw [if_pos hcover, List.find?_cons_of_pos (by simpa using hcover), hstart, hlast]
        rfl
      · rw [if_neg hcover, List.find?_cons_of_neg (by simpa using hcover), hrest]

/-- A range that covers the stretch holds its bytes. -/
private theorem reads_cut {ranges : List CachedRange} (hranges : Separated ranges)
    {range : CachedRange} (hmem : range ∈ ranges) {offset length : ℕ}
    (hlow : range.offset ≤ offset) (hhigh : offset + length ≤ range.stop) :
    Reads (lookup ranges) offset length (cut offset (offset + length) range) := by
  have hstop : range.stop = range.offset + range.bytes.length := rfl
  refine ⟨?_, fun i hi => ?_⟩
  · simp only [cut, List.length_drop, List.length_take]
    omega
  · rw [lookup_of_mem hranges.apart hmem (by omega), Segment.lookup_of_le (by omega), cut,
      List.getElem?_drop, List.getElem?_take_of_lt (by omega)]
    congr 1
    omega

/-- A non-empty read succeeds exactly where the chunk is defined throughout, and
returns its bytes. -/
theorem read_eq_some {chunk : CachedChunk} (hchunk : Separated chunk.ranges)
    (hfit : ∀ range ∈ chunk.ranges, range.stop ≤ u64Max) {offset length : ℕ}
    (hpos : 0 < length) (hend : offset + length ≤ u64Max) {bytes : List UInt8} :
    chunk.read offset length = some bytes ↔ Reads (lookup chunk.ranges) offset length bytes := by
  have hstop : checkedAdd offset length = some (offset + length) :=
    checkedAdd_eq_some.mpr ⟨rfl, hend⟩
  have hread : chunk.read offset length =
      (chunk.ranges.find? fun range =>
        range.offset ≤ offset ∧ offset + length ≤ range.stop).map
          (cut offset (offset + length)) := by
    rw [read, hstop]
    exact readRanges_eq_find? (Nat.le_add_right _ _) hfit
  rw [hread]
  constructor
  · intro h
    obtain ⟨range, hfind, rfl⟩ := Option.map_eq_some_iff.mp h
    have hcover := List.find?_some hfind
    simp only [decide_eq_true_eq] at hcover
    exact reads_cut hchunk (List.mem_of_find?_eq_some hfind) hcover.1 hcover.2
  · intro h
    obtain ⟨covering, hmem, hcover⟩ := hchunk.exists_covering hpos fun i hi => h.isSome hi
    have hfound : (chunk.ranges.find? fun range =>
        range.offset ≤ offset ∧ offset + length ≤ range.stop).isSome :=
      List.find?_isSome.mpr ⟨covering, hmem, by simpa using hcover⟩
    obtain ⟨range, hfind⟩ := Option.isSome_iff_exists.mp hfound
    have hcover := List.find?_some hfind
    simp only [decide_eq_true_eq] at hcover
    rw [hfind, Option.map_some,
      (reads_cut hchunk (List.mem_of_find?_eq_some hfind) hcover.1 hcover.2).unique h]

end CachedChunk

end FusePromise
