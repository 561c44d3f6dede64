import FusePromise.Runtime.CacheSpec

/-!
# The cache stays in bounds

`CachedFile.insert` and `CachedFile.read` compute with lists, where a slice that
does not fit is cut short and a loop that does not advance runs out of fuel.
Here the same loops are run with every index and every subtraction of the source
checked, and with a check that each turn advances.  They never give up
(`insertLoop?_eq`, `readLoop?_eq`), so the results of the model are those of the
source.

The second half is the form of a file that was filled with one chunk size: the
ranges of a chunk are non-empty, in order, apart and inside the chunk.
-/

namespace FusePromise

open Machine ByteMap

/-! ## Indexing -/

/-- `bytes[start..stop]`. -/
def slice? (bytes : List UInt8) (start stop : ℕ) : Option (List UInt8) :=
  if start ≤ stop ∧ stop ≤ bytes.length then some ((bytes.take stop).drop start) else none

namespace CachedChunk

/-- `target[start..start + source.len()].copy_from_slice(source)`, in bounds. -/
def copyFromSlice? (target : List UInt8) (start : ℕ) (source : List UInt8) :
    Option (List UInt8) :=
  if start + source.length ≤ target.length then some (copyFromSlice target start source) else none

/-- `mergeRange` with every subtraction and slice checked. -/
def mergeRange? (state : MergeState) (range : CachedRange) : Option MergeState :=
  match rangeEnd range with
  | none => some state
  | some rangeStop =>
      if rangeStop < state.offset ∨ state.stop < range.offset then
        some { state with retained := state.retained ++ [range] }
      else do
        let nextOffset := min state.offset range.offset
        let nextStop := max state.stop rangeStop
        let nextLen ← checkedSub nextStop nextOffset
        let oldStart ← checkedSub range.offset nextOffset
        let old ← copyFromSlice? (List.replicate nextLen 0) oldStart range.bytes
        let mergedStart ← checkedSub state.offset nextOffset
        let bytes ← copyFromSlice? old mergedStart state.bytes
        return ⟨nextOffset, nextStop, bytes, state.retained⟩

/-- `insert` with every subtraction and slice checked. -/
def insert? (chunk : CachedChunk) (offset : ℕ) (bytes : List UInt8) : Option CachedChunk :=
  if bytes = [] then some chunk
  else
    match checkedRangeEnd offset bytes.length with
    | none => some chunk
    | some newEnd => do
        let merged ← chunk.ranges.foldlM mergeRange? ⟨offset, newEnd, bytes, []⟩
        let ranges := merged.retained ++ [⟨merged.offset, merged.bytes⟩]
        return ⟨ranges.insertionSort fun first second => first.offset ≤ second.offset⟩

/-- The outer option is the bounds check, the inner one the answer. -/
def readRanges? (offset stop : ℕ) : List CachedRange → Option (Option (List UInt8))
  | [] => some none
  | range :: rest =>
      match rangeEnd range with
      | none => some none
      | some rangeStop =>
          if range.offset ≤ offset ∧ stop ≤ rangeStop then do
            let start ← checkedSub offset range.offset
            let last ← checkedSub stop range.offset
            let bytes ← slice? range.bytes start last
            return some bytes
          else readRanges? offset stop rest

/-- The merged interval is as long as its bytes. -/
theorem stop_mergeRange {state : MergeState} (range : CachedRange)
    (hstop : state.stop = state.offset + state.bytes.length) :
    (mergeRange state range).stop =
      (mergeRange state range).offset + (mergeRange state range).bytes.length := by
  unfold mergeRange
  cases hend : rangeEnd range with
  | none => exact hstop
  | some rangeStop =>
      obtain ⟨rfl, -⟩ := checkedAdd_eq_some.mp hend
      dsimp only
      split
      · exact hstop
      · have hlength := length_mergedBytes range hstop
        have hrange : range.stop = range.offset + range.bytes.length := rfl
        rw [hrange] at hlength
        simp only [hlength]
        omega

theorem mergeRange?_eq {state : MergeState} (range : CachedRange)
    (hstop : state.stop = state.offset + state.bytes.length) :
    mergeRange? state range = some (mergeRange state range) := by
  unfold mergeRange? mergeRange
  cases hend : rangeEnd range with
  | none => rfl
  | some rangeStop =>
      obtain ⟨hrange, -⟩ := checkedAdd_eq_some.mp hend
      have hold := @length_oldBytes state range
      rw [show range.stop = rangeStop from hrange] at hold
      dsimp only
      split
      · rfl
      · set nextOffset := min state.offset range.offset with hnextOffset
        set nextStop := max state.stop rangeStop with hnextStop
        have hlen : checkedSub nextStop nextOffset = some (nextStop - nextOffset) :=
          checkedSub_eq_some.mpr ⟨by omega, rfl⟩
        have hstart : checkedSub range.offset nextOffset = some (range.offset - nextOffset) :=
          checkedSub_eq_some.mpr ⟨by omega, rfl⟩
        have hmerged : checkedSub state.offset nextOffset = some (state.offset - nextOffset) :=
          checkedSub_eq_some.mpr ⟨by omega, rfl⟩
        have hfirst : range.offset - nextOffset + range.bytes.length ≤
            (List.replicate (nextStop - nextOffset) (0 : UInt8)).length := by
          rw [List.length_replicate]
          omega
        have hsecond : state.offset - nextOffset + state.bytes.length ≤ (copyFromSlice
            (List.replicate (nextStop - nextOffset) 0) (range.offset - nextOffset)
            range.bytes).length := by
          rw [hold]
          omega
        simp only [hlen, hstart, hmerged, copyFromSlice?, if_pos hfirst, if_pos hsecond,
          mergedBytes, Option.bind_eq_bind, Option.bind_some, Option.pure_def]

theorem foldlM_mergeRange? (ranges : List CachedRange) :
    ∀ {state : MergeState}, state.stop = state.offset + state.bytes.length →
      ranges.foldlM mergeRange? state = some (ranges.foldl mergeRange state) := by
  induction ranges with
  | nil => exact fun _ => rfl
  | cons range rest ih =>
      intro state hstop
      rw [List.foldlM_cons, mergeRange?_eq range hstop, List.foldl_cons]
      exact ih (stop_mergeRange range hstop)

theorem insert?_eq (chunk : CachedChunk) (offset : ℕ) (bytes : List UInt8) :
    chunk.insert? offset bytes = some (chunk.insert offset bytes) := by
  unfold insert? insert
  split
  · rfl
  cases hend : checkedRangeEnd offset bytes.length with
  | none => rfl
  | some newEnd =>
      obtain ⟨hstop, -⟩ := checkedAdd_eq_some.mp hend
      have hmerged := @foldlM_mergeRange? chunk.ranges ⟨offset, newEnd, bytes, []⟩ hstop.symm
      simp only [hmerged, Option.bind_eq_bind, Option.bind_some, Option.pure_def]

theorem readRanges?_eq {offset stop : ℕ} (hle : offset ≤ stop) (ranges : List CachedRange) :
    readRanges? offset stop ranges = some (readRanges offset stop ranges) := by
  induction ranges with
  | nil => rfl
  | cons range rest ih =>
      unfold readRanges? readRanges
      cases hend : rangeEnd range with
      | none => rfl
      | some rangeStop =>
          obtain ⟨hrange, -⟩ := checkedAdd_eq_some.mp hend
          simp only [Option.bind_eq_bind, Option.bind_some]
          split
          · rename_i hcover
            have hstart : checkedSub offset range.offset = some (offset - range.offset) :=
              checkedSub_eq_some.mpr ⟨hcover.1, rfl⟩
            have hlast : checkedSub stop range.offset = some (stop - range.offset) :=
              checkedSub_eq_some.mpr ⟨by omega, rfl⟩
            have hslice : offset - range.offset ≤ stop - range.offset ∧
                stop - range.offset ≤ range.bytes.length := by omega
            simp only [hstart, hlast, slice?, if_pos hslice, Option.bind_some, Option.pure_def]
          · exact ih

/-- `CachedChunk::read`, with its slice checked. -/
def read? (chunk : CachedChunk) (offset length : ℕ) : Option (Option (List UInt8)) :=
  match checkedAdd offset length with
  | none => some none
  | some stop => readRanges? offset stop chunk.ranges

theorem read?_eq (chunk : CachedChunk) (offset length : ℕ) :
    chunk.read? offset length = some (chunk.read offset length) := by
  unfold read? read
  cases hstop : checkedAdd offset length with
  | none => rfl
  | some stop =>
      obtain ⟨rfl, -⟩ := checkedAdd_eq_some.mp hstop
      exact readRanges?_eq (Nat.le_add_right _ _) chunk.ranges

end CachedChunk

namespace CachedFile

/-! ## The two loops -/

/-- The loop of `CachedFile::insert` with its counter of consumed bytes.  It
gives up at an index out of bounds, at a turn that does not advance, and when
there are still bytes to store after the turns it is allowed. -/
def insertLoop? (chunkSize : ℕ) (bytes : List UInt8) :
    ℕ → CachedFile → ℕ → ℕ → Option CachedFile
  | 0, file, _, consumed => if consumed < bytes.length then none else some file
  | fuel + 1, file, cursor, consumed =>
      if consumed < bytes.length then do
        let base := chunkBase cursor chunkSize
        let take := min (bytes.length - consumed) (chunkEnd base chunkSize - cursor)
        let piece ← slice? bytes consumed (consumed + take)
        let chunk ← ((file.chunks[base]?).getD ⟨[]⟩).insert? cursor piece
        let next := saturatingAdd cursor take
        if cursor < next ∧ consumed < consumed + take then
          insertLoop? chunkSize bytes fuel ⟨file.chunks.insert base chunk⟩ next (consumed + take)
        else none
      else some file

/-- `insert` of a file, checked in the same way. -/
def insert? (file : CachedFile) (offset : ℕ) (bytes : List UInt8) (chunkSize : ℕ) :
    Option CachedFile :=
  insertLoop? chunkSize bytes bytes.length file offset 0

/-- The loop of `CachedFile::read`, which gives up as `insertLoop?` does; the inner
option is its answer. -/
def readLoop? (file : CachedFile) (stop chunkSize : ℕ) : ℕ → ℕ → Option (Option (List UInt8))
  | 0, cursor => if cursor < stop then none else some (some [])
  | fuel + 1, cursor =>
      if cursor < stop then do
        let base := chunkBase cursor chunkSize
        let readEnd := min stop (chunkEnd base chunkSize)
        match checkedSub readEnd cursor, file.chunks[base]? with
        | some readLen, some chunk =>
            match ← chunk.read? cursor readLen with
            | some bytes =>
                if cursor < readEnd then do
                  let rest ← readLoop? file stop chunkSize fuel readEnd
                  return rest.map (bytes ++ ·)
                else none
            | none => return none
        | _, _ => return none
      else some (some [])

/-- `read` of a file, checked in the same way. -/
def read? (file : CachedFile) (offset length chunkSize : ℕ) : Option (Option (List UInt8)) :=
  match checkedAdd offset length with
  | none => some none
  | some stop => readLoop? file stop chunkSize length offset

theorem insertLoop?_eq {chunkSize : ℕ} (hpos : 0 < chunkSize) (bytes : List UInt8) (fuel : ℕ) :
    ∀ (file : CachedFile) (cursor consumed : ℕ), consumed ≤ bytes.length →
      bytes.length - consumed ≤ fuel → cursor + (bytes.length - consumed) ≤ u64Max →
      insertLoop? chunkSize bytes fuel file cursor consumed =
        some (insertLoop chunkSize fuel file cursor (bytes.drop consumed)) := by
  induction fuel with
  | zero =>
      intro file cursor consumed hle hfuel _
      rw [insertLoop?, if_neg (by omega)]
      rfl
  | succ fuel ih =>
      intro file cursor consumed hle hfuel hend
      rw [insertLoop?, insertLoop]
      by_cases hmore : consumed < bytes.length
      · have hne : bytes.drop consumed ≠ [] := by
          rw [ne_eq, List.drop_eq_nil_iff]
          omega
        have hlow := chunkBase_le cursor chunkSize
        have hhigh := lt_chunkBase_add cursor hpos
        have hchunkEnd := chunkEnd_eq (chunkBase cursor chunkSize) chunkSize
        rw [if_pos hmore, if_neg hne]
        simp only [List.length_drop]
        set take := min (bytes.length - consumed)
          (chunkEnd (chunkBase cursor chunkSize) chunkSize - cursor) with htake
        -- the cursor is below the largest offset, so its chunk ends after it
        have htakePos : 0 < take := by omega
        have hnext : saturatingAdd cursor take = cursor + take := by
          unfold saturatingAdd
          omega
        have hslice : slice? bytes consumed (consumed + take) =
            some ((bytes.drop consumed).take take) := by
          rw [slice?, if_pos (by omega), List.drop_take, Nat.add_sub_cancel_left]
        simp only [hslice, CachedChunk.insert?_eq, hnext, Option.bind_eq_bind, Option.bind_some]
        rw [if_pos (by omega), if_neg (by omega), List.drop_drop]
        exact ih _ _ _ (by omega) (by omega) (by omega)
      · have hnil : bytes.drop consumed = [] := List.drop_eq_nil_iff.mpr (by omega)
        rw [if_neg hmore, if_pos hnil]

/-- An insertion whose end is a 64-bit word stores all its bytes, each turn some
of them, and stays in bounds. -/
theorem insert?_eq {chunkSize : ℕ} (hpos : 0 < chunkSize) (file : CachedFile) {offset : ℕ}
    {bytes : List UInt8} (hend : offset + bytes.length ≤ u64Max) :
    file.insert? offset bytes chunkSize = some (file.insert offset bytes chunkSize) :=
  insertLoop?_eq hpos bytes bytes.length file offset 0 (by omega) (by omega) (by omega)

theorem readLoop?_eq {file : CachedFile} {chunkSize : ℕ} (hpos : 0 < chunkSize) {stop : ℕ}
    (hstop : stop ≤ u64Max) (fuel : ℕ) :
    ∀ cursor, stop - cursor ≤ fuel →
      readLoop? file stop chunkSize fuel cursor =
        some (readLoop file stop chunkSize fuel cursor) := by
  induction fuel with
  | zero =>
      intro cursor hfuel
      rw [readLoop?, readLoop, if_neg (by omega), if_neg (by omega)]
  | succ fuel ih =>
      intro cursor hfuel
      rw [readLoop?, readLoop]
      by_cases hlt : cursor < stop
      · have hlow := chunkBase_le cursor chunkSize
        have hhigh := lt_chunkBase_add cursor hpos
        have hchunkEnd := chunkEnd_eq (chunkBase cursor chunkSize) chunkSize
        rw [if_pos hlt, if_pos hlt]
        dsimp only
        set readEnd := min stop (chunkEnd (chunkBase cursor chunkSize) chunkSize) with hreadEnd
        have hlen : checkedSub readEnd cursor = some (readEnd - cursor) :=
          checkedSub_eq_some.mpr ⟨by omega, rfl⟩
        rw [hlen]
        cases hchunk : file.chunks[chunkBase cursor chunkSize]? with
        | none => rfl
        | some chunk =>
            simp only [CachedChunk.read?_eq, Option.bind_eq_bind, Option.bind_some]
            cases hread : chunk.read cursor (readEnd - cursor) with
            | none => rfl
            | some bytes =>
                simp only [ih readEnd (by omega), Option.bind_some]
                rw [if_pos (by omega)]
                cases readLoop file stop chunkSize fuel readEnd <;> rfl
      · rw [if_neg hlt, if_neg hlt]

/-- A read stays in bounds, and each of its turns advances. -/
theorem read?_eq {chunkSize : ℕ} (hpos : 0 < chunkSize) (file : CachedFile) (offset length : ℕ) :
    file.read? offset length chunkSize = some (file.read offset length chunkSize) := by
  unfold read? read
  cases hstop : checkedAdd offset length with
  | none => rfl
  | some stop =>
      obtain ⟨rfl, hend⟩ := checkedAdd_eq_some.mp hstop
      exact readLoop?_eq hpos hend length offset (by omega)

/-! ## The form of a file -/

/-- Every key is the start of a chunk. -/
def Aligned (file : CachedFile) (chunkSize : ℕ) : Prop :=
  ∀ (base : ℕ) (chunk : CachedChunk), file.chunks[base]? = some chunk → chunkSize ∣ base

theorem Aligned.insertLoop {chunkSize : ℕ} (fuel : ℕ) :
    ∀ {file : CachedFile} {cursor : ℕ} {bytes : List UInt8}, file.Aligned chunkSize →
      (insertLoop chunkSize fuel file cursor bytes).Aligned chunkSize := by
  induction fuel with
  | zero => exact fun h => h
  | succ fuel ih =>
      intro file cursor bytes h
      rw [CachedFile.insertLoop]
      split
      · exact h
      dsimp only
      split
      · exact h
      · apply ih
        intro base chunk hchunk
        simp only [Std.ExtTreeMap.getElem?_insert, Std.LawfulEqCmp.compare_eq_iff_eq] at hchunk
        split at hchunk
        · rename_i hbase
          rw [← hbase]
          exact Nat.dvd_mul_left _ _
        · exact h base chunk hchunk

/-- A file filled with one chunk size, insertion after insertion. -/
def insertAll (chunkSize : ℕ) (inserts : List (ℕ × List UInt8)) : CachedFile :=
  inserts.foldl (fun file call => file.insert call.1 call.2 chunkSize) ⟨∅⟩

theorem wellFormed_insertAll {chunkSize : ℕ} (hpos : 0 < chunkSize)
    {inserts : List (ℕ × List UInt8)}
    (hfit : ∀ call ∈ inserts, call.1 + call.2.length ≤ u64Max) :
    (insertAll chunkSize inserts).WellFormed chunkSize ∧
      (insertAll chunkSize inserts).Aligned chunkSize := by
  unfold insertAll
  induction inserts using List.reverseRecOn with
  | nil => exact ⟨WellFormed.empty chunkSize, fun base chunk hchunk => by simp at hchunk⟩
  | append_singleton inserts call ih =>
      obtain ⟨hwf, haligned⟩ := ih fun earlier hmem => hfit earlier (List.mem_append_left _ hmem)
      rw [List.foldl_append]
      exact ⟨hwf.insert hpos (hfit call (by simp)), haligned.insertLoop _⟩

/-- The ranges of a chunk lie inside it. -/
theorem WellFormed.range_within {file : CachedFile} {chunkSize : ℕ} (hpos : 0 < chunkSize)
    (h : file.WellFormed chunkSize) {base : ℕ} {chunk : CachedChunk}
    (hchunk : file.chunks[base]? = some chunk) {range : CachedRange}
    (hmem : range ∈ chunk.ranges) : base ≤ range.offset ∧ range.stop ≤ base + chunkSize := by
  have hsep := h.separated base chunk hchunk
  have hlength := List.length_pos_iff.mpr (hsep.nonempty range hmem)
  have hstop : range.stop = range.offset + range.bytes.length := rfl
  have hbase : ∀ i, range.offset ≤ i → i < range.stop → chunkBase i chunkSize = base := by
    intro i hlow hhigh
    refine (h.within base chunk i hchunk ?_).1
    rw [lookup_of_mem hsep.apart hmem ⟨hlow, hhigh⟩]
    exact Segment.lookup_isSome.mpr ⟨hlow, hhigh⟩
  have hfirst := hbase range.offset le_rfl (by omega)
  have hlast := hbase (range.stop - 1) (by omega) (by omega)
  have hlow := chunkBase_le range.offset chunkSize
  have hhigh := lt_chunkBase_add (range.stop - 1) hpos
  omega

/-- After any insertions with one chunk size every chunk is in canonical form, and
neither a further insertion nor a read leaves its bounds or stands still. -/
theorem insertAll_canonical {chunkSize : ℕ} (hpos : 0 < chunkSize)
    {inserts : List (ℕ × List UInt8)}
    (hfit : ∀ call ∈ inserts, call.1 + call.2.length ≤ u64Max) :
    let file := insertAll chunkSize inserts
    (∀ (base : ℕ) (chunk : CachedChunk), file.chunks[base]? = some chunk →
      chunkSize ∣ base ∧
      (∀ range ∈ chunk.ranges, range.bytes ≠ [] ∧ base ≤ range.offset ∧
        range.offset + range.bytes.length ≤ base + chunkSize) ∧
      chunk.ranges.Pairwise (fun first second =>
        first.offset + first.bytes.length + 1 ≤ second.offset) ∧
      (chunk.ranges.map fun range => range.bytes.length).sum ≤ chunkSize) ∧
    (∀ (offset : ℕ) (bytes : List UInt8), offset + bytes.length ≤ u64Max →
      file.insert? offset bytes chunkSize = some (file.insert offset bytes chunkSize)) ∧
    ∀ offset length, file.read? offset length chunkSize =
      some (file.read offset length chunkSize) := by
  intro file
  obtain ⟨hwf, haligned⟩ := wellFormed_insertAll hpos hfit
  refine ⟨?_, fun offset bytes hend => insert?_eq hpos file hend,
    fun offset length => read?_eq hpos file offset length⟩
  intro base chunk hchunk
  have hsep := hwf.separated base chunk hchunk
  have hwithin := fun (range : CachedRange) (hmem : range ∈ chunk.ranges) =>
    hwf.range_within hpos hchunk hmem
  refine ⟨haligned base chunk hchunk,
    fun range hmem => ⟨hsep.nonempty range hmem, hwithin range hmem⟩, hsep.gaps, ?_⟩
  exact (sum_length_le hsep.gaps hwithin).trans_eq (Nat.add_sub_cancel_left _ _)

/-- Two insertions that meet, with chunks of four bytes. -/
theorem insertAll_canonical_two :
    (0 < 4 ∧ ∀ call ∈ [(2, [7, 7, 7]), (u64Max - 1, [9])], call.1 + call.2.length ≤ u64Max) ∧
      let file := insertAll 4 [(2, [7, 7, 7]), (u64Max - 1, [9])]
      file.read? 2 3 4 = some (file.read 2 3 4) := by
  have hfit : ∀ call ∈ [(2, [7, 7, 7]), (u64Max - 1, ([9] : List UInt8))],
      call.1 + call.2.length ≤ u64Max := by decide
  exact ⟨⟨by decide, by decide⟩, (insertAll_canonical (by decide) hfit).2.2 2 3⟩

end CachedFile

end FusePromise
