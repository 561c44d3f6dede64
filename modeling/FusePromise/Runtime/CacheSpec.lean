import FusePromise.Runtime.CacheChunk

/-!
# The cache refines a flat partial map

A chunk is kept under the base its chunk size gives, so after a change of the
size one offset can be held by several chunks.  `lookupAt` is what the chunk at a
base holds, and an insertion overlays its bytes there and nowhere else
(`ReadCache.insert_lookupAt`).  This needs no more than `Sound`, which every
chunk size keeps.

With one chunk size, `CachedFile.lookup` forgets how a file is cut into chunks and
`ReadCache.lookup` which structure holds the files: a cache denotes a partial
map from promise id, path and byte offset to bytes.  An insertion overlays its
bytes on the map of one file and leaves every other file alone
(`ReadCache.insert_lookup`); a read returns the values of the map
(`ReadCache.read_eq_some`).
-/

namespace FusePromise

open Machine ByteMap

/-! ## Chunk bases -/

theorem chunkBase_le (offset chunkSize : ℕ) : chunkBase offset chunkSize ≤ offset :=
  Nat.div_mul_le_self offset chunkSize

theorem lt_chunkBase_add (offset : ℕ) {chunkSize : ℕ} (hpos : 0 < chunkSize) :
    offset < chunkBase offset chunkSize + chunkSize := by
  unfold chunkBase
  have := Nat.lt_div_mul_add (a := offset) hpos
  omega

/-- Two offsets in the same chunk have the same base. -/
theorem chunkBase_eq {offset other chunkSize : ℕ}
    (hlow : chunkBase offset chunkSize ≤ other)
    (hhigh : other < chunkBase offset chunkSize + chunkSize) :
    chunkBase other chunkSize = chunkBase offset chunkSize := by
  unfold chunkBase at *
  congr 1
  exact Nat.div_eq_of_lt_le hlow (by rw [Nat.succ_mul]; exact hhigh)

theorem chunkEnd_eq (base chunkSize : ℕ) :
    chunkEnd base chunkSize = min (base + chunkSize) u64Max :=
  checkedAdd_getD base chunkSize

namespace CachedFile

/-! ## Files -/

/-- What the chunk at `base` holds for an offset. -/
def lookupAt (file : CachedFile) (base i : ℕ) : Option UInt8 :=
  (file.chunks[base]?).bind fun chunk => ByteMap.lookup chunk.ranges i

/-- The partial map of a file, whatever the chunk that holds a byte. -/
def lookup (file : CachedFile) (chunkSize i : ℕ) : Option UInt8 :=
  (file.chunks[chunkBase i chunkSize]?).bind fun chunk => ByteMap.lookup chunk.ranges i

theorem lookup_eq_lookupAt (file : CachedFile) (chunkSize i : ℕ) :
    file.lookup chunkSize i = file.lookupAt (chunkBase i chunkSize) i :=
  rfl

/-- Every chunk is separated and holds no byte at the largest offset, whatever
the chunk sizes it was written with. -/
structure Sound (file : CachedFile) : Prop where
  separated : ∀ (base : ℕ) (chunk : CachedChunk), file.chunks[base]? = some chunk →
    Separated chunk.ranges
  bounded : ∀ base i, (file.lookupAt base i).isSome → i < u64Max

/-- Every chunk is separated and holds only bytes of its own stretch. -/
structure WellFormed (file : CachedFile) (chunkSize : ℕ) : Prop where
  separated : ∀ (base : ℕ) (chunk : CachedChunk), file.chunks[base]? = some chunk →
    Separated chunk.ranges
  within : ∀ (base : ℕ) (chunk : CachedChunk) (i : ℕ), file.chunks[base]? = some chunk →
    (ByteMap.lookup chunk.ranges i).isSome → chunkBase i chunkSize = base ∧ i < u64Max

theorem lookupAt_of_chunk {file : CachedFile} {base : ℕ} {chunk : CachedChunk}
    (hchunk : file.chunks[base]? = some chunk) (i : ℕ) :
    file.lookupAt base i = ByteMap.lookup chunk.ranges i := by
  rw [lookupAt, hchunk, Option.bind_some]

theorem exists_chunk_of_lookupAt {file : CachedFile} {base i : ℕ}
    (h : (file.lookupAt base i).isSome) :
    ∃ chunk, file.chunks[base]? = some chunk ∧ (ByteMap.lookup chunk.ranges i).isSome := by
  cases hchunk : file.chunks[base]? with
  | none => simp [lookupAt, hchunk] at h
  | some chunk => exact ⟨chunk, rfl, by rwa [lookupAt_of_chunk hchunk] at h⟩

theorem Sound.empty : Sound ⟨∅⟩ :=
  ⟨by simp, by simp [lookupAt]⟩

theorem WellFormed.empty (chunkSize : ℕ) : WellFormed ⟨∅⟩ chunkSize :=
  ⟨by simp, by simp⟩

theorem WellFormed.sound {file : CachedFile} {chunkSize : ℕ} (h : file.WellFormed chunkSize) :
    file.Sound := by
  refine ⟨h.separated, fun base i hi => ?_⟩
  obtain ⟨chunk, hchunk, hi⟩ := exists_chunk_of_lookupAt hi
  exact (h.within base chunk i hchunk hi).2

theorem Sound.fits {file : CachedFile} (h : file.Sound) {base : ℕ} {chunk : CachedChunk}
    (hchunk : file.chunks[base]? = some chunk) {range : CachedRange}
    (hmem : range ∈ chunk.ranges) : range.stop ≤ u64Max := by
  have hsep := h.separated base chunk hchunk
  have hpos := List.length_pos_iff.mpr (hsep.nonempty range hmem)
  have hstop : range.stop = range.offset + range.bytes.length := rfl
  have hlast : range.offset ≤ range.stop - 1 ∧ range.stop - 1 < range.stop := by omega
  have hdefined : (file.lookupAt base (range.stop - 1)).isSome := by
    rw [lookupAt_of_chunk hchunk, lookup_of_mem hsep.apart hmem hlast]
    exact Segment.lookup_isSome.mpr hlast
  have := h.bounded base _ hdefined
  omega

/-- The chunk an insertion starts from: the stored one, or an empty one. -/
private theorem Sound.getD {file : CachedFile} (h : file.Sound) (base : ℕ) :
    Separated ((file.chunks[base]?).getD ⟨[]⟩).ranges ∧
      (∀ range ∈ ((file.chunks[base]?).getD ⟨[]⟩).ranges, range.stop ≤ u64Max) ∧
      ByteMap.lookup ((file.chunks[base]?).getD ⟨[]⟩).ranges = file.lookupAt base := by
  cases hchunk : file.chunks[base]? with
  | none =>
      refine ⟨⟨by simp, by simp⟩, by simp, ?_⟩
      funext i
      simp [lookupAt, hchunk]
  | some chunk =>
      refine ⟨h.separated base chunk hchunk, fun range hmem => h.fits hchunk hmem, ?_⟩
      funext i
      exact (lookupAt_of_chunk hchunk i).symm

/-- What an insertion with a chunk size does to the chunk at `base`: it overlays
the bytes at the offsets that have this base. -/
def insertedAt (file : CachedFile) (chunkSize offset : ℕ) (bytes : List UInt8) (base i : ℕ) :
    Option UInt8 :=
  if chunkBase i chunkSize = base then overlay (file.lookupAt base) offset bytes i
  else file.lookupAt base i

/-- One turn of the insertion loop: a piece that lies in one chunk. -/
private theorem insertPiece_spec {file : CachedFile} (h : file.Sound) (chunkSize cursor : ℕ)
    (piece : List UInt8)
    (hchunk : cursor + piece.length ≤ chunkBase cursor chunkSize + chunkSize)
    (hend : cursor + piece.length ≤ u64Max) :
    let base := chunkBase cursor chunkSize
    let chunk := (file.chunks[base]?).getD ⟨[]⟩
    let next : CachedFile := ⟨file.chunks.insert base (chunk.insert cursor piece)⟩
    next.Sound ∧
      ∀ other i, next.lookupAt other i = file.insertedAt chunkSize cursor piece other i := by
  intro base chunk next
  obtain ⟨hsep, hfit, hstored⟩ := h.getD base
  obtain ⟨hsep', hlookup⟩ := CachedChunk.insert_spec hsep hfit hend
  rw [hstored] at hlookup
  have hbaseOf : ∀ i, cursor ≤ i ∧ i < cursor + piece.length → chunkBase i chunkSize = base := by
    intro i hi
    have := chunkBase_le cursor chunkSize
    exact chunkBase_eq (by omega) (by omega)
  have hget : ∀ other, next.chunks[other]? =
      if base = other then some (chunk.insert cursor piece) else file.chunks[other]? := by
    intro other
    simp [next, Std.ExtTreeMap.getElem?_insert]
  -- away from the piece nothing changes, and the piece lies in one chunk
  have hvalue : ∀ other i,
      next.lookupAt other i = file.insertedAt chunkSize cursor piece other i := by
    intro other i
    unfold insertedAt
    by_cases hother : base = other
    · subst hother
      rw [lookupAt_of_chunk (by rw [hget, if_pos rfl]), hlookup]
      split
      · rfl
      · rename_i hne
        exact overlay_of_not_mem fun hin => hne (hbaseOf i hin)
    · have hsame : next.lookupAt other i = file.lookupAt other i := by
        rw [lookupAt, lookupAt, hget, if_neg hother]
      rw [hsame]
      split
      · rename_i heq
        refine (overlay_of_not_mem fun hin => hother ?_).symm
        exact (hbaseOf i hin).symm.trans heq
      · rfl
  refine ⟨⟨?_, ?_⟩, hvalue⟩
  · intro other stored hstored
    rw [hget] at hstored
    split at hstored
    · obtain rfl := Option.some.inj hstored
      exact hsep'
    · exact h.separated other stored hstored
  · intro other i hi
    rw [hvalue, insertedAt] at hi
    split at hi
    · by_cases hpiece : cursor ≤ i ∧ i < cursor + piece.length
      · omega
      · rw [overlay_of_not_mem hpiece] at hi
        exact h.bounded other i hi
    · exact h.bounded other i hi

private theorem insertLoop_spec {chunkSize : ℕ} (hpos : 0 < chunkSize) (fuel : ℕ) :
    ∀ (file : CachedFile) (cursor : ℕ) (bytes : List UInt8), file.Sound →
      bytes.length ≤ fuel → cursor + bytes.length ≤ u64Max →
      (insertLoop chunkSize fuel file cursor bytes).Sound ∧
        ∀ base i, (insertLoop chunkSize fuel file cursor bytes).lookupAt base i =
          file.insertedAt chunkSize cursor bytes base i := by
  induction fuel with
  | zero =>
      intro file cursor bytes h hfuel _
      obtain rfl : bytes = [] := List.length_eq_zero_iff.mp (by omega)
      simpa [insertLoop, insertedAt] using h
  | succ fuel ih =>
      intro file cursor bytes h hfuel hend
      by_cases hnil : bytes = []
      · subst hnil
        simpa [insertLoop, insertedAt] using h
      have hbytes : 0 < bytes.length := List.length_pos_iff.mpr hnil
      have hlow := chunkBase_le cursor chunkSize
      have hhigh := lt_chunkBase_add cursor hpos
      have hchunkEnd := chunkEnd_eq (chunkBase cursor chunkSize) chunkSize
      -- one turn inserts up to the end of the chunk
      set take := min bytes.length (chunkEnd (chunkBase cursor chunkSize) chunkSize - cursor)
        with htake
      have htakePos : take ≠ 0 := by omega
      have hpiece : (bytes.take take).length = take := by
        rw [List.length_take]
        omega
      have hnext : saturatingAdd cursor take = cursor + take := by
        unfold saturatingAdd
        omega
      obtain ⟨hsound, hlookup⟩ := insertPiece_spec h chunkSize cursor (bytes.take take)
        (by rw [hpiece]; omega) (by rw [hpiece]; omega)
      have hstep : insertLoop chunkSize (fuel + 1) file cursor bytes =
          insertLoop chunkSize fuel
            ⟨file.chunks.insert (chunkBase cursor chunkSize)
              (((file.chunks[chunkBase cursor chunkSize]?).getD ⟨[]⟩).insert cursor
                (bytes.take take))⟩ (cursor + take) (bytes.drop take) := by
        rw [insertLoop, if_neg hnil]
        simp only [← htake, if_neg htakePos, hnext]
      obtain ⟨hsound', hlookup'⟩ := ih _ (cursor + take) (bytes.drop take) hsound
        (by rw [List.length_drop]; omega) (by rw [List.length_drop]; omega)
      rw [hstep]
      refine ⟨hsound', fun base i => ?_⟩
      -- the two pieces are one overlay, as they lie side by side
      have happend := overlay_append (file.lookupAt base) cursor (bytes.take take)
        (bytes.drop take)
      rw [hpiece, List.take_append_drop] at happend
      rw [hlookup', insertedAt, insertedAt, ← happend, hlookup]
      by_cases hbase : chunkBase i chunkSize = base
      · rw [if_pos hbase, if_pos hbase]
        unfold overlay
        rw [hlookup, insertedAt, if_pos hbase]
        rfl
      · rw [if_neg hbase, if_neg hbase, insertedAt, if_neg hbase]

/-- An insertion overlays its bytes, each in the chunk its chunk size gives. -/
theorem insert_lookupAt {file : CachedFile} {chunkSize : ℕ} (hpos : 0 < chunkSize)
    (h : file.Sound) {offset : ℕ} {bytes : List UInt8}
    (hend : offset + bytes.length ≤ u64Max) :
    (file.insert offset bytes chunkSize).Sound ∧
      ∀ base i, (file.insert offset bytes chunkSize).lookupAt base i =
        file.insertedAt chunkSize offset bytes base i :=
  insertLoop_spec hpos bytes.length file offset bytes h le_rfl hend

/-- With one chunk size, every chunk keeps to its own stretch. -/
theorem WellFormed.insert {file : CachedFile} {chunkSize : ℕ} (h : file.WellFormed chunkSize)
    (hpos : 0 < chunkSize) {offset : ℕ} {bytes : List UInt8}
    (hend : offset + bytes.length ≤ u64Max) :
    (file.insert offset bytes chunkSize).WellFormed chunkSize := by
  obtain ⟨hsound, hlookup⟩ := insert_lookupAt hpos h.sound hend
  refine ⟨hsound.separated, fun base chunk i hchunk hi => ?_⟩
  rw [← lookupAt_of_chunk hchunk] at hi
  refine ⟨?_, hsound.bounded base i hi⟩
  by_contra hbase
  rw [hlookup, insertedAt, if_neg hbase] at hi
  obtain ⟨old, hold, hi⟩ := exists_chunk_of_lookupAt hi
  exact hbase (h.within base old i hold hi).1

/-- Reading the part of a stretch that lies in one chunk. -/
private theorem readChunk_eq_some {file : CachedFile} (h : file.Sound)
    (chunkSize cursor length : ℕ) (bytes : List UInt8) (hlength : 0 < length)
    (hchunk : cursor + length ≤ chunkBase cursor chunkSize + chunkSize)
    (hend : cursor + length ≤ u64Max) :
    (do let chunk ← file.chunks[chunkBase cursor chunkSize]?
        chunk.read cursor length) = some bytes ↔
      Reads (file.lookup chunkSize) cursor length bytes := by
  have hbase : ∀ i < length,
      chunkBase (cursor + i) chunkSize = chunkBase cursor chunkSize := by
    intro i hi
    have := chunkBase_le cursor chunkSize
    exact chunkBase_eq (by omega) (by omega)
  cases hstored : file.chunks[chunkBase cursor chunkSize]? with
  | none =>
      have hnone : file.lookup chunkSize (cursor + 0) = none := by
        simp only [lookup, hbase 0 hlength, hstored, Option.bind_none]
      constructor
      · intro hread
        simp at hread
      · intro hreads
        have := hreads.isSome hlength
        rw [hnone] at this
        simp at this
  | some chunk =>
      have hsame : ∀ i < length, file.lookup chunkSize (cursor + i) =
          ByteMap.lookup chunk.ranges (cursor + i) := by
        intro i hi
        rw [lookup_eq_lookupAt, hbase i hi, lookupAt_of_chunk hstored]
      rw [Reads.congr hsame]
      exact CachedChunk.read_eq_some (h.separated _ chunk hstored)
        (fun range hmem => h.fits hstored hmem) hlength hend

private theorem readLoop_eq_some {file : CachedFile} {chunkSize : ℕ} (hpos : 0 < chunkSize)
    (h : file.Sound) {stop : ℕ} (hstop : stop ≤ u64Max) (fuel : ℕ) :
    ∀ (cursor : ℕ) (bytes : List UInt8), cursor ≤ stop → stop - cursor ≤ fuel →
      (readLoop file stop chunkSize fuel cursor = some bytes ↔
        Reads (file.lookup chunkSize) cursor (stop - cursor) bytes) := by
  induction fuel with
  | zero =>
      intro cursor bytes hle hfuel
      have hzero : stop - cursor = 0 := by omega
      rw [readLoop, if_neg (by omega), hzero]
      constructor
      · intro hsome
        obtain rfl := Option.some.inj hsome
        exact Reads.zero _ _
      · intro hreads
        rw [hreads.unique (Reads.zero _ _)]
  | succ fuel ih =>
      intro cursor bytes hle hfuel
      by_cases hlt : cursor < stop
      · have hlow := chunkBase_le cursor chunkSize
        have hhigh := lt_chunkBase_add cursor hpos
        have hchunkEnd := chunkEnd_eq (chunkBase cursor chunkSize) chunkSize
        -- one turn reads up to the end of the chunk or of the read, whichever comes first
        set readEnd := min stop (chunkEnd (chunkBase cursor chunkSize) chunkSize) with hreadEnd
        have hlen : checkedSub readEnd cursor = some (readEnd - cursor) :=
          checkedSub_eq_some.mpr ⟨by omega, rfl⟩
        have hhead (part : List UInt8) :=
          readChunk_eq_some h chunkSize cursor (readEnd - cursor) part
          (by omega) (by omega) (by omega)
        have htail (part : List UInt8) := ih readEnd part (by omega) (by omega)
        -- one turn as a bind of two reads, to which the lemma and the hypothesis apply
        have hstep : readLoop file stop chunkSize (fuel + 1) cursor = (do
            let part ← (do
              let chunk ← file.chunks[chunkBase cursor chunkSize]?
              chunk.read cursor (readEnd - cursor))
            let rest ← readLoop file stop chunkSize fuel readEnd
            return part ++ rest) := by
          rw [readLoop, if_pos hlt]
          simp only [← hreadEnd, hlen, Option.bind_eq_bind, Option.bind_some, Option.bind_assoc]
        have hsplit : stop - cursor = (readEnd - cursor) + (stop - readEnd) := by omega
        have hmiddle : cursor + (readEnd - cursor) = readEnd := by omega
        rw [hstep, hsplit]
        constructor
        · intro hread
          obtain ⟨part, hpart, hread⟩ := Option.bind_eq_some_iff.mp hread
          obtain ⟨rest, hrest, hread⟩ := Option.bind_eq_some_iff.mp hread
          obtain rfl : part ++ rest = bytes := Option.some.inj hread
          exact ((hhead part).mp hpart).append (by rw [hmiddle]; exact (htail rest).mp hrest)
        · intro hreads
          obtain ⟨hfirst, hsecond⟩ := hreads.split
          rw [hmiddle] at hsecond
          rw [(hhead _).mpr hfirst]
          simp only [Option.bind_eq_bind, Option.bind_some, (htail _).mpr hsecond]
          exact congrArg some (List.take_append_drop _ _)
      · have hzero : stop - cursor = 0 := by omega
        rw [readLoop, if_neg hlt, hzero]
        constructor
        · intro hsome
          obtain rfl := Option.some.inj hsome
          exact Reads.zero _ _
        · intro hreads
          rw [hreads.unique (Reads.zero _ _)]

/-- A read succeeds exactly where the file's map is defined throughout. -/
theorem read_eq_some {file : CachedFile} {chunkSize : ℕ} (hpos : 0 < chunkSize)
    (h : file.Sound) {offset length : ℕ} (hlength : 0 < length)
    {bytes : List UInt8} :
    file.read offset length chunkSize = some bytes ↔
      Reads (file.lookup chunkSize) offset length bytes := by
  by_cases hend : offset + length ≤ u64Max
  · have hstop : checkedAdd offset length = some (offset + length) :=
      checkedAdd_eq_some.mpr ⟨rfl, hend⟩
    have hloop := readLoop_eq_some hpos h hend length offset bytes (by omega) (by omega)
    rw [Nat.add_sub_cancel_left] at hloop
    rw [read, hstop]
    exact hloop
  · -- no byte at or after the largest offset is ever stored
    have hnone : checkedAdd offset length = none := checkedAdd_eq_none.mpr (by omega)
    rw [read, hnone]
    constructor
    · intro hread
      simp at hread
    · intro hreads
      have hlast := hreads.isSome (show length - 1 < length by omega)
      have := h.bounded _ _ hlast
      omega

end CachedFile

namespace ReadCache

/-! ## The whole cache -/

/-- The flat partial map a cache stands for. -/
def lookup (cache : ReadCache) (chunkSize : ℕ) (key : CacheKey) (i : ℕ) : Option UInt8 :=
  (cache.files[key]?).bind fun file => file.lookup chunkSize i

@[simp] theorem lookup_empty (chunkSize : ℕ) (key : CacheKey) (i : ℕ) :
    lookup empty chunkSize key i = none := by
  simp [lookup, ReadCache.empty]

/-- What the chunk at `base` of a file holds for an offset. -/
def lookupAt (cache : ReadCache) (key : CacheKey) (base i : ℕ) : Option UInt8 :=
  (cache.files[key]?).bind fun file => file.lookupAt base i

/-- Every file of the cache is sound. -/
def Sound (cache : ReadCache) : Prop :=
  ∀ (key : CacheKey) (file : CachedFile), cache.files[key]? = some file → file.Sound

theorem Sound.empty : Sound empty := by
  intro key file h
  simp [ReadCache.empty] at h

@[simp] theorem lookupAt_empty (key : CacheKey) (base i : ℕ) :
    lookupAt empty key base i = none := by
  simp [lookupAt, ReadCache.empty]

/-- An insertion replaces one file. -/
theorem getElem?_insert (cache : ReadCache) (promiseId relativePath : Text) (offset : ℕ)
    (bytes : List UInt8) (chunkSize : ℕ) (key : CacheKey) :
    (cache.insert promiseId relativePath offset bytes chunkSize).files[key]? =
      if (⟨promiseId, relativePath⟩ : CacheKey) = key then
        some (((cache.files[key]?).getD ⟨∅⟩).insert offset bytes chunkSize)
      else cache.files[key]? := by
  simp only [insert, Std.ExtTreeMap.getElem?_insert, Std.LawfulEqCmp.compare_eq_iff_eq]
  split
  · rename_i hkey
    rw [hkey]
  · rfl

/-- An insertion overlays its bytes on one file, each in the chunk its chunk size
gives, and leaves the others alone. -/
theorem insert_lookupAt {cache : ReadCache} {chunkSize : ℕ} (hpos : 0 < chunkSize)
    (h : cache.Sound) (promiseId relativePath : Text) {offset : ℕ} {bytes : List UInt8}
    (hend : offset + bytes.length ≤ u64Max) :
    (cache.insert promiseId relativePath offset bytes chunkSize).Sound ∧
      ∀ key base i,
        (cache.insert promiseId relativePath offset bytes chunkSize).lookupAt key base i =
          if key = ⟨promiseId, relativePath⟩ ∧ chunkBase i chunkSize = base then
            overlay (cache.lookupAt key base) offset bytes i
          else cache.lookupAt key base i := by
  have hold : ∀ key, ((cache.files[key]?).getD ⟨∅⟩).Sound ∧
      ((cache.files[key]?).getD ⟨∅⟩).lookupAt = cache.lookupAt key := by
    intro key
    cases hstored : cache.files[key]? with
    | none =>
        refine ⟨CachedFile.Sound.empty, ?_⟩
        funext base i
        simp [lookupAt, hstored, CachedFile.lookupAt]
    | some file =>
        refine ⟨h key file hstored, ?_⟩
        funext base i
        rw [lookupAt, hstored, Option.bind_some, Option.getD_some]
  constructor
  · intro key file hfile
    rw [getElem?_insert] at hfile
    split at hfile
    · obtain rfl := Option.some.inj hfile
      exact (CachedFile.insert_lookupAt hpos (hold key).1 hend).1
    · exact h key file hfile
  · intro key base i
    rw [lookupAt, getElem?_insert]
    by_cases hkey : key = ⟨promiseId, relativePath⟩
    · rw [if_pos hkey.symm, Option.bind_some,
        (CachedFile.insert_lookupAt hpos (hold key).1 hend).2, CachedFile.insertedAt,
        (hold key).2]
      simp only [hkey, true_and]
    · rw [if_neg (Ne.symm hkey), if_neg (fun hboth => hkey hboth.1), lookupAt]

/-- The map of the same chunk size is overlaid on one file, and stays as it is on the others. -/
theorem insert_lookup {cache : ReadCache} {chunkSize : ℕ} (hpos : 0 < chunkSize)
    (h : cache.Sound) (promiseId relativePath : Text) {offset : ℕ} {bytes : List UInt8}
    (hend : offset + bytes.length ≤ u64Max) (key : CacheKey) :
    (cache.insert promiseId relativePath offset bytes chunkSize).lookup chunkSize key =
      if key = ⟨promiseId, relativePath⟩ then overlay (cache.lookup chunkSize key) offset bytes
      else cache.lookup chunkSize key := by
  have hat (cache : ReadCache) (i : ℕ) :
      cache.lookup chunkSize key i = cache.lookupAt key (chunkBase i chunkSize) i := rfl
  funext i
  rw [hat, (insert_lookupAt hpos h promiseId relativePath hend).2]
  by_cases hkey : key = ⟨promiseId, relativePath⟩
  · rw [if_pos ⟨hkey, rfl⟩, if_pos hkey]
    rfl
  · rw [if_neg fun hboth => hkey hboth.1, if_neg hkey]
    rfl

/-- A non-empty read of the cache returns exactly the values of its map. -/
theorem read_eq_some {cache : ReadCache} {chunkSize : ℕ} (hpos : 0 < chunkSize)
    (h : cache.Sound) {promiseId relativePath : Text} {offset length : ℕ}
    (hlength : 0 < length) {bytes : List UInt8} :
    cache.read promiseId relativePath offset length chunkSize = some bytes ↔
      Reads (cache.lookup chunkSize ⟨promiseId, relativePath⟩) offset length bytes := by
  rw [read]
  cases hstored : cache.files[(⟨promiseId, relativePath⟩ : CacheKey)]? with
  | none =>
      constructor
      · intro hread
        simp at hread
      · intro hreads
        have := hreads.isSome hlength
        rw [lookup, hstored] at this
        simp at this
  | some file =>
      have hsame : ∀ i < length,
          cache.lookup chunkSize ⟨promiseId, relativePath⟩ (offset + i) =
            file.lookup chunkSize (offset + i) := by
        intro i _
        rw [lookup, hstored, Option.bind_some]
      rw [Reads.congr hsame]
      exact CachedFile.read_eq_some hpos (h _ file hstored) hlength

end ReadCache

end FusePromise
