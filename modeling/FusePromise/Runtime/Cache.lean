import FusePromise.Foundation.ByteMap
import FusePromise.Runtime.Types

/-!
# The read-through cache

`ReadCache`, `CachedFile` and `CachedChunk` of the runtime.  A file's bytes are
kept in chunks keyed by their base offset; a chunk is a list of ranges that is
merged and sorted again by every insertion.

The `while` loops of `CachedFile::read` and `CachedFile::insert` take a fuel
argument.  Each turn advances by at least one byte when the chunk size is
positive, so the number of bytes still to go is enough; a chunk size of zero,
for which the source would divide by zero, is excluded by `CachePolicy.chunkSize`.
-/

namespace FusePromise

open Machine

/-- A cached range: some bytes of a file, starting at an offset. -/
abbrev CachedRange := ByteMap.Segment UInt8

def checkedRangeEnd (offset length : ℕ) : Option ℕ :=
  checkedAdd offset length

/-- `CachedRange::end`. -/
def rangeEnd (range : CachedRange) : Option ℕ :=
  checkedRangeEnd range.offset range.bytes.length

/-- Where the chunk of an offset begins. -/
def chunkBase (offset chunkSize : ℕ) : ℕ :=
  offset / chunkSize * chunkSize

/-- The end of the chunk that starts at `base`, cut off at the largest offset. -/
def chunkEnd (base chunkSize : ℕ) : ℕ :=
  (checkedAdd base chunkSize).getD u64Max

/-! ## Chunks -/

/-- The ranges of one stretch of a file.  They are sorted and do not touch. -/
structure CachedChunk where
  ranges : List CachedRange
  deriving DecidableEq

namespace CachedChunk

/-- The loop of `CachedChunk::read` over the ranges. -/
def readRanges (offset stop : ℕ) : List CachedRange → Option (List UInt8)
  | [] => none
  | range :: rest => do
      let rangeStop ← rangeEnd range
      if range.offset ≤ offset ∧ stop ≤ rangeStop then
        let start ← checkedSub offset range.offset
        let last ← checkedSub stop range.offset
        return (range.bytes.take last).drop start
      else
        readRanges offset stop rest

/-- All the bytes have to be in one range. -/
def read (chunk : CachedChunk) (offset length : ℕ) : Option (List UInt8) := do
  let stop ← checkedAdd offset length
  readRanges offset stop chunk.ranges

/-- `target[start..start + source.len()].copy_from_slice(source)`. -/
def copyFromSlice (target : List UInt8) (start : ℕ) (source : List UInt8) : List UInt8 :=
  target.take start ++ source ++ target.drop (start + source.length)

/-- The variables of the merging loop of `CachedChunk::insert`. -/
structure MergeState where
  offset : ℕ
  stop : ℕ
  bytes : List UInt8
  retained : List CachedRange

/-- The buffer for `[nextOffset, nextStop)`: the old range first, then the bytes
merged so far over it. -/
def mergedBytes (state : MergeState) (range : CachedRange) (nextOffset nextStop : ℕ) :
    List UInt8 :=
  let blank := List.replicate (nextStop - nextOffset) 0
  let old := copyFromSlice blank (range.offset - nextOffset) range.bytes
  copyFromSlice old (state.offset - nextOffset) state.bytes

/-- One turn of the merging loop: a range that neither overlaps nor touches the
merged interval is kept, any other is merged into it under its newer bytes. -/
def mergeRange (state : MergeState) (range : CachedRange) : MergeState :=
  match rangeEnd range with
  | none => state
  | some rangeStop =>
      if rangeStop < state.offset ∨ state.stop < range.offset then
        { state with retained := state.retained ++ [range] }
      else
        let nextOffset := min state.offset range.offset
        let nextStop := max state.stop rangeStop
        { offset := nextOffset
          stop := nextStop
          bytes := mergedBytes state range nextOffset nextStop
          retained := state.retained }

/-- The new bytes win where they overlap old ones, and ranges that touch become one. -/
def insert (chunk : CachedChunk) (offset : ℕ) (bytes : List UInt8) : CachedChunk :=
  if bytes = [] then chunk
  else
    match checkedRangeEnd offset bytes.length with
    | none => chunk
    | some newEnd =>
        let merged := chunk.ranges.foldl mergeRange ⟨offset, newEnd, bytes, []⟩
        let ranges := merged.retained ++ [⟨merged.offset, merged.bytes⟩]
        ⟨ranges.insertionSort fun first second => first.offset ≤ second.offset⟩

end CachedChunk

/-! ## Files -/

/-- The chunks of a file, by the offset they begin at. -/
structure CachedFile where
  chunks : BTreeMap ℕ CachedChunk

namespace CachedFile

/-- The loop of `CachedFile::read`, from `cursor` to `stop`. -/
def readLoop (file : CachedFile) (stop chunkSize : ℕ) : ℕ → ℕ → Option (List UInt8)
  | 0, cursor => if cursor < stop then none else some []
  | fuel + 1, cursor =>
      if cursor < stop then do
        let base := chunkBase cursor chunkSize
        let readEnd := min stop (chunkEnd base chunkSize)
        let readLen ← checkedSub readEnd cursor
        let chunk ← file.chunks[base]?
        let bytes ← chunk.read cursor readLen
        let rest ← readLoop file stop chunkSize fuel readEnd
        return bytes ++ rest
      else some []

/-- The bytes are put together from the chunks they lie in. -/
def read (file : CachedFile) (offset length chunkSize : ℕ) : Option (List UInt8) := do
  let stop ← checkedAdd offset length
  readLoop file stop chunkSize length offset

/-- The loop of `CachedFile::insert`; `bytes` is what is not yet consumed. -/
def insertLoop (chunkSize : ℕ) : ℕ → CachedFile → ℕ → List UInt8 → CachedFile
  | 0, file, _, _ => file
  | fuel + 1, file, cursor, bytes =>
      if bytes = [] then file
      else
        let base := chunkBase cursor chunkSize
        let take := min bytes.length (chunkEnd base chunkSize - cursor)
        if take = 0 then file
        else
          let chunk := (file.chunks[base]?).getD ⟨[]⟩
          let chunks := file.chunks.insert base (chunk.insert cursor (bytes.take take))
          insertLoop chunkSize fuel ⟨chunks⟩ (saturatingAdd cursor take) (bytes.drop take)

/-- The bytes are dealt out to the chunks they lie in. -/
def insert (file : CachedFile) (offset : ℕ) (bytes : List UInt8) (chunkSize : ℕ) : CachedFile :=
  insertLoop chunkSize bytes.length file offset bytes

end CachedFile

/-! ## The cache of all files -/

/-- A file of a promise. -/
structure CacheKey where
  promiseId : Text
  relativePath : Text
  deriving DecidableEq

instance : Ord CacheKey where
  compare := compareLex (compareOn CacheKey.promiseId) (compareOn CacheKey.relativePath)

instance : Std.TransOrd CacheKey :=
  inferInstanceAs
    (Std.TransCmp (compareLex (compareOn CacheKey.promiseId) (compareOn CacheKey.relativePath)))

instance : Std.LawfulEqOrd CacheKey where
  eq_of_compare {first second} h := by
    obtain ⟨firstId, firstPath⟩ := first
    obtain ⟨secondId, secondPath⟩ := second
    have hboth : (compare firstId secondId).then (compare firstPath secondPath) = .eq := h
    rw [Ordering.then_eq_eq] at hboth
    have hid : firstId = secondId := Std.LawfulEqOrd.eq_of_compare hboth.1
    have hpath : firstPath = secondPath := Std.LawfulEqOrd.eq_of_compare hboth.2
    rw [hid, hpath]

/-- The files of which something is kept. -/
structure ReadCache where
  files : BTreeMap CacheKey CachedFile

namespace ReadCache

def empty : ReadCache := ⟨∅⟩

def clear (_ : ReadCache) : ReadCache := ⟨∅⟩

def read (cache : ReadCache) (promiseId relativePath : Text) (offset length chunkSize : ℕ) :
    Option (List UInt8) := do
  let file ← cache.files[CacheKey.mk promiseId relativePath]?
  file.read offset length chunkSize

def insert (cache : ReadCache) (promiseId relativePath : Text) (offset : ℕ) (bytes : List UInt8)
    (chunkSize : ℕ) : ReadCache :=
  let key := CacheKey.mk promiseId relativePath
  let file := (cache.files[key]?).getD ⟨∅⟩
  ⟨cache.files.insert key (file.insert offset bytes chunkSize)⟩

end ReadCache

end FusePromise
