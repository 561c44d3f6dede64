import FusePromise.Runtime.Identity
import FusePromise.Runtime.Planner

/-!
# The cache across changes of its policy

The chunk size may change at any time, and only a switch to `NoCache` empties the
cache.  A recording is kept in the chunk the size in force gives, and a read looks
in the chunk the size in force then gives, so it can miss a newer recording and
find an older one.

`CacheHistory` is a run together with what it recorded.  A cached byte always is
the one last recorded among those the read can see (`CacheHistory.Inv`), and never
one from before the last switch; it is the last one recorded at all exactly when
the history is `Settled`, which it is as long as the size stays the same.
-/

namespace FusePromise

open Machine ByteMap

/-- What a call records. -/
def Runtime.recordedCall (runtime : Runtime) : RuntimeCall → List CacheRecord
  | .op op => runtime.recorded op
  | _ => []

/-- A run with its successful recordings: all of them, and those since the last
switch to `NoCache` with the chunk size they were made with. -/
structure CacheHistory where
  runtime : Runtime
  records : List CacheRecord
  since : List (CacheRecord × Option ℕ)

namespace CacheHistory

def start : CacheHistory := ⟨.new, [], []⟩

def step (history : CacheHistory) (call : RuntimeCall) : CacheHistory :=
  let recorded := history.runtime.recordedCall call
  { runtime := history.runtime.perform call
    records := history.records ++ recorded
    since :=
      if call = .setCachePolicy .noCache then []
      else history.since ++ recorded.map fun record =>
        (record, history.runtime.cachePolicy.chunkSize) }

/-- The history of a run from a new runtime. -/
def after (calls : List RuntimeCall) : CacheHistory :=
  calls.foldl step start

/-- The recordings that put an offset into the chunk at `base`. -/
def placedAt (since : List (CacheRecord × Option ℕ)) (base i : ℕ) : List CacheRecord :=
  (since.filter fun entry => entry.2.any fun size => chunkBase i size = base).map Prod.fst

/-- Whatever the cache answers was recorded since the last switch to `NoCache`, and
nothing was recorded there later. -/
def Fresh (history : CacheHistory) : Prop :=
  ∀ promiseId relativePath offset length bytes,
    history.runtime.planRead promiseId relativePath offset length = .ok (.cached bytes) →
    ∃ path, normalizeRelativePath relativePath = .ok path ∧ ∀ i < bytes.length,
      lastRecorded history.records ⟨promiseId, path⟩ (offset + i) = bytes[i]? ∧
      lastRecorded (history.since.map Prod.fst) ⟨promiseId, path⟩ (offset + i) = bytes[i]?

/-- What was last recorded for an offset in the chunk that is read now is what was
last recorded for it at all. -/
def Settled (history : CacheHistory) : Prop :=
  ∀ chunkSize promiseId path tree node i byte,
    history.runtime.cachePolicy.chunkSize = some chunkSize →
    history.runtime.fileNode promiseId path = .ok (tree, node) →
    node.materializedPath = none → i < node.attr.size.toNat →
    lastRecorded (placedAt history.since (chunkBase i chunkSize) i)
      ⟨promiseId, node.relativePath⟩ i = some byte →
    lastRecorded (history.since.map Prod.fst) ⟨promiseId, node.relativePath⟩ i = some byte

/-! ## What the cache holds -/

/-- Each chunk holds what was recorded last among what its size put there. -/
structure Inv (history : CacheHistory) : Prop where
  wellFormed : history.runtime.WellFormed
  sound : history.runtime.readCache.Sound
  value : ∀ key base i, history.runtime.readCache.lookupAt key base i =
    lastRecorded (placedAt history.since base i) key i
  latest : ∃ older, history.records = older ++ history.since.map Prod.fst

theorem lastRecorded_placedAt_append (since : List (CacheRecord × Option ℕ))
    (record : CacheRecord) (size : Option ℕ) (key : CacheKey) (base i : ℕ) :
    lastRecorded (placedAt (since ++ [(record, size)]) base i) key i =
      if (size.any fun size => chunkBase i size = base) = true then
        (record.byteAt key i).or (lastRecorded (placedAt since base i) key i)
      else lastRecorded (placedAt since base i) key i := by
  unfold placedAt
  rw [List.filter_append, List.map_append, List.filter_cons, List.filter_nil]
  split
  · rw [List.map_singleton, Runtime.lastRecorded_append_singleton]
  · rw [List.map_nil, List.append_nil]

/-- A call that records nothing and leaves the cache alone. -/
theorem Inv.stay {history : CacheHistory} (inv : history.Inv) {call : RuntimeCall}
    (hcall : call ≠ .setCachePolicy .noCache)
    (hwf : (history.runtime.perform call).WellFormed)
    (hcache : (history.runtime.perform call).readCache = history.runtime.readCache)
    (hrecorded : history.runtime.recordedCall call = []) : (history.step call).Inv := by
  refine ⟨hwf, ?_, ?_, ?_⟩
  · simp only [step, hcache]
    exact inv.sound
  · simp only [step, hcache, hrecorded, if_neg hcall, List.map_nil, List.append_nil]
    exact inv.value
  · simp only [step, hrecorded, if_neg hcall, List.map_nil, List.append_nil]
    exact inv.latest

/-- A switch to `NoCache` empties the cache. -/
theorem Inv.clear {history : CacheHistory}
    (hwf : (history.runtime.perform (.setCachePolicy .noCache)).WellFormed) :
    (history.step (.setCachePolicy .noCache)).Inv := by
  have hcache : (history.runtime.perform (.setCachePolicy .noCache)).readCache = .empty := rfl
  refine ⟨hwf, ?_, ?_, ?_⟩
  · simp only [step, hcache]
    exact ReadCache.Sound.empty
  · intro key base i
    simp only [step, hcache, ReadCache.lookupAt_empty]
    rfl
  · exact ⟨history.records ++ [], by simp [step, Runtime.recordedCall]⟩

/-- A successful recording goes to the chunk of the size in force. -/
theorem Inv.record {history : CacheHistory} (inv : history.Inv) {record : CacheRecord}
    {next : Runtime}
    (hnext : history.runtime.recordCachedRead record.promiseId record.relativePath record.offset
      record.bytes = .ok next) :
    CacheHistory.Inv ⟨next, history.records ++ [record],
      history.since ++ [(record, history.runtime.cachePolicy.chunkSize)]⟩ := by
  have hlatest : ∃ older, history.records ++ [record] = older ++
      (history.since ++ [(record, history.runtime.cachePolicy.chunkSize)]).map Prod.fst := by
    obtain ⟨older, holder⟩ := inv.latest
    exact ⟨older, by rw [holder]; simp⟩
  rcases Runtime.recordCachedRead_eq_ok hnext with
    ⟨rfl, hnone | hnil⟩ | ⟨chunkSize, tree, node, hpolicy, -, hnode, hfits, rfl⟩
  · -- without a chunk size nothing is kept
    refine ⟨inv.wellFormed, inv.sound, fun key base i => ?_, hlatest⟩
    rw [inv.value, lastRecorded_placedAt_append, hnone]
    simp
  · refine ⟨inv.wellFormed, inv.sound, fun key base i => ?_, hlatest⟩
    have hempty : record.byteAt key i = none := by
      simp [CacheRecord.byteAt, hnil, Segment.lookup]
    rw [inv.value, lastRecorded_placedAt_append, hempty, Option.none_or, ite_self]
  · obtain ⟨-, hpath, -, -⟩ := inv.wellFormed.fileNode hnode
    obtain ⟨-, hpos⟩ := CachePolicy.chunkSize_eq_some.mp hpolicy
    obtain ⟨hsound, hlookup⟩ := ReadCache.insert_lookupAt hpos inv.sound record.promiseId
      node.relativePath (hfits.trans (toNat_le_u64Max _))
    refine ⟨inv.wellFormed.recordCachedRead hnext, hsound, fun key base i => ?_, hlatest⟩
    have hfor := CacheRecord.for_iff hpath key
    rw [hlookup, lastRecorded_placedAt_append, hpolicy, CacheRecord.byteAt]
    simp only [Option.any_some, decide_eq_true_eq, hfor]
    by_cases hkey : key = ⟨record.promiseId, node.relativePath⟩
    · by_cases hbase : chunkBase i chunkSize = base
      · rw [if_pos ⟨hkey, hbase⟩, if_pos hbase, if_pos hkey, overlay_eq_or, inv.value]
      · rw [if_neg (fun hboth => hbase hboth.2), if_neg hbase, inv.value]
    · rw [if_neg (fun hboth => hkey hboth.1), if_neg hkey, Option.none_or, ite_self, inv.value]

theorem Inv.step {history : CacheHistory} (inv : history.Inv) (hids : history.runtime.Identified)
    (call : RuntimeCall) : (history.step call).Inv := by
  obtain ⟨hwf, -, -⟩ := Runtime.perform_spec inv.wellFormed hids call
  cases call with
  | commitBuilder providerId calls =>
      exact inv.stay (by simp) hwf (Runtime.commitPromise_frame _ _).2.1 rfl
  | setCachePolicy cachePolicy =>
      cases cachePolicy with
      | noCache => exact Inv.clear hwf
      | readThrough size =>
          refine inv.stay (by simp) hwf ?_ rfl
          by_cases hsize : 0 < size
          · simp [Runtime.perform, Runtime.setCachePolicy, CachePolicy.validated, hsize,
              Runtime.orKeep, bind, Except.bind, pure, Except.pure]
          · simp [Runtime.perform, Runtime.setCachePolicy, CachePolicy.validated, hsize,
              Runtime.orKeep, bind, Except.bind]
  | op op =>
      have heffect := history.runtime.effect_apply op
      cases hop : op.isRecord with
      | false =>
          refine inv.stay (by simp) hwf (heffect.readCache hop) ?_
          cases op <;> first | rfl | simp [RuntimeOp.isRecord] at hop
      | true =>
          cases op with
          | recordCachedRead promiseId relativePath offset bytes =>
              cases hnext : history.runtime.recordCachedRead promiseId relativePath offset
                  bytes with
              | error status =>
                  refine inv.stay (by simp) hwf ?_ ?_
                  · simp [Runtime.perform, Runtime.apply, hnext, Runtime.orKeep]
                  · simp [Runtime.recordedCall, Runtime.recorded, hnext]
              | ok next =>
                  have hstep := @Inv.record history inv
                    ⟨promiseId, relativePath, offset, bytes⟩ next hnext
                  simpa [CacheHistory.step, Runtime.perform, Runtime.apply, hnext, Runtime.orKeep,
                    Runtime.recordedCall, Runtime.recorded] using hstep
          | _ => simp [RuntimeOp.isRecord] at hop

theorem runtime_after (calls : List RuntimeCall) :
    (after calls).runtime = Runtime.new.performAll calls := by
  unfold after Runtime.performAll
  induction calls using List.reverseRecOn with
  | nil => rfl
  | append_singleton calls call ih =>
      rw [List.foldl_append, List.foldl_append, ← ih]
      rfl

theorem inv_after (calls : List RuntimeCall) : (after calls).Inv := by
  induction calls using List.reverseRecOn with
  | nil =>
      refine ⟨(Runtime.reachable_spec []).1, ReadCache.Sound.empty, ?_, ⟨[], rfl⟩⟩
      intro key base i
      exact ReadCache.lookupAt_empty key base i
  | append_singleton calls call ih =>
      have hids := (Runtime.reachable_spec calls).2
      rw [← runtime_after] at hids
      rw [after, List.foldl_append]
      exact ih.step hids call

/-! ## What a read returns -/

/-- A cached byte is what its chunk holds. -/
theorem Inv.lookup {history : CacheHistory} (inv : history.Inv) (chunkSize : ℕ) (key : CacheKey)
    (i : ℕ) : history.runtime.readCache.lookup chunkSize key i =
      lastRecorded (placedAt history.since (chunkBase i chunkSize) i) key i :=
  inv.value key (chunkBase i chunkSize) i

/-- The last recording since the switch is the last one of all. -/
theorem Inv.lastRecorded_records {history : CacheHistory} (inv : history.Inv) {key : CacheKey}
    {i : ℕ} {byte : UInt8}
    (h : lastRecorded (history.since.map Prod.fst) key i = some byte) :
    lastRecorded history.records key i = some byte := by
  obtain ⟨older, holder⟩ := inv.latest
  rw [holder, lastRecorded, List.reverse_append, List.findSome?_append]
  rw [lastRecorded] at h
  rw [h, Option.some_or]

theorem cachedRead_eq_some {history : CacheHistory} (inv : history.Inv) {key : CacheKey}
    {offset length : ℕ} (hlength : 0 < length) {bytes : List UInt8} :
    history.runtime.cachedRead key.promiseId key.relativePath offset length = some bytes ↔
      ∃ chunkSize, history.runtime.cachePolicy.chunkSize = some chunkSize ∧
        Reads (fun i => lastRecorded (placedAt history.since (chunkBase i chunkSize) i) key i)
          offset length bytes := by
  unfold Runtime.cachedRead
  rw [Option.bind_eq_bind, Option.bind_eq_some_iff]
  refine exists_congr fun chunkSize => and_congr_right fun hpolicy => ?_
  rw [ReadCache.read_eq_some (CachePolicy.chunkSize_eq_some.mp hpolicy).2 inv.sound hlength]
  exact Reads.congr fun i _ => inv.lookup chunkSize key (offset + i)

theorem fresh_of_settled {history : CacheHistory} (inv : history.Inv) (h : history.Settled) :
    history.Fresh := by
  intro promiseId relativePath offset length bytes hplan
  obtain ⟨tree, node, hnode, ⟨-, heof⟩ | ⟨clamped, hlength, hoffset, hclamp, hcases⟩⟩ :=
    Runtime.planRead_eq_ok hplan
  · simp at heof
  obtain ⟨hinside, -, -⟩ := Runtime.clampLength_eq_ok.mp hclamp
  rcases hcases with ⟨_, -, hbad⟩ | ⟨hcopy, cached, hread, hsame⟩ | ⟨-, -, _, -, hbad⟩
  · simp at hbad
  · obtain rfl := ReadPlan.cached.inj hsame
    obtain ⟨chunkSize, hpolicy, hreads⟩ := (@cachedRead_eq_some history inv
      ⟨promiseId, node.relativePath⟩ offset clamped (by omega) bytes).mp hread
    refine ⟨node.relativePath, (inv.wellFormed.fileNode hnode).2.1, ?_⟩
    intro i hi
    rw [hreads.1] at hi
    obtain ⟨byte, hbyte⟩ := Option.isSome_iff_exists.mp (hreads.isSome hi)
    have hlast := h chunkSize promiseId relativePath tree node (offset + i) byte hpolicy hnode
      hcopy (by omega) hbyte
    have hvalue : bytes[i]? = some byte := (hreads.2 i hi).symm.trans hbyte
    rw [hvalue]
    exact ⟨inv.lastRecorded_records hlast, hlast⟩
  · simp at hbad

/-- A byte that is not the last one recorded shows in a read of that byte alone. -/
theorem settled_of_fresh {history : CacheHistory} (inv : history.Inv) (h : history.Fresh) :
    history.Settled := by
  intro chunkSize promiseId path tree node i byte hpolicy hnode hcopy hi hbyte
  have hread : history.runtime.cachedRead promiseId node.relativePath i 1 = some [byte] := by
    refine (@cachedRead_eq_some history inv ⟨promiseId, node.relativePath⟩ i 1 (by decide)
      [byte]).mpr ⟨chunkSize, hpolicy, rfl, fun j hj => ?_⟩
    obtain rfl : j = 0 := by omega
    exact hbyte
  have hclamp : Runtime.clampLength node i 1 = .ok 1 := by
    rw [Runtime.clampLength_inside hi (by decide)]
    congr 1
    omega
  have hplan : history.runtime.planRead promiseId path i 1 = .ok (.cached [byte]) := by
    rw [Runtime.planRead_eq hnode (by decide) hi hclamp, hcopy]
    simp only [hread]
  obtain ⟨normal, hnormal, hlast⟩ := h promiseId path i 1 [byte] hplan
  rw [(inv.wellFormed.fileNode hnode).2.1] at hnormal
  obtain rfl := Except.ok.inj hnormal
  exact (hlast 0 (by simp)).2

/-- While the chunk size stays the same, nothing is hidden. -/
theorem settled_of_one_size {history : CacheHistory}
    (h : ∀ entry ∈ history.since, entry.2 = history.runtime.cachePolicy.chunkSize) :
    history.Settled := by
  intro chunkSize promiseId path tree node i byte hpolicy _ _ _ hbyte
  have hall : placedAt history.since (chunkBase i chunkSize) i = history.since.map Prod.fst := by
    unfold placedAt
    rw [List.filter_eq_self.mpr]
    intro entry hentry
    rw [h entry hentry, hpolicy]
    simp
  rw [hall] at hbyte
  exact hbyte

/-- In every run the cache answers with what was last recorded, and since the last
switch to `NoCache`, exactly when the run is settled. -/
theorem fresh_iff_settled (calls : List RuntimeCall) :
    (after calls).Fresh ↔ (after calls).Settled :=
  ⟨settled_of_fresh (inv_after calls), fresh_of_settled (inv_after calls)⟩

/-- Back at the first chunk size, the read finds the byte that was recorded first. -/
theorem not_fresh_after_resize :
    ¬ (after [.op .registerProvider,
      .commitBuilder 1 [⟨"a".toList, "n".toList, .file, ⟨0o644, 10, 0⟩⟩],
      .setCachePolicy (.readThrough 4),
      .op (.recordCachedRead "promise-1".toList "a".toList 5 [1]),
      .setCachePolicy (.readThrough 8),
      .op (.recordCachedRead "promise-1".toList "a".toList 5 [2]),
      .setCachePolicy (.readThrough 4)]).Fresh := by
  intro h
  obtain ⟨path, hpath, hlast⟩ := h "promise-1".toList "a".toList 5 1 [1] (by decide +kernel)
  obtain rfl := Except.ok.inj hpath
  have hstale := (hlast 0 (by decide)).1
  revert hstale
  decide +kernel

end CacheHistory

end FusePromise
