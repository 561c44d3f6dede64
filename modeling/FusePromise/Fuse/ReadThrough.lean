import FusePromise.Fuse.ReadCorrect

/-!
# Short answers with and without a cache

A provider may answer a read with fewer bytes than requested.  Without a cache
the mount passes such an answer on.  Under a read-through policy it widens the
request to a whole chunk and cuts the reply out of the answer, and a short
answer to the widened request may end before the requested bytes begin or
before they end.  The read then fails, although the provider would have
answered it (`readThrough_fails_where_noCache_reads`).

`readThrough_serves_iff` says when the two modes agree: `Served` lists the
reads that do not depend on how much of the widened request is answered, and
those that are answered far enough.
-/

namespace FusePromise

open Machine ByteMap

namespace FuseState

variable {content : Content}

/-- The same state after the policy was switched to no cache. -/
def withoutCache (state : FuseState) : FuseState :=
  { state with runtime := { state.runtime with cachePolicy := .noCache, readCache := .empty } }

/-- The request for the whole chunk around an offset. -/
def widenedRequest (state : FuseState) (chunkSize : ℕ) (tree : PromiseTree) (node : PromiseNode)
    (offset : ℕ) : ProviderReadRequest :=
  let base := chunkBase offset chunkSize
  (state.newRequest (Runtime.providerPlan tree node base
    (min chunkSize (node.attr.size.toNat - base)))).1

/-- The reads that read-through serves whenever no-cache mode does: a
materialized or cached range, a range that is not widened or starts its chunk,
and one whose widened request is answered up to its end. -/
def Served (state : FuseState) (chunkSize : ℕ) (count : ProviderReadRequest → ℕ)
    (promiseId : Text) (tree : PromiseTree) (node : PromiseNode) (offset size : ℕ) : Prop :=
  let length := min (min size maxProviderReadLen) (node.attr.size.toNat - offset)
  let base := chunkBase offset chunkSize
  node.materializedPath.isSome ∨
    (state.runtime.cachedRead promiseId node.relativePath offset length).isSome ∨
    (base + chunkSize ≤ u64Max ∧
      (base + chunkSize < offset + length ∨ base = offset ∨
        offset - base + length ≤ count (state.widenedRequest chunkSize tree node offset)))

/-! ## The stages of a read -/

section Stages

variable {state : FuseState} {turn : ReadTurn} {inode offset size : ℕ} {promiseId : Text}
  {node : PromiseNode}

theorem read_of_materialized
    (hentry : state.runtime.lookupInode inode = .ok (.promiseNode promiseId node))
    {plan : MaterializedReadPlan}
    (hplan : state.runtime.planRead promiseId node.relativePath offset
      (min size maxProviderReadLen) = .ok (.materialized plan)) :
    (state.read turn inode offset size).1 =
      readMaterializedFile turn.openFile plan.path plan.offset plan.length := by
  simp [read, planRead, hentry, hplan]

theorem read_of_cached
    (hentry : state.runtime.lookupInode inode = .ok (.promiseNode promiseId node))
    {bytes : List UInt8}
    (hplan : state.runtime.planRead promiseId node.relativePath offset
      (min size maxProviderReadLen) = .ok (.cached bytes)) :
    (state.read turn inode offset size).1 = .ok bytes := by
  simp [read, planRead, hentry, hplan]

theorem read_of_request
    (hentry : state.runtime.lookupInode inode = .ok (.promiseNode promiseId node))
    {plan : ProviderReadPlan}
    (hplan : state.runtime.planRead promiseId node.relativePath offset
      (min size maxProviderReadLen) = .ok (.request plan))
    {coalesced : CoalescedProviderReadPlan}
    (hcoalesced : state.runtime.planCoalescedProviderRead plan = .ok coalesced) :
    (state.read turn inode offset size).1 =
      ((state.newRequest coalesced.provider).2.providerRead turn
        (state.newRequest coalesced.provider).1 coalesced.responseOffset
        coalesced.responseLength).1 := by
  simp [read, planRead, hentry, hplan, hcoalesced, newRequest]

theorem read_of_request_error
    (hentry : state.runtime.lookupInode inode = .ok (.promiseNode promiseId node))
    {plan : ProviderReadPlan}
    (hplan : state.runtime.planRead promiseId node.relativePath offset
      (min size maxProviderReadLen) = .ok (.request plan)) {status : Status}
    (hcoalesced : state.runtime.planCoalescedProviderRead plan = .error status) :
    (state.read turn inode offset size).1 = .error (statusToErrno status) := by
  simp [read, planRead, hentry, hplan, hcoalesced]

end Stages

/-- The reply to a request that a provider answers with a prefix of its range. -/
theorem providerRead_of_answering (state : FuseState) (hwf : state.runtime.WellFormed)
    {turn : ReadTurn} {count : ProviderReadRequest → ℕ}
    (hanswer : turn.main.answer = answering content count)
    (hcount : ∀ request, count request ≤ request.length) {request body : ProviderReadRequest}
    (hbody : request.intoBody = .ok body) {tree : PromiseTree} {node : PromiseNode}
    (hnode : state.runtime.fileNode request.promiseId request.relativePath = .ok (tree, node))
    (hfits : request.offset + request.length ≤ node.attr.size.toNat)
    (responseOffset responseLength : ℕ) :
    (state.providerRead turn request responseOffset responseLength).1 =
      providerReplyBytes (slice (content ⟨request.promiseId, request.relativePath⟩)
        request.offset (count request)) responseOffset responseLength := by
  obtain ⟨-, hid, -, -, -, -, hmax, -⟩ := ProviderReadRequest.intoBody_eq_ok.mp hbody
  set response : ProviderReadResponse := ⟨request.requestId, .ok,
    slice (content ⟨request.promiseId, request.relativePath⟩) request.offset (count request)⟩
    with hresponse
  have hlength : response.bytes.length = count request := length_slice _ _ _
  have hvalid : validateProviderReadResponseForRequest request response = .ok () :=
    validateProviderReadResponseForRequest_eq_ok.mpr
      ⟨rfl, hid, by rw [hlength]; exact (hcount request).trans hmax,
        Or.inl ⟨rfl, by rw [hlength]; exact hcount request⟩⟩
  have hroute : state.routeProviderRead turn.main request =
      (.ok response, state.interfere turn.main.during) := by
    simp only [routeProviderRead, hbody, hanswer, answering, ← hresponse, bind, Except.bind,
      hvalid]
    rfl
  obtain ⟨later, found, hfound, hcore⟩ :=
    Runtime.fileNode_run hwf (turn.main.during.ops.map Subtype.val) hnode
  obtain ⟨-, -, -, -, -, hattr⟩ := PromiseNode.core_fields hcore
  obtain ⟨next, hnext⟩ := Runtime.recordCachedRead_ok hfound request.offset response.bytes
    (by have := hcount request; rw [hattr, hlength]; omega)
  have hrecord : (state.interfere turn.main.during).recordCachedRead request response.bytes =
      .ok { state.interfere turn.main.during with runtime := next } := by
    have hruntime : (state.interfere turn.main.during).runtime =
        state.runtime.run (turn.main.during.ops.map Subtype.val) := rfl
    rw [recordCachedRead, hruntime, hnext]
  simp only [providerRead, hroute, hrecord, if_pos (show response.status = .ok from rfl)]
  rfl

/-- The reply to a read whose request is widened and answered with a prefix. -/
theorem read_of_answering {state : FuseState} (hwf : state.runtime.WellFormed)
    {turn : ReadTurn} {count : ProviderReadRequest → ℕ}
    (hanswer : turn.main.answer = answering content count)
    (hcount : ∀ request, count request ≤ request.length) {inode offset size : ℕ}
    {promiseId : Text} {tree : PromiseTree} {node : PromiseNode}
    (hentry : state.runtime.lookupInode inode = .ok (.promiseNode promiseId node))
    {plan : ProviderReadPlan}
    (hplan : state.runtime.planRead promiseId node.relativePath offset
      (min size maxProviderReadLen) = .ok (.request plan))
    {coalesced : CoalescedProviderReadPlan}
    (hcoalesced : state.runtime.planCoalescedProviderRead plan = .ok coalesced)
    {body : ProviderReadRequest}
    (hbody : (state.newRequest coalesced.provider).1.intoBody = .ok body)
    (hnode : state.runtime.fileNode coalesced.provider.promiseId coalesced.provider.relativePath =
      .ok (tree, node))
    (hfits : coalesced.provider.offset + coalesced.provider.length ≤ node.attr.size.toNat) :
    (state.read turn inode offset size).1 =
      providerReplyBytes
        (slice (content ⟨coalesced.provider.promiseId, coalesced.provider.relativePath⟩)
          coalesced.provider.offset (count (state.newRequest coalesced.provider).1))
        coalesced.responseOffset coalesced.responseLength := by
  rw [read_of_request hentry hplan hcoalesced]
  exact providerRead_of_answering (state.newRequest coalesced.provider).2 hwf hanswer hcount
    hbody hnode hfits _ _

/-- A slice is cut out of an answer when it starts the answer or ends inside it. -/
theorem providerReplyBytes_serves {f : ℕ → UInt8}
    {start count responseOffset responseLength : ℕ} (hcount : 0 < count)
    (hlength : 0 < responseLength) (hend : responseOffset + responseLength ≤ u64Max) :
    (∃ bytes, providerReplyBytes (slice f start count) responseOffset responseLength =
      .ok bytes ∧ bytes ≠ []) ↔ responseOffset = 0 ∨ responseOffset + responseLength ≤ count := by
  have hstop : checkedAdd responseOffset responseLength =
      some (responseOffset + responseLength) := checkedAdd_eq_some.mpr ⟨rfl, hend⟩
  unfold providerReplyBytes
  rw [length_slice, hstop]
  by_cases hwhole : responseOffset = 0 ∧ count ≤ responseLength
  · rw [if_pos hwhole]
    refine ⟨fun _ => Or.inl hwhole.1, fun _ => ⟨_, rfl, ?_⟩⟩
    rw [← List.length_pos_iff, length_slice]
    exact hcount
  · rw [if_neg hwhole]
    dsimp only
    by_cases hshort : count < responseOffset + responseLength
    · rw [if_pos hshort]
      constructor
      · rintro ⟨bytes, hbytes, -⟩
        simp at hbytes
      · omega
    · rw [if_neg hshort]
      refine ⟨fun _ => Or.inr (by omega), fun _ => ⟨_, rfl, ?_⟩⟩
      rw [← List.length_pos_iff, List.length_drop, List.length_take, length_slice]
      omega

/-- The range of a request may be replaced by another valid range. -/
private theorem intoBody_range {request body : ProviderReadRequest}
    (h : request.intoBody = .ok body) (offset length : ℕ) (hpos : 0 < length)
    (hmax : length ≤ maxProviderReadLen) (hend : offset + length ≤ u64Max) :
    ∃ body', ({ request with offset, length } : ProviderReadRequest).intoBody = .ok body' := by
  obtain ⟨⟨path, hpath, -⟩, hid, hprovider, hpromise, hnode, -, -, -⟩ :=
    ProviderReadRequest.intoBody_eq_ok.mp h
  exact ⟨_, ProviderReadRequest.intoBody_eq_ok.mpr
    ⟨⟨path, hpath, rfl⟩, hid, hprovider, hpromise, hnode, hpos, hmax, hend⟩⟩

/-- A read that misses the cache is served unless its reply ends in the wrong
place of a widened answer. -/
theorem read_of_miss {state : FuseState} (hwf : state.runtime.WellFormed)
    {chunkSize : ℕ} (hpos : 0 < chunkSize) (hmax : chunkSize ≤ maxProviderReadLen)
    (hpolicy : state.runtime.cachePolicy.chunkSize = some chunkSize)
    {count : ProviderReadRequest → ℕ} (hcount : ∀ request, count request ≤ request.length)
    (hsome : ∀ request, 0 < request.length → 0 < count request) {turn : ReadTurn}
    (hanswer : turn.main.answer = answering content count) {inode offset size clamped : ℕ}
    {promiseId : Text} {tree : PromiseTree} {node : PromiseNode}
    (hentry : state.runtime.lookupInode inode = .ok (.promiseNode promiseId node))
    (hnode : state.runtime.fileNode promiseId node.relativePath = .ok (tree, node))
    (hplan : state.runtime.planRead promiseId node.relativePath offset
      (min size maxProviderReadLen) =
        .ok (.request (Runtime.providerPlan tree node offset clamped)))
    (hclamped : 0 < clamped) (hfits : offset + clamped ≤ node.attr.size.toNat)
    {body : ProviderReadRequest}
    (hbody : (state.newRequest (Runtime.providerPlan tree node offset clamped)).1.intoBody =
      .ok body) :
    (∃ bytes, (state.read turn inode offset size).1 = .ok bytes ∧ bytes ≠ []) ↔
      chunkBase offset chunkSize + chunkSize ≤ u64Max ∧
        (chunkBase offset chunkSize + chunkSize < offset + clamped ∨
          chunkBase offset chunkSize = offset ∨
          offset - chunkBase offset chunkSize + clamped ≤
            count (state.widenedRequest chunkSize tree node offset)) := by
  have hid : tree.promiseId = promiseId := (hwf.fileNode hnode).1
  have hlow := chunkBase_le offset chunkSize
  have hhigh := lt_chunkBase_add offset hpos
  have hu64 := toNat_le_u64Max node.attr.size
  have hplanNode : state.runtime.fileNode
      (Runtime.providerPlan tree node offset clamped).promiseId
      (Runtime.providerPlan tree node offset clamped).relativePath = .ok (tree, node) := by
    rw [show (Runtime.providerPlan tree node offset clamped).promiseId = promiseId from hid]
    exact hnode
  by_cases hchunk : chunkBase offset chunkSize + chunkSize ≤ u64Max
  · simp only [hchunk, true_and]
    by_cases hspan : chunkBase offset chunkSize + chunkSize < offset + clamped
    · -- the range leaves its chunk, so the request is sent as it is
      have hreply := read_of_answering hwf hanswer hcount hentry hplan
        (Runtime.planCoalescedProviderRead_spanning hpolicy hplanNode hchunk
          (show offset + clamped ≤ u64Max by omega) hspan) hbody hplanNode hfits
      simp only [hspan, true_or, iff_true]
      rw [hreply]
      exact (providerReplyBytes_serves (hsome _ hclamped) hclamped
        (show 0 + clamped ≤ u64Max by omega)).mpr (Or.inl rfl)
    · obtain ⟨wideBody, hwide⟩ := intoBody_range hbody (chunkBase offset chunkSize)
        (min chunkSize (node.attr.size.toNat - chunkBase offset chunkSize)) (by omega)
        (by omega) (by omega)
      have hreply := read_of_answering hwf hanswer hcount hentry hplan
        (Runtime.planCoalescedProviderRead_widened hpolicy hplanNode hpos
          (hmax.trans (by decide)) hchunk
          (show offset + clamped ≤ chunkBase offset chunkSize + chunkSize by omega)) hwide hplanNode
        (show chunkBase offset chunkSize + min chunkSize
          (node.attr.size.toNat - chunkBase offset chunkSize) ≤ _ by omega)
      simp only [hspan, false_or]
      rw [hreply]
      refine (providerReplyBytes_serves (hsome _ (show 0 < min chunkSize
        (node.attr.size.toNat - chunkBase offset chunkSize) by omega)) hclamped
        (show offset - chunkBase offset chunkSize + clamped ≤ u64Max by omega)).trans ?_
      refine or_congr ?_ Iff.rfl
      show offset - chunkBase offset chunkSize = 0 ↔ _
      omega
  · have hreply : (state.read turn inode offset size).1 = _ := read_of_request_error hentry hplan
      (Runtime.planCoalescedProviderRead_overflow hpolicy hplanNode
        (show u64Max < chunkBase offset chunkSize + chunkSize by omega))
    rw [hreply]
    simp [hchunk]

/-- A request that was answered had passed its checks. -/
private theorem intoBody_of_providerRead {state : FuseState} {turn : ReadTurn}
    {request : ProviderReadRequest} {responseOffset responseLength : ℕ} {bytes : List UInt8}
    (h : (state.providerRead turn request responseOffset responseLength).1 = .ok bytes) :
    ∃ body, request.intoBody = .ok body := by
  unfold providerRead routeProviderRead at h
  cases hbody : request.intoBody with
  | error error => simp [hbody] at h
  | ok body => exact ⟨body, rfl⟩

/-! ## When the two modes agree -/

/-- In every state that reads can reach under a read-through policy: a read that
no-cache mode answers with data is answered with data exactly when it is
`Served`. -/
theorem readThrough_serves_iff {chunkSize : ℕ} (hmax : chunkSize ≤ maxProviderReadLen)
    {runtime : Runtime}
    (hstart : Runtime.withCachePolicy (.readThrough chunkSize) = .ok runtime)
    {events : List Event} (hevents : ∀ event ∈ events, event.Honest content)
    {count : ProviderReadRequest → ℕ} (hcount : ∀ request, count request ≤ request.length)
    (hsome : ∀ request, 0 < request.length → 0 < count request) {turn : ReadTurn}
    (hanswer : turn.main.answer = answering content count) {inode offset size : ℕ}
    {promiseId : Text} {tree : PromiseTree} {node : PromiseNode}
    (hentry : ((initial runtime).run events).runtime.lookupInode inode =
      .ok (.promiseNode promiseId node))
    (htree : ((initial runtime).run events).runtime.promises[promiseId]? = some tree)
    {data : List UInt8}
    (hdata : (((initial runtime).run events).withoutCache.read turn inode offset size).1 =
      .ok data) (hne : data ≠ [])
    (hcontent : data = slice (content ⟨promiseId, node.relativePath⟩) offset data.length) :
    (∃ bytes, (((initial runtime).run events).read turn inode offset size).1 = .ok bytes ∧
      bytes ≠ [] ∧ bytes = slice (content ⟨promiseId, node.relativePath⟩) offset bytes.length) ↔
      ((initial runtime).run events).Served chunkSize count promiseId tree node offset size := by
  have hagrees : CacheAgrees content (.readThrough chunkSize)
      ((initial runtime).run events).runtime :=
    agrees_run (initial runtime) (CacheAgrees.start hstart) events hevents
  have hpos : 0 < chunkSize := Runtime.chunkSize_pos_of_start hstart
  generalize (initial runtime).run events = state at *
  have hpolicy : state.runtime.cachePolicy.chunkSize = some chunkSize := by
    rw [hagrees.cachePolicy]
    exact if_pos hpos
  have hwf := hagrees.wellFormed
  have hplain : state.withoutCache.runtime.WellFormed :=
    ⟨hwf.shape, hwf.named, hwf.provider, hwf.owner, hwf.nextProvider⟩
  obtain ⟨promiseId', tree', node', hentry', hnode, hcases⟩ := read_eq_ok hplain hdata
  obtain ⟨rfl, rfl⟩ : promiseId = promiseId' ∧ node = node' := by
    have hsame : state.withoutCache.runtime.lookupInode inode =
        state.runtime.lookupInode inode := rfl
    rw [hsame, hentry] at hentry'
    simpa using hentry'
  have hnode : state.runtime.fileNode promiseId node.relativePath = .ok (tree', node) := hnode
  obtain rfl : tree = tree' :=
    Option.some.inj (htree.symm.trans (Runtime.fileNode_eq_ok.mp hnode).1)
  obtain ⟨hid, -, -, -⟩ := hwf.fileNode hnode
  rcases hcases with rfl | ⟨clamped, hsize, hoffset, hclamp, hcases⟩
  · exact absurd rfl hne
  have hplanRead := Runtime.planRead_eq hnode hsize hoffset hclamp
  obtain ⟨hclamped, hsmall, hend⟩ := Runtime.clampLength_eq_ok.mp hclamp
  unfold Served
  rw [← hclamped]
  rcases hcases with ⟨path, hpath, hlocal⟩ | ⟨-, hcached⟩ |
    ⟨hnone, -, hlive, coalesced, hcoalesced, hread⟩
  · -- a materialized file is read from the target filesystem in both modes
    simp only [hpath] at hplanRead
    have hreply : (state.read turn inode offset size).1 = .ok data :=
      (read_of_materialized hentry hplanRead).trans hlocal
    simp only [hpath, Option.isSome_some, true_or, iff_true]
    exact ⟨data, hreply, hne, hcontent⟩
  · simp [Runtime.cachedRead, withoutCache, CachePolicy.chunkSize] at hcached
  · simp only [hnone, Option.isSome_none, Bool.false_eq_true, false_or]
    simp only [hnone] at hplanRead
    have hhonest : turn.main.Honest content := by
      have := answering_honest content hcount turn.main.during
      rwa [← hanswer] at this
    have hslice : ∀ {bytes}, (state.read turn inode offset size).1 = .ok bytes →
        bytes = slice (content ⟨promiseId, node.relativePath⟩) offset bytes.length :=
      fun hreply => (agrees_read_reply hagrees hhonest hentry hnone hreply).1
    cases hcached : state.runtime.cachedRead promiseId node.relativePath offset clamped with
    | some bytes =>
        simp only [hcached] at hplanRead
        have hreply : (state.read turn inode offset size).1 = .ok bytes :=
          read_of_cached hentry hplanRead
        simp only [Option.isSome_some, true_or, iff_true]
        refine ⟨bytes, hreply, ?_, hslice hreply⟩
        rw [hagrees.holds.cachedRead (by omega) hcached, ← List.length_pos_iff, length_slice]
        omega
    | none =>
        simp only [hcached] at hplanRead
        have hprovider : state.runtime.planProviderRead promiseId node.relativePath offset clamped =
            .ok (Runtime.providerPlan tree node offset clamped) :=
          Runtime.planProviderRead_eq_ok.mpr ⟨tree, node, clamped, hnode, by omega, hoffset,
            Runtime.clampLength_eq_ok.mpr ⟨by omega, hsmall, hend⟩, hlive, rfl⟩
        rw [hprovider] at hplanRead
        -- without a cache the same request passed its checks
        obtain rfl : coalesced = ⟨Runtime.providerPlan tree node offset clamped, 0, clamped⟩ :=
          (Except.ok.inj hcoalesced).symm
        obtain ⟨body, hbody⟩ := intoBody_of_providerRead hread
        simp only [Option.isSome_none, Bool.false_eq_true, false_or]
        rw [← read_of_miss hwf hpos hmax hpolicy hcount hsome hanswer hentry hnode hplanRead
          (by omega) (by omega) hbody]
        constructor
        · rintro ⟨bytes, hreply, hbytes, -⟩
          exact ⟨bytes, hreply, hbytes⟩
        · rintro ⟨bytes, hreply, hbytes⟩
          exact ⟨bytes, hreply, hbytes, hslice hreply⟩

/-- The same four-byte read in the middle of an eight-byte chunk is served when the
provider answers the whole widened request. -/
theorem readThrough_serves_full_answer :
    let counting : Content := fun _ i => UInt8.ofNat i
    let quiet : Interference := ⟨[], 0⟩
    let full : Routing := ⟨quiet, answering counting ProviderReadRequest.length⟩
    let turn : ReadTurn := ⟨full, quiet, full, fun _ => .ok []⟩
    ∃ runtime, Runtime.withCachePolicy (.readThrough 8) = .ok runtime ∧
      let state := (initial runtime).run [.other ⟨[⟨.registerProvider, rfl⟩,
        ⟨.commitPromise 1 [⟨"a".toList, "n".toList, .file, ⟨0o644, 8, 0⟩⟩], rfl⟩], 0⟩]
      (state.withoutCache.read turn 3 4 4).1 = .ok [4, 5, 6, 7] ∧
        ∃ bytes, (state.read turn 3 4 4).1 = .ok bytes ∧ bytes ≠ [] ∧
          bytes = slice (counting ⟨"promise-1".toList, "a".toList⟩) 4 bytes.length := by
  intro counting quiet full turn
  refine ⟨{ Runtime.new with cachePolicy := .readThrough 8 }, rfl, ?_⟩
  intro state
  have hentry : state.runtime.lookupInode 3 = .ok (.promiseNode "promise-1".toList
      ⟨2, 3, "a".toList, some [], "a".toList, "n".toList, none, .file, ⟨0o644, 8, 0⟩⟩) := by
    decide
  obtain ⟨tree, htree⟩ : ∃ tree, state.runtime.promises["promise-1".toList]? = some tree :=
    Option.isSome_iff_exists.mp (by decide)
  have hstart : Runtime.withCachePolicy (.readThrough 8) =
      .ok { Runtime.new with cachePolicy := .readThrough 8 } := rfl
  have hdata : (state.withoutCache.read turn 3 4 4).1 = .ok [4, 5, 6, 7] := by decide
  refine ⟨hdata, (readThrough_serves_iff (by decide) hstart (by simp [Event.Honest])
    (fun request => le_rfl) (fun request hpos => hpos) rfl hentry htree hdata (by simp) rfl).mpr
      (Or.inr (Or.inr ⟨by decide, Or.inr (Or.inr ?_)⟩))⟩
  show 4 - chunkBase 4 8 + min (min 4 maxProviderReadLen) (8 - 4) ≤ min 8 (8 - chunkBase 4 8)
  decide

/-- A one-byte answer to a four-byte read in the middle of an eight-byte chunk:
without a cache the mount returns the byte, and under read-through the answer to
the widened request stops before the requested range and the read fails. -/
theorem readThrough_fails_where_noCache_reads :
    let counting : Content := fun _ i => UInt8.ofNat i
    let quiet : Interference := ⟨[], 0⟩
    let oneByte : Routing := ⟨quiet, answering counting fun request => min 1 request.length⟩
    let turn : ReadTurn := ⟨oneByte, quiet, oneByte, fun _ => .ok []⟩
    ∃ runtime, Runtime.withCachePolicy (.readThrough 8) = .ok runtime ∧
      let state := (initial runtime).run [.other ⟨[⟨.registerProvider, rfl⟩,
        ⟨.commitPromise 1 [⟨"a".toList, "n".toList, .file, ⟨0o644, 8, 0⟩⟩], rfl⟩], 0⟩]
      (state.withoutCache.read turn 3 4 4).1 = .ok [4] ∧
        (state.read turn 3 4 4).1 = .error .eio :=
  ⟨_, rfl, by decide⟩

end FuseState

end FusePromise
