import FusePromise.Fuse.Adapter
import FusePromise.Runtime.CacheSpec
import FusePromise.Runtime.Planner

/-!
# A read returns bytes of its own file and offset

Fix the content of every file.  A provider is *honest* when each successful
answer is a prefix of the requested range of that content, however short.  As
long as all answers are honest, the cache agrees with the content
(`CacheAgrees`), and so every reply of the mount is a stretch of the file's
content that starts at the requested offset.
-/

namespace FusePromise

open Machine ByteMap

/-- The bytes of every file, by promise and path. -/
abbrev Content := CacheKey → ℕ → UInt8

/-- A successful answer is a prefix of the requested range. -/
def ProviderReadResponse.Honest (content : Content) (request : ProviderReadRequest)
    (response : ProviderReadResponse) : Prop :=
  response.status = .ok → ∃ count ≤ request.length,
    response.bytes = slice (content ⟨request.promiseId, request.relativePath⟩) request.offset count

/-- Answers have the declared content. -/
def Routing.Honest (content : Content) (routing : Routing) : Prop :=
  ∀ request response, routing.answer request = .ok response → response.Honest content request

def ReadTurn.Honest (content : Content) (turn : ReadTurn) : Prop :=
  turn.main.Honest content ∧ turn.prefetch.Honest content

def FuseState.Event.Honest (content : Content) : FuseState.Event → Prop
  | .read turn _ _ _ => turn.Honest content
  | .other _ => True

/-- A provider that answers every request with the first `count request` bytes
of its range. -/
def answering (content : Content) (count : ProviderReadRequest → ℕ)
    (request : ProviderReadRequest) : IoResult ProviderReadResponse :=
  .ok ⟨request.requestId, .ok,
    slice (content ⟨request.promiseId, request.relativePath⟩) request.offset (count request)⟩

theorem answering_honest (content : Content) {count : ProviderReadRequest → ℕ}
    (hcount : ∀ request, count request ≤ request.length) (during : Interference) :
    Routing.Honest content ⟨during, answering content count⟩ := by
  intro request response hanswer _
  obtain rfl := Except.ok.inj hanswer
  exact ⟨count request, hcount request, rfl⟩

/-! ## The cache agrees with the content -/

/-- What is recorded is a range of the content. -/
def RuntimeOp.Honest (content : Content) : RuntimeOp → Prop
  | .recordCachedRead promiseId relativePath offset bytes =>
      ∀ path, normalizeRelativePath relativePath = .ok path →
        bytes = slice (content ⟨promiseId, path⟩) offset bytes.length
  | _ => True

/-- Whatever is cached, at whatever chunk size, is a byte of the content. -/
structure CacheHolds (content : Content) (runtime : Runtime) : Prop where
  sound : runtime.readCache.Sound
  value : ∀ {key : CacheKey} {base i : ℕ} {v : UInt8},
    runtime.readCache.lookupAt key base i = some v → v = content key i

variable {content : Content} {policy : CachePolicy}

namespace CacheHolds

variable {runtime next : Runtime}

theorem of_empty (h : runtime.readCache = .empty) : CacheHolds content runtime := by
  refine ⟨h ▸ ReadCache.Sound.empty, fun {key base i v} hv => ?_⟩
  rw [h, ReadCache.lookupAt_empty] at hv
  simp at hv

theorem of_eq (h : CacheHolds content runtime) (hcache : next.readCache = runtime.readCache) :
    CacheHolds content next :=
  ⟨hcache ▸ h.sound, fun hv => h.value (hcache ▸ hv)⟩

theorem record (h : CacheHolds content runtime) (hwf : runtime.WellFormed)
    {promiseId relativePath : Text} {offset : ℕ} {bytes : List UInt8}
    (hnext : runtime.recordCachedRead promiseId relativePath offset bytes = .ok next)
    (hop : (RuntimeOp.recordCachedRead promiseId relativePath offset bytes).Honest content) :
    CacheHolds content next := by
  rcases Runtime.recordCachedRead_eq_ok hnext with
    ⟨rfl, -⟩ | ⟨chunkSize, tree, node, hpolicy, -, hnode, hfits, rfl⟩
  · exact h
  obtain ⟨-, hpath, -, -⟩ := hwf.fileNode hnode
  have hbytes := hop _ hpath
  have hend := hfits.trans (toNat_le_u64Max _)
  obtain ⟨hsound, hlookup⟩ := ReadCache.insert_lookupAt (CachePolicy.chunkSize_pos hpolicy) h.sound
    promiseId node.relativePath hend
  refine ⟨hsound, fun {key base i v} hv => ?_⟩
  dsimp only at hv
  rw [hlookup] at hv
  split at hv
  · rename_i hplace
    obtain ⟨rfl, -⟩ := hplace
    by_cases hi : offset ≤ i ∧ i < offset + bytes.length
    · rw [overlay_of_mem hi, hbytes, getElem?_slice, if_pos (by omega)] at hv
      rw [← Option.some.inj hv]
      congr 1
      omega
    · rw [overlay_of_not_mem hi] at hv
      exact h.value hv
  · exact h.value hv

theorem effect (h : CacheHolds content runtime) (hwf : runtime.WellFormed) {op : RuntimeOp}
    (heffect : Runtime.Effect runtime op next) (hop : op.Honest content) :
    CacheHolds content next := by
  by_cases hrecord : op.isRecord = false
  · exact h.of_eq (heffect.readCache hrecord)
  · cases heffect with
    | keep => exact h
    | record hnext => exact h.record hwf hnext hop
    | _ => simp [RuntimeOp.isRecord] at hrecord

theorem run (h : CacheHolds content runtime) (hwf : runtime.WellFormed) {ops : List RuntimeOp}
    (hops : ∀ op ∈ ops, op.Honest content) : CacheHolds content (runtime.run ops) := by
  induction ops generalizing runtime with
  | nil => exact h
  | cons op rest ih =>
      obtain ⟨hop, hrest⟩ := List.forall_mem_cons.mp hops
      have heffect := runtime.effect_apply op
      exact ih (h.effect hwf heffect hop) (hwf.effect heffect) hrest

theorem setCachePolicy (h : CacheHolds content runtime) {cachePolicy : CachePolicy}
    (hnext : runtime.setCachePolicy cachePolicy = .ok next) : CacheHolds content next := by
  obtain ⟨policy, -, hnext⟩ := bind_eq_ok.mp hnext
  obtain rfl := Except.ok.inj hnext
  split
  · exact of_empty rfl
  · exact h.of_eq rfl

/-- A cached range holds the content of the range. -/
theorem cachedRead (h : CacheHolds content runtime) {promiseId path : Text} {offset length : ℕ}
    (hlength : 0 < length) {bytes : List UInt8}
    (hread : runtime.cachedRead promiseId path offset length = some bytes) :
    bytes = slice (content ⟨promiseId, path⟩) offset length := by
  obtain ⟨chunkSize, hpolicy, hread⟩ := Option.bind_eq_some_iff.mp hread
  rw [ReadCache.read_eq_some (CachePolicy.chunkSize_pos hpolicy) h.sound hlength] at hread
  refine hread.eq_slice fun i v hv => ?_
  simp only [ReadCache.lookup, CachedFile.lookup_eq_lookupAt] at hv
  exact h.value hv

end CacheHolds

/-- Whatever is cached is a byte of the content, under a policy that stays. -/
structure CacheAgrees (content : Content) (policy : CachePolicy) (runtime : Runtime) : Prop where
  wellFormed : runtime.WellFormed
  cachePolicy : runtime.cachePolicy = policy
  holds : CacheHolds content runtime

namespace CacheAgrees

theorem start {runtime : Runtime}
    (h : Runtime.withCachePolicy policy = .ok runtime) : CacheAgrees content policy runtime := by
  obtain ⟨hpolicy, -, -, -, -, hcache⟩ := Runtime.withCachePolicy_eq_ok h
  exact ⟨Runtime.wellFormed_of_withCachePolicy h, hpolicy, .of_empty hcache⟩

theorem effect {runtime next : Runtime} (h : CacheAgrees content policy runtime) {op : RuntimeOp}
    (heffect : Runtime.Effect runtime op next) (hop : op.Honest content) :
    CacheAgrees content policy next :=
  ⟨h.wellFormed.effect heffect, heffect.cachePolicy.trans h.cachePolicy,
    h.holds.effect h.wellFormed heffect hop⟩

theorem otherOps {runtime : Runtime} (h : CacheAgrees content policy runtime) (ops : List OtherOp) :
    CacheAgrees content policy (runtime.run (ops.map Subtype.val)) := by
  induction ops generalizing runtime with
  | nil => exact h
  | cons op rest ih =>
      refine ih (h.effect (runtime.effect_apply op.val) ?_)
      obtain ⟨op, hop⟩ := op
      cases op with
      | recordCachedRead => simp [RuntimeOp.isRecord] at hop
      | _ => trivial

end CacheAgrees

namespace FuseState

/-! ## Routing -/

theorem agrees_interfere {state : FuseState} (h : CacheAgrees content policy state.runtime)
    (other : Interference) : CacheAgrees content policy (state.interfere other).runtime :=
  h.otherOps other.ops

/-- What a routed read returns and leaves behind. -/
theorem routeProviderRead_spec (state : FuseState) (routing : Routing)
    (request : ProviderReadRequest) :
    ((state.routeProviderRead routing request).2 = state ∨
      (state.routeProviderRead routing request).2 = state.interfere routing.during) ∧
    ∀ response, (state.routeProviderRead routing request).1 = .ok response →
      (∃ body, request.intoBody = .ok body) ∧ routing.answer request = .ok response ∧
        validateProviderReadResponseForRequest request response = .ok () := by
  unfold routeProviderRead
  cases hbody : request.intoBody with
  | error error => exact ⟨Or.inl rfl, by simp⟩
  | ok body =>
      refine ⟨Or.inr rfl, ?_⟩
      intro response hresponse
      obtain ⟨answer, hanswer, hresponse⟩ := bind_eq_ok.mp hresponse
      obtain ⟨_, hvalid, hresponse⟩ := bind_eq_ok.mp hresponse
      obtain rfl := Except.ok.inj hresponse
      exact ⟨⟨body, rfl⟩, hanswer, hvalid⟩

theorem agrees_route (state : FuseState) (h : CacheAgrees content policy state.runtime)
    (routing : Routing) (request : ProviderReadRequest) :
    CacheAgrees content policy (state.routeProviderRead routing request).2.runtime := by
  rcases (state.routeProviderRead_spec routing request).1 with heq | heq <;> rw [heq]
  · exact h
  · exact agrees_interfere h routing.during

/-- Recording an honest answer keeps the cache in agreement. -/
theorem agrees_recordAnswer {state next : FuseState} (h : CacheAgrees content policy state.runtime)
    {request : ProviderReadRequest} {response : ProviderReadResponse}
    (hnormal : normalizeRelativePath request.relativePath = .ok request.relativePath)
    (hhonest : response.Honest content request) (hok : response.status = .ok)
    (hnext : state.recordCachedRead request response.bytes = .ok next) :
    CacheAgrees content policy next.runtime := by
  obtain ⟨count, -, hbytes⟩ := hhonest hok
  rw [hbytes] at hnext
  unfold recordCachedRead at hnext
  split at hnext
  · simp at hnext
  · rename_i runtime hrecord
    obtain rfl := Except.ok.inj hnext
    refine h.effect (.record hrecord) fun path hpath => ?_
    obtain rfl := Except.ok.inj (hnormal.symm.trans hpath)
    rw [length_slice]

theorem agrees_prefetch {state : FuseState} (h : CacheAgrees content policy state.runtime)
    {routing : Routing} (hhonest : routing.Honest content) (request : ProviderReadRequest)
    (bytesRead : ℕ) :
    CacheAgrees content policy
      (state.prefetchAfterProviderRead routing request bytesRead).runtime := by
  unfold prefetchAfterProviderRead
  split
  · exact h
  split
  · rename_i plan hplan
    obtain ⟨tree, node, hnode, hplan⟩ := Runtime.planSequentialPrefetch_eq_some hplan
    obtain ⟨-, -, hstored, -⟩ := h.wellFormed.fileNode hnode
    have htree := (Runtime.fileNode_eq_ok.mp hnode).1
    have hnormal := (h.wellFormed.shape htree).2.normalize (BTreeMap.mem_of_getElem? hstored)
    have hrouted : CacheAgrees content policy ((state.newRequest plan).2.routeProviderRead routing
        (state.newRequest plan).1).2.runtime := agrees_route (state.newRequest plan).2 h routing _
    have hanswer := ((state.newRequest plan).2.routeProviderRead_spec routing
        (state.newRequest plan).1).2
    dsimp only
    cases hroute : (state.newRequest plan).2.routeProviderRead routing
        (state.newRequest plan).1 with
    | mk result after =>
        rw [hroute] at hrouted hanswer
        cases result with
        | error error => exact hrouted
        | ok response =>
            dsimp only
            split
            · rename_i hok
              split
              · rename_i recorded hrecorded
                refine agrees_recordAnswer hrouted ?_
                  (hhonest _ _ (hanswer response rfl).2.1) hok hrecorded
                rw [hplan]
                exact hnormal
              · exact hrouted
            · exact hrouted
  · exact h

/-! ## Planning -/

@[simp] theorem planRead_runtime (state : FuseState) (inode offset size : ℕ) :
    (state.planRead inode offset size).2.runtime = state.runtime := by
  unfold planRead
  repeat' first
    | rfl
    | split

/-- What a successful planning found and decided. -/
theorem planRead_eq_ok {state : FuseState} (hwf : state.runtime.WellFormed)
    {inode offset size : ℕ} {plan : Option FuseReadPlan}
    (h : (state.planRead inode offset size).1 = .ok plan) :
    ∃ promiseId tree node,
      state.runtime.lookupInode inode = .ok (.promiseNode promiseId node) ∧
      state.runtime.fileNode promiseId node.relativePath = .ok (tree, node) ∧
      (plan = none ∨
        ∃ clamped, 0 < size ∧ offset < node.attr.size.toNat ∧
          Runtime.clampLength node offset size = .ok clamped ∧
          ((∃ path, node.materializedPath = some path ∧
              plan = some (.materialized path offset clamped)) ∨
            (node.materializedPath = none ∧ ∃ bytes,
              state.runtime.cachedRead promiseId node.relativePath offset clamped = some bytes ∧
                plan = some (.cached bytes)) ∨
            (node.materializedPath = none ∧
              state.runtime.cachedRead promiseId node.relativePath offset clamped = none ∧
              state.runtime.liveProvider tree = .ok tree.providerId ∧
              ∃ coalesced, state.runtime.planCoalescedProviderRead
                  (Runtime.providerPlan tree node offset clamped) = .ok coalesced ∧
                plan = some (.provider (state.newRequest coalesced.provider).1
                  coalesced.responseOffset coalesced.responseLength) ∧
                (state.planRead inode offset size).2 =
                  (state.newRequest coalesced.provider).2))) := by
  unfold planRead at h
  cases hentry : state.runtime.lookupInode inode with
  | error status => simp [hentry] at h
  | ok entry =>
  cases entry with
  | mountRoot => simp [hentry] at h
  | promiseNode promiseId node =>
  simp only [hentry] at h
  obtain ⟨tree, htree, hstored⟩ := hwf.lookupInode hentry
  cases hplan : state.runtime.planRead promiseId node.relativePath offset size with
  | error status => simp [hplan] at h
  | ok runtimePlan =>
  obtain ⟨tree', node', hnode, hcases⟩ := Runtime.planRead_eq_ok hplan
  -- the planner finds the node that the inode lookup found
  obtain ⟨htree', hget, hkind⟩ := Runtime.fileNode_eq_ok.mp hnode
  obtain rfl : tree = tree' := Option.some.inj (htree.symm.trans htree')
  obtain rfl : node = node' := by
    rw [PromiseTree.get, (hwf.shape htree).2.normalize (BTreeMap.mem_of_getElem? hstored)] at hget
    exact Option.some.inj (hstored.symm.trans hget)
  refine ⟨promiseId, tree, node, rfl, hnode, ?_⟩
  simp only [hplan] at h
  rcases hcases with ⟨-, rfl⟩ | ⟨clamped, hsize, hoffset, hclamp, hcases⟩
  · exact Or.inl (Except.ok.inj h).symm
  refine Or.inr ⟨clamped, hsize, hoffset, hclamp, ?_⟩
  rcases hcases with ⟨path, hpath, rfl⟩ | ⟨hnone, bytes, hbytes, rfl⟩ |
    ⟨hnone, hmiss, request, hrequest, rfl⟩
  · exact Or.inl ⟨path, hpath, (Except.ok.inj h).symm⟩
  · exact Or.inr (Or.inl ⟨hnone, bytes, hbytes, (Except.ok.inj h).symm⟩)
  · refine Or.inr (Or.inr ⟨hnone, hmiss, ?_⟩)
    obtain ⟨tree', node', clamped', hnode', -, -, hclamp', hlive, rfl⟩ :=
      Runtime.planProviderRead_eq_ok.mp hrequest
    obtain ⟨rfl, rfl⟩ := Prod.mk.inj (Except.ok.inj (hnode.symm.trans hnode'))
    obtain rfl : clamped' = clamped := by
      rw [Runtime.clampLength_eq_ok] at hclamp hclamp'
      omega
    dsimp only at h
    split at h
    · simp at h
    · rename_i coalesced hcoalesced
      refine ⟨hlive, coalesced, hcoalesced, (Except.ok.inj h).symm, ?_⟩
      simp [planRead, hentry, hplan, hcoalesced]

/-! ## Replies -/

/-- The slice cut out of a stretch of a file is a stretch of the file. -/
theorem providerReplyBytes_slice {f : ℕ → UInt8} {start count responseOffset responseLength : ℕ}
    {bytes : List UInt8}
    (h : providerReplyBytes (slice f start count) responseOffset responseLength = .ok bytes) :
    bytes = slice f (start + responseOffset) bytes.length ∧ bytes.length ≤ responseLength := by
  unfold providerReplyBytes at h
  rw [length_slice] at h
  split at h
  · rename_i hwhole
    obtain ⟨rfl, hle⟩ := hwhole
    obtain rfl := Except.ok.inj h
    rw [length_slice, Nat.add_zero]
    exact ⟨rfl, hle⟩
  · split at h
    · simp at h
    · rename_i stop hstop
      obtain ⟨rfl, -⟩ := checkedAdd_eq_some.mp hstop
      split at h
      · simp at h
      · rename_i hlong
        have hcut : ((slice f start count).take (responseOffset + responseLength)).drop
            responseOffset = slice f (start + responseOffset) responseLength := by
          rw [take_slice _ _ _ _ (by omega), drop_slice _ _ _ _ (by omega),
            Nat.add_sub_cancel_left]
        rw [hcut] at h
        obtain rfl := Except.ok.inj h
        rw [length_slice]
        exact ⟨rfl, le_rfl⟩

/-- The reply of the part of a read that asks an honest provider. -/
theorem providerRead_reply {state : FuseState} {turn : ReadTurn}
    (hmain : turn.main.Honest content) {request : ProviderReadRequest}
    {responseOffset responseLength : ℕ} {bytes : List UInt8}
    (h : (state.providerRead turn request responseOffset responseLength).1 = .ok bytes) :
    bytes = slice (content ⟨request.promiseId, request.relativePath⟩)
        (request.offset + responseOffset) bytes.length ∧ bytes.length ≤ responseLength := by
  have hanswer := (state.routeProviderRead_spec turn.main request).2
  unfold providerRead at h
  cases hroute : state.routeProviderRead turn.main request with
  | mk result after =>
      rw [hroute] at h hanswer
      cases result with
      | error error => simp at h
      | ok response =>
          dsimp only at h
          split at h
          · rename_i hok
            split at h
            · simp at h
            · obtain ⟨count, -, hbytes⟩ := hmain _ _ (hanswer response rfl).2.1 hok
              rw [hbytes] at h
              exact providerReplyBytes_slice h
          · simp at h

theorem agrees_providerRead (state : FuseState) (h : CacheAgrees content policy state.runtime)
    {turn : ReadTurn} (hturn : turn.Honest content) {request : ProviderReadRequest}
    (hnormal : normalizeRelativePath request.relativePath = .ok request.relativePath)
    (responseOffset responseLength : ℕ) :
    CacheAgrees content policy
      (state.providerRead turn request responseOffset responseLength).2.runtime := by
  have hanswer := (state.routeProviderRead_spec turn.main request).2
  have hrouted := agrees_route state h turn.main request
  unfold providerRead
  cases hroute : state.routeProviderRead turn.main request with
  | mk result after =>
      rw [hroute] at hrouted hanswer
      cases result with
      | error error => exact hrouted
      | ok response =>
          dsimp only
          split
          · rename_i hok
            split
            · exact hrouted
            · rename_i recorded hrecorded
              exact agrees_prefetch (agrees_interfere (agrees_recordAnswer hrouted hnormal
                (hturn.1 _ _ (hanswer response rfl).2.1) hok hrecorded) turn.gap) hturn.2 _ _
          · exact hrouted

/-- A widened request still names its file. -/
private theorem newRequest_of_coalesced {state : FuseState} {tree : PromiseTree}
    {node : PromiseNode} {offset length : ℕ} {coalesced : CoalescedProviderReadPlan}
    (h : state.runtime.planCoalescedProviderRead (Runtime.providerPlan tree node offset length) =
      .ok coalesced) :
    let request := (state.newRequest coalesced.provider).1
    request.promiseId = tree.promiseId ∧ request.relativePath = node.relativePath ∧
      request.offset + coalesced.responseOffset = offset ∧ coalesced.responseLength = length := by
  obtain ⟨hlength, hoffset, _, _, hprovider⟩ := Runtime.planCoalescedProviderRead_eq_ok h
  refine ⟨?_, ?_, hoffset, hlength⟩
  · simp [newRequest, hprovider, Runtime.providerPlan]
  · simp [newRequest, hprovider, Runtime.providerPlan]

theorem agrees_read {state : FuseState} (h : CacheAgrees content policy state.runtime)
    {turn : ReadTurn}
    (hturn : turn.Honest content) (inode offset size : ℕ) :
    CacheAgrees content policy (state.read turn inode offset size).2.runtime := by
  have hsame := state.planRead_runtime inode offset (min size maxProviderReadLen)
  have hplan := fun plan
    (hok : (state.planRead inode offset (min size maxProviderReadLen)).1 = .ok plan) =>
      planRead_eq_ok h.wellFormed hok
  unfold read
  cases hcase : state.planRead inode offset (min size maxProviderReadLen) with
  | mk result next =>
      rw [hcase] at hsame hplan
      have hnext : CacheAgrees content policy next.runtime := hsame ▸ h
      cases result with
      | error errno => exact hnext
      | ok plan =>
          obtain ⟨promiseId, tree, node, -, hnode, hcases⟩ := hplan plan rfl
          obtain ⟨-, -, hstored, -⟩ := h.wellFormed.fileNode hnode
          have hshape := (h.wellFormed.shape (Runtime.fileNode_eq_ok.mp hnode).1).2
          rcases hcases with rfl | ⟨clamped, -, -, -, ⟨path, -, rfl⟩ | ⟨-, bytes, -, rfl⟩ |
            ⟨-, -, -, coalesced, hcoalesced, rfl, -⟩⟩
          · exact hnext
          · exact hnext
          · exact hnext
          · refine agrees_providerRead next hnext hturn ?_ _ _
            rw [(newRequest_of_coalesced hcoalesced).2.1]
            exact hshape.normalize (BTreeMap.mem_of_getElem? hstored)

theorem agrees_run (state : FuseState) (h : CacheAgrees content policy state.runtime)
    (events : List Event) (hevents : ∀ event ∈ events, event.Honest content) :
    CacheAgrees content policy (state.run events).runtime := by
  induction events generalizing state with
  | nil => exact h
  | cons event rest ih =>
      refine ih _ ?_ fun other hmem => hevents other (List.mem_cons_of_mem _ hmem)
      cases event with
      | read turn inode offset size =>
          have hturn : turn.Honest content := hevents (.read turn inode offset size) (by simp)
          exact agrees_read h hturn inode offset size
      | other interference => exact agrees_interfere h interference

/-- Where the bytes of a successful reply come from. -/
theorem read_eq_ok {state : FuseState} (hwf : state.runtime.WellFormed) {turn : ReadTurn}
    {inode offset size : ℕ} {bytes : List UInt8}
    (h : (state.read turn inode offset size).1 = .ok bytes) :
    ∃ promiseId tree node,
      state.runtime.lookupInode inode = .ok (.promiseNode promiseId node) ∧
      state.runtime.fileNode promiseId node.relativePath = .ok (tree, node) ∧
      (bytes = [] ∨
        ∃ clamped, 0 < min size maxProviderReadLen ∧ offset < node.attr.size.toNat ∧
          Runtime.clampLength node offset (min size maxProviderReadLen) = .ok clamped ∧
          ((∃ path, node.materializedPath = some path ∧
              readMaterializedFile turn.openFile path offset clamped = .ok bytes) ∨
            (node.materializedPath = none ∧
              state.runtime.cachedRead promiseId node.relativePath offset clamped =
                some bytes) ∨
            (node.materializedPath = none ∧
              state.runtime.cachedRead promiseId node.relativePath offset clamped = none ∧
              state.runtime.liveProvider tree = .ok tree.providerId ∧
              ∃ coalesced, state.runtime.planCoalescedProviderRead
                  (Runtime.providerPlan tree node offset clamped) = .ok coalesced ∧
                ((state.newRequest coalesced.provider).2.providerRead turn
                  (state.newRequest coalesced.provider).1 coalesced.responseOffset
                  coalesced.responseLength).1 = .ok bytes))) := by
  have hplan := fun plan
    (hok : (state.planRead inode offset (min size maxProviderReadLen)).1 = .ok plan) =>
      planRead_eq_ok hwf hok
  unfold read at h
  cases hcase : state.planRead inode offset (min size maxProviderReadLen) with
  | mk result next =>
  rw [hcase] at h hplan
  cases result with
  | error errno => simp at h
  | ok plan =>
  obtain ⟨promiseId, tree, node, hentry, hnode, hcases⟩ := hplan plan rfl
  refine ⟨promiseId, tree, node, hentry, hnode, ?_⟩
  rcases hcases with rfl | ⟨clamped, hsize, hoffset, hclamp, hcases⟩
  · exact Or.inl (Except.ok.inj h).symm
  refine Or.inr ⟨clamped, hsize, hoffset, hclamp, ?_⟩
  rcases hcases with ⟨path, hpath, rfl⟩ | ⟨hnone, cached, hcached, rfl⟩ |
    ⟨hnone, hmiss, hlive, coalesced, hcoalesced, rfl, hnext⟩
  · exact Or.inl ⟨path, hpath, h⟩
  · rw [← Except.ok.inj h]
    exact Or.inr (Or.inl ⟨hnone, hcached⟩)
  · refine Or.inr (Or.inr ⟨hnone, hmiss, hlive, coalesced, hcoalesced, ?_⟩)
    rw [← hnext]
    exact h

/-! ## The main result -/

/-- A reply from a state whose cache agrees with the content. -/
theorem agrees_read_reply {state : FuseState} (h : CacheAgrees content policy state.runtime)
    {turn : ReadTurn} (hmain : turn.main.Honest content) {inode offset size : ℕ}
    {promiseId : Text} {node : PromiseNode}
    (hentry : state.runtime.lookupInode inode = .ok (.promiseNode promiseId node))
    (hnone : node.materializedPath = none) {bytes : List UInt8}
    (hreply : (state.read turn inode offset size).1 = .ok bytes) :
    bytes = slice (content ⟨promiseId, node.relativePath⟩) offset bytes.length ∧
      bytes.length ≤ min size (min maxProviderReadLen (node.attr.size.toNat - offset)) := by
  obtain ⟨promiseId', tree, node', hentry', hnode, hcases⟩ := read_eq_ok h.wellFormed hreply
  obtain ⟨rfl, rfl⟩ : promiseId = promiseId' ∧ node = node' := by
    rw [hentry] at hentry'
    simpa using hentry'
  obtain ⟨hid, -, -, -⟩ := h.wellFormed.fileNode hnode
  rcases hcases with rfl | ⟨clamped, hsize, hoffset, hclamp, hcases⟩
  · simp
  obtain ⟨hclamped, -, -⟩ := Runtime.clampLength_eq_ok.mp hclamp
  rcases hcases with ⟨path, hpath, -⟩ | ⟨-, hcached⟩ | ⟨-, -, -, coalesced, hcoalesced, hread⟩
  · rw [hnone] at hpath
    simp at hpath
  · have hbytes := h.holds.cachedRead (by omega) hcached
    have hlength : bytes.length = clamped := by rw [hbytes, length_slice]
    rw [hlength]
    exact ⟨hbytes, by omega⟩
  · obtain ⟨hpromise, hpath, hrange, hlength⟩ := newRequest_of_coalesced hcoalesced
    obtain ⟨hbytes, hle⟩ := providerRead_reply hmain hread
    rw [hpromise, hpath, hrange, hid] at hbytes
    exact ⟨hbytes, by omega⟩

/-- The daemon's reading state when it starts. -/
def initial (runtime : Runtime) : FuseState :=
  ⟨runtime, 1⟩

/-- In every history with honest providers, a successful read of a file that is
not materialized returns a stretch of the file's content that starts at the
requested offset and is no longer than the request and the rest of the file. -/
theorem read_reply_is_content_prefix {runtime : Runtime}
    (hstart : Runtime.withCachePolicy policy = .ok runtime) {events : List Event}
    (hevents : ∀ event ∈ events, event.Honest content) {turn : ReadTurn}
    (hturn : turn.Honest content) {inode offset size : ℕ} {promiseId : Text} {node : PromiseNode}
    (hentry : ((initial runtime).run events).runtime.lookupInode inode =
      .ok (.promiseNode promiseId node)) (hnone : node.materializedPath = none)
    {bytes : List UInt8}
    (hreply : (((initial runtime).run events).read turn inode offset size).1 = .ok bytes) :
    bytes = slice (content ⟨promiseId, node.relativePath⟩) offset bytes.length ∧
      bytes.length ≤ min size (min maxProviderReadLen (node.attr.size.toNat - offset)) :=
  agrees_read_reply
    (agrees_run (initial runtime) (CacheAgrees.start hstart) events hevents)
    hturn.1 hentry hnone hreply

/-- A two-byte read inside a chunk of four, after a short answer has left one
byte in the cache: the reply is cut out of the second, full answer. -/
theorem read_reply_inside_chunk :
    let counting : Content := fun _ i => UInt8.ofNat i
    let quiet : Interference := ⟨[], 0⟩
    let turn (count : ProviderReadRequest → ℕ) : ReadTurn :=
      ⟨⟨quiet, answering counting count⟩, quiet, ⟨quiet, answering counting count⟩,
        fun _ => .ok []⟩
    let events : List Event := [
      .other ⟨[⟨.registerProvider, rfl⟩,
        ⟨.commitPromise 1 [⟨"a".toList, "n".toList, .file, ⟨0o644, 10, 0⟩⟩], rfl⟩], 0⟩,
      .read (turn fun request => min 1 request.length) 3 0 4]
    ∃ runtime, Runtime.withCachePolicy (.readThrough 4) = .ok runtime ∧
      (((initial runtime).run events).read (turn ProviderReadRequest.length) 3 1 2).1 =
        .ok [1, 2] ∧
      ([1, 2] : List UInt8) = slice (counting ⟨"promise-1".toList, "a".toList⟩) 1 2 ∧
      2 ≤ min 2 (min maxProviderReadLen (10 - 1)) := by
  intro counting quiet turn events
  refine ⟨_, rfl, by decide, ?_⟩
  have hshort : ∀ event ∈ events, event.Honest counting := by
    intro event hmem
    rcases List.mem_cons.mp hmem with rfl | hmem
    · trivial
    · rw [List.mem_singleton.mp hmem]
      have hcount : ∀ request : ProviderReadRequest, min 1 request.length ≤ request.length :=
        fun request => min_le_right _ _
      exact ⟨answering_honest counting hcount quiet, answering_honest counting hcount quiet⟩
  have hfull : (turn ProviderReadRequest.length).Honest counting :=
    ⟨answering_honest counting (fun _ => le_rfl) quiet,
      answering_honest counting (fun _ => le_rfl) quiet⟩
  have hentry : ((initial { Runtime.new with cachePolicy := .readThrough 4 }).run
      events).runtime.lookupInode 3 = .ok (.promiseNode "promise-1".toList
        ⟨2, 3, "a".toList, some [], "a".toList, "n".toList, none, .file, ⟨0o644, 10, 0⟩⟩) := by
    decide
  have hstart : Runtime.withCachePolicy (.readThrough 4) =
      .ok { Runtime.new with cachePolicy := .readThrough 4 } := rfl
  exact read_reply_is_content_prefix hstart hshort hfull hentry rfl (by decide)

end FuseState

end FusePromise
