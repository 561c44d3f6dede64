import FusePromise.Fuse.Admitted
import FusePromise.Fuse.ReadThrough
import FusePromise.Materialize.Marks

/-!
# A file read from its beginning to its end

A program opens a file of the mount and reads on where its last read ended, until
a read returns nothing.  Between its reads, and in their gaps, the other threads
commit and disconnect, other programs read, and the file may be materialized.  As
long as the provider of the file stays and answers, every read makes progress,
and the program gets the content of the file, all of it and nothing else
(`reader_gets_whole_file`).

A file is served from its copy, from the cache, or by the provider, and it may
pass from one to the other between two reads.  `Offer.Holds` is what all three
rest on.  It is kept by every operation that spares the file, and `Moves` says
that reads and gaps consist of operations.
-/

namespace FusePromise

open Machine ByteMap FusePromise.Runtime

/-! ## What happens to the state under a read -/

/-- The operations of the other threads during a read. -/
def ReadTurn.ops (turn : ReadTurn) : List RuntimeOp :=
  (turn.main.during.ops ++ turn.gap.ops ++ turn.prefetch.during.ops).map Subtype.val

/-- A bound on the request ids that are taken during a read: two by the read itself. -/
def ReadTurn.ids (turn : ReadTurn) : ℕ :=
  turn.main.during.idsTaken + turn.gap.idsTaken + turn.prefetch.during.idsTaken + 2

namespace FuseState

def Event.ops : Event → List RuntimeOp
  | .read turn _ _ _ => turn.ops
  | .other interference => interference.ops.map Subtype.val

def Event.ids : Event → ℕ
  | .read turn _ _ _ => turn.ids
  | .other interference => interference.idsTaken

/-- The state changes by operations of a kind, and at most so many ids are taken. -/
structure Moves (kind : RuntimeOp → Prop) (count : ℕ) (state next : FuseState) : Prop where
  runtime : ∃ ops : List RuntimeOp, (∀ op ∈ ops, kind op) ∧ next.runtime = state.runtime.run ops
  ids : state.nextReadRequestId + count ≤ u64Max →
    state.nextReadRequestId ≤ next.nextReadRequestId ∧
      next.nextReadRequestId ≤ state.nextReadRequestId + count

namespace Moves

variable {kind : RuntimeOp → Prop} {count count' : ℕ} {state next last : FuseState}

theorem refl (count : ℕ) (state : FuseState) : Moves kind count state state :=
  ⟨⟨[], by simp, rfl⟩, fun _ => ⟨le_rfl, Nat.le_add_right _ _⟩⟩

theorem trans (h : Moves kind count state next) (h' : Moves kind count' next last) :
    Moves kind (count + count') state last := by
  obtain ⟨ops, hops, hnext⟩ := h.runtime
  obtain ⟨rest, hrest, hlast⟩ := h'.runtime
  refine ⟨⟨ops ++ rest, ?_, by rw [run_append, ← hnext, hlast]⟩, fun hbound => ?_⟩
  · intro op hmem
    rcases List.mem_append.mp hmem with hmem | hmem
    · exact hops op hmem
    · exact hrest op hmem
  · obtain ⟨hlow, hhigh⟩ := h.ids (by omega)
    obtain ⟨hlow', hhigh'⟩ := h'.ids (by omega)
    omega

theorem mono (h : Moves kind count state next) (hle : count ≤ count') :
    Moves kind count' state next := by
  refine ⟨h.runtime, fun hbound => ?_⟩
  obtain ⟨hlow, hhigh⟩ := h.ids (by omega)
  omega

/-- What every operation of the kind keeps is kept. -/
theorem invariant {inv : Runtime → Prop}
    (hstep : ∀ runtime op, inv runtime → kind op → inv (runtime.apply op))
    (h : Moves kind count state next) (hinv : inv state.runtime) : inv next.runtime := by
  obtain ⟨ops, hops, hnext⟩ := h.runtime
  rw [hnext]
  clear hnext h
  generalize state.runtime = runtime at hinv
  induction ops generalizing runtime with
  | nil => exact hinv
  | cons op rest ih =>
      obtain ⟨hop, hrest⟩ := List.forall_mem_cons.mp hops
      exact ih hrest _ (hstep _ _ hinv hop)

theorem interfere (state : FuseState) (other : Interference)
    (hops : ∀ op ∈ other.ops.map Subtype.val, kind op) :
    Moves kind other.idsTaken state (state.interfere other) := by
  refine ⟨⟨_, hops, rfl⟩, fun hbound => ?_⟩
  have hadd : wrappingAdd state.nextReadRequestId other.idsTaken =
      state.nextReadRequestId + other.idsTaken :=
    Nat.mod_eq_of_lt (by unfold u64Max at hbound; omega)
  simp only [FuseState.interfere, hadd]
  omega

theorem newRequest (state : FuseState) (plan : ProviderReadPlan) :
    Moves kind 1 state (state.newRequest plan).2 := by
  refine ⟨⟨[], by simp, rfl⟩, fun hbound => ?_⟩
  have hadd : wrappingAdd state.nextReadRequestId 1 = state.nextReadRequestId + 1 :=
    Nat.mod_eq_of_lt (by unfold u64Max at hbound; omega)
  simp only [FuseState.newRequest, hadd]
  omega

theorem route (state : FuseState) (routing : Routing) (request : ProviderReadRequest)
    (hops : ∀ op ∈ routing.during.ops.map Subtype.val, kind op) :
    Moves kind routing.during.idsTaken state (state.routeProviderRead routing request).2 := by
  rcases (state.routeProviderRead_spec routing request).1 with hsame | hsame <;> rw [hsame]
  · exact refl _ state
  · exact interfere state routing.during hops

theorem record (hrecord : ∀ op : RuntimeOp, op.isRecord → kind op) {request : ProviderReadRequest}
    {bytes : List UInt8} (h : state.recordCachedRead request bytes = .ok next) :
    Moves kind 0 state next := by
  unfold FuseState.recordCachedRead at h
  split at h
  · simp at h
  · rename_i runtime hrecorded
    obtain rfl := Except.ok.inj h
    refine ⟨⟨[.recordCachedRead request.promiseId request.relativePath request.offset bytes],
      ?_, ?_⟩, fun _ => ⟨le_rfl, le_rfl⟩⟩
    · intro op hmem
      rw [List.mem_singleton.mp hmem]
      exact hrecord _ rfl
    · show runtime = state.runtime.orKeep _
      rw [hrecorded]
      rfl

theorem prefetch (hrecord : ∀ op : RuntimeOp, op.isRecord → kind op) (state : FuseState)
    (routing : Routing) (request : ProviderReadRequest) (bytesRead : ℕ)
    (hops : ∀ op ∈ routing.during.ops.map Subtype.val, kind op) :
    Moves kind (1 + routing.during.idsTaken) state
      (state.prefetchAfterProviderRead routing request bytesRead) := by
  unfold prefetchAfterProviderRead
  split
  · exact refl _ state
  split
  · rename_i plan hplan
    have hnew : Moves kind 1 state (state.newRequest plan).2 := newRequest state plan
    have hrouted := hnew.trans (route _ routing (state.newRequest plan).1 hops)
    dsimp only
    generalize (state.newRequest plan).2.routeProviderRead routing (state.newRequest plan).1 =
      result at hrouted
    obtain ⟨_ | response, after⟩ := result
    · exact hrouted
    · dsimp only
      split
      · split
        · rename_i recorded hrecorded
          exact hrouted.trans (record hrecord hrecorded)
        · exact hrouted
      · exact hrouted
  · exact refl _ state

theorem providerRead (hrecord : ∀ op : RuntimeOp, op.isRecord → kind op) (state : FuseState)
    {turn : ReadTurn} (hops : ∀ op ∈ turn.ops, kind op) (request : ProviderReadRequest)
    (responseOffset responseLength : ℕ) :
    Moves kind (turn.ids - 1) state
      (state.providerRead turn request responseOffset responseLength).2 := by
  simp only [ReadTurn.ops, List.map_append, List.forall_mem_append] at hops
  obtain ⟨⟨hmain, hgap⟩, hprefetch⟩ := hops
  have hrouted := route state turn.main request hmain
  unfold FuseState.providerRead ReadTurn.ids
  generalize state.routeProviderRead turn.main request = result at hrouted
  obtain ⟨_ | response, after⟩ := result
  · exact hrouted.mono (by omega)
  · dsimp only
    split
    · split
      · exact hrouted.mono (by omega)
      · rename_i recorded hrecorded
        refine (((hrouted.trans (record hrecord hrecorded)).trans
          (interfere recorded turn.gap hgap)).trans (prefetch hrecord _ turn.prefetch request
            response.bytes.length hprefetch)).mono (by omega)
    · exact hrouted.mono (by omega)

theorem planRead (state : FuseState) (inode offset size : ℕ) :
    Moves kind 1 state (state.planRead inode offset size).2 := by
  unfold FuseState.planRead
  split
  · exact refl _ state
  · exact refl _ state
  · split
    · exact refl _ state
    · exact refl _ state
    · split
      · exact refl _ state
      · rename_i coalesced _
        exact newRequest state coalesced.provider
    · exact refl _ state
    · exact refl _ state

theorem read (hrecord : ∀ op : RuntimeOp, op.isRecord → kind op) (state : FuseState)
    {turn : ReadTurn} (hops : ∀ op ∈ turn.ops, kind op) (inode offset size : ℕ) :
    Moves kind turn.ids state (state.read turn inode offset size).2 := by
  have hplan : Moves kind 1 state _ := planRead state inode offset (min size maxProviderReadLen)
  have hone : 1 ≤ turn.ids := by
    unfold ReadTurn.ids
    omega
  unfold FuseState.read
  generalize state.planRead inode offset (min size maxProviderReadLen) = result at hplan
  obtain ⟨_ | _ | plan, next⟩ := result
  · exact hplan.mono hone
  · exact hplan.mono hone
  · cases plan with
    | provider request responseOffset responseLength =>
        exact (hplan.trans (providerRead hrecord next hops request responseOffset
          responseLength)).mono (by omega)
    | materialized => exact hplan.mono hone
    | cached => exact hplan.mono hone

theorem run (hrecord : ∀ op : RuntimeOp, op.isRecord → kind op) (state : FuseState)
    {events : List Event} (hops : ∀ event ∈ events, ∀ op ∈ event.ops, kind op) :
    Moves kind (events.map Event.ids).sum state (state.run events) := by
  induction events generalizing state with
  | nil => exact refl _ state
  | cons event rest ih =>
      obtain ⟨hevent, hrest⟩ := List.forall_mem_cons.mp hops
      rw [List.map_cons, List.sum_cons]
      refine trans ?_ (ih (state.apply event) hrest)
      cases event with
      | read turn inode offset size => exact read hrecord state hevent inode offset size
      | other interference => exact interfere state interference hevent

end Moves

end FuseState

/-! ## A file that can be read -/

/-- What a stored node of a runtime becomes: its copy may change, and only by a mark. -/
theorem Runtime.Effect.stored {runtime next : Runtime} {op : RuntimeOp} (hwf : runtime.WellFormed)
    (h : Effect runtime op next) {promiseId path : Text} {node : PromiseNode}
    (hnode : runtime.Stores promiseId path node) :
    ∃ later, next.Stores promiseId path later ∧ withoutCopy later = withoutCopy node ∧
      (later = node ∨ ∃ relativePath copy, op = .markNodeMaterialized promiseId relativePath copy ∧
        normalizeRelativePath relativePath = .ok path ∧ later.materializedPath = some copy) := by
  by_cases hmark : op.isMark = false
  · exact ⟨node, (h.grows hwf hmark).forth hnode, rfl, Or.inl rfl⟩
  cases h with
  | keep => exact ⟨node, hnode, rfl, Or.inl rfl⟩
  | @mark markedId relativePath copy _ hnext =>
      obtain ⟨markedPath, marked, hnormal, hmarked, -, rfl⟩ := markNodeMaterialized_eq_ok hnext
      obtain ⟨tree, htree, hnode⟩ := hnode
      by_cases hid : markedId = promiseId
      · subst hid
        obtain rfl : marked = tree := Option.some.inj (hmarked.symm.trans htree)
        by_cases hpath : markedPath = path
        · subst hpath
          refine ⟨{ node with materializedPath := some copy },
            ⟨_, Std.ExtTreeMap.getElem?_insert_self, ?_⟩, rfl,
            Or.inr ⟨relativePath, copy, rfl, hnormal, rfl⟩⟩
          simp [hnode]
        · refine ⟨node, ⟨_, Std.ExtTreeMap.getElem?_insert_self, ?_⟩, rfl, Or.inl rfl⟩
          simp [Std.ExtTreeMap.getElem?_modify, hpath, hnode]
      · refine ⟨node, ⟨tree, ?_, hnode⟩, rfl, Or.inl rfl⟩
        simp [Std.ExtTreeMap.getElem?_insert, hid, htree]
  | _ => simp [RuntimeOp.isMark] at hmark

/-- A file, the provider it is promised by, and the paths of complete copies of it. -/
structure Offer where
  promiseId : Text
  providerId : ProviderId
  node : PromiseNode
  copies : Set Text

namespace Offer

/-- Neither takes the provider away nor points the file to something that is no copy.  Other
files of the promise may be pointed anywhere. -/
def Spares (offer : Offer) : RuntimeOp → Prop
  | .unregisterProvider providerId => providerId ≠ offer.providerId
  | .markNodeMaterialized promiseId relativePath path =>
      promiseId = offer.promiseId →
        normalizeRelativePath relativePath = .ok offer.node.relativePath → path ∈ offer.copies
  | _ => True

/-- The file is stored as it was offered, and its provider is live. -/
structure Holds (offer : Offer) (runtime : Runtime) : Prop where
  reached : ∃ calls, runtime = new.performAll calls
  live : runtime.hasProvider offer.providerId = true
  stored : ∃ tree node, runtime.promises[offer.promiseId]? = some tree ∧
    tree.providerId = offer.providerId ∧ tree.nodes[offer.node.relativePath]? = some node ∧
    withoutCopy node = withoutCopy offer.node ∧
    ∀ path, node.materializedPath = some path → path ∈ offer.copies

variable {offer : Offer} {runtime : Runtime}

theorem Holds.wellFormed (h : offer.Holds runtime) : runtime.WellFormed := by
  obtain ⟨calls, rfl⟩ := h.reached
  exact (reachable_spec calls).1

theorem Holds.apply (h : offer.Holds runtime) {op : RuntimeOp} (hop : offer.Spares op) :
    offer.Holds (runtime.apply op) := by
  have hwf := h.wellFormed
  obtain ⟨calls, hcalls⟩ := h.reached
  have heffect := runtime.effect_apply op
  obtain ⟨tree, node, htree, hprovider, hnode, hsame, hcopies⟩ := h.stored
  refine ⟨⟨calls ++ [.op op], ?_⟩, ?_, ?_⟩
  · rw [hcalls, performAll, performAll, List.foldl_append]
    rfl
  · have hserves : runtime.Serves offer.providerId := by
      refine ⟨h.live, fun {promiseId tree} htree howner => ?_⟩
      have htracked : runtime.Tracked := hcalls ▸ tracked_performAll calls
      exact (htracked promiseId tree htree).mpr (howner ▸ h.live)
    refine (heffect.serves hserves ?_ (hwf.provider (mem_of_hasProvider h.live)).2.ne).live
    rintro rfl
    exact hop rfl
  · obtain ⟨later, hlater, hpersists⟩ := heffect.persists hwf htree
    obtain ⟨found, ⟨tree', htree', hfound⟩, hkept, hcopy⟩ :=
      heffect.stored hwf ⟨tree, htree, hnode⟩
    obtain rfl : later = tree' := Option.some.inj (hlater.symm.trans htree')
    refine ⟨later, found, hlater, hpersists.providerId.trans hprovider, hfound,
      hkept.trans hsame, ?_⟩
    intro path hpath
    rcases hcopy with rfl | ⟨relativePath, copy, rfl, hnormal, hmarked⟩
    · exact hcopies path hpath
    · obtain rfl := Option.some.inj (hmarked.symm.trans hpath)
      exact hop rfl hnormal

/-- What a read does to the rest of the state leaves the file where it is. -/
theorem Holds.moves {state next : FuseState} {count : ℕ} (h : offer.Holds state.runtime)
    (hmoves : FuseState.Moves offer.Spares count state next) : offer.Holds next.runtime :=
  hmoves.invariant (fun _ _ h hop => h.apply hop) h

theorem spares_record (offer : Offer) (op : RuntimeOp) (h : op.isRecord) : offer.Spares op := by
  cases op with
  | recordCachedRead => trivial
  | _ => simp [RuntimeOp.isRecord] at h

/-! ## One read -/

def key (offer : Offer) : CacheKey :=
  ⟨offer.promiseId, offer.node.relativePath⟩

def size (offer : Offer) : ℕ :=
  offer.node.attr.size.toNat

/-- A file whose requests pass their checks, wherever they are widened to. -/
structure Askable (offer : Offer) (policy : CachePolicy) : Prop where
  file : offer.node.kind = .file
  noNul : Char.ofNat 0 ∉ offer.node.providerNodeId
  chunk : ∀ chunkSize, policy.chunkSize = some chunkSize →
    chunkSize ≤ maxProviderReadLen ∧ offer.size + chunkSize ≤ u64Max

/-- During the read the file stays, the provider answers, and a copy holds the whole file.
Without a cache an answer may be short; a widened request has to be answered in full. -/
structure Answers (offer : Offer) (content : Content) (policy : CachePolicy) (turn : ReadTurn) :
    Prop where
  spares : ∀ op ∈ turn.ops, offer.Spares op
  main : ∃ count : ProviderReadRequest → ℕ, turn.main.answer = answering content count ∧
    (∀ request, count request ≤ request.length) ∧
    (∀ request, 0 < request.length → 0 < count request) ∧
    ∀ chunkSize, policy.chunkSize = some chunkSize → ∀ request, count request = request.length
  prefetch : turn.prefetch.Honest content
  copy : ∀ path ∈ offer.copies,
    turn.openFile path = .ok (slice (content offer.key) 0 offer.size)

variable {content : Content} {policy : CachePolicy} {state : FuseState} {turn : ReadTurn}
  {tree : PromiseTree} {node : PromiseNode} {position length : ℕ}

theorem Answers.honest (h : offer.Answers content policy turn) : turn.Honest content := by
  obtain ⟨count, hanswer, hcount, -⟩ := h.main
  have hmain := answering_honest content hcount turn.main.during
  rw [← hanswer] at hmain
  exact ⟨hmain, h.prefetch⟩

/-- A stretch of a complete copy. -/
theorem readMaterializedFile_of_copy {openFile : Text → IoResult (List UInt8)} {path : Text}
    {f : ℕ → UInt8} {size offset length : ℕ} (hopen : openFile path = .ok (slice f 0 size))
    (hfits : offset + length ≤ size) :
    FuseState.readMaterializedFile openFile path offset length = .ok (slice f offset length) := by
  have hcut : ((slice f 0 size).drop offset).take length = slice f offset length := by
    rw [drop_slice _ _ _ _ (by omega), take_slice _ _ _ _ (by omega), Nat.zero_add]
  simp [FuseState.readMaterializedFile, hopen, hcut]

/-- What the mount finds under the inode of the file. -/
structure Found (offer : Offer) (runtime : Runtime) (tree : PromiseTree) (node : PromiseNode) :
    Prop where
  promise : runtime.promises[offer.promiseId]? = some tree
  stored : tree.nodes[node.relativePath]? = some node
  entry : runtime.lookupInode offer.node.inode = .ok (.promiseNode offer.promiseId node)
  live : runtime.hasProvider tree.providerId = true
  key : (⟨offer.promiseId, node.relativePath⟩ : CacheKey) = offer.key
  kind : node.kind = offer.node.kind
  size : node.attr.size.toNat = offer.size
  providerNodeId : node.providerNodeId = offer.node.providerNodeId
  copies : ∀ path, node.materializedPath = some path → path ∈ offer.copies

theorem Holds.found (h : offer.Holds runtime) : ∃ tree node, offer.Found runtime tree node := by
  obtain ⟨calls, rfl⟩ := h.reached
  obtain ⟨hwf, hids⟩ := reachable_spec calls
  obtain ⟨tree, node, htree, hprovider, hnode, hsame, hcopies⟩ := h.stored
  simp only [withoutCopy, PromiseNode.mk.injEq] at hsame
  obtain ⟨-, hinode, hpath, -, -, hid, -, hkind, hattr⟩ := hsame
  have hentry := Stores.lookupInode hwf hids ⟨tree, htree, hnode⟩
  rw [hinode] at hentry
  refine ⟨tree, node, htree, hpath ▸ hnode, hentry, hprovider ▸ h.live, ?_, hkind, ?_, hid,
    hcopies⟩
  · rw [hpath, key]
  · rw [hattr, size]

/-- The runtime's plan for a read before the end of the file. -/
theorem Found.planRead (hfound : offer.Found runtime tree node) (hwf : runtime.WellFormed)
    (hfile : offer.node.kind = .file) (hposition : position < offer.size) (hlength : 0 < length)
    (hmax : length ≤ maxProviderReadLen) :
    runtime.planRead offer.promiseId node.relativePath position length =
      match node.materializedPath with
      | some path => .ok (.materialized ⟨path, position, min length (offer.size - position)⟩)
      | none =>
          match runtime.cachedRead offer.promiseId node.relativePath position
              (min length (offer.size - position)) with
          | some bytes => .ok (.cached bytes)
          | none => do
              let plan ← runtime.planProviderRead offer.promiseId node.relativePath position
                (min length (offer.size - position))
              return .request plan := by
  rw [← hfound.size] at hposition ⊢
  exact planRead_eq (hwf.fileNode_of_stored hfound.promise hfound.stored (hfound.kind.trans hfile))
    hlength hposition (clampLength_inside hposition (hmax.trans (by decide)))

/-- A read that neither the copy nor the cache can serve gets some bytes from the provider. -/
theorem Found.read_asks (hfound : offer.Found state.runtime tree node)
    (h : offer.Holds state.runtime) (hask : offer.Askable policy)
    (hagrees : CacheAgrees content policy state.runtime) (hid : state.nextReadRequestId ≠ 0)
    (hanswers : offer.Answers content policy turn) (hposition : position < offer.size)
    (hlength : 0 < length) (hcopy : node.materializedPath = none)
    (hcached : state.runtime.cachedRead offer.promiseId node.relativePath position
      (min (min length maxProviderReadLen) (offer.size - position)) = none) :
    ∃ bytes, (state.read turn offer.node.inode position length).1 = .ok bytes ∧ bytes ≠ [] := by
  obtain ⟨calls, hcalls⟩ := h.reached
  have hwf := h.wellFormed
  have hkind := hfound.kind.trans hask.file
  have hfile := hwf.fileNode_of_stored hfound.promise hfound.stored hkind
  have hword := toNat_le_u64Max node.attr.size
  have hpromise : tree.promiseId = offer.promiseId := (hwf.fileNode hfile).1
  have hpositive : 0 < min length maxProviderReadLen := lt_min hlength (by decide)
  have hmax : min length maxProviderReadLen ≤ maxProviderReadLen := Nat.min_le_right _ _
  rw [← hfound.size] at hposition hcached
  have hplan := planRead_request hwf (hcalls ▸ tracked_performAll calls) hfound.promise
    hfound.stored
    hkind hfound.live hcopy hcached hposition hpositive (hmax.trans (by decide))
  set clamped := min (min length maxProviderReadLen) (node.attr.size.toNat - position)
    with hclamped
  obtain ⟨body, hbody⟩ := (exists_intoBody_plan_iff hwf (hcalls ▸ declared_performAll calls)
    hfound.promise hfound.stored hkind hfound.live hid position clamped (by omega) (by omega)
    (by omega)).mpr (hfound.providerNodeId ▸ hask.noNul)
  obtain ⟨count, hanswer, hcount, hsome, hfull⟩ := hanswers.main
  cases hpolicy : policy.chunkSize with
  | none =>
      have hcoalesced : state.runtime.planCoalescedProviderRead
          (providerPlan tree node position clamped) =
            .ok ⟨providerPlan tree node position clamped, 0, clamped⟩ := by
        simp [planCoalescedProviderRead, hagrees.cachePolicy, hpolicy, providerPlan]
      rw [FuseState.read_of_answering hwf hanswer hcount hfound.entry hplan hcoalesced hbody
        (show state.runtime.fileNode tree.promiseId node.relativePath = _ from hpromise ▸ hfile)
        (show position + clamped ≤ _ by omega)]
      exact (FuseState.providerReplyBytes_serves (hsome _ (show 0 < clamped by omega))
        (show 0 < clamped by omega) (show 0 + clamped ≤ u64Max by omega)).mpr (Or.inl rfl)
  | some chunkSize =>
      obtain ⟨hchunkMax, hchunkEnd⟩ := hask.chunk chunkSize hpolicy
      have hchunkPos := CachePolicy.chunkSize_pos hpolicy
      have hlow := chunkBase_le position chunkSize
      -- the widened request is answered in full, so the reply ends inside the answer
      refine (FuseState.read_of_miss hwf hchunkPos hchunkMax
        (by rw [hagrees.cachePolicy, hpolicy]) hcount hsome hanswer hfound.entry hfile hplan
        (by omega) (by omega) hbody).mpr ⟨by have := hfound.size; omega, ?_⟩
      rw [hfull chunkSize hpolicy]
      show _ ∨ _ ∨ _ ≤ min chunkSize (node.attr.size.toNat - chunkBase position chunkSize)
      omega

/-- A read before the end of the file returns the next bytes of its content. -/
theorem Holds.read_serves (h : offer.Holds state.runtime) (hask : offer.Askable policy)
    (hagrees : CacheAgrees content policy state.runtime) (hid : state.nextReadRequestId ≠ 0)
    (hanswers : offer.Answers content policy turn) (hposition : position < offer.size)
    (hlength : 0 < length) :
    ∃ count, 0 < count ∧ position + count ≤ offer.size ∧
      (state.read turn offer.node.inode position length).1 =
        .ok (slice (content offer.key) position count) := by
  obtain ⟨tree, node, hfound⟩ := h.found
  have hpositive : 0 < min length maxProviderReadLen := lt_min hlength (by decide)
  have hplan := hfound.planRead h.wellFormed hask.file hposition hpositive (Nat.min_le_right _ _)
  set clamped := min (min length maxProviderReadLen) (offer.size - position) with hclamped
  cases hcopy : node.materializedPath with
  | some path =>
      simp only [hcopy] at hplan
      refine ⟨clamped, by omega, by omega, ?_⟩
      rw [FuseState.read_of_materialized hfound.entry hplan]
      exact readMaterializedFile_of_copy (hanswers.copy path (hfound.copies path hcopy))
        (show position + clamped ≤ offer.size by omega)
  | none =>
  cases hcached : state.runtime.cachedRead offer.promiseId node.relativePath position clamped with
  | some bytes =>
      simp only [hcopy, hcached] at hplan
      refine ⟨clamped, by omega, by omega, ?_⟩
      rw [FuseState.read_of_cached hfound.entry hplan, hagrees.holds.cachedRead (by omega) hcached,
        hfound.key]
  | none =>
      -- the provider is asked, and any bytes that come back are the right ones
      obtain ⟨bytes, hreply, hne⟩ := hfound.read_asks h hask hagrees hid hanswers hposition
        hlength hcopy hcached
      obtain ⟨hbytes, hshort⟩ :=
        FuseState.agrees_read_reply hagrees hanswers.honest.1 hfound.entry hcopy hreply
      have hpos := List.length_pos_iff.mpr hne
      have hsize := hfound.size
      refine ⟨bytes.length, hpos, by omega, ?_⟩
      rw [hreply, ← hfound.key, ← hbytes]

/-- At the end of the file a read returns nothing. -/
theorem Holds.read_ends (h : offer.Holds state.runtime) (hfile : offer.node.kind = .file)
    (hposition : offer.size ≤ position) :
    (state.read turn offer.node.inode position length).1 = .ok [] := by
  obtain ⟨tree, node, hfound⟩ := h.found
  have hnode := h.wellFormed.fileNode_of_stored hfound.promise hfound.stored
    (hfound.kind.trans hfile)
  have hplan : state.runtime.planRead offer.promiseId node.relativePath position
      (min length maxProviderReadLen) = .ok .eof := by
    rw [← hfound.size] at hposition
    simp [Runtime.planRead, hnode, hposition, bind, Except.bind, pure, Except.pure]
  simp [FuseState.read, FuseState.planRead, hfound.entry, hplan]

end Offer

/-! ## Reading on -/

/-- A read of the program, with what happens since its last one. -/
structure Visit where
  before : List FuseState.Event
  turn : ReadTurn
  length : ℕ

/-- A bound on the request ids that are taken. -/
def Visit.ids (visit : Visit) : ℕ :=
  (visit.before.map FuseState.Event.ids).sum + visit.turn.ids

namespace FuseState

/-- The program reads on where its last read ended, until a read returns nothing or fails.
It ends with the bytes it got, and with whether it has seen the end.  A file of the mount is
opened for direct I/O, so each of its reads is one of the mount's. -/
def readOn (state : FuseState) (inode position : ℕ) :
    List Visit → Except Errno (List UInt8 × Bool)
  | [] => .ok ([], false)
  | visit :: rest =>
      match (state.run visit.before).read visit.turn inode position visit.length with
      | (.error errno, _) => .error errno
      | (.ok bytes, next) =>
          if bytes = [] then .ok ([], true)
          else do
            let (later, ended) ← readOn next inode (position + bytes.length) rest
            return (bytes ++ later, ended)

end FuseState

namespace Offer

variable {offer : Offer} {content : Content} {policy : CachePolicy} {state : FuseState}
  {position : ℕ}

/-- The file stays while the program is away, and its next read is answered. -/
structure Welcomes (offer : Offer) (content : Content) (policy : CachePolicy) (visit : Visit) :
    Prop where
  honest : ∀ event ∈ visit.before, event.Honest content
  spares : ∀ event ∈ visit.before, ∀ op ∈ event.ops, offer.Spares op
  answers : offer.Answers content policy visit.turn
  length : 0 < visit.length

/-- The program gets the rest of the file if it reads on for long enough: the number of bytes
that are left falls with every read. -/
theorem Holds.readOn_rest (hask : offer.Askable policy) {visits : List Visit}
    (hvisits : ∀ visit ∈ visits, offer.Welcomes content policy visit)
    (h : offer.Holds state.runtime) (hagrees : CacheAgrees content policy state.runtime)
    (hid : 0 < state.nextReadRequestId)
    (hids : state.nextReadRequestId + (visits.map Visit.ids).sum ≤ u64Max)
    (hposition : position ≤ offer.size) (hlong : offer.size - position < visits.length) :
    state.readOn offer.node.inode position visits =
      .ok (slice (content offer.key) position (offer.size - position), true) := by
  -- on the visits, with fewer bytes left than visits
  induction visits generalizing state position with
  | nil => simp at hlong
  | cons visit rest ih =>
      obtain ⟨hvisit, hrest⟩ := List.forall_mem_cons.mp hvisits
      rw [List.map_cons, List.sum_cons, Visit.ids] at hids
      have haway := FuseState.Moves.run offer.spares_record state hvisit.spares
      have hawayIds := haway.ids (by omega)
      have hready := h.moves haway
      have hagreed := FuseState.agrees_run state hagrees visit.before hvisit.honest
      unfold FuseState.readOn
      set ready := state.run visit.before
      have hread := FuseState.Moves.read offer.spares_record ready hvisit.answers.spares
        offer.node.inode position visit.length
      have hreadIds := hread.ids (by omega)
      have hnext := hready.moves hread
      have hnextAgrees := FuseState.agrees_read hagreed hvisit.answers.honest offer.node.inode
        position visit.length
      rcases hposition.lt_or_eq with hbefore | rfl
      · -- at least one byte comes back, so one visit fewer is still enough for the rest
        obtain ⟨count, hcount, hfits, hreply⟩ := hready.read_serves hask hagreed (by omega)
          hvisit.answers hbefore hvisit.length
        generalize ready.read visit.turn offer.node.inode position visit.length = result at *
        obtain ⟨reply, next⟩ := result
        obtain rfl : reply = _ := hreply
        have hlater := ih hrest hnext hnextAgrees (by omega) (by omega)
          (show position + count ≤ offer.size from hfits)
          (by rw [List.length_cons] at hlong; omega)
        have hne : slice (content offer.key) position count ≠ [] := by
          rw [← List.length_pos_iff, length_slice]
          exact hcount
        have hsplit : offer.size - position = count + (offer.size - (position + count)) := by omega
        simp only [if_neg hne, length_slice, hlater]
        rw [hsplit, ← slice_append]
        rfl
      · -- nothing is left, and this read sees the end
        have hreply : (ready.read visit.turn offer.node.inode offer.size visit.length).1 = .ok [] :=
          hready.read_ends hask.file le_rfl
        generalize ready.read visit.turn offer.node.inode offer.size visit.length = result at *
        obtain ⟨reply, next⟩ := result
        obtain rfl : reply = _ := hreply
        simp

end Offer

namespace FuseState

/-- Whatever was read and committed before, and whatever happens between and during its reads
as long as the file stays: a program that reads a file from its beginning gets the content of
the file and then its end, after at most one read more than the file has bytes. -/
theorem reader_gets_whole_file {content : Content} {policy : CachePolicy} {start : Runtime}
    (hstart : withCachePolicy policy = .ok start) {events : List Event}
    (hevents : ∀ event ∈ events, event.Honest content) {offer : Offer} {tree : PromiseTree}
    (htree : ((initial start).run events).runtime.promises[offer.promiseId]? = some tree)
    (hnode : tree.nodes[offer.node.relativePath]? = some offer.node)
    (hprovider : tree.providerId = offer.providerId)
    (hlive : ((initial start).run events).runtime.hasProvider offer.providerId = true)
    (hcopies : ∀ path, offer.node.materializedPath = some path → path ∈ offer.copies)
    (hask : offer.Askable policy) {visits : List Visit}
    (hvisits : ∀ visit ∈ visits, offer.Welcomes content policy visit)
    (hids : 1 + (events.map Event.ids).sum + (visits.map Visit.ids).sum ≤ u64Max)
    (hlong : offer.size < visits.length) :
    ((initial start).run events).readOn offer.node.inode 0 visits =
      .ok (slice (content offer.key) 0 offer.size, true) := by
  have hmoves : Moves (fun _ => True) _ (initial start) ((initial start).run events) :=
    Moves.run (fun _ _ => trivial) _ fun _ _ _ _ => trivial
  have hcounter := hmoves.ids (show 1 + _ ≤ u64Max by omega)
  have hone : (initial start).nextReadRequestId = 1 := rfl
  have hreached : ∃ calls, ((initial start).run events).runtime = new.performAll calls := by
    obtain ⟨ops, -, hnext⟩ := hmoves.runtime
    refine ⟨.setCachePolicy policy :: ops.map .op, ?_⟩
    have hfirst : new.perform (.setCachePolicy policy) = start := by
      show new.orKeep (withCachePolicy policy) = start
      rw [hstart]
      rfl
    rw [hnext, performAll, List.foldl_cons, hfirst, List.foldl_map]
    rfl
  exact Offer.Holds.readOn_rest hask hvisits
    ⟨hreached, hlive, tree, offer.node, htree, hprovider, hnode, rfl, hcopies⟩
    (agrees_run (initial start) (CacheAgrees.start hstart) events hevents) (by omega) (by omega)
    (Nat.zero_le _) hlong

/-- A file of three bytes whose provider answers one byte at a time, and which is copied to
the target filesystem after the first read. -/
theorem reader_gets_three_bytes :
    let counting : Content := fun _ i => UInt8.ofNat i
    let quiet : Interference := ⟨[], 0⟩
    let oneByte : Routing := ⟨quiet, answering counting fun request => min 1 request.length⟩
    let turn : ReadTurn := ⟨oneByte, quiet, oneByte, fun _ => .ok [0, 1, 2]⟩
    let copied : Event := .other ⟨[⟨.markNodeMaterialized "promise-1".toList "a".toList
      "/copy".toList, rfl⟩], 0⟩
    ((initial Runtime.new).run [.other ⟨[⟨.registerProvider, rfl⟩,
        ⟨.commitPromise 1 [⟨"a".toList, "n".toList, .file, ⟨0o644, 3, 0⟩⟩], rfl⟩], 0⟩]).readOn 3 0
      [⟨[], turn, 2⟩, ⟨[copied], turn, 1⟩, ⟨[], turn, 9⟩, ⟨[], turn, 9⟩] =
        .ok ([0, 1, 2], true) := by
  intro counting quiet oneByte turn copied
  let offer : Offer := ⟨"promise-1".toList, 1, ⟨2, 3, "a".toList, some [], "a".toList, "n".toList,
    none, .file, ⟨0o644, 3, 0⟩⟩, {"/copy".toList}⟩
  have hone : ∀ request : ProviderReadRequest, min 1 request.length ≤ request.length :=
    fun request => min_le_right _ _
  have hanswers : offer.Answers counting .noCache turn := by
    refine ⟨by simp [turn, ReadTurn.ops, oneByte, quiet], ⟨_, rfl, hone, ?_, ?_⟩,
      answering_honest counting hone quiet, fun _ _ => rfl⟩
    · intro request hpos
      omega
    · intro chunkSize hpolicy
      simp [CachePolicy.chunkSize] at hpolicy
  have hvisits : ∀ visit ∈ [⟨[], turn, 2⟩, ⟨[copied], turn, 1⟩, ⟨[], turn, 9⟩, ⟨[], turn, 9⟩],
      offer.Welcomes counting .noCache visit := by
    intro visit hmem
    simp only [List.mem_cons, List.not_mem_nil, or_false] at hmem
    rcases hmem with rfl | rfl | rfl | rfl
    · exact ⟨by simp, by simp, hanswers, by decide⟩
    · refine ⟨by simp [copied, Event.Honest], ?_, hanswers, by decide⟩
      intro event hevent op hop
      obtain rfl := List.mem_singleton.mp hevent
      obtain rfl := List.mem_singleton.mp hop
      exact fun _ _ => rfl
    · exact ⟨by simp, by simp, hanswers, by decide⟩
    · exact ⟨by simp, by simp, hanswers, by decide⟩
  have hask : offer.Askable .noCache := by
    refine ⟨rfl, by decide, ?_⟩
    intro chunkSize hpolicy
    simp [CachePolicy.chunkSize] at hpolicy
  have hstart : withCachePolicy .noCache = .ok Runtime.new := rfl
  set state := (initial Runtime.new).run [.other ⟨[⟨.registerProvider, rfl⟩,
    ⟨.commitPromise 1 [⟨"a".toList, "n".toList, .file, ⟨0o644, 3, 0⟩⟩], rfl⟩], 0⟩]
  obtain ⟨tree, htree, hnode, hprovider⟩ : ∃ tree,
      state.runtime.promises[offer.promiseId]? = some tree ∧
      tree.nodes[offer.node.relativePath]? = some offer.node ∧
      tree.providerId = offer.providerId := ⟨_, rfl, rfl, rfl⟩
  exact reader_gets_whole_file hstart (by simp [Event.Honest]) htree hnode hprovider (by decide)
    (by simp [offer]) hask hvisits (by decide) (by decide)

end FuseState

end FusePromise
