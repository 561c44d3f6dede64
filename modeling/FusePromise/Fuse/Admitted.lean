import FusePromise.Fuse.Adapter
import FusePromise.Ipc.Commit
import FusePromise.Runtime.Directory
import FusePromise.Runtime.Lifecycle

/-!
# What is admitted can be asked for

A commit checks what it is given, and a read request is checked again before it
is sent.  The two sets of checks differ in two points.  A commit accepts a
provider node id with a NUL character, which no request may contain.  And in
read-through mode a read is widened to its chunk, whose end must be a 64-bit
word, also where the file itself ends before it.  Apart from these two, every
file that was committed can be asked for at every offset.
-/

namespace FusePromise

open Machine FusePromise.Runtime

namespace Runtime

/-- Every node below a root has a provider node id. -/
def Declared (runtime : Runtime) : Prop :=
  ∀ (promiseId path : Text) (node : PromiseNode), runtime.Stores promiseId path node →
    path ≠ [] → node.providerNodeId ≠ []

theorem Declared.of_samePromises {runtime next : Runtime} (h : runtime.Declared)
    (hsame : SamePromises runtime next) : next.Declared := by
  intro promiseId path node hnode hne
  obtain ⟨old, hold, heq⟩ := hsame.stores hnode
  have hcore : old.core = node.core :=
    show (withoutCopy old).core = (withoutCopy node).core by rw [heq]
  obtain ⟨-, -, -, hid, -, -⟩ := PromiseNode.core_fields hcore
  exact hid ▸ h promiseId path old hold hne

theorem declared_performAll (calls : List RuntimeCall) : (new.performAll calls).Declared := by
  refine performAll_invariant (fun runtime call hwf hids h => ?_) ?_ calls
  · rcases runtime.perform_cases call with ⟨op, heffect⟩ | ⟨cachePolicy, hnext⟩
    · rcases heffect.samePromises with
        hsame | ⟨providerId, nodes, builder, tree, hbuilder, hresult, hnext⟩
      · exact h.of_samePromises hsame
      · intro promiseId path node hnode hne
        rw [hnext, stores_commitPromise hresult] at hnode
        split at hnode
        · -- the builder refused a node without an id
          obtain ⟨-, -, -, -, -, hnodes, -⟩ :=
            (commitPromise_spec runtime builder).2 tree hresult
          have hsame := hnodes path
          rw [hnode, Option.map_some] at hsame
          obtain ⟨built, hbuilt, heq⟩ := Option.map_eq_some_iff.mp hsame.symm
          have hcore : built.core = node.core :=
            show (PromiseNode.withoutIds built).core = (PromiseNode.withoutIds node).core by
              rw [heq]
          obtain ⟨-, -, -, hid, -, -⟩ := PromiseNode.core_fields hcore
          exact hid ▸ PromiseBuilder.addNodes_invariant PromiseBuilder.declared_addNode
            (PromiseBuilder.declared_new providerId) hbuilder path built hbuilt hne
        · exact h promiseId path node hnode hne
    · exact h.of_samePromises (samePromises_setCachePolicy hnext)
  · rintro promiseId path node ⟨tree, htree, -⟩
    simp [new] at htree

theorem tracked_performAll (calls : List RuntimeCall) : (new.performAll calls).Tracked := by
  refine performAll_invariant (fun runtime call hwf _ h => ?_) ?_ calls
  · rcases runtime.perform_cases call with ⟨op, heffect⟩ | ⟨cachePolicy, hnext⟩
    · exact h.effect hwf heffect
    · obtain ⟨-, hpromises, hproviders, -⟩ := setCachePolicy_eq_ok hnext
      intro promiseId tree htree
      rw [hpromises] at htree
      rw [hasProvider_congr hproviders]
      exact h promiseId tree htree
  · intro promiseId tree htree
    simp [new] at htree

end Runtime

/-- A request whose other fields are right is refused only for a NUL character. -/
theorem exists_intoBody_iff {request : ProviderReadRequest} (hid : request.requestId ≠ 0)
    (hprovider : request.providerId ≠ 0) (hpromise : NormalName request.promiseId)
    (hnode : request.providerNodeId ≠ [])
    (hpath : normalizeRelativePath request.relativePath = .ok request.relativePath)
    (hpos : 0 < request.length) (hlength : request.length ≤ maxProviderReadLen)
    (hend : request.offset + request.length ≤ u64Max) :
    (∃ body, request.intoBody = .ok body) ↔ Char.ofNat 0 ∉ request.providerNodeId := by
  simp only [ProviderReadRequest.intoBody_eq_ok, validateToken_eq_ok]
  constructor
  · rintro ⟨_, -, -, -, -, ⟨-, hnul⟩, -⟩
    exact hnul
  · intro hnul
    exact ⟨_, ⟨_, hpath, rfl⟩, hid, hprovider, ⟨hpromise.ne_nil, hpromise.no_nul⟩, ⟨hnode, hnul⟩,
      hpos, hlength, hend⟩

/-- The mount plans a provider request, and the request passes its own checks. -/
def Asks (state : FuseState) (inode offset size : ℕ) : Prop :=
  ∃ request responseOffset responseLength next body,
    state.planRead inode offset size =
      (.ok (some (.provider request responseOffset responseLength)), next) ∧
    request.intoBody = .ok body

section Asks

variable {runtime : Runtime} (hwf : runtime.WellFormed) (hids : runtime.Identified)
  (htracked : runtime.Tracked) (hdeclared : runtime.Declared) {promiseId path : Text}
  {tree : PromiseTree} {node : PromiseNode} {offset length requestId : ℕ}
  (htree : runtime.promises[promiseId]? = some tree) (hnode : tree.nodes[path]? = some node)
  (hkind : node.kind = .file) (hlive : runtime.hasProvider tree.providerId = true)

include hwf htree hnode

include htracked hkind hlive in
/-- What the runtime plans for a read that neither the copy nor the cache can serve. -/
theorem planRead_request (hcopy : node.materializedPath = none)
    (hcached : runtime.cachedRead promiseId node.relativePath offset
      (min length (node.attr.size.toNat - offset)) = none)
    (hoffset : offset < node.attr.size.toNat) (hpos : 0 < length) (hlength : length ≤ u32Max) :
    runtime.planRead promiseId node.relativePath offset length =
      .ok (.request
        (providerPlan tree node offset (min length (node.attr.size.toNat - offset)))) := by
  obtain ⟨rfl, -⟩ := (hwf.shape htree).2.path hnode
  have hfile := hwf.fileNode_of_stored htree hnode hkind
  have hclamp := clampLength_inside hoffset
    ((Nat.min_le_left length (node.attr.size.toNat - offset)).trans hlength)
  rw [min_assoc, min_self] at hclamp
  have hprovider : runtime.planProviderRead promiseId node.relativePath offset
      (min length (node.attr.size.toNat - offset)) =
      .ok (providerPlan tree node offset (min length (node.attr.size.toNat - offset))) :=
    planProviderRead_eq_ok.mpr ⟨tree, node, _, hfile, by omega, hoffset, hclamp,
      liveProvider_eq_ok.mpr ⟨(htracked _ _ htree).mpr hlive, hlive, rfl⟩, rfl⟩
  rw [planRead_eq hfile hpos hoffset (clampLength_inside hoffset hlength)]
  simp only [hcopy, hcached, hprovider]
  rfl

include hdeclared hkind hlive in
/-- A request for a stretch of the file. -/
theorem exists_intoBody_plan_iff (hid : requestId ≠ 0) (start len : ℕ) (hpos : 0 < len)
    (hlength : len ≤ maxProviderReadLen) (hend : start + len ≤ u64Max) :
    (∃ body, ((⟨runtime, requestId⟩ : FuseState).newRequest
        (providerPlan tree node start len)).1.intoBody = .ok body) ↔
      Char.ofNat 0 ∉ node.providerNodeId := by
  obtain ⟨hpromise, hshape⟩ := hwf.shape htree
  obtain ⟨rfl, -⟩ := hshape.path hnode
  obtain ⟨raw, -, hname⟩ := hwf.named (BTreeMap.mem_of_getElem? htree)
  have hne : node.relativePath ≠ [] := by
    -- the root is no file
    intro hnil
    obtain ⟨root, hroot, hdirectory, -⟩ := hshape.root
    rw [hnil] at hnode
    obtain rfl : root = node := Option.some.inj (hroot.symm.trans hnode)
    simp [hkind] at hdirectory
  refine exists_intoBody_iff hid ?_ ?_ ?_ ?_ hpos hlength hend
  · exact (hwf.provider (mem_of_hasProvider hlive)).1.ne'
  · show NormalName tree.promiseId
    rw [hpromise, hname]
    exact normalName_promiseName raw
  · exact hdeclared promiseId _ node ⟨tree, htree, hnode⟩ hne
  · exact hshape.normalize (BTreeMap.mem_of_getElem? hnode)

include hids in
/-- The mount asks for a planned read if its request passes the checks once it is widened. -/
theorem asks_iff_coalesced {plan : ProviderReadPlan}
    (hplan : runtime.planRead promiseId node.relativePath offset length = .ok (.request plan)) :
    Asks ⟨runtime, requestId⟩ node.inode offset length ↔
      ∃ coalesced body, runtime.planCoalescedProviderRead plan = .ok coalesced ∧
        ((⟨runtime, requestId⟩ : FuseState).newRequest coalesced.provider).1.intoBody =
          .ok body := by
  have hfound := Stores.lookupInode hwf hids ⟨tree, htree, hnode⟩
  unfold Asks FuseState.planRead
  simp only [hfound, hplan]
  cases hcoalesced : runtime.planCoalescedProviderRead plan with
  | error status => simp
  | ok coalesced =>
      constructor
      · rintro ⟨request, _, _, _, body, hrequest, hbody⟩
        obtain ⟨hrequest, -⟩ := Prod.mk.inj hrequest
        obtain ⟨rfl, -, -⟩ :=
          FuseState.FuseReadPlan.provider.inj (Option.some.inj (Except.ok.inj hrequest))
        exact ⟨coalesced, body, rfl, hbody⟩
      · rintro ⟨_, body, heq, hbody⟩
        obtain rfl := Except.ok.inj heq
        exact ⟨_, _, _, _, body, rfl, hbody⟩

include hids htracked hdeclared hkind hlive in
theorem asks_iff_of_wellFormed (hcopy : node.materializedPath = none)
    (hcached : runtime.cachedRead promiseId node.relativePath offset
      (min length (node.attr.size.toNat - offset)) = none)
    (hoffset : offset < node.attr.size.toNat) (hpos : 0 < length)
    (hlength : length ≤ maxProviderReadLen) (hid : requestId ≠ 0)
    (hchunk : ∀ chunkSize, runtime.cachePolicy.chunkSize = some chunkSize →
      0 < chunkSize ∧ chunkSize ≤ maxProviderReadLen) :
    Asks ⟨runtime, requestId⟩ node.inode offset length ↔
      Char.ofNat 0 ∉ node.providerNodeId ∧
        ∀ chunkSize, runtime.cachePolicy.chunkSize = some chunkSize →
          chunkBase offset chunkSize + chunkSize ≤ u64Max := by
  have hmax : maxProviderReadLen ≤ u32Max := by decide
  have hword := toNat_le_u64Max node.attr.size
  have hrequest := exists_intoBody_plan_iff hwf hdeclared htree hnode hkind hlive hid
  rw [asks_iff_coalesced hwf hids htree hnode (planRead_request hwf htracked htree hnode hkind
    hlive hcopy hcached hoffset hpos (hlength.trans hmax))]
  set len := min length (node.attr.size.toNat - offset) with hlen
  set plan := providerPlan tree node offset len
  have hnarrow := hrequest offset len (by omega) (by omega) (by omega)
  cases hpolicy : runtime.cachePolicy.chunkSize with
  | none => simp [planCoalescedProviderRead, hpolicy, hnarrow, plan]
  | some chunkSize =>
      obtain ⟨hchunkPos, hchunkMax⟩ := hchunk chunkSize hpolicy
      obtain ⟨hpromise, hshape⟩ := hwf.shape htree
      have hfile : runtime.fileNode plan.promiseId plan.relativePath = .ok (tree, node) := by
        obtain ⟨rfl, -⟩ := hshape.path hnode
        show runtime.fileNode tree.promiseId node.relativePath = .ok (tree, node)
        rw [hpromise]
        exact hwf.fileNode_of_stored htree hnode hkind
      have hbase := chunkBase_le offset chunkSize
      have hnext := lt_chunkBase_add offset hchunkPos
      -- a chunk that would end beyond the last word is the one obstacle left
      by_cases hbound : chunkBase offset chunkSize + chunkSize ≤ u64Max
      · by_cases hspan : chunkBase offset chunkSize + chunkSize < offset + len
        · rw [planCoalescedProviderRead_spanning hpolicy hfile hbound
            (show offset + len ≤ u64Max by omega) hspan]
          simp [hnarrow, hbound, plan]
        · rw [planCoalescedProviderRead_widened hpolicy hfile hchunkPos (hchunkMax.trans hmax)
            hbound (Nat.not_lt.mp hspan)]
          have hwide := hrequest (chunkBase offset chunkSize)
            (min chunkSize (node.attr.size.toNat - chunkBase offset chunkSize))
            (by omega) (by omega) (by omega)
          simpa [hbound, plan, providerPlan] using hwide
      · rw [planCoalescedProviderRead_overflow hpolicy hfile (Nat.not_le.mp hbound)]
        simp [hbound]

end Asks

/-- For a file that is neither cached nor materialized and whose provider is live, every read
inside the file becomes a request that passes its checks, except in two cases: its provider
node id has a NUL character, or the chunk of the offset ends past the last 64-bit offset. -/
theorem asks_iff (calls : List RuntimeCall) (promiseId path : Text) {tree : PromiseTree}
    {node : PromiseNode} {offset length requestId : ℕ}
    (hchunk : ∀ chunkSize, (new.performAll calls).cachePolicy = .readThrough chunkSize →
      chunkSize ≤ maxProviderReadLen)
    (htree : (new.performAll calls).promises[promiseId]? = some tree)
    (hnode : tree.nodes[path]? = some node) (hkind : node.kind = .file)
    (hlive : (new.performAll calls).hasProvider tree.providerId = true)
    (hcopy : node.materializedPath = none)
    (hcached : (new.performAll calls).cachedRead promiseId node.relativePath offset
      (min length (node.attr.size.toNat - offset)) = none)
    (hoffset : offset < node.attr.size.toNat) (hpos : 0 < length)
    (hlength : length ≤ maxProviderReadLen) (hid : requestId ≠ 0) :
    Asks ⟨new.performAll calls, requestId⟩ node.inode offset length ↔
      Char.ofNat 0 ∉ node.providerNodeId ∧
        ∀ chunkSize, (new.performAll calls).cachePolicy.chunkSize = some chunkSize →
          chunkBase offset chunkSize + chunkSize ≤ u64Max := by
  obtain ⟨hwf, hids⟩ := reachable_spec calls
  refine asks_iff_of_wellFormed hwf hids (tracked_performAll calls) (declared_performAll calls)
    htree hnode hkind hlive hcopy hcached hoffset hpos hlength hid ?_
  intro chunkSize hsize
  obtain ⟨hpolicy, hne⟩ := CachePolicy.chunkSize_eq_some.mp hsize
  exact ⟨hne, hchunk chunkSize hpolicy⟩

/-- The first byte of a file of three bytes, with a chunk of four. -/
theorem asks_first_byte :
    let runtime := new.performAll [.setCachePolicy (.readThrough 4), .op .registerProvider,
      .op (.commitPromise 1 [⟨"a".toList, "n".toList, .file, ⟨0o644, 3, 0⟩⟩])]
    ∃ node : PromiseNode, runtime.Stores "promise-1".toList "a".toList node ∧
      Asks ⟨runtime, 1⟩ node.inode 0 1 := by
  intro runtime
  refine ⟨_, ⟨_, rfl, rfl⟩, ?_⟩
  refine (asks_iff _ "promise-1".toList "a".toList ?_ rfl rfl rfl ?_ rfl ?_ ?_ ?_ ?_ ?_).mpr
    ⟨?_, ?_⟩
  · intro chunkSize hpolicy
    obtain rfl : 4 = chunkSize := CachePolicy.readThrough.inj hpolicy
    decide
  · decide
  · decide
  · decide
  · decide
  · decide
  · decide
  · decide
  · intro chunkSize hsize
    obtain rfl : 4 = chunkSize := Option.some.inj hsize
    decide

/-- The daemon accepts a file whose provider node id is a NUL character, and the request for
its first byte is refused.  In read-through mode it accepts a file of the largest size, and
its last byte but one cannot be planned. -/
theorem committed_file_not_asked :
    let state (policy : CachePolicy) : SharedState :=
      { runtime := new.performAll [.setCachePolicy policy, .op .registerProvider]
        mountStatus := ⟨some "/m".toList, true⟩
        providerRoutes := (∅ : BTreeMap ℕ ProviderRoute).insert 1 ⟨0, 7⟩ }
    let nul := (state .noCache).handlePromiseCommit ⟨[], [], [], []⟩
      ⟨1, 7, [⟨"a".toList, [Char.ofNat 0], .file, ⟨0o644, 3, 0⟩⟩]⟩
    let large := (state (.readThrough 4096)).handlePromiseCommit ⟨[], [], [], []⟩
      ⟨1, 7, [⟨"a".toList, "n".toList, .file, ⟨0o644, 18446744073709551615, 0⟩⟩]⟩
    (nul.1 = .ok (.committed "promise-1".toList "/m/promise-1".toList) ∧
      ∃ node request, nul.2.runtime.Stores "promise-1".toList "a".toList node ∧
        (FuseState.planRead ⟨nul.2.runtime, 1⟩ node.inode 0 1).1 =
          .ok (some (.provider request 0 1)) ∧
        request.intoBody =
          .error (invalidData "provider node id must not contain NUL")) ∧
    (large.1 = .ok (.committed "promise-1".toList "/m/promise-1".toList) ∧
      ∃ node, large.2.runtime.Stores "promise-1".toList "a".toList node ∧
        (FuseState.planRead ⟨large.2.runtime, 1⟩ node.inode 18446744073709551614 1).1 =
          .error .einval) := by
  refine ⟨⟨by decide, _, _, ⟨_, rfl, rfl⟩, rfl, by decide⟩, by decide, _, ⟨_, rfl, rfl⟩, by decide⟩

end FusePromise
