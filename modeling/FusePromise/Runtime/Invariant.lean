import FusePromise.Runtime.State

/-!
# What the runtime operations do

One lemma per operation says what it changes; `Runtime.WellFormed` collects what
every reachable runtime satisfies, and each operation keeps it.
-/

namespace FusePromise

open Machine

namespace Runtime

/-! ## Effects -/

theorem setCachePolicy_eq_ok {runtime next : Runtime} {policy : CachePolicy}
    (h : runtime.setCachePolicy policy = .ok next) :
    next.cachePolicy = policy ∧ next.promises = runtime.promises ∧
      next.providers = runtime.providers ∧ next.nextPromiseId = runtime.nextPromiseId ∧
      next.nextProviderId = runtime.nextProviderId ∧
      (next.readCache = runtime.readCache ∨ next.readCache = .empty) := by
  obtain ⟨checked, hchecked, hnext⟩ := bind_eq_ok.mp h
  obtain rfl := CachePolicy.validated_eq_ok hchecked
  obtain rfl := Except.ok.inj hnext
  split
  · exact ⟨rfl, rfl, rfl, rfl, rfl, Or.inr rfl⟩
  · exact ⟨rfl, rfl, rfl, rfl, rfl, Or.inl rfl⟩

/-- A new daemon has the policy it was given, no promises and an empty cache. -/
theorem withCachePolicy_eq_ok {start : Runtime} {policy : CachePolicy}
    (h : withCachePolicy policy = .ok start) :
    start.cachePolicy = policy ∧ start.promises = ∅ ∧ start.providers = ∅ ∧
      start.nextPromiseId = 1 ∧ start.nextProviderId = 1 ∧ start.readCache = .empty := by
  obtain ⟨hpolicy, hpromises, hproviders, hpromiseId, hproviderId, hcache⟩ :=
    setCachePolicy_eq_ok h
  refine ⟨hpolicy, hpromises, hproviders, hpromiseId, hproviderId, ?_⟩
  rcases hcache with hcache | hcache <;> exact hcache

theorem chunkSize_pos_of_start {chunkSize : ℕ} {start : Runtime}
    (h : withCachePolicy (.readThrough chunkSize) = .ok start) : 0 < chunkSize := by
  obtain ⟨_, hvalid, -⟩ := bind_eq_ok.mp h
  by_contra hzero
  simp [CachePolicy.validated, hzero] at hvalid

theorem unregisterProvider_eq_ok {runtime next : Runtime} {providerId : ProviderId}
    (h : runtime.unregisterProvider providerId = .ok next) :
    ∃ provider, runtime.providers[providerId]? = some provider ∧
      next = { runtime with
        providers := runtime.providers.insert providerId { provider with state := .disconnected }
        promises := runtime.promises.map fun _ tree => markProviderGone providerId tree } := by
  unfold unregisterProvider at h
  split at h
  · simp at h
  · rename_i provider hprovider
    exact ⟨provider, hprovider, (Except.ok.inj h).symm⟩

@[simp] theorem markProviderGone_nodes (providerId : ProviderId) (tree : PromiseTree) :
    (markProviderGone providerId tree).nodes = tree.nodes := by
  unfold markProviderGone
  split <;> rfl

@[simp] theorem markProviderGone_children (providerId : ProviderId) (tree : PromiseTree) :
    (markProviderGone providerId tree).children = tree.children := by
  unfold markProviderGone
  split <;> rfl

@[simp] theorem markProviderGone_promiseId (providerId : ProviderId) (tree : PromiseTree) :
    (markProviderGone providerId tree).promiseId = tree.promiseId := by
  unfold markProviderGone
  split <;> rfl

@[simp] theorem markProviderGone_providerId (providerId : ProviderId) (tree : PromiseTree) :
    (markProviderGone providerId tree).providerId = tree.providerId := by
  unfold markProviderGone
  split <;> rfl

/-- Counting up ids changes the two id counters and nothing else. -/
def SameExceptIds (runtime next : Runtime) : Prop :=
  ∃ nextNodeId nextInode, next = { runtime with nextNodeId, nextInode }

theorem SameExceptIds.trans {first second third : Runtime} (h : SameExceptIds first second)
    (h' : SameExceptIds second third) : SameExceptIds first third := by
  obtain ⟨_, _, rfl⟩ := h
  obtain ⟨nodeId, inode, rfl⟩ := h'
  exact ⟨nodeId, inode, rfl⟩

private theorem allocateNodeId_same (runtime : Runtime) :
    SameExceptIds runtime runtime.allocateNodeId.2 := by
  unfold allocateNodeId
  split
  · exact ⟨_, _, rfl⟩
  · exact ⟨_, _, rfl⟩

private theorem allocateInode_same (runtime : Runtime) :
    SameExceptIds runtime runtime.allocateInode.2 := by
  unfold allocateInode
  split
  · exact ⟨_, _, rfl⟩
  · exact ⟨_, _, rfl⟩

private theorem assignIds_spec (paths : List Text) :
    ∀ (runtime : Runtime) (nodes : BTreeMap Text PromiseNode),
      SameExceptIds runtime (runtime.assignIds nodes paths).2 ∧
        ∀ nodes', (runtime.assignIds nodes paths).1 = .ok nodes' → ∀ path : Text,
          (nodes'[path]?).map PromiseNode.withoutIds =
            (nodes[path]?).map PromiseNode.withoutIds := by
  induction paths with
  | nil =>
      intro runtime nodes
      refine ⟨⟨_, _, rfl⟩, ?_⟩
      intro nodes' h path
      obtain rfl := Except.ok.inj h
      rfl
  | cons head rest ih =>
      intro runtime nodes
      -- either allocation can fail, and leaves the rest of the runtime alone
      unfold assignIds
      have hnode := allocateNodeId_same runtime
      cases hnodeId : runtime.allocateNodeId with
      | mk result counted =>
          rw [hnodeId] at hnode
          cases result with
          | error status => exact ⟨hnode, by simp⟩
          | ok nodeId =>
              dsimp only
              have hinode := allocateInode_same counted
              cases hinodeId : counted.allocateInode with
              | mk result' counted' =>
                  rw [hinodeId] at hinode
                  cases result' with
                  | error status => exact ⟨hnode.trans hinode, by simp⟩
                  | ok inode =>
                      dsimp only
                      obtain ⟨hsame, hnodes⟩ := ih counted'
                        (nodes.modify head fun node =>
                          { node with nodeId := nodeId, inode := inode })
                      refine ⟨(hnode.trans hinode).trans hsame, ?_⟩
                      intro nodes' h path
                      rw [hnodes nodes' h path, Std.ExtTreeMap.getElem?_modify]
                      split
                      · rename_i heq
                        rw [Std.LawfulEqCmp.compare_eq_iff_eq] at heq
                        subst heq
                        cases nodes[head]? <;> rfl
                      · rfl

private theorem assignRuntimeIds_spec (runtime : Runtime) (tree : PromiseTree) :
    SameExceptIds runtime (runtime.assignRuntimeIds tree).2 ∧
      ∀ tree', (runtime.assignRuntimeIds tree).1 = .ok tree' →
        ∃ nodes, tree' = { tree with nodes } ∧ ∀ path : Text,
          (nodes[path]?).map PromiseNode.withoutIds =
            (tree.nodes[path]?).map PromiseNode.withoutIds := by
  obtain ⟨hsame, hnodes⟩ := assignIds_spec tree.nodes.keys runtime tree.nodes
  unfold assignRuntimeIds
  cases hassign : runtime.assignIds tree.nodes tree.nodes.keys with
  | mk result after =>
      rw [hassign] at hsame hnodes
      cases result with
      | error status => exact ⟨hsame, by simp⟩
      | ok nodes =>
          refine ⟨hsame, ?_⟩
          intro tree' htree'
          exact ⟨nodes, (Except.ok.inj htree').symm, hnodes nodes rfl⟩

/-- A commit either stores a new tree with the builder's nodes under a new name,
or stores nothing. -/
theorem commitPromise_spec (runtime : Runtime) (builder : PromiseBuilder) :
    (∀ status, (runtime.commitPromise builder).1 = .error status →
      ∃ nextPromiseId nextNodeId nextInode, (runtime.commitPromise builder).2 =
        { runtime with nextPromiseId, nextNodeId, nextInode } ∧
          runtime.nextPromiseId ≤ nextPromiseId) ∧
    ∀ tree, (runtime.commitPromise builder).1 = .ok tree →
      runtime.hasProvider builder.providerId = true ∧
      tree.promiseId = promiseName runtime.nextPromiseId ∧
      tree.providerId = builder.providerId ∧ tree.state = .available ∧
      tree.children = builder.children ∧
      (∀ path : Text, (tree.nodes[path]?).map PromiseNode.withoutIds =
        (builder.nodes[path]?).map PromiseNode.withoutIds) ∧
      ∃ nextNodeId nextInode, (runtime.commitPromise builder).2 =
        { runtime with
          nextPromiseId := runtime.nextPromiseId + 1
          nextNodeId
          nextInode
          promises := runtime.promises.insert (promiseName runtime.nextPromiseId) tree } := by
  unfold commitPromise
  split
  · rename_i hlive
    dsimp only
    obtain ⟨hsame, htree⟩ := assignRuntimeIds_spec
      { runtime with nextPromiseId := runtime.nextPromiseId + 1 }
      (builder.finish (promiseName runtime.nextPromiseId))
    cases hassign : assignRuntimeIds { runtime with nextPromiseId := runtime.nextPromiseId + 1 }
        (builder.finish (promiseName runtime.nextPromiseId)) with
    | mk result after =>
        rw [hassign] at hsame htree
        obtain ⟨nodeId, inode, rfl⟩ := hsame
        cases result with
        | error status =>
            exact ⟨fun _ _ => ⟨_, nodeId, inode, rfl, Nat.le_succ _⟩, by simp⟩
        | ok tree =>
            refine ⟨by simp, ?_⟩
            intro tree' heq
            obtain rfl := Except.ok.inj heq
            obtain ⟨nodes, rfl, hnodes⟩ := htree tree rfl
            exact ⟨hlive, rfl, rfl, rfl, rfl, hnodes, nodeId, inode, rfl⟩
  · exact ⟨fun _ _ => ⟨_, _, _, rfl, le_rfl⟩, by simp⟩

theorem markNodeMaterialized_eq_ok {runtime next : Runtime}
    {promiseId relativePath materializedPath : Text}
    (h : runtime.markNodeMaterialized promiseId relativePath materializedPath = .ok next) :
    ∃ path tree, normalizeRelativePath relativePath = .ok path ∧
      runtime.promises[promiseId]? = some tree ∧ path ∈ tree.nodes ∧
      next = { runtime with
        promises := runtime.promises.insert promiseId { tree with
          nodes := tree.nodes.modify path fun node =>
            { node with materializedPath := some materializedPath } } } := by
  obtain ⟨path, hpath, h⟩ := bind_eq_ok.mp h
  obtain ⟨tree, htree, h⟩ := bind_eq_ok.mp h
  rw [okOr_eq_ok] at htree
  split at h
  · rename_i hmem
    exact ⟨path, tree, hpath, htree, hmem, (Except.ok.inj h).symm⟩
  · simp at h

theorem fileNode_eq_ok {runtime : Runtime} {promiseId relativePath : Text} {tree : PromiseTree}
    {node : PromiseNode} :
    runtime.fileNode promiseId relativePath = .ok (tree, node) ↔
      runtime.promises[promiseId]? = some tree ∧ tree.get relativePath = some node ∧
        node.kind = .file := by
  unfold fileNode promise
  constructor
  · intro h
    obtain ⟨tree', htree, h⟩ := bind_eq_ok.mp h
    obtain ⟨node', hnode, h⟩ := bind_eq_ok.mp h
    rw [okOr_eq_ok] at htree hnode
    split at h
    · rename_i hkind
      obtain ⟨rfl, rfl⟩ := Prod.mk.inj (Except.ok.inj h)
      exact ⟨htree, hnode, hkind⟩
    · simp at h
  · rintro ⟨htree, hnode, hkind⟩
    simp [htree, hnode, hkind, okOr, bind, Except.bind, pure, Except.pure]

/-- A successful recording stored nothing, or stored bytes that lie inside the file. -/
theorem recordCachedRead_eq_ok {runtime next : Runtime} {promiseId relativePath : Text}
    {offset : ℕ} {bytes : List UInt8}
    (h : runtime.recordCachedRead promiseId relativePath offset bytes = .ok next) :
    (next = runtime ∧ (runtime.cachePolicy.chunkSize = none ∨ bytes = [])) ∨
      ∃ chunkSize tree node, runtime.cachePolicy.chunkSize = some chunkSize ∧ bytes ≠ [] ∧
        runtime.fileNode promiseId relativePath = .ok (tree, node) ∧
        offset + bytes.length ≤ node.attr.size.toNat ∧
        next = { runtime with
          readCache := runtime.readCache.insert promiseId node.relativePath offset bytes
            chunkSize } := by
  unfold recordCachedRead at h
  split at h
  · rename_i hpolicy
    exact Or.inl ⟨(Except.ok.inj h).symm, Or.inl hpolicy⟩
  · rename_i chunkSize hpolicy
    split at h
    · rename_i hnil
      exact Or.inl ⟨(Except.ok.inj h).symm, Or.inr hnil⟩
    · rename_i hne
      obtain ⟨⟨tree, node⟩, hnode, h⟩ := bind_eq_ok.mp h
      obtain ⟨stop, hstop, h⟩ := bind_eq_ok.mp h
      rw [okOr_eq_ok, checkedAdd_eq_some] at hstop
      split at h
      · simp at h
      · rename_i hfits
        exact Or.inr ⟨chunkSize, tree, node, hpolicy, hne, hnode, by omega,
          (Except.ok.inj h).symm⟩

/-- Bytes inside a file that exists can always be recorded. -/
theorem recordCachedRead_ok {runtime : Runtime} {promiseId relativePath : Text}
    {tree : PromiseTree} {node : PromiseNode}
    (hnode : runtime.fileNode promiseId relativePath = .ok (tree, node)) (offset : ℕ)
    (bytes : List UInt8) (hfits : offset + bytes.length ≤ node.attr.size.toNat) :
    ∃ next, runtime.recordCachedRead promiseId relativePath offset bytes = .ok next := by
  have hstop : checkedAdd offset bytes.length = some (offset + bytes.length) :=
    checkedAdd_eq_some.mpr ⟨rfl, hfits.trans (toNat_le_u64Max _)⟩
  unfold recordCachedRead
  split
  · exact ⟨_, rfl⟩
  · split
    · exact ⟨_, rfl⟩
    · simp only [hnode, hstop, okOr, bind, Except.bind]
      rw [if_neg (by omega)]
      exact ⟨_, rfl⟩

theorem mem_of_hasProvider {runtime : Runtime} {providerId : ProviderId}
    (h : runtime.hasProvider providerId = true) : providerId ∈ runtime.providers := by
  unfold hasProvider at h
  split at h
  · rename_i hprovider
    exact BTreeMap.mem_of_getElem? hprovider
  · simp at h

/-! ## Reachable runtimes -/

/-- What every runtime satisfies, whatever operations it went through. -/
structure WellFormed (runtime : Runtime) : Prop where
  shape : ∀ {promiseId : Text} {tree : PromiseTree}, runtime.promises[promiseId]? = some tree →
    tree.promiseId = promiseId ∧ TreeShape tree.nodes tree.children
  named : ∀ {promiseId : Text}, promiseId ∈ runtime.promises →
    ∃ raw < runtime.nextPromiseId, promiseId = promiseName raw
  provider : ∀ {providerId : ProviderId}, providerId ∈ runtime.providers →
    0 < providerId ∧ providerId < runtime.nextProviderId
  owner : ∀ {promiseId : Text} {tree : PromiseTree}, runtime.promises[promiseId]? = some tree →
    tree.providerId ∈ runtime.providers
  nextProvider : 0 < runtime.nextProviderId

theorem toDigits_injective {first second : ℕ}
    (h : Nat.toDigits 10 first = Nat.toDigits 10 second) : first = second := by
  rw [← Nat.ofDigitChars_toDigits (b := 10) (n := first) (by decide) (by decide), h,
    Nat.ofDigitChars_toDigits (by decide) (by decide)]

theorem promiseName_injective {first second : ℕ} (h : promiseName first = promiseName second) :
    first = second :=
  toDigits_injective (List.append_cancel_left h)

/-- The name of the next promise is not in use. -/
theorem WellFormed.fresh {runtime : Runtime} (h : runtime.WellFormed) :
    promiseName runtime.nextPromiseId ∉ runtime.promises := by
  intro hmem
  obtain ⟨raw, hlt, heq⟩ := h.named hmem
  have := promiseName_injective heq
  omega

theorem wellFormed_of_withCachePolicy {start : Runtime} {policy : CachePolicy}
    (h : withCachePolicy policy = .ok start) : start.WellFormed := by
  obtain ⟨-, hpromises, hproviders, -, hproviderId, -⟩ := withCachePolicy_eq_ok h
  exact ⟨by simp [hpromises], by simp [hpromises], by simp [hproviders], by simp [hpromises],
    by omega⟩

theorem WellFormed.registerProvider {runtime : Runtime} (h : runtime.WellFormed) :
    runtime.registerProvider.2.WellFormed := by
  refine ⟨h.shape, h.named, ?_, ?_, Nat.succ_pos _⟩
  · intro providerId hmem
    simp only [Runtime.registerProvider, Std.ExtTreeMap.mem_insert,
      Std.LawfulEqCmp.compare_eq_iff_eq] at hmem ⊢
    rcases hmem with rfl | hmem
    · exact ⟨h.nextProvider, Nat.lt_succ_self _⟩
    · obtain ⟨hpos, hlt⟩ := h.provider hmem
      exact ⟨hpos, Nat.lt_succ_of_lt hlt⟩
  · intro promiseId tree htree
    exact Std.ExtTreeMap.mem_insert.mpr (Or.inr (h.owner htree))

theorem WellFormed.unregisterProvider {runtime next : Runtime} {providerId : ProviderId}
    (h : runtime.WellFormed) (hnext : runtime.unregisterProvider providerId = .ok next) :
    next.WellFormed := by
  obtain ⟨provider, hprovider, rfl⟩ := unregisterProvider_eq_ok hnext
  refine ⟨?_, ?_, ?_, ?_, h.nextProvider⟩
  · intro promiseId tree htree
    simp only [Std.ExtTreeMap.getElem?_map] at htree
    obtain ⟨old, hold, rfl⟩ := Option.map_eq_some_iff.mp htree
    simpa using h.shape hold
  · intro promiseId hmem
    exact h.named (Std.ExtTreeMap.mem_map.mp hmem)
  · intro other hmem
    simp only [Std.ExtTreeMap.mem_insert, Std.LawfulEqCmp.compare_eq_iff_eq] at hmem
    rcases hmem with rfl | hmem
    · exact h.provider (BTreeMap.mem_of_getElem? hprovider)
    · exact h.provider hmem
  · intro promiseId tree htree
    simp only [Std.ExtTreeMap.getElem?_map] at htree
    obtain ⟨old, hold, rfl⟩ := Option.map_eq_some_iff.mp htree
    exact Std.ExtTreeMap.mem_insert.mpr (Or.inr (by simpa using h.owner hold))

private theorem core_of_withoutIds {nodes nodes' : BTreeMap Text PromiseNode}
    (h : ∀ path : Text, (nodes'[path]?).map PromiseNode.withoutIds =
      (nodes[path]?).map PromiseNode.withoutIds) (path : Text) :
    (nodes'[path]?).map PromiseNode.core = (nodes[path]?).map PromiseNode.core := by
  have := congrArg (Option.map PromiseNode.core) (h path)
  rwa [Option.map_map, Option.map_map] at this

theorem WellFormed.commitPromise {runtime : Runtime} {builder : PromiseBuilder}
    (h : runtime.WellFormed) (hbuilder : TreeShape builder.nodes builder.children) :
    (runtime.commitPromise builder).2.WellFormed := by
  obtain ⟨herror, hok⟩ := commitPromise_spec runtime builder
  cases hresult : (runtime.commitPromise builder).1 with
  | error status =>
      obtain ⟨_, _, _, hnext, hle⟩ := herror status hresult
      rw [hnext]
      refine ⟨h.shape, fun hmem => ?_, h.provider, h.owner, h.nextProvider⟩
      obtain ⟨raw, hlt, heq⟩ := h.named hmem
      exact ⟨raw, Nat.lt_of_lt_of_le hlt hle, heq⟩
  | ok tree =>
      obtain ⟨hlive, hid, hprovider, -, hchildren, hnodes, _, _, hnext⟩ := hok tree hresult
      rw [hnext]
      refine ⟨?_, ?_, h.provider, ?_, h.nextProvider⟩
      · intro promiseId stored hstored
        simp only [Std.ExtTreeMap.getElem?_insert, Std.LawfulEqCmp.compare_eq_iff_eq] at hstored
        split at hstored
        · rename_i heq
          obtain rfl := Option.some.inj hstored
          refine ⟨hid.trans heq, ?_⟩
          rw [hchildren]
          exact hbuilder.congr (core_of_withoutIds hnodes)
        · exact h.shape hstored
      · intro promiseId hmem
        simp only [Std.ExtTreeMap.mem_insert, Std.LawfulEqCmp.compare_eq_iff_eq] at hmem
        rcases hmem with rfl | hmem
        · exact ⟨_, Nat.lt_succ_self _, rfl⟩
        · obtain ⟨raw, hlt, heq⟩ := h.named hmem
          exact ⟨raw, Nat.lt_succ_of_lt hlt, heq⟩
      · intro promiseId stored hstored
        simp only [Std.ExtTreeMap.getElem?_insert, Std.LawfulEqCmp.compare_eq_iff_eq] at hstored
        split at hstored
        · obtain rfl := Option.some.inj hstored
          rw [hprovider]
          exact mem_of_hasProvider hlive
        · exact h.owner hstored

theorem WellFormed.markNodeMaterialized {runtime next : Runtime}
    {promiseId relativePath materializedPath : Text} (h : runtime.WellFormed)
    (hnext : runtime.markNodeMaterialized promiseId relativePath materializedPath = .ok next) :
    next.WellFormed := by
  obtain ⟨path, tree, -, htree, -, rfl⟩ := markNodeMaterialized_eq_ok hnext
  refine ⟨?_, ?_, h.provider, ?_, h.nextProvider⟩
  · intro other stored hstored
    simp only [Std.ExtTreeMap.getElem?_insert, Std.LawfulEqCmp.compare_eq_iff_eq] at hstored
    split at hstored
    · rename_i heq
      subst heq
      obtain rfl := Option.some.inj hstored
      obtain ⟨hid, hshape⟩ := h.shape htree
      refine ⟨hid, hshape.congr ?_⟩
      intro other
      rw [Std.ExtTreeMap.getElem?_modify]
      split
      · rename_i heq
        rw [Std.LawfulEqCmp.compare_eq_iff_eq] at heq
        subst heq
        cases tree.nodes[path]? <;> rfl
      · rfl
    · exact h.shape hstored
  · intro other hmem
    simp only [Std.ExtTreeMap.mem_insert, Std.LawfulEqCmp.compare_eq_iff_eq] at hmem
    rcases hmem with rfl | hmem
    · exact h.named (BTreeMap.mem_of_getElem? htree)
    · exact h.named hmem
  · intro other stored hstored
    simp only [Std.ExtTreeMap.getElem?_insert, Std.LawfulEqCmp.compare_eq_iff_eq] at hstored
    split at hstored
    · obtain rfl := Option.some.inj hstored
      have howner := h.owner htree
      exact howner
    · exact h.owner hstored

theorem WellFormed.recordCachedRead {runtime next : Runtime} {promiseId relativePath : Text}
    {offset : ℕ} {bytes : List UInt8} (h : runtime.WellFormed)
    (hnext : runtime.recordCachedRead promiseId relativePath offset bytes = .ok next) :
    next.WellFormed := by
  rcases recordCachedRead_eq_ok hnext with ⟨rfl, -⟩ | ⟨_, _, _, -, -, -, -, rfl⟩
  · exact h
  · exact ⟨h.shape, h.named, h.provider, h.owner, h.nextProvider⟩

/-- A node found by its inode is stored in a promise under its own path. -/
theorem WellFormed.lookupInode {runtime : Runtime} (h : runtime.WellFormed) {inode : ℕ}
    {promiseId : Text} {node : PromiseNode}
    (hentry : runtime.lookupInode inode = .ok (.promiseNode promiseId node)) :
    ∃ tree, runtime.promises[promiseId]? = some tree ∧
      tree.nodes[node.relativePath]? = some node := by
  unfold Runtime.lookupInode at hentry
  split at hentry
  · simp at hentry
  rw [okOr_eq_ok] at hentry
  obtain ⟨tree, htree, hentry⟩ := List.exists_of_findSome?_eq_some hentry
  obtain ⟨found, hfound, hentry⟩ := List.exists_of_findSome?_eq_some hentry
  split at hentry
  · obtain ⟨rfl, rfl⟩ := RuntimeEntry.promiseNode.inj (Option.some.inj hentry)
    obtain ⟨key, hkey⟩ := BTreeMap.mem_valueList.mp htree
    obtain ⟨path, hpath⟩ := BTreeMap.mem_valueList.mp hfound
    obtain ⟨hid, hshape⟩ := h.shape hkey
    rw [hid, (hshape.path hpath).1]
    exact ⟨tree, hkey, hpath⟩
  · simp at hentry

/-- A stored file is found under its own path. -/
theorem WellFormed.fileNode_of_stored {runtime : Runtime} (h : runtime.WellFormed)
    {promiseId path : Text} {tree : PromiseTree} {node : PromiseNode}
    (htree : runtime.promises[promiseId]? = some tree) (hnode : tree.nodes[path]? = some node)
    (hkind : node.kind = .file) : runtime.fileNode promiseId path = .ok (tree, node) := by
  refine fileNode_eq_ok.mpr ⟨htree, ?_, hkind⟩
  rw [PromiseTree.get, (h.shape htree).2.normalize (BTreeMap.mem_of_getElem? hnode)]
  exact hnode

/-- The file a read operation finds, by its normal path. -/
theorem WellFormed.fileNode {runtime : Runtime} (h : runtime.WellFormed)
    {promiseId relativePath : Text} {tree : PromiseTree} {node : PromiseNode}
    (hnode : runtime.fileNode promiseId relativePath = .ok (tree, node)) :
    tree.promiseId = promiseId ∧ normalizeRelativePath relativePath = .ok node.relativePath ∧
      tree.nodes[node.relativePath]? = some node ∧ node.kind = .file := by
  obtain ⟨htree, hget, hkind⟩ := fileNode_eq_ok.mp hnode
  obtain ⟨hid, hshape⟩ := h.shape htree
  obtain ⟨hpath, hstored⟩ := hshape.get_eq_some hget
  exact ⟨hid, hpath, hstored, hkind⟩

end Runtime

end FusePromise
