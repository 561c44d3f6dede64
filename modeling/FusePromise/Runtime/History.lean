import FusePromise.Runtime.CacheSpec
import FusePromise.Runtime.Invariant

/-!
# Runs of the runtime

A `RuntimeOp` is one call of an operation that changes the runtime; a commit
carries the nodes of its request, so that every tree of a run was built by the
builder.  The cache policy is fixed when the runtime is made, as the daemon does.

The main result is `cacheRead_iff_recorded`.  It compares the cache with the
list of recordings that succeeded: a cached byte is the last one recorded for
its file and offset, and nothing else is ever read.
-/

namespace FusePromise

open Machine ByteMap

/-- An operation of the daemon on the runtime.  A commit has the nodes of its request. -/
inductive RuntimeOp
  | registerProvider
  | unregisterProvider (providerId : ProviderId)
  | commitPromise (providerId : ProviderId) (nodes : List PromiseNodeBody)
  | markNodeMaterialized (promiseId relativePath materializedPath : Text)
  | recordCachedRead (promiseId relativePath : Text) (offset : ℕ) (bytes : List UInt8)
  deriving DecidableEq

/-- The operation fills the cache. -/
def RuntimeOp.isRecord : RuntimeOp → Bool
  | .recordCachedRead .. => true
  | _ => false

namespace Runtime

/-- The runtime after an operation that changes nothing when it fails. -/
def orKeep (runtime : Runtime) : Result Runtime → Runtime
  | .ok next => next
  | .error _ => runtime

/-- The runtime after a call, whether it succeeded or failed. -/
def apply (runtime : Runtime) : RuntimeOp → Runtime
  | .registerProvider => runtime.registerProvider.2
  | .unregisterProvider providerId => runtime.orKeep (runtime.unregisterProvider providerId)
  | .commitPromise providerId nodes =>
      match (PromiseBuilder.new providerId).addNodes nodes with
      | .ok builder => (runtime.commitPromise builder).2
      | .error _ => runtime
  | .markNodeMaterialized promiseId relativePath materializedPath =>
      runtime.orKeep (runtime.markNodeMaterialized promiseId relativePath materializedPath)
  | .recordCachedRead promiseId relativePath offset bytes =>
      runtime.orKeep (runtime.recordCachedRead promiseId relativePath offset bytes)

/-- What several operations make of a runtime. -/
def run (runtime : Runtime) (ops : List RuntimeOp) : Runtime :=
  ops.foldl apply runtime

theorem run_append (runtime : Runtime) (ops rest : List RuntimeOp) :
    runtime.run (ops ++ rest) = (runtime.run ops).run rest :=
  List.foldl_append

/-- Everything an operation can do to a runtime. -/
inductive Effect (runtime : Runtime) : RuntimeOp → Runtime → Prop
  | keep (op : RuntimeOp) : Effect runtime op runtime
  | register : Effect runtime .registerProvider runtime.registerProvider.2
  | unregister {providerId : ProviderId} {next : Runtime}
      (h : runtime.unregisterProvider providerId = .ok next) :
      Effect runtime (.unregisterProvider providerId) next
  | commit {providerId : ProviderId} {nodes : List PromiseNodeBody} {builder : PromiseBuilder}
      (h : (PromiseBuilder.new providerId).addNodes nodes = .ok builder) :
      Effect runtime (.commitPromise providerId nodes) (runtime.commitPromise builder).2
  | mark {promiseId relativePath materializedPath : Text} {next : Runtime}
      (h : runtime.markNodeMaterialized promiseId relativePath materializedPath = .ok next) :
      Effect runtime (.markNodeMaterialized promiseId relativePath materializedPath) next
  | record {promiseId relativePath : Text} {offset : ℕ} {bytes : List UInt8} {next : Runtime}
      (h : runtime.recordCachedRead promiseId relativePath offset bytes = .ok next) :
      Effect runtime (.recordCachedRead promiseId relativePath offset bytes) next

theorem effect_apply (runtime : Runtime) (op : RuntimeOp) :
    Effect runtime op (runtime.apply op) := by
  cases op with
  | registerProvider => exact .register
  | unregisterProvider providerId =>
      simp only [apply]
      cases hnext : runtime.unregisterProvider providerId with
      | error status => exact .keep _
      | ok next => exact .unregister hnext
  | commitPromise providerId nodes =>
      simp only [apply]
      cases hbuilder : (PromiseBuilder.new providerId).addNodes nodes with
      | error status => exact .keep _
      | ok builder => exact .commit hbuilder
  | markNodeMaterialized promiseId relativePath materializedPath =>
      simp only [apply]
      cases hnext : runtime.markNodeMaterialized promiseId relativePath materializedPath with
      | error status => exact .keep _
      | ok next => exact .mark hnext
  | recordCachedRead promiseId relativePath offset bytes =>
      simp only [apply]
      cases hnext : runtime.recordCachedRead promiseId relativePath offset bytes with
      | error status => exact .keep _
      | ok next => exact .record hnext

theorem WellFormed.effect {runtime next : Runtime} {op : RuntimeOp} (h : runtime.WellFormed)
    (heffect : Effect runtime op next) : next.WellFormed := by
  cases heffect with
  | keep => exact h
  | register => exact h.registerProvider
  | unregister hnext => exact h.unregisterProvider hnext
  | commit hbuilder =>
      exact h.commitPromise (PromiseBuilder.shape_addNodes (PromiseBuilder.shape_new _) hbuilder)
  | mark hnext => exact h.markNodeMaterialized hnext
  | record hnext => exact h.recordCachedRead hnext

theorem WellFormed.run {runtime : Runtime} (h : runtime.WellFormed) (ops : List RuntimeOp) :
    (runtime.run ops).WellFormed := by
  induction ops generalizing runtime with
  | nil => exact h
  | cons op rest ih => exact ih (h.effect (runtime.effect_apply op))

/-- A commit leaves the cache and the providers alone. -/
theorem commitPromise_frame (runtime : Runtime) (builder : PromiseBuilder) :
    (runtime.commitPromise builder).2.cachePolicy = runtime.cachePolicy ∧
      (runtime.commitPromise builder).2.readCache = runtime.readCache ∧
      (runtime.commitPromise builder).2.providers = runtime.providers ∧
      (runtime.commitPromise builder).2.nextProviderId = runtime.nextProviderId := by
  obtain ⟨herror, hok⟩ := commitPromise_spec runtime builder
  cases hresult : (runtime.commitPromise builder).1 with
  | error status =>
      obtain ⟨_, _, _, hnext, -⟩ := herror status hresult
      rw [hnext]
      exact ⟨rfl, rfl, rfl, rfl⟩
  | ok tree =>
      obtain ⟨-, -, -, -, -, -, _, _, hnext⟩ := hok tree hresult
      rw [hnext]
      exact ⟨rfl, rfl, rfl, rfl⟩

theorem Effect.cachePolicy {runtime next : Runtime} {op : RuntimeOp}
    (h : Effect runtime op next) : next.cachePolicy = runtime.cachePolicy := by
  cases h with
  | keep => rfl
  | register => rfl
  | unregister hnext =>
      obtain ⟨_, -, rfl⟩ := unregisterProvider_eq_ok hnext
      rfl
  | commit => exact (runtime.commitPromise_frame _).1
  | mark hnext =>
      obtain ⟨_, _, -, -, -, rfl⟩ := markNodeMaterialized_eq_ok hnext
      rfl
  | record hnext =>
      rcases recordCachedRead_eq_ok hnext with ⟨rfl, -⟩ | ⟨_, _, _, -, -, -, -, rfl⟩ <;> rfl

/-- Only a registration uses up a provider id. -/
theorem Effect.nextProviderId {runtime next : Runtime} {op : RuntimeOp}
    (h : Effect runtime op next) (hop : op ≠ .registerProvider) :
    next.nextProviderId = runtime.nextProviderId := by
  cases h with
  | keep => rfl
  | register => exact absurd rfl hop
  | unregister hnext =>
      obtain ⟨_, -, rfl⟩ := unregisterProvider_eq_ok hnext
      rfl
  | commit => exact (runtime.commitPromise_frame _).2.2.2
  | mark hnext =>
      obtain ⟨_, _, -, -, -, rfl⟩ := markNodeMaterialized_eq_ok hnext
      rfl
  | record hnext =>
      rcases recordCachedRead_eq_ok hnext with ⟨rfl, -⟩ | ⟨_, _, _, -, -, -, -, rfl⟩ <;> rfl

theorem hasProvider_registerProvider (runtime : Runtime) {providerId : ProviderId}
    (h : providerId ≠ runtime.nextProviderId) :
    runtime.registerProvider.2.hasProvider providerId = runtime.hasProvider providerId := by
  simp only [hasProvider, registerProvider, Std.ExtTreeMap.getElem?_insert,
    Std.LawfulEqCmp.compare_eq_iff_eq, h.symm, if_false]

theorem hasProvider_unregisterProvider {runtime next : Runtime} {gone : ProviderId}
    (h : runtime.unregisterProvider gone = .ok next) (providerId : ProviderId) :
    next.hasProvider providerId =
      if gone = providerId then false else runtime.hasProvider providerId := by
  obtain ⟨provider, -, rfl⟩ := unregisterProvider_eq_ok h
  simp only [hasProvider, Std.ExtTreeMap.getElem?_insert, Std.LawfulEqCmp.compare_eq_iff_eq]
  by_cases hgone : gone = providerId
  · simp [hgone]
  · simp [hgone]

theorem hasProvider_apply_unregister (runtime : Runtime) (providerId : ProviderId) :
    (runtime.apply (.unregisterProvider providerId)).hasProvider providerId = false := by
  unfold apply
  cases hnext : runtime.unregisterProvider providerId with
  | ok next => simp [hnext, orKeep, hasProvider_unregisterProvider hnext]
  | error status =>
      have hnone : runtime.providers[providerId]? = none := by
        unfold unregisterProvider at hnext
        split at hnext
        · assumption
        · simp at hnext
      simp [hnext, orKeep, hasProvider, hnone]

/-- A provider is live and none of its promises was given up. -/
structure Serves (runtime : Runtime) (providerId : ProviderId) : Prop where
  live : runtime.hasProvider providerId = true
  available : ∀ {promiseId : Text} {tree : PromiseTree},
    runtime.promises[promiseId]? = some tree → tree.providerId = providerId →
    tree.state = .available

/-- Only its own unregistration takes a provider away. -/
theorem Effect.serves {runtime next : Runtime} {op : RuntimeOp} (h : Effect runtime op next)
    {providerId : ProviderId} (hserves : runtime.Serves providerId)
    (hop : op ≠ .unregisterProvider providerId) (hnew : providerId ≠ runtime.nextProviderId) :
    next.Serves providerId := by
  cases h with
  | keep => exact hserves
  | register =>
      exact ⟨(runtime.hasProvider_registerProvider hnew).trans hserves.live, hserves.available⟩
  | @unregister other _ hnext =>
      have hother : other ≠ providerId := fun heq => hop (by rw [heq])
      refine ⟨?_, ?_⟩
      · rw [hasProvider_unregisterProvider hnext, if_neg hother]
        exact hserves.live
      -- the promises of another provider are the only ones that change
      · obtain ⟨provider, -, rfl⟩ := unregisterProvider_eq_ok hnext
        intro promiseId tree htree howner
        simp only [Std.ExtTreeMap.getElem?_map] at htree
        obtain ⟨old, hold, rfl⟩ := Option.map_eq_some_iff.mp htree
        have hkept : old.providerId = providerId := by simpa using howner
        have hsame : markProviderGone other old = old := by
          unfold markProviderGone
          rw [if_neg]
          rintro ⟨heq, -⟩
          exact hother (heq.symm.trans hkept)
        rw [hsame]
        exact hserves.available hold hkept
  | @commit _ _ builder _ =>
      obtain ⟨herror, hok⟩ := commitPromise_spec runtime builder
      cases hresult : (runtime.commitPromise builder).1 with
      | error status =>
          obtain ⟨_, _, _, hnext, -⟩ := herror status hresult
          rw [hnext]
          exact ⟨hserves.live, hserves.available⟩
      | ok committed =>
          obtain ⟨-, -, -, hstate, -, -, _, _, hnext⟩ := hok committed hresult
          rw [hnext]
          refine ⟨hserves.live, ?_⟩
          intro promiseId tree htree howner
          simp only [Std.ExtTreeMap.getElem?_insert, Std.LawfulEqCmp.compare_eq_iff_eq] at htree
          split at htree
          · exact Option.some.inj htree ▸ hstate
          · exact hserves.available htree howner
  | mark hnext =>
      obtain ⟨path, marked, -, hmarked, -, rfl⟩ := markNodeMaterialized_eq_ok hnext
      refine ⟨hserves.live, ?_⟩
      intro promiseId tree htree howner
      simp only [Std.ExtTreeMap.getElem?_insert, Std.LawfulEqCmp.compare_eq_iff_eq] at htree
      split at htree
      · obtain rfl := Option.some.inj htree
        have hstate := hserves.available hmarked howner
        exact hstate
      · exact hserves.available htree howner
  | record hnext =>
      rcases recordCachedRead_eq_ok hnext with ⟨rfl, -⟩ | ⟨_, _, _, -, -, -, -, rfl⟩
      · exact hserves
      · exact ⟨hserves.live, hserves.available⟩

/-- A new provider serves: it is live and has no promise yet. -/
theorem WellFormed.serves_registerProvider {runtime : Runtime} (h : runtime.WellFormed) :
    runtime.registerProvider.2.Serves runtime.nextProviderId := by
  refine ⟨?_, ?_⟩
  · have hnew : runtime.registerProvider.2.providers[runtime.nextProviderId]? =
        some ⟨runtime.nextProviderId, .live⟩ := Std.ExtTreeMap.getElem?_insert_self
    simp [hasProvider, hnew]
  · intro promiseId tree htree howner
    have hlt := (h.provider (h.owner htree)).2
    rw [howner] at hlt
    exact absurd hlt (lt_irrefl _)

/-- Only a recording changes the cache. -/
theorem Effect.readCache {runtime next : Runtime} {op : RuntimeOp} (h : Effect runtime op next)
    (hop : op.isRecord = false) : next.readCache = runtime.readCache := by
  cases h with
  | keep => rfl
  | register => rfl
  | unregister hnext =>
      obtain ⟨_, -, rfl⟩ := unregisterProvider_eq_ok hnext
      rfl
  | commit => exact (runtime.commitPromise_frame _).2.1
  | mark hnext =>
      obtain ⟨_, _, -, -, -, rfl⟩ := markNodeMaterialized_eq_ok hnext
      rfl
  | record => simp [RuntimeOp.isRecord] at hop

/-- The later tree has the same nodes, as they were declared. -/
structure Persists (tree later : PromiseTree) : Prop where
  providerId : later.providerId = tree.providerId
  children : later.children = tree.children
  nodes : ∀ path : Text,
    (later.nodes[path]?).map PromiseNode.core = (tree.nodes[path]?).map PromiseNode.core

theorem Persists.refl (tree : PromiseTree) : Persists tree tree :=
  ⟨rfl, rfl, fun _ => rfl⟩

theorem Persists.trans {first second third : PromiseTree} (h : Persists first second)
    (h' : Persists second third) : Persists first third :=
  ⟨h'.providerId.trans h.providerId, h'.children.trans h.children,
    fun path => (h'.nodes path).trans (h.nodes path)⟩

/-- A committed tree is never lost, and keeps its nodes. -/
theorem Effect.persists {runtime next : Runtime} {op : RuntimeOp} (hwf : runtime.WellFormed)
    (h : Effect runtime op next) {promiseId : Text} {tree : PromiseTree}
    (htree : runtime.promises[promiseId]? = some tree) :
    ∃ later, next.promises[promiseId]? = some later ∧ Persists tree later := by
  cases h with
  | keep => exact ⟨tree, htree, .refl tree⟩
  | register => exact ⟨tree, htree, .refl tree⟩
  | @unregister providerId _ hnext =>
      obtain ⟨_, -, rfl⟩ := unregisterProvider_eq_ok hnext
      exact ⟨markProviderGone providerId tree, by simp [htree], by simp, by simp, by simp⟩
  | @commit _ _ builder _ =>
      obtain ⟨herror, hok⟩ := commitPromise_spec runtime builder
      refine ⟨tree, ?_, .refl tree⟩
      cases hresult : (runtime.commitPromise builder).1 with
      | error status =>
          obtain ⟨_, _, _, hnext, -⟩ := herror status hresult
          rw [hnext]
          exact htree
      | ok committed =>
          obtain ⟨-, -, -, -, -, -, _, _, hnext⟩ := hok committed hresult
          -- the new promise has a name that none had
          have hother : promiseName runtime.nextPromiseId ≠ promiseId := by
            rintro rfl
            exact hwf.fresh (BTreeMap.mem_of_getElem? htree)
          rw [hnext]
          simp [Std.ExtTreeMap.getElem?_insert, hother, htree]
  | @mark markedId _ _ _ hnext =>
      obtain ⟨path, marked, -, hmarked, -, rfl⟩ := markNodeMaterialized_eq_ok hnext
      by_cases hid : markedId = promiseId
      · subst hid
        obtain rfl : marked = tree := Option.some.inj (hmarked.symm.trans htree)
        refine ⟨_, Std.ExtTreeMap.getElem?_insert_self, rfl, rfl, fun other => ?_⟩
        simp only [Std.ExtTreeMap.getElem?_modify, Std.LawfulEqCmp.compare_eq_iff_eq]
        split
        · rename_i heq
          subst heq
          cases marked.nodes[path]? <;> rfl
        · rfl
      · exact ⟨tree, by simp [Std.ExtTreeMap.getElem?_insert, hid, htree], .refl tree⟩
  | record hnext =>
      rcases recordCachedRead_eq_ok hnext with ⟨rfl, -⟩ | ⟨_, _, _, -, -, -, -, rfl⟩ <;>
        exact ⟨tree, htree, .refl tree⟩

theorem persists_run {runtime : Runtime} (hwf : runtime.WellFormed) (ops : List RuntimeOp)
    {promiseId : Text} {tree : PromiseTree} (htree : runtime.promises[promiseId]? = some tree) :
    ∃ later, (runtime.run ops).promises[promiseId]? = some later ∧ Persists tree later := by
  induction ops generalizing runtime tree with
  | nil => exact ⟨tree, htree, .refl tree⟩
  | cons op rest ih =>
      have heffect := runtime.effect_apply op
      obtain ⟨middle, hmiddle, hfirst⟩ := heffect.persists hwf htree
      obtain ⟨later, hlater, hsecond⟩ := ih (hwf.effect heffect) hmiddle
      exact ⟨later, hlater, hfirst.trans hsecond⟩

/-- A file is found again later, with the attributes it was declared with. -/
theorem fileNode_run {runtime : Runtime} (hwf : runtime.WellFormed) (ops : List RuntimeOp)
    {promiseId relativePath : Text} {tree : PromiseTree} {node : PromiseNode}
    (hnode : runtime.fileNode promiseId relativePath = .ok (tree, node)) :
    ∃ later found, (runtime.run ops).fileNode promiseId relativePath = .ok (later, found) ∧
      found.core = node.core := by
  obtain ⟨htree, hget, hkind⟩ := fileNode_eq_ok.mp hnode
  obtain ⟨later, hlater, hpersists⟩ := persists_run hwf ops htree
  unfold PromiseTree.get at hget
  split at hget
  · rename_i path hpath
    have hcore := hpersists.nodes path
    rw [hget, Option.map_some] at hcore
    obtain ⟨found, hfound, heq⟩ := Option.map_eq_some_iff.mp hcore
    obtain ⟨-, -, -, -, hsame, -⟩ := PromiseNode.core_fields heq
    refine ⟨later, found, fileNode_eq_ok.mpr ⟨hlater, ?_, hsame.trans hkind⟩, heq⟩
    rw [PromiseTree.get, hpath]
    exact hfound
  · simp at hget

theorem cachePolicy_run (runtime : Runtime) (ops : List RuntimeOp) :
    (runtime.run ops).cachePolicy = runtime.cachePolicy := by
  induction ops generalizing runtime with
  | nil => rfl
  | cons op rest ih => exact (ih (runtime.apply op)).trans (runtime.effect_apply op).cachePolicy

end Runtime

/-! ## The recordings of a run -/

/-- One successful recording. -/
structure CacheRecord where
  promiseId : Text
  relativePath : Text
  offset : ℕ
  bytes : List UInt8
  deriving DecidableEq

/-- The recording names the file, in whatever spelling. -/
def CacheRecord.For (record : CacheRecord) (key : CacheKey) : Prop :=
  record.promiseId = key.promiseId ∧
    normalizeRelativePath record.relativePath = .ok key.relativePath

instance (record : CacheRecord) (key : CacheKey) : Decidable (record.For key) :=
  inferInstanceAs (Decidable (_ ∧ _))

theorem CacheRecord.for_iff {record : CacheRecord} {path : Text}
    (hpath : normalizeRelativePath record.relativePath = .ok path) (key : CacheKey) :
    record.For key ↔ key = ⟨record.promiseId, path⟩ := by
  unfold CacheRecord.For
  rw [hpath, Except.ok.injEq]
  constructor
  · rintro ⟨hid, rfl⟩
    rw [hid]
  · rintro rfl
    exact ⟨rfl, rfl⟩

/-- The byte a recording holds for an offset of a file. -/
def CacheRecord.byteAt (record : CacheRecord) (key : CacheKey) (i : ℕ) : Option UInt8 :=
  if record.For key then (⟨record.offset, record.bytes⟩ : CachedRange).lookup i else none

/-- The byte most recently recorded for an offset of a file. -/
def lastRecorded (records : List CacheRecord) (key : CacheKey) (i : ℕ) : Option UInt8 :=
  records.reverse.findSome? fun record => record.byteAt key i

namespace Runtime

/-- What an operation records, if it is a recording that succeeds. -/
def recorded (runtime : Runtime) : RuntimeOp → List CacheRecord
  | .recordCachedRead promiseId relativePath offset bytes =>
      match runtime.recordCachedRead promiseId relativePath offset bytes with
      | .ok _ => [⟨promiseId, relativePath, offset, bytes⟩]
      | .error _ => []
  | _ => []

/-- The successful recordings of a run, oldest first. -/
def records : Runtime → List RuntimeOp → List CacheRecord
  | _, [] => []
  | runtime, op :: rest => runtime.recorded op ++ records (runtime.apply op) rest

theorem lastRecorded_append_singleton (records : List CacheRecord) (record : CacheRecord)
    (key : CacheKey) (i : ℕ) :
    lastRecorded (records ++ [record]) key i =
      (record.byteAt key i).or (lastRecorded records key i) := by
  simp only [lastRecorded, List.reverse_append, List.reverse_singleton, List.singleton_append,
    List.findSome?_cons]
  cases record.byteAt key i <;> rfl

/-- The cache holds exactly what was recorded last. -/
private structure CacheInv (chunkSize : ℕ) (done : List CacheRecord) (runtime : Runtime) :
    Prop where
  wellFormed : runtime.WellFormed
  policy : runtime.cachePolicy = .readThrough chunkSize
  cache : runtime.readCache.Sound
  value : ∀ key i, runtime.readCache.lookup chunkSize key i = lastRecorded done key i

private theorem CacheInv.start {chunkSize : ℕ} {start : Runtime}
    (h : withCachePolicy (.readThrough chunkSize) = .ok start) : CacheInv chunkSize [] start := by
  obtain ⟨hpolicy, -, -, -, -, hcache⟩ := withCachePolicy_eq_ok h
  refine ⟨wellFormed_of_withCachePolicy h, hpolicy, ?_, ?_⟩
  · rw [hcache]
    exact ReadCache.Sound.empty
  · intro key i
    rw [hcache, ReadCache.lookup_empty]
    rfl

/-- A successful recording overlays its bytes on the file it names. -/
private theorem CacheInv.record {chunkSize : ℕ} (hpos : 0 < chunkSize) {done : List CacheRecord}
    {runtime next : Runtime} (inv : CacheInv chunkSize done runtime)
    {promiseId relativePath : Text} {offset : ℕ} {bytes : List UInt8}
    (hnext : runtime.recordCachedRead promiseId relativePath offset bytes = .ok next) :
    CacheInv chunkSize (done ++ [⟨promiseId, relativePath, offset, bytes⟩]) next := by
  have hchunk : runtime.cachePolicy.chunkSize = some chunkSize := by
    rw [inv.policy]
    exact if_pos hpos
  rcases recordCachedRead_eq_ok hnext with
    ⟨rfl, hnone | hnil⟩ | ⟨chunkSize', tree, node, hpolicy, -, hnode, hfits, rfl⟩
  · rw [hchunk] at hnone
    simp at hnone
  · refine ⟨inv.wellFormed, inv.policy, inv.cache, ?_⟩
    intro key i
    have hempty : (CacheRecord.mk promiseId relativePath offset bytes).byteAt key i = none := by
      simp [CacheRecord.byteAt, hnil, Segment.lookup]
    rw [inv.value, lastRecorded_append_singleton, hempty, Option.none_or]
  · obtain rfl : chunkSize' = chunkSize := by
      rw [hchunk] at hpolicy
      exact (Option.some.inj hpolicy).symm
    obtain ⟨-, hpath, -, -⟩ := inv.wellFormed.fileNode hnode
    have hend := hfits.trans (toNat_le_u64Max _)
    refine ⟨inv.wellFormed.recordCachedRead hnext, inv.policy,
      (ReadCache.insert_lookupAt hpos inv.cache promiseId node.relativePath hend).1, ?_⟩
    intro key i
    have hfor := @CacheRecord.for_iff ⟨promiseId, relativePath, offset, bytes⟩ _ hpath key
    rw [ReadCache.insert_lookup hpos inv.cache promiseId node.relativePath hend,
      lastRecorded_append_singleton, CacheRecord.byteAt]
    by_cases hkey : key = ⟨promiseId, node.relativePath⟩
    · rw [if_pos hkey, if_pos (hfor.mpr hkey), overlay_eq_or, inv.value]
    · rw [if_neg hkey, if_neg (mt hfor.mp hkey), Option.none_or, inv.value]

private theorem CacheInv.apply {chunkSize : ℕ} (hpos : 0 < chunkSize) {done : List CacheRecord}
    {runtime : Runtime} (inv : CacheInv chunkSize done runtime) (op : RuntimeOp) :
    CacheInv chunkSize (done ++ runtime.recorded op) (runtime.apply op) := by
  have heffect := runtime.effect_apply op
  cases hop : op.isRecord with
  | false =>
      have hcache := heffect.readCache hop
      have hnone : runtime.recorded op = [] := by
        cases op <;> first | rfl | simp [RuntimeOp.isRecord] at hop
      rw [hnone, List.append_nil]
      refine ⟨inv.wellFormed.effect heffect, heffect.cachePolicy.trans inv.policy, ?_, ?_⟩
      · rw [hcache]
        exact inv.cache
      · rw [hcache]
        exact inv.value
  | true =>
      cases op with
      | recordCachedRead promiseId relativePath offset bytes =>
          simp only [recorded, Runtime.apply]
          cases hnext : runtime.recordCachedRead promiseId relativePath offset bytes with
          | error status =>
              rw [List.append_nil]
              exact inv
          | ok next => exact inv.record hpos hnext
      | _ => simp [RuntimeOp.isRecord] at hop

private theorem CacheInv.run {chunkSize : ℕ} (hpos : 0 < chunkSize) (ops : List RuntimeOp) :
    ∀ {done : List CacheRecord} {runtime : Runtime}, CacheInv chunkSize done runtime →
      CacheInv chunkSize (done ++ runtime.records ops) (runtime.run ops) := by
  induction ops with
  | nil =>
      intro done runtime inv
      rw [records, List.append_nil]
      exact inv
  | cons op rest ih =>
      intro done runtime inv
      rw [records, ← List.append_assoc]
      exact ih (inv.apply hpos op)

private theorem records_append (ops rest : List RuntimeOp) (runtime : Runtime) :
    runtime.records (ops ++ rest) = runtime.records ops ++ (runtime.run ops).records rest := by
  induction ops generalizing runtime with
  | nil => rfl
  | cons op ops ih =>
      rw [List.cons_append, records, records, ih, List.append_assoc]
      rfl

/-! ## The refinement -/

/-- A read of the cache returns the bytes recorded last, if all of them were recorded. -/
theorem read_eq_some_iff_recorded {chunkSize : ℕ} {start : Runtime}
    (hstart : withCachePolicy (.readThrough chunkSize) = .ok start) (ops : List RuntimeOp)
    (key : CacheKey) {offset length : ℕ} (hlength : 0 < length) (bytes : List UInt8) :
    (start.run ops).readCache.read key.promiseId key.relativePath offset length chunkSize =
      some bytes ↔ Reads (lastRecorded (start.records ops) key) offset length bytes := by
  have hpos : 0 < chunkSize := chunkSize_pos_of_start hstart
  have inv := CacheInv.run hpos ops (CacheInv.start hstart)
  rw [List.nil_append] at inv
  rw [ReadCache.read_eq_some hpos inv.cache hlength]
  exact Reads.congr fun i _ => inv.value key (offset + i)

/-- A read of the cache succeeds exactly when every byte of the range was
recorded for the file, and returns the byte recorded last at each offset; a
recording for another file changes nothing. -/
theorem cacheRead_iff_recorded {chunkSize : ℕ} {start : Runtime}
    (hstart : withCachePolicy (.readThrough chunkSize) = .ok start) (ops : List RuntimeOp)
    (key : CacheKey) (offset length : ℕ) (hlength : 0 < length) :
    (∀ bytes, (start.run ops).readCache.read key.promiseId key.relativePath offset length
        chunkSize = some bytes ↔
      Reads (lastRecorded (start.records ops) key) offset length bytes) ∧
    ∀ record : CacheRecord, ¬ record.For key →
      (start.run (ops ++ [.recordCachedRead record.promiseId record.relativePath record.offset
          record.bytes])).readCache.read key.promiseId key.relativePath offset length chunkSize =
        (start.run ops).readCache.read key.promiseId key.relativePath offset length
          chunkSize := by
  refine ⟨read_eq_some_iff_recorded hstart ops key hlength, fun record hother => ?_⟩
  have hsame : lastRecorded (start.records (ops ++ [.recordCachedRead record.promiseId
      record.relativePath record.offset record.bytes])) key =
        lastRecorded (start.records ops) key := by
    funext i
    rw [records_append]
    simp only [records, recorded, List.append_nil]
    split
    · rw [lastRecorded_append_singleton, CacheRecord.byteAt, if_neg hother, Option.none_or]
    · rw [List.append_nil]
  apply Option.ext
  intro bytes
  rw [read_eq_some_iff_recorded hstart _ key hlength, hsame,
    ← read_eq_some_iff_recorded hstart _ key hlength]

/-- Two overlapping recordings across chunks of four bytes, under two spellings
of one path: the newer byte wins at offset three. -/
theorem cacheRead_overlapping_records :
    ∃ start, withCachePolicy (.readThrough 4) = .ok start ∧
      (start.run [.registerProvider,
        .commitPromise 1 [⟨"a".toList, "n".toList, .file, ⟨0o644, 10, 0⟩⟩],
        .recordCachedRead "promise-1".toList "a".toList 1 [1, 2, 3, 4, 5],
        .recordCachedRead "promise-1".toList "./a".toList 3 [9]]).readCache.read
          "promise-1".toList "a".toList 1 5 4 = some [1, 2, 9, 4, 5] :=
  ⟨_, rfl, ((cacheRead_iff_recorded rfl _ ⟨"promise-1".toList, "a".toList⟩ 1 5 (by decide)).1
    _).mpr (by decide)⟩

end Runtime

end FusePromise
