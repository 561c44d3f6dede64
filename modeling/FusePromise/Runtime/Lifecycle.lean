import FusePromise.Runtime.History
import FusePromise.Runtime.Planner

/-!
# The life of providers and promises

A provider is live until it is unregistered, and its promises are available as
long as it is live.  Nothing brings either of them back.  A file of a promise
whose provider is gone can still be read from its copy, or from the cache when
every byte of the range was recorded; the provider is never asked.
-/

namespace FusePromise

open Machine ByteMap

namespace Runtime

/-- A promise is available exactly as long as its provider is live. -/
def Tracked (runtime : Runtime) : Prop :=
  ∀ (promiseId : Text) (tree : PromiseTree), runtime.promises[promiseId]? = some tree →
    (tree.state = .available ↔ runtime.hasProvider tree.providerId = true)

/-- What a commit does to the promises. -/
theorem commitPromise_cases (runtime : Runtime) (builder : PromiseBuilder) :
    (runtime.commitPromise builder).2.promises = runtime.promises ∨
      ∃ tree, (runtime.commitPromise builder).2.promises =
          runtime.promises.insert (promiseName runtime.nextPromiseId) tree ∧
        tree.state = .available ∧ runtime.hasProvider tree.providerId = true := by
  obtain ⟨herror, hok⟩ := commitPromise_spec runtime builder
  cases hresult : (runtime.commitPromise builder).1 with
  | error status =>
      obtain ⟨_, _, _, hnext, -⟩ := herror status hresult
      rw [hnext]
      exact Or.inl rfl
  | ok tree =>
      obtain ⟨hlive, -, hprovider, hstate, -, -, _, _, hnext⟩ := hok tree hresult
      rw [hnext]
      exact Or.inr ⟨tree, rfl, hstate, hprovider ▸ hlive⟩

theorem hasProvider_congr {runtime next : Runtime} (h : next.providers = runtime.providers)
    (providerId : ProviderId) : next.hasProvider providerId = runtime.hasProvider providerId := by
  unfold hasProvider
  rw [h]

theorem Tracked.effect {runtime next : Runtime} {op : RuntimeOp} (hwf : runtime.WellFormed)
    (h : runtime.Tracked) (heffect : Effect runtime op next) : next.Tracked := by
  intro promiseId later hlater
  cases heffect with
  | keep => exact h promiseId later hlater
  | register =>
      -- the new id is the id of no promise
      have hold : later.providerId ≠ runtime.nextProviderId :=
        (hwf.provider (hwf.owner hlater)).2.ne
      rw [runtime.hasProvider_registerProvider hold]
      exact h promiseId later hlater
  | @unregister gone _ hnext =>
      rw [hasProvider_unregisterProvider hnext]
      obtain ⟨_, -, rfl⟩ := unregisterProvider_eq_ok hnext
      simp only [Std.ExtTreeMap.getElem?_map] at hlater
      obtain ⟨tree, htree, rfl⟩ := Option.map_eq_some_iff.mp hlater
      have htracked := h promiseId tree htree
      rw [markProviderGone_providerId]
      unfold markProviderGone
      by_cases hgone : tree.providerId = gone
      · by_cases hstate : tree.state = .available <;> simp [hgone, hstate]
      · simp [hgone, Ne.symm hgone, htracked]
  | @commit _ _ builder _ =>
      rw [hasProvider_congr (runtime.commitPromise_frame builder).2.2.1]
      rcases runtime.commitPromise_cases builder with hpromises | ⟨tree, hpromises, hstate, hlive⟩
      · rw [hpromises] at hlater
        exact h promiseId later hlater
      · simp only [hpromises, Std.ExtTreeMap.getElem?_insert,
          Std.LawfulEqCmp.compare_eq_iff_eq] at hlater
        split at hlater
        · obtain rfl := Option.some.inj hlater
          exact iff_of_true hstate hlive
        · exact h promiseId later hlater
  | mark hnext =>
      obtain ⟨path, tree, -, htree, -, rfl⟩ := markNodeMaterialized_eq_ok hnext
      simp only [Std.ExtTreeMap.getElem?_insert, Std.LawfulEqCmp.compare_eq_iff_eq] at hlater
      split at hlater
      · obtain rfl := Option.some.inj hlater
        exact h _ tree htree
      · exact h promiseId later hlater
  | record hnext =>
      rcases recordCachedRead_eq_ok hnext with ⟨rfl, -⟩ | ⟨_, _, _, -, -, -, -, rfl⟩
      · exact h promiseId later hlater
      · exact h promiseId later hlater

/-- A provider that is known stays known. -/
theorem Effect.mem_providers {runtime next : Runtime} {op : RuntimeOp}
    (heffect : Effect runtime op next) {providerId : ProviderId}
    (hknown : providerId ∈ runtime.providers) : providerId ∈ next.providers := by
  cases heffect with
  | keep => exact hknown
  | register => exact Std.ExtTreeMap.mem_insert.mpr (Or.inr hknown)
  | unregister hnext =>
      obtain ⟨_, -, rfl⟩ := unregisterProvider_eq_ok hnext
      exact Std.ExtTreeMap.mem_insert.mpr (Or.inr hknown)
  | commit => exact (runtime.commitPromise_frame _).2.2.1 ▸ hknown
  | mark hnext =>
      obtain ⟨_, _, -, -, -, rfl⟩ := markNodeMaterialized_eq_ok hnext
      exact hknown
  | record hnext =>
      rcases recordCachedRead_eq_ok hnext with ⟨rfl, -⟩ | ⟨_, _, _, -, -, -, -, rfl⟩ <;>
        exact hknown

/-- Unless its id has just been given out, a provider that is live was live before. -/
theorem Effect.live {runtime next : Runtime} {op : RuntimeOp} (heffect : Effect runtime op next)
    {providerId : ProviderId} (hnew : providerId ≠ runtime.nextProviderId)
    (hlive : next.hasProvider providerId = true) : runtime.hasProvider providerId = true := by
  cases heffect with
  | keep => exact hlive
  | register => rwa [runtime.hasProvider_registerProvider hnew] at hlive
  | unregister hnext =>
      rw [hasProvider_unregisterProvider hnext] at hlive
      split at hlive
      · simp at hlive
      · exact hlive
  | @commit _ _ builder _ =>
      exact hasProvider_congr (runtime.commitPromise_frame builder).2.2.1 providerId ▸ hlive
  | mark hnext =>
      obtain ⟨_, _, -, -, -, rfl⟩ := markNodeMaterialized_eq_ok hnext
      exact hlive
  | record hnext =>
      rcases recordCachedRead_eq_ok hnext with ⟨rfl, -⟩ | ⟨_, _, _, -, -, -, -, rfl⟩ <;>
        exact hlive

theorem Tracked.run {runtime : Runtime} (hwf : runtime.WellFormed) (h : runtime.Tracked)
    (ops : List RuntimeOp) : (runtime.run ops).Tracked := by
  induction ops generalizing runtime with
  | nil => exact h
  | cons op rest ih =>
      have heffect := runtime.effect_apply op
      exact ih (hwf.effect heffect) (h.effect hwf heffect)

/-- Over a whole run, too, a provider that is live at the end was live at the start. -/
theorem live_of_run {runtime : Runtime} (hwf : runtime.WellFormed) (ops : List RuntimeOp)
    {providerId : ProviderId} (hknown : providerId ∈ runtime.providers)
    (hlive : (runtime.run ops).hasProvider providerId = true) :
    runtime.hasProvider providerId = true := by
  induction ops generalizing runtime with
  | nil => exact hlive
  | cons op rest ih =>
      have heffect := runtime.effect_apply op
      exact heffect.live (hwf.provider hknown).2.ne
        (ih (hwf.effect heffect) (heffect.mem_providers hknown) hlive)

theorem tracked_of_withCachePolicy {start : Runtime} {policy : CachePolicy}
    (h : withCachePolicy policy = .ok start) : start.Tracked := by
  intro promiseId tree htree
  obtain ⟨-, hpromises, -⟩ := withCachePolicy_eq_ok h
  simp [hpromises] at htree

/-! ## Reading a file whose provider is gone -/

/-- A read inside a file whose provider cannot be asked: the copy, the cache or an error. -/
theorem planRead_of_gone {runtime : Runtime} (hwf : runtime.WellFormed)
    {promiseId relativePath : Text} {tree : PromiseTree} {node : PromiseNode}
    (hnode : runtime.fileNode promiseId relativePath = .ok (tree, node))
    (hgone : tree.state ≠ .available) {offset length : ℕ} (hpos : 0 < length)
    (hlength : length ≤ u32Max) (hoffset : offset < node.attr.size.toNat) :
    runtime.planRead promiseId relativePath offset length =
      match node.materializedPath with
      | some path => .ok (.materialized
          ⟨path, offset, min length (node.attr.size.toNat - offset)⟩)
      | none =>
          match runtime.cachedRead promiseId node.relativePath offset
              (min length (node.attr.size.toNat - offset)) with
          | some bytes => .ok (.cached bytes)
          | none => .error .providerGone := by
  rw [planRead_eq hnode hpos hoffset (clampLength_inside hoffset hlength)]
  cases node.materializedPath with
  | some path => rfl
  | none =>
      have hgoneRead : runtime.planProviderRead promiseId node.relativePath offset
          (min length (node.attr.size.toNat - offset)) = .error .providerGone := by
        obtain ⟨-, -, hstored, hkind⟩ := hwf.fileNode hnode
        obtain ⟨htree, -, -⟩ := fileNode_eq_ok.mp hnode
        have hinside : ¬ (min length (node.attr.size.toNat - offset) = 0 ∨
            node.attr.size.toNat ≤ offset) := by omega
        have hclamp := clampLength_inside hoffset
          ((Nat.min_le_left length (node.attr.size.toNat - offset)).trans hlength)
        simp only [planProviderRead, hwf.fileNode_of_stored htree hstored hkind, bind, Except.bind,
          hinside, if_false, hclamp, liveProvider, hgone, ne_eq, not_false_eq_true, if_true]
      simp only [hgoneRead]
      rfl

/-- The cache holds a range exactly when it is kept and every byte was recorded. -/
theorem exists_cachedRead_iff {policy : CachePolicy} {start : Runtime}
    (hstart : withCachePolicy policy = .ok start) (ops : List RuntimeOp)
    (promiseId relativePath : Text) (offset : ℕ) {length : ℕ} (hpos : 0 < length) :
    (∃ bytes, (start.run ops).cachedRead promiseId relativePath offset length = some bytes) ↔
      (∃ chunkSize, policy = .readThrough chunkSize) ∧
        ∀ i < length,
          (lastRecorded (start.records ops) ⟨promiseId, relativePath⟩ (offset + i)).isSome := by
  have hpolicy : (start.run ops).cachePolicy = policy :=
    (start.cachePolicy_run ops).trans (withCachePolicy_eq_ok hstart).1
  cases policy with
  | noCache => simp [cachedRead, hpolicy, CachePolicy.chunkSize]
  | readThrough chunkSize =>
      have hchunk : 0 < chunkSize := chunkSize_pos_of_start hstart
      have hread : ∀ bytes,
          (start.run ops).cachedRead promiseId relativePath offset length = some bytes ↔
            Reads (lastRecorded (start.records ops) ⟨promiseId, relativePath⟩) offset length
              bytes := by
        intro bytes
        rw [← read_eq_some_iff_recorded hstart ops ⟨promiseId, relativePath⟩ hpos bytes]
        simp [cachedRead, hpolicy, CachePolicy.chunkSize, hchunk]
      simp only [hread, exists_reads_iff]
      simp

theorem hasProvider_iff {runtime : Runtime} {providerId : ProviderId} :
    runtime.hasProvider providerId = true ↔
      ∃ provider, runtime.providers[providerId]? = some provider ∧ provider.state = .live := by
  unfold hasProvider
  split
  · rename_i hprovider
    simp [hprovider]
  · rename_i hnone
    simp [hnone]

/-- Promises are available as long as their provider is live, nothing comes back, and a file
whose provider is gone is read from its copy, from the cache, or not at all. -/
theorem run_lifecycle {policy : CachePolicy} {start : Runtime}
    (hstart : withCachePolicy policy = .ok start) (ops : List RuntimeOp) :
    let runtime := start.run ops
    (∀ (promiseId : Text) (tree : PromiseTree), runtime.promises[promiseId]? = some tree →
      (tree.state = .available ↔
        ∃ provider, runtime.providers[tree.providerId]? = some provider ∧
          provider.state = .live)) ∧
    (∀ (later : List RuntimeOp) (providerId : ProviderId) (provider provider' : ProviderSession),
      runtime.providers[providerId]? = some provider → provider.state ≠ .live →
      (runtime.run later).providers[providerId]? = some provider' → provider'.state ≠ .live) ∧
    (∀ (later : List RuntimeOp) (promiseId : Text) (tree tree' : PromiseTree),
      runtime.promises[promiseId]? = some tree → tree.state ≠ .available →
      (runtime.run later).promises[promiseId]? = some tree' → tree'.state ≠ .available) ∧
    ∀ (promiseId relativePath : Text) (tree : PromiseTree) (node : PromiseNode)
      (provider : ProviderSession) (offset length : ℕ),
      runtime.fileNode promiseId relativePath = .ok (tree, node) →
      runtime.providers[tree.providerId]? = some provider → provider.state = .disconnected →
      0 < length → length ≤ u32Max → offset < node.attr.size.toNat →
      let plan := runtime.planRead promiseId relativePath offset length
      ((∃ read, plan = .ok read) ↔ node.materializedPath.isSome ∨
        (∃ chunkSize, policy = .readThrough chunkSize) ∧
          ∀ i < min length (node.attr.size.toNat - offset),
            (lastRecorded (start.records ops) ⟨promiseId, node.relativePath⟩
              (offset + i)).isSome) ∧
      (∀ request, plan ≠ .ok (.request request)) ∧
      ∀ status, plan = .error status → status = .providerGone := by
  intro runtime
  have hwf : runtime.WellFormed := (wellFormed_of_withCachePolicy hstart).run ops
  have htracked : runtime.Tracked :=
    (tracked_of_withCachePolicy hstart).run (wellFormed_of_withCachePolicy hstart) ops
  refine ⟨?_, ?_, ?_, ?_⟩
  · intro promiseId tree htree
    rw [htracked promiseId tree htree, hasProvider_iff]
  · intro later providerId provider provider' hprovider hgone hprovider' hlive
    have hback := live_of_run hwf later (BTreeMap.mem_of_getElem? hprovider)
      (hasProvider_iff.mpr ⟨provider', hprovider', hlive⟩)
    obtain ⟨found, hfound, hfoundLive⟩ := hasProvider_iff.mp hback
    obtain rfl : found = provider := Option.some.inj (hfound.symm.trans hprovider)
    exact hgone hfoundLive
  · intro later promiseId tree tree' htree hgone htree' havailable
    -- the promise follows its provider, which does not come back
    obtain ⟨found, hfound, hpersists⟩ := persists_run hwf later htree
    obtain rfl : found = tree' := Option.some.inj (hfound.symm.trans htree')
    have hlive := (htracked.run hwf later promiseId found hfound).mp havailable
    rw [hpersists.providerId] at hlive
    exact hgone ((htracked promiseId tree htree).mpr
      (live_of_run hwf later (hwf.owner htree) hlive))
  · intro promiseId relativePath tree node provider offset length hnode hprovider hgone hpos
      hlength hoffset plan
    have hstate : tree.state ≠ .available := by
      intro havailable
      obtain ⟨htree, -, -⟩ := fileNode_eq_ok.mp hnode
      obtain ⟨found, hfound, hlive⟩ :=
        hasProvider_iff.mp ((htracked promiseId tree htree).mp havailable)
      obtain rfl : found = provider := Option.some.inj (hfound.symm.trans hprovider)
      rw [hgone] at hlive
      simp at hlive
    have hplan : plan = _ := planRead_of_gone hwf hnode hstate hpos hlength hoffset
    have hcached := exists_cachedRead_iff hstart ops promiseId node.relativePath offset
      (show 0 < min length (node.attr.size.toNat - offset) by omega)
    rw [← hcached, hplan]
    cases node.materializedPath with
    | some path => exact ⟨by simp, by simp, by simp⟩
    | none =>
        cases hread : (start.run ops).cachedRead promiseId node.relativePath offset
            (min length (node.attr.size.toNat - offset)) with
        | some bytes => exact ⟨by simp, by simp, by simp⟩
        | none => exact ⟨by simp, by simp, by simp⟩

/-- A recorded file is read after its provider has gone. -/
theorem run_lifecycle_recorded :
    ∃ start, withCachePolicy (.readThrough 4) = .ok start ∧
      ∃ read, (start.run [.registerProvider,
        .commitPromise 1 [⟨"a".toList, "n".toList, .file, ⟨0o644, 3, 0⟩⟩],
        .recordCachedRead "promise-1".toList "a".toList 0 [7, 8, 9],
        .unregisterProvider 1]).planRead "promise-1".toList "a".toList 0 3 = .ok read :=
  ⟨_, rfl, ((run_lifecycle rfl _).2.2.2 "promise-1".toList "a".toList _ _ _ 0 3 rfl rfl rfl
    (by decide) (by decide) (by decide)).1.mpr (Or.inr ⟨⟨4, rfl⟩, by decide⟩)⟩

end Runtime

end FusePromise
