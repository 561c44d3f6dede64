import FusePromise.Runtime.CacheSizes

/-!
# The ranges of the planners fit each other

A read that has to be asked of a provider goes through three planners: `planRead` cuts
it off at the end of the file, `planCoalescedProviderRead` widens it to a chunk, and the
reply is recorded in the cache, from which `planRead` takes it the next time.  Other
calls may come in between, also such that change the chunk size, but a file keeps its
size.
-/

namespace FusePromise

open Machine ByteMap

/-- A widened plan covers the plan it was made from, inside a file of this size. -/
structure CoalescedProviderReadPlan.Covers (coalesced : CoalescedProviderReadPlan)
    (plan : ProviderReadPlan) (size : ℕ) : Prop where
  file : ∃ offset length, coalesced.provider = { plan with offset, length }
  start_le : coalesced.provider.offset ≤ plan.offset
  le_end : plan.offset + plan.length ≤ coalesced.provider.offset + coalesced.provider.length
  inside : coalesced.provider.offset + coalesced.provider.length ≤ size
  distance : coalesced.responseOffset = plan.offset - coalesced.provider.offset
  length : coalesced.responseLength = plan.length
  response_le : coalesced.responseOffset + coalesced.responseLength ≤ coalesced.provider.length

namespace Runtime

variable {runtime : Runtime} {promiseId relativePath : Text} {offset length : ℕ}
  {plan : ProviderReadPlan}

/-! ## A read that is asked of a provider -/

/-- What a request plan was made from. -/
theorem planRead_eq_request (hwf : runtime.WellFormed)
    (h : runtime.planRead promiseId relativePath offset length = .ok (.request plan)) :
    ∃ tree node, runtime.fileNode promiseId relativePath = .ok (tree, node) ∧ 0 < length ∧
      offset < node.attr.size.toNat ∧ clampLength node offset length = .ok plan.length ∧
      plan = providerPlan tree node offset plan.length := by
  obtain ⟨tree, node, hnode, ⟨-, heof⟩ | ⟨clamped, hlength, hoffset, hclamp, hplan⟩⟩ :=
    planRead_eq_ok h
  · simp at heof
  · rcases hplan with ⟨path, -, hcopy⟩ | ⟨-, bytes, -, hcached⟩ | ⟨-, -, request, hrequest, heq⟩
    · simp at hcopy
    · simp at hcached
    obtain rfl := ReadPlan.request.inj heq
    obtain ⟨tree', node', again, hnode', -, -, hagain, -, hplan⟩ :=
      planProviderRead_eq_ok.mp hrequest
    -- the second lookup, by the normal path, finds the same file
    obtain ⟨htree, -, -⟩ := fileNode_eq_ok.mp hnode
    obtain ⟨-, -, hstored, hkind⟩ := hwf.fileNode hnode
    rw [hwf.fileNode_of_stored htree hstored hkind] at hnode'
    obtain ⟨rfl, rfl⟩ := Prod.mk.inj (Except.ok.inj hnode')
    obtain rfl : again = clamped := by
      rw [clampLength_eq_ok] at hclamp hagain
      omega
    refine ⟨tree, node, hnode, hlength, hoffset, ?_, ?_⟩
    · rw [hplan]
      exact hclamp
    · rw [hplan]
      rfl

/-- A request lies inside its file and is not empty. -/
theorem clampLength_range {node : PromiseNode} {clamped : ℕ} (hlength : 0 < length)
    (hoffset : offset < node.attr.size.toNat)
    (hclamp : clampLength node offset length = .ok clamped) :
    0 < clamped ∧ offset + clamped ≤ node.attr.size.toNat := by
  rw [clampLength_eq_ok] at hclamp
  omega

/-- A plan inside a file is widened inside the file. -/
theorem planCoalescedProviderRead_covers {tree : PromiseTree} {node : PromiseNode}
    {coalesced : CoalescedProviderReadPlan}
    (hnode : runtime.fileNode plan.promiseId plan.relativePath = .ok (tree, node))
    (hlength : 0 < plan.length) (hinside : plan.offset + plan.length ≤ node.attr.size.toNat)
    (h : runtime.planCoalescedProviderRead plan = .ok coalesced) :
    coalesced.Covers plan node.attr.size.toNat := by
  have hfile := (planCoalescedProviderRead_eq_ok h).2.2
  unfold planCoalescedProviderRead at h
  split at h
  · -- nothing is cached, and nothing is widened
    obtain rfl := Except.ok.inj h
    exact ⟨hfile, le_rfl, le_rfl, hinside, by simp, rfl, by simp⟩
  rename_i chunkSize hpolicy
  have hpos := CachePolicy.chunkSize_pos hpolicy
  obtain ⟨⟨tree', node'⟩, hnode', h⟩ := bind_eq_ok.mp h
  obtain ⟨rfl, rfl⟩ := Prod.mk.inj (Except.ok.inj (hnode'.symm.trans hnode))
  obtain ⟨chunkStop, hstop, h⟩ := bind_eq_ok.mp h
  obtain ⟨requestEnd, hend, h⟩ := bind_eq_ok.mp h
  rw [okOr_eq_ok, checkedAdd_eq_some] at hstop hend
  split at h
  · -- the plan leaves its chunk and is asked for as it is
    obtain rfl := Except.ok.inj h
    exact ⟨hfile, le_rfl, le_rfl, hinside, by simp, rfl, by simp⟩
  · obtain ⟨wide, hwide, h⟩ := bind_eq_ok.mp h
    obtain ⟨responseOffset, hresponse, h⟩ := bind_eq_ok.mp h
    obtain rfl := Except.ok.inj h
    rw [okOr_eq_ok, toU32_eq_some] at hwide hresponse
    have hlow := chunkBase_le plan.offset chunkSize
    have hhigh := lt_chunkBase_add plan.offset hpos
    exact ⟨hfile, hlow, by dsimp only; omega, by dsimp only; omega, hresponse.1.symm, rfl,
      by dsimp only; omega⟩

/-! ## Recording the reply -/

theorem cachedRead_eq_some {chunkSize : ℕ}
    (hpolicy : runtime.cachePolicy.chunkSize = some chunkSize) (hcache : runtime.readCache.Sound)
    (hlength : 0 < length) {bytes : List UInt8} :
    runtime.cachedRead promiseId relativePath offset length = some bytes ↔
      Reads (runtime.readCache.lookup chunkSize ⟨promiseId, relativePath⟩) offset length bytes := by
  rw [← ReadCache.read_eq_some (CachePolicy.chunkSize_pos hpolicy) hcache hlength, cachedRead,
    hpolicy]
  rfl

/-- A stretch inside the bytes that were inserted last is read back as a slice of them. -/
theorem reads_insert_inside {cache : ReadCache} {chunkSize start skip count : ℕ}
    {bytes : List UInt8} (hpos : 0 < chunkSize) (hcache : cache.Sound)
    (hend : start + bytes.length ≤ u64Max) (h : skip + count ≤ bytes.length) :
    Reads ((cache.insert promiseId relativePath start bytes chunkSize).lookup chunkSize
      ⟨promiseId, relativePath⟩) (start + skip) count ((bytes.drop skip).take count) := by
  refine ⟨by simp; omega, fun i hi => ?_⟩
  have hlookup := (ReadCache.insert_lookupAt hpos hcache promiseId relativePath hend).2
    ⟨promiseId, relativePath⟩ (chunkBase (start + skip + i) chunkSize) (start + skip + i)
  -- the byte is looked up in the chunk it was inserted into
  rw [if_pos ⟨rfl, rfl⟩, overlay_of_mem ⟨by omega, by omega⟩] at hlookup
  refine hlookup.trans ?_
  rw [List.getElem?_take_of_lt hi, List.getElem?_drop]
  congr 1
  omega

/-- After a recording, a stretch of it is planned from the cache. -/
theorem planRead_recorded {chunkSize : ℕ} {next : Runtime} {tree : PromiseTree}
    {node : PromiseNode} {start skip clamped : ℕ} {bytes : List UInt8} {path : Text}
    (hwf : runtime.WellFormed) (hpolicy : runtime.cachePolicy.chunkSize = some chunkSize)
    (hcache : runtime.readCache.Sound)
    (hnode : runtime.fileNode promiseId relativePath = .ok (tree, node))
    (hcopy : node.materializedPath = none) (hpath : path = node.relativePath)
    (hnext : runtime.recordCachedRead promiseId path start bytes = .ok next)
    (hlength : 0 < length) (hoffset : offset < node.attr.size.toNat)
    (hclamp : clampLength node offset length = .ok clamped) (hskip : offset = start + skip)
    (hinside : skip + clamped ≤ bytes.length) :
    next.planRead promiseId relativePath offset length =
      .ok (.cached ((bytes.drop skip).take clamped)) := by
  obtain ⟨hpositive, -⟩ := clampLength_range hlength hoffset hclamp
  obtain ⟨htree, -, -⟩ := fileNode_eq_ok.mp hnode
  obtain ⟨-, -, hstored, hkind⟩ := hwf.fileNode hnode
  have hfound : runtime.fileNode promiseId path = .ok (tree, node) := by
    rw [hpath]
    exact hwf.fileNode_of_stored htree hstored hkind
  rcases recordCachedRead_eq_ok hnext with
    ⟨-, hnone | hnil⟩ | ⟨other, tree', node', hother, -, hnode', hfits, rfl⟩
  · simp [hpolicy] at hnone
  · simp only [hnil, List.length_nil] at hinside
    omega
  · obtain rfl := Option.some.inj (hother.symm.trans hpolicy)
    obtain ⟨rfl, rfl⟩ := Prod.mk.inj (Except.ok.inj (hnode'.symm.trans hfound))
    have hsize := toNat_le_u64Max node'.attr.size
    have hpos := CachePolicy.chunkSize_pos hpolicy
    have hcache' := (ReadCache.insert_lookupAt hpos hcache promiseId node'.relativePath
      (hfits.trans hsize)).1
    rw [planRead_eq (by exact hnode) hlength hoffset hclamp, hcopy]
    dsimp only
    -- the stretch lies in what was just recorded
    have hread : cachedRead { runtime with
        readCache := runtime.readCache.insert promiseId node'.relativePath start bytes other }
        promiseId node'.relativePath offset clamped = some ((bytes.drop skip).take clamped) := by
      refine (cachedRead_eq_some (by exact hpolicy) (by exact hcache') hpositive).mpr ?_
      rw [hskip]
      exact reads_insert_inside hpos hcache (hfits.trans hsize) hinside
    rw [hread]

/-- A file is found again later, with the same attributes, and under its normal path too. -/
theorem fileNode_later (hwf : runtime.WellFormed) (hids : runtime.Identified)
    (calls : List RuntimeCall) {tree : PromiseTree} {node : PromiseNode}
    (hnode : runtime.fileNode promiseId relativePath = .ok (tree, node)) :
    ∃ later found, (runtime.performAll calls).fileNode promiseId relativePath = .ok (later, found) ∧
      (runtime.performAll calls).fileNode promiseId node.relativePath = .ok (later, found) ∧
      found.relativePath = node.relativePath ∧ found.attr = node.attr := by
  obtain ⟨htree, hget, -⟩ := fileNode_eq_ok.mp hnode
  obtain ⟨-, hnormal, hstored, hkind⟩ := hwf.fileNode hnode
  obtain ⟨hwf', -, hkept⟩ := performAll_spec hwf hids calls
  obtain ⟨later, hlater, hkept⟩ := hkept promiseId tree htree
  obtain ⟨found, hfound, hsame⟩ := hkept.forth hstored
  have hkind' : found.kind = .file := (congrArg PromiseNode.kind hsame).trans hkind
  have hpath : found.relativePath = node.relativePath := (congrArg PromiseNode.relativePath hsame :)
  refine ⟨later, found, fileNode_eq_ok.mpr ⟨hlater, ?_, hkind'⟩,
    hwf'.fileNode_of_stored hlater hfound hkind', hpath,
    (congrArg PromiseNode.attr hsame :)⟩
  rw [PromiseTree.get, hnormal]
  exact hfound

/-! ## Reading ahead -/

/-- A prefetch lies inside the file and in one chunk's length, and is not cached. -/
theorem planSequentialPrefetch_range {chunkSize completedOffset completedLength : ℕ}
    (hpolicy : runtime.cachePolicy.chunkSize = some chunkSize)
    (hwf : runtime.WellFormed)
    (h : runtime.planSequentialPrefetch promiseId relativePath completedOffset completedLength =
      .ok (some plan)) :
    ∃ tree node, runtime.fileNode promiseId relativePath = .ok (tree, node) ∧
      plan.offset = completedOffset + completedLength ∧ 0 < plan.length ∧
      plan.offset + plan.length ≤ node.attr.size.toNat ∧ plan.length ≤ chunkSize ∧
      runtime.cachedRead plan.promiseId plan.relativePath plan.offset plan.length = none := by
  have hpos := CachePolicy.chunkSize_pos hpolicy
  unfold planSequentialPrefetch at h
  rw [hpolicy] at h
  dsimp only at h
  split at h
  · simp at h
  obtain ⟨⟨tree, node⟩, hnode, h⟩ := bind_eq_ok.mp h
  refine ⟨tree, node, hnode, ?_⟩
  obtain ⟨hid, -, -, -⟩ := hwf.fileNode hnode
  dsimp only at h
  split at h
  · simp [pure, Except.pure] at h
  obtain ⟨providerId, -, h⟩ := bind_eq_ok.mp h
  obtain ⟨offset, hoffset, h⟩ := bind_eq_ok.mp h
  rw [okOr_eq_ok, checkedAdd_eq_some] at hoffset
  split at h
  · simp [pure, Except.pure] at h
  obtain ⟨length, hlength, h⟩ := bind_eq_ok.mp h
  rw [okOr_eq_ok, toU32_eq_some] at hlength
  split at h
  · simp [pure, Except.pure] at h
  rename_i hinside _ hnone
  obtain rfl := Option.some.inj (Except.ok.inj h)
  dsimp only
  refine ⟨hoffset.1.symm, by omega, by omega, by omega, ?_⟩
  rw [cachedRead, hpolicy, hid]
  exact hnone

/-! ## The planners fit each other -/

/-- The file is not materialized. -/
def Unmaterialized (runtime : Runtime) (promiseId relativePath : Text) : Prop :=
  ∀ tree node, runtime.fileNode promiseId relativePath = .ok (tree, node) →
    node.materializedPath = none

/-- In every runtime with a chunk size, after any calls: a read that is asked of a provider lies
inside its file; the widened plan covers it, also inside the file; every reply to it can be
recorded, and a full one answers the same read from the cache.  A prefetch follows the completed
read, is inside the file and at most a chunk long, and is not in the cache. -/
theorem planned_ranges_fit {calls : List RuntimeCall} {chunkSize : ℕ}
    (hpolicy : (new.performAll calls).cachePolicy.chunkSize = some chunkSize) :
    let runtime := new.performAll calls
    (∀ (promiseId relativePath : Text) (offset length : ℕ) (plan : ProviderReadPlan),
      runtime.planRead promiseId relativePath offset length = .ok (.request plan) →
      ∃ tree node, runtime.fileNode promiseId relativePath = .ok (tree, node) ∧
        0 < plan.length ∧ plan.offset = offset ∧
        plan.offset + plan.length ≤ node.attr.size.toNat ∧
        ∀ (between : List RuntimeCall) (coalesced : CoalescedProviderReadPlan),
          (runtime.performAll between).planCoalescedProviderRead plan = .ok coalesced →
          coalesced.Covers plan node.attr.size.toNat ∧
          ∀ (later : List RuntimeCall) (bytes : List UInt8),
            bytes.length ≤ coalesced.provider.length →
            ∃ next, ((runtime.performAll between).performAll later).recordCachedRead
                coalesced.provider.promiseId coalesced.provider.relativePath
                coalesced.provider.offset bytes = .ok next ∧
              (bytes.length = coalesced.provider.length →
                ((runtime.performAll between).performAll later).cachePolicy.chunkSize ≠ none →
                ((runtime.performAll between).performAll later).Unmaterialized promiseId
                  relativePath →
                next.planRead promiseId relativePath offset length =
                  .ok (.cached ((bytes.drop coalesced.responseOffset).take
                    coalesced.responseLength)))) ∧
    ∀ (promiseId relativePath : Text) (completedOffset completedLength : ℕ)
      (plan : ProviderReadPlan),
      runtime.planSequentialPrefetch promiseId relativePath completedOffset completedLength =
        .ok (some plan) →
      ∃ tree node, runtime.fileNode promiseId relativePath = .ok (tree, node) ∧
        plan.offset = completedOffset + completedLength ∧ 0 < plan.length ∧
        plan.offset + plan.length ≤ node.attr.size.toNat ∧ plan.length ≤ chunkSize ∧
        runtime.cachedRead plan.promiseId plan.relativePath plan.offset plan.length = none := by
  intro runtime
  obtain ⟨hwf, hids⟩ : runtime.WellFormed ∧ runtime.Identified := reachable_spec calls
  refine ⟨?_, fun _ _ _ _ _ => planSequentialPrefetch_range hpolicy hwf⟩
  intro promiseId relativePath offset length plan hplan
  obtain ⟨tree, node, hnode, hlength, hoffset, hclamp, hmade⟩ := planRead_eq_request hwf hplan
  obtain ⟨hpositive, hinside⟩ := clampLength_range hlength hoffset hclamp
  have hstart : plan.offset = offset := by rw [hmade]; rfl
  have hid : plan.promiseId = promiseId := by
    rw [hmade]
    exact (hwf.fileNode hnode).1
  have hpath : plan.relativePath = node.relativePath := by rw [hmade]; rfl
  refine ⟨tree, node, hnode, hpositive, hstart, by omega, ?_⟩
  intro between coalesced hcoalesced
  have hcovers : coalesced.Covers plan node.attr.size.toNat := by
    obtain ⟨tree', node', -, hfound, -, hattr⟩ := fileNode_later hwf hids between hnode
    rw [← hid, ← hpath] at hfound
    rw [← hattr] at hinside ⊢
    exact planCoalescedProviderRead_covers hfound hpositive (by omega) hcoalesced
  refine ⟨hcovers, ?_⟩
  intro later bytes hbytes
  obtain ⟨tree', node', hnode', hfound, hsame, hattr⟩ :=
    fileNode_later hwf hids (between ++ later) hnode
  -- the calls so far, from the new runtime on
  have hall : (runtime.performAll between).performAll later =
      new.performAll (calls ++ (between ++ later)) := by
    simp only [runtime, performAll, List.foldl_append]
  have hall' : runtime.performAll (between ++ later) =
      new.performAll (calls ++ (between ++ later)) := by
    simp only [runtime, performAll, List.foldl_append]
  rw [hall]
  rw [hall'] at hnode' hfound
  obtain ⟨_, _, hfile⟩ := hcovers.file
  have hcovered := hcovers.inside
  obtain ⟨next, hnext⟩ := recordCachedRead_ok hfound coalesced.provider.offset bytes
    (by rw [hattr]; omega)
  have hname : coalesced.provider.promiseId = promiseId := by rw [hfile]; exact hid
  have hkey : coalesced.provider.relativePath = node.relativePath := by rw [hfile]; exact hpath
  rw [hname, hkey]
  refine ⟨next, hnext, ?_⟩
  intro hfull hchunks hfree
  obtain ⟨size, hsize⟩ := Option.ne_none_iff_exists'.mp hchunks
  have hdistance := hcovers.distance
  have hbefore := hcovers.start_le
  have hresponse := hcovers.response_le
  rw [hcovers.length] at hresponse ⊢
  have hsound := (CacheHistory.inv_after (calls ++ (between ++ later))).sound
  rw [CacheHistory.runtime_after] at hsound
  exact planRead_recorded (reachable_spec _).1 hsize hsound hnode' (hfree tree' node' hnode')
    hsame.symm hnext hlength (by rw [hattr]; exact hoffset)
    (by rw [clampLength, hattr]; exact hclamp) (by omega) (by omega)

/-- Two bytes of a file in the second chunk, with a chunk size that is changed before they are
asked for: the whole chunk is asked for and recorded. -/
theorem planned_ranges_fit_chunk :
    ∃ next, (new.performAll [.setCachePolicy (.readThrough 8), .op .registerProvider,
        .op (.commitPromise 1 [⟨"a".toList, "n".toList, .file, ⟨0o644, 10, 0⟩⟩]),
        .setCachePolicy (.readThrough 4)]).recordCachedRead
          "promise-1".toList "a".toList 4 [1, 2, 3, 4] = .ok next ∧
      next.planRead "promise-1".toList "a".toList 5 2 = .ok (.cached [2, 3]) := by
  have hpolicy : (new.performAll [.setCachePolicy (.readThrough 8), .op .registerProvider,
      .op (.commitPromise 1 [⟨"a".toList, "n".toList, .file, ⟨0o644, 10, 0⟩⟩])]
      ).cachePolicy.chunkSize = some 8 := by
    decide +kernel
  obtain ⟨_, _, -, -, -, -, hcoalesced⟩ := (planned_ranges_fit hpolicy).1
      "promise-1".toList "a".toList 5 2 ⟨1, "promise-1".toList, "a".toList, "n".toList, 5, 2⟩
      (by decide +kernel)
  obtain ⟨next, hnext, hcached⟩ := (hcoalesced [.setCachePolicy (.readThrough 4)]
    ⟨⟨1, "promise-1".toList, "a".toList, "n".toList, 4, 4⟩, 1, 2⟩ (by decide +kernel)).2 []
      [1, 2, 3, 4] (by decide)
  refine ⟨next, hnext, hcached rfl (by decide +kernel) ?_⟩
  intro tree node hnode
  have hcopy : (fileNode (new.performAll [.setCachePolicy (.readThrough 8), .op .registerProvider,
      .op (.commitPromise 1 [⟨"a".toList, "n".toList, .file, ⟨0o644, 10, 0⟩⟩]),
      .setCachePolicy (.readThrough 4)]) "promise-1".toList "a".toList).map
        (fun found => found.2.materializedPath) = .ok none := by
    decide +kernel
  have hfound : Except.map _ _ = _ := congrArg (Except.map fun found => found.2.materializedPath)
    hnode
  exact Except.ok.inj (hfound.symm.trans hcopy)

end Runtime

end FusePromise
