import FusePromise.Runtime.Invariant

/-!
# What the read planner returns

Equations for the planning operations on a file that was found, and inversion
lemmas for the plans they return.  Lengths are cut off at the end of the file,
and a widened plan together with its slice still names the bytes of the plan it
was made from.
-/

namespace FusePromise

open Machine

namespace Runtime

variable {runtime : Runtime}

theorem clampLength_eq_ok {node : PromiseNode} {offset length clamped : ℕ} :
    clampLength node offset length = .ok clamped ↔
      clamped = min length (node.attr.size.toNat - offset) ∧ clamped ≤ u32Max ∧
        offset + clamped ≤ u64Max := by
  unfold clampLength
  simp only [bind_eq_ok, okOr_eq_ok, toU32_eq_some, checkedAdd_eq_some]
  constructor
  · rintro ⟨n, ⟨rfl, hsmall⟩, _, ⟨-, hend⟩, h⟩
    obtain rfl := Except.ok.inj h
    exact ⟨rfl, hsmall, hend⟩
  · rintro ⟨rfl, hsmall, hend⟩
    exact ⟨_, ⟨rfl, hsmall⟩, _, ⟨rfl, hend⟩, rfl⟩

/-- A request inside a file is cut off at its end. -/
theorem clampLength_inside {node : PromiseNode} {offset length : ℕ}
    (hoffset : offset < node.attr.size.toNat) (hlength : length ≤ u32Max) :
    clampLength node offset length = .ok (min length (node.attr.size.toNat - offset)) := by
  have hsize := toNat_le_u64Max node.attr.size
  exact clampLength_eq_ok.mpr ⟨rfl, by omega, by omega⟩

theorem liveProvider_eq_ok {tree : PromiseTree} {providerId : ProviderId} :
    runtime.liveProvider tree = .ok providerId ↔
      tree.state = .available ∧ runtime.hasProvider tree.providerId = true ∧
        providerId = tree.providerId := by
  unfold liveProvider
  by_cases hstate : tree.state = .available
  · by_cases hlive : runtime.hasProvider tree.providerId = true
    · simp only [hstate, hlive, ne_eq, not_true_eq_false, if_false, if_true, Except.ok.injEq,
        true_and]
      exact eq_comm
    · simp [hstate, hlive]
  · simp [hstate]

/-- The plan for a range of a file, asked of its provider. -/
def providerPlan (tree : PromiseTree) (node : PromiseNode) (offset length : ℕ) :
    ProviderReadPlan where
  providerId := tree.providerId
  promiseId := tree.promiseId
  relativePath := node.relativePath
  providerNodeId := node.providerNodeId
  offset := offset
  length := length

theorem planProviderRead_eq_ok {promiseId relativePath : Text} {offset length : ℕ}
    {plan : ProviderReadPlan} :
    runtime.planProviderRead promiseId relativePath offset length = .ok plan ↔
      ∃ tree node clamped, runtime.fileNode promiseId relativePath = .ok (tree, node) ∧
        0 < length ∧ offset < node.attr.size.toNat ∧
        clampLength node offset length = .ok clamped ∧
        runtime.liveProvider tree = .ok tree.providerId ∧
        plan = providerPlan tree node offset clamped := by
  unfold planProviderRead
  constructor
  · intro h
    obtain ⟨⟨tree, node⟩, hnode, h⟩ := bind_eq_ok.mp h
    dsimp only at h
    split at h
    · simp at h
    · rename_i hrange
      obtain ⟨clamped, hclamp, h⟩ := bind_eq_ok.mp h
      obtain ⟨providerId, hlive, h⟩ := bind_eq_ok.mp h
      obtain rfl := Except.ok.inj h
      obtain rfl := (liveProvider_eq_ok.mp hlive).2.2
      exact ⟨tree, node, clamped, hnode, by omega, by omega, hclamp, hlive, rfl⟩
  · rintro ⟨tree, node, clamped, hnode, hlength, hoffset, hclamp, hlive, rfl⟩
    refine bind_eq_ok.mpr ⟨(tree, node), hnode, ?_⟩
    dsimp only
    rw [if_neg (by omega)]
    exact bind_eq_ok.mpr ⟨clamped, hclamp, bind_eq_ok.mpr ⟨tree.providerId, hlive, rfl⟩⟩

/-- The plan for a range inside a file. -/
theorem planRead_eq {promiseId relativePath : Text} {offset length clamped : ℕ}
    {tree : PromiseTree} {node : PromiseNode}
    (hnode : runtime.fileNode promiseId relativePath = .ok (tree, node)) (hlength : 0 < length)
    (hoffset : offset < node.attr.size.toNat)
    (hclamp : clampLength node offset length = .ok clamped) :
    runtime.planRead promiseId relativePath offset length =
      match node.materializedPath with
      | some path => .ok (.materialized ⟨path, offset, clamped⟩)
      | none =>
          match runtime.cachedRead promiseId node.relativePath offset clamped with
          | some bytes => .ok (.cached bytes)
          | none => do
              let plan ← runtime.planProviderRead promiseId node.relativePath offset clamped
              return .request plan := by
  unfold planRead
  simp only [hnode, hclamp, bind, Except.bind]
  rw [if_neg (by omega)]
  rfl

/-- Every plan of the planner. -/
theorem planRead_eq_ok {promiseId relativePath : Text} {offset length : ℕ} {plan : ReadPlan}
    (h : runtime.planRead promiseId relativePath offset length = .ok plan) :
    ∃ tree node, runtime.fileNode promiseId relativePath = .ok (tree, node) ∧
      (((length = 0 ∨ node.attr.size.toNat ≤ offset) ∧ plan = .eof) ∨
        ∃ clamped, 0 < length ∧ offset < node.attr.size.toNat ∧
          clampLength node offset length = .ok clamped ∧
          ((∃ path, node.materializedPath = some path ∧
              plan = .materialized ⟨path, offset, clamped⟩) ∨
            (node.materializedPath = none ∧ ∃ bytes,
              runtime.cachedRead promiseId node.relativePath offset clamped = some bytes ∧
                plan = .cached bytes) ∨
            (node.materializedPath = none ∧
              runtime.cachedRead promiseId node.relativePath offset clamped = none ∧
              ∃ request,
                runtime.planProviderRead promiseId node.relativePath offset clamped =
                  .ok request ∧ plan = .request request))) := by
  have hplan := h
  unfold planRead at h
  obtain ⟨⟨tree, node⟩, hnode, h⟩ := bind_eq_ok.mp h
  refine ⟨tree, node, hnode, ?_⟩
  dsimp only at h
  split at h
  · rename_i heof
    exact Or.inl ⟨heof, (Except.ok.inj h).symm⟩
  · rename_i hrange
    obtain ⟨clamped, hclamp, h⟩ := bind_eq_ok.mp h
    refine Or.inr ⟨clamped, by omega, by omega, hclamp, ?_⟩
    rw [planRead_eq hnode (by omega) (by omega) hclamp] at hplan
    -- the order of the planner: the copy, the cache, the provider
    cases hmaterialized : node.materializedPath with
    | some path =>
        simp only [hmaterialized] at hplan
        exact Or.inl ⟨path, rfl, (Except.ok.inj hplan).symm⟩
    | none =>
        simp only [hmaterialized] at hplan
        cases hcached : runtime.cachedRead promiseId node.relativePath offset clamped with
        | some bytes =>
            simp only [hcached] at hplan
            exact Or.inr (Or.inl ⟨rfl, bytes, rfl, (Except.ok.inj hplan).symm⟩)
        | none =>
            simp only [hcached] at hplan
            obtain ⟨request, hrequest, hplan⟩ := bind_eq_ok.mp hplan
            exact Or.inr (Or.inr ⟨rfl, rfl, request, hrequest, (Except.ok.inj hplan).symm⟩)

section Widening

variable {plan : ProviderReadPlan} {chunkSize : ℕ} {tree : PromiseTree} {node : PromiseNode}
  (hpolicy : runtime.cachePolicy.chunkSize = some chunkSize)
  (hnode : runtime.fileNode plan.promiseId plan.relativePath = .ok (tree, node))

include hpolicy hnode

/-- The last chunk of the offset space cannot be widened to. -/
theorem planCoalescedProviderRead_overflow
    (hchunk : u64Max < chunkBase plan.offset chunkSize + chunkSize) :
    runtime.planCoalescedProviderRead plan = .error .invalidArgument := by
  have hstop : checkedAdd (chunkBase plan.offset chunkSize) chunkSize = none :=
    checkedAdd_eq_none.mpr hchunk
  simp only [planCoalescedProviderRead, hpolicy, hnode, hstop, okOr, bind, Except.bind]

/-- A plan that leaves its chunk is not widened. -/
theorem planCoalescedProviderRead_spanning
    (hchunk : chunkBase plan.offset chunkSize + chunkSize ≤ u64Max)
    (hend : plan.offset + plan.length ≤ u64Max)
    (hspan : chunkBase plan.offset chunkSize + chunkSize < plan.offset + plan.length) :
    runtime.planCoalescedProviderRead plan = .ok ⟨plan, 0, plan.length⟩ := by
  have hstop : checkedAdd (chunkBase plan.offset chunkSize) chunkSize =
      some (chunkBase plan.offset chunkSize + chunkSize) := checkedAdd_eq_some.mpr ⟨rfl, hchunk⟩
  have hrequest : checkedAdd plan.offset plan.length = some (plan.offset + plan.length) :=
    checkedAdd_eq_some.mpr ⟨rfl, hend⟩
  simp only [planCoalescedProviderRead, hpolicy, hnode, hstop, hrequest, okOr, bind, Except.bind,
    if_pos hspan]
  rfl

/-- A plan inside its chunk asks for all of the chunk that lies in the file. -/
theorem planCoalescedProviderRead_widened (hpos : 0 < chunkSize) (hsmall : chunkSize ≤ u32Max)
    (hchunk : chunkBase plan.offset chunkSize + chunkSize ≤ u64Max)
    (hinside : plan.offset + plan.length ≤ chunkBase plan.offset chunkSize + chunkSize) :
    runtime.planCoalescedProviderRead plan =
      .ok ⟨{ plan with
          offset := chunkBase plan.offset chunkSize
          length := min chunkSize (node.attr.size.toNat - chunkBase plan.offset chunkSize) },
        plan.offset - chunkBase plan.offset chunkSize, plan.length⟩ := by
  have hoffset : plan.offset < chunkBase plan.offset chunkSize + chunkSize := by
    unfold chunkBase
    have := Nat.lt_div_mul_add (a := plan.offset) hpos
    omega
  have hstop : checkedAdd (chunkBase plan.offset chunkSize) chunkSize =
      some (chunkBase plan.offset chunkSize + chunkSize) := checkedAdd_eq_some.mpr ⟨rfl, hchunk⟩
  have hrequest : checkedAdd plan.offset plan.length = some (plan.offset + plan.length) :=
    checkedAdd_eq_some.mpr ⟨rfl, by omega⟩
  have hlength : toU32 (min chunkSize
      (node.attr.size.toNat - chunkBase plan.offset chunkSize)) = some (min chunkSize
      (node.attr.size.toNat - chunkBase plan.offset chunkSize)) :=
    toU32_eq_some.mpr ⟨rfl, by omega⟩
  have hresponse : toU32 (plan.offset - chunkBase plan.offset chunkSize) =
      some (plan.offset - chunkBase plan.offset chunkSize) :=
    toU32_eq_some.mpr ⟨rfl, by omega⟩
  simp only [planCoalescedProviderRead, hpolicy, hnode, hstop, hrequest, hlength, hresponse, okOr,
    bind, Except.bind, if_neg (Nat.not_lt.mpr hinside)]
  rfl

end Widening

/-- The slice of a widened plan lies where the plan did. -/
theorem planCoalescedProviderRead_eq_ok {plan : ProviderReadPlan}
    {coalesced : CoalescedProviderReadPlan}
    (h : runtime.planCoalescedProviderRead plan = .ok coalesced) :
    coalesced.responseLength = plan.length ∧
      coalesced.provider.offset + coalesced.responseOffset = plan.offset ∧
      ∃ offset length, coalesced.provider = { plan with offset, length } := by
  unfold planCoalescedProviderRead at h
  split at h
  · obtain rfl := Except.ok.inj h
    exact ⟨rfl, rfl, _, _, rfl⟩
  · rename_i chunkSize hpolicy
    obtain ⟨⟨tree, node⟩, hnode, h⟩ := bind_eq_ok.mp h
    obtain ⟨chunkStop, hstop, h⟩ := bind_eq_ok.mp h
    obtain ⟨requestEnd, hend, h⟩ := bind_eq_ok.mp h
    split at h
    · obtain rfl := Except.ok.inj h
      exact ⟨rfl, rfl, _, _, rfl⟩
    · obtain ⟨length, hlength, h⟩ := bind_eq_ok.mp h
      obtain ⟨responseOffset, hresponse, h⟩ := bind_eq_ok.mp h
      obtain rfl := Except.ok.inj h
      rw [okOr_eq_ok, toU32_eq_some] at hresponse
      refine ⟨rfl, ?_, _, _, rfl⟩
      have := Nat.div_mul_le_self plan.offset chunkSize
      dsimp only
      unfold chunkBase at *
      omega

/-- A prefetch asks the provider of the file for bytes right after the completed ones. -/
theorem planSequentialPrefetch_eq_some {promiseId relativePath : Text}
    {completedOffset completedLength : ℕ} {plan : ProviderReadPlan}
    (h : runtime.planSequentialPrefetch promiseId relativePath completedOffset completedLength =
      .ok (some plan)) :
    ∃ tree node, runtime.fileNode promiseId relativePath = .ok (tree, node) ∧
      plan = providerPlan tree node (completedOffset + completedLength) plan.length := by
  unfold planSequentialPrefetch at h
  split at h
  · simp at h
  split at h
  · simp at h
  obtain ⟨⟨tree, node⟩, hnode, h⟩ := bind_eq_ok.mp h
  refine ⟨tree, node, hnode, ?_⟩
  dsimp only at h
  split at h
  · simp [pure, Except.pure] at h
  obtain ⟨providerId, hlive, h⟩ := bind_eq_ok.mp h
  obtain ⟨offset, hoffset, h⟩ := bind_eq_ok.mp h
  split at h
  · simp [pure, Except.pure] at h
  obtain ⟨length, hlength, h⟩ := bind_eq_ok.mp h
  split at h
  · simp [pure, Except.pure] at h
  obtain rfl := Option.some.inj (Except.ok.inj h)
  obtain rfl := (liveProvider_eq_ok.mp hlive).2.2
  rw [okOr_eq_ok, checkedAdd_eq_some] at hoffset
  simp only [providerPlan, hoffset.1]

end Runtime

end FusePromise
