import FusePromise.Runtime.Builder
import FusePromise.Runtime.History

/-!
# Identities of nodes

A commit numbers the nodes of its tree from the runtime's two counters, in path
order.  The counters only go up, so an inode or a node id that a stored node has
is never given out again; `Identified` is that statement, and it makes the inode
a key for the nodes of all promises.

The runs of this file make every call there is: besides the operations of
`RuntimeOp`, the commit of a builder some of whose calls failed, and a change of
the cache policy.
-/

namespace FusePromise

open Machine

namespace Runtime

/-! ## Numbering the nodes of a tree -/

/-- The loop gives the nodes at its paths consecutive ids and leaves the others alone. -/
theorem assignIds_numbered {paths : List Text} (hnodup : paths.Nodup) :
    ∀ {runtime after : Runtime} {nodes numbered : BTreeMap Text PromiseNode},
      runtime.assignIds nodes paths = (.ok numbered, after) →
      after.nextNodeId = runtime.nextNodeId + paths.length ∧
      after.nextInode = runtime.nextInode + paths.length ∧
      (∀ path ∉ paths, numbered[path]? = nodes[path]?) ∧
      ∀ path ∈ paths, ∀ node, numbered[path]? = some node →
        ∃ i, paths[i]? = some path ∧ node.nodeId = runtime.nextNodeId + i ∧
          node.inode = runtime.nextInode + i := by
  induction paths with
  | nil =>
      intro runtime after nodes numbered h
      obtain ⟨hnodes, rfl⟩ := Prod.mk.inj h
      obtain rfl := Except.ok.inj hnodes
      simp
  | cons head rest ih =>
      intro runtime after nodes numbered h
      obtain ⟨hhead, hrest⟩ := List.nodup_cons.mp hnodup
      unfold assignIds allocateNodeId at h
      cases hnodeId : checkedAdd runtime.nextNodeId 1 with
      | none => simp [hnodeId] at h
      | some nextNodeId =>
      simp only [hnodeId, allocateInode] at h
      cases hinode : checkedAdd runtime.nextInode 1 with
      | none => simp [hinode] at h
      | some nextInode =>
      simp only [hinode] at h
      obtain ⟨rfl, -⟩ := checkedAdd_eq_some.mp hnodeId
      obtain ⟨rfl, -⟩ := checkedAdd_eq_some.mp hinode
      obtain ⟨hcountId, hcountInode, hothers, hlater⟩ := ih hrest h
      refine ⟨?_, ?_, ?_, ?_⟩
      · simp only [hcountId, List.length_cons]
        omega
      · simp only [hcountInode, List.length_cons]
        omega
      · intro path hpath
        rw [List.mem_cons, not_or] at hpath
        rw [hothers path hpath.2]
        simp [Std.ExtTreeMap.getElem?_modify, Ne.symm hpath.1]
      · intro path hpath node hnode
        by_cases hfirst : head = path
        · -- the first node gets the values the counters have now
          subst hfirst
          rw [hothers head hhead, Std.ExtTreeMap.getElem?_modify_self] at hnode
          obtain ⟨old, -, rfl⟩ := Option.map_eq_some_iff.mp hnode
          exact ⟨0, rfl, rfl, rfl⟩
        · have hmem : path ∈ rest := by
            rcases List.mem_cons.mp hpath with rfl | hmem
            · exact absurd rfl hfirst
            · exact hmem
          obtain ⟨i, hi, hid, hinode⟩ := hlater path hmem node hnode
          exact ⟨i + 1, hi, hid.trans (Nat.add_right_comm _ 1 i),
            hinode.trans (Nat.add_right_comm _ 1 i)⟩

/-- The counters never go back, not even when one of them runs out. -/
theorem assignIds_counters_le (paths : List Text) :
    ∀ (runtime : Runtime) (nodes : BTreeMap Text PromiseNode),
      runtime.nextNodeId ≤ (runtime.assignIds nodes paths).2.nextNodeId ∧
        runtime.nextInode ≤ (runtime.assignIds nodes paths).2.nextInode := by
  induction paths with
  | nil => exact fun _ _ => ⟨le_rfl, le_rfl⟩
  | cons head rest ih =>
      intro runtime nodes
      unfold assignIds allocateNodeId
      cases hnodeId : checkedAdd runtime.nextNodeId 1 with
      | none => exact ⟨le_rfl, le_rfl⟩
      | some nextNodeId =>
      obtain ⟨rfl, -⟩ := checkedAdd_eq_some.mp hnodeId
      simp only [allocateInode]
      cases hinode : checkedAdd runtime.nextInode 1 with
      | none => exact ⟨Nat.le_succ _, le_rfl⟩
      | some nextInode =>
      obtain ⟨rfl, -⟩ := checkedAdd_eq_some.mp hinode
      obtain ⟨hle, hle'⟩ := ih { runtime with
        nextNodeId := runtime.nextNodeId + 1, nextInode := runtime.nextInode + 1 }
        (nodes.modify head fun node =>
          { node with nodeId := runtime.nextNodeId, inode := runtime.nextInode })
      exact ⟨(Nat.le_succ _).trans hle, (Nat.le_succ _).trans hle'⟩

/-- The loop finishes as long as the counters do not run out. -/
theorem assignIds_ok (paths : List Text) :
    ∀ (runtime : Runtime) (nodes : BTreeMap Text PromiseNode),
      runtime.nextNodeId + paths.length ≤ u64Max → runtime.nextInode + paths.length ≤ u64Max →
      ∃ numbered, (runtime.assignIds nodes paths).1 = .ok numbered := by
  induction paths with
  | nil => exact fun runtime nodes _ _ => ⟨nodes, rfl⟩
  | cons head rest ih =>
      intro runtime nodes hnodeId hinode
      rw [List.length_cons] at hnodeId hinode
      have hnext : checkedAdd runtime.nextNodeId 1 = some (runtime.nextNodeId + 1) :=
        checkedAdd_eq_some.mpr ⟨rfl, by omega⟩
      have hnext' : checkedAdd runtime.nextInode 1 = some (runtime.nextInode + 1) :=
        checkedAdd_eq_some.mpr ⟨rfl, by omega⟩
      simp only [assignIds, allocateNodeId, hnext, allocateInode, hnext']
      apply ih
      · simp only
        omega
      · simp only
        omega

/-- A commit to a live provider succeeds as long as the counters do not run out. -/
theorem commitPromise_ok {runtime : Runtime} {builder : PromiseBuilder}
    (hlive : runtime.hasProvider builder.providerId = true)
    (hnodeId : runtime.nextNodeId + builder.nodes.size ≤ u64Max)
    (hinode : runtime.nextInode + builder.nodes.size ≤ u64Max) :
    ∃ tree, (runtime.commitPromise builder).1 = .ok tree := by
  rw [← Std.ExtTreeMap.length_keys] at hnodeId hinode
  obtain ⟨numbered, hnumbered⟩ := assignIds_ok builder.nodes.keys
    { runtime with nextPromiseId := runtime.nextPromiseId + 1 } builder.nodes hnodeId hinode
  unfold commitPromise
  rw [if_pos hlive]
  simp only [assignRuntimeIds, PromiseBuilder.finish]
  cases hassign : assignIds { runtime with nextPromiseId := runtime.nextPromiseId + 1 }
      builder.nodes builder.nodes.keys with
  | mk result after =>
      rw [hassign] at hnumbered
      obtain rfl : result = .ok numbered := hnumbered
      exact ⟨_, rfl⟩

/-- A committed tree is numbered from the counters, which go past its ids. -/
theorem commitPromise_numbered {runtime : Runtime} {builder : PromiseBuilder}
    {tree : PromiseTree} (h : (runtime.commitPromise builder).1 = .ok tree) :
    let after := (runtime.commitPromise builder).2
    after.nextNodeId = runtime.nextNodeId + builder.nodes.keys.length ∧
      after.nextInode = runtime.nextInode + builder.nodes.keys.length ∧
      ∀ path node, tree.nodes[path]? = some node →
        ∃ i, builder.nodes.keys[i]? = some path ∧ node.nodeId = runtime.nextNodeId + i ∧
          node.inode = runtime.nextInode + i := by
  unfold commitPromise at h ⊢
  by_cases hlive : runtime.hasProvider builder.providerId = true
  · rw [if_pos hlive] at h ⊢
    simp only [assignRuntimeIds, PromiseBuilder.finish] at h ⊢
    cases hassign : assignIds { runtime with nextPromiseId := runtime.nextPromiseId + 1 }
        builder.nodes builder.nodes.keys with
    | mk result after =>
        simp only [hassign] at h ⊢
        cases result with
        | error status => simp at h
        | ok numbered =>
            obtain rfl := Except.ok.inj h
            obtain ⟨hnodeId, hinode, hothers, hnodes⟩ :=
              assignIds_numbered Std.ExtTreeMap.nodup_keys hassign
            refine ⟨hnodeId, hinode, ?_⟩
            intro path node hnode
            by_cases hmem : path ∈ builder.nodes.keys
            · exact hnodes path hmem node hnode
            · -- the loop goes over every path of the tree
              have hold : builder.nodes[path]? = some node := (hothers path hmem).symm.trans hnode
              exact absurd (Std.ExtTreeMap.mem_keys.mpr (BTreeMap.mem_of_getElem? hold)) hmem
  · rw [if_neg hlive] at h
    simp at h

/-! ## Stored nodes -/

/-- The node at a path of a promise. -/
def Stores (runtime : Runtime) (promiseId path : Text) (node : PromiseNode) : Prop :=
  ∃ tree, runtime.promises[promiseId]? = some tree ∧ tree.nodes[path]? = some node

theorem Stores.unique {runtime : Runtime} {promiseId path : Text} {first second : PromiseNode}
    (h : runtime.Stores promiseId path first) (h' : runtime.Stores promiseId path second) :
    first = second := by
  obtain ⟨tree, htree, hfirst⟩ := h
  obtain ⟨tree', htree', hsecond⟩ := h'
  obtain rfl := Option.some.inj (htree'.symm.trans htree)
  exact Option.some.inj (hfirst.symm.trans hsecond)

/-- A node without the path of its copy, which is all that changes once it is committed. -/
def withoutCopy (node : PromiseNode) : PromiseNode :=
  { node with materializedPath := none }

theorem withoutCopy_fields {first second : PromiseNode}
    (h : withoutCopy first = withoutCopy second) :
    first.nodeId = second.nodeId ∧ first.inode = second.inode ∧ first.kind = second.kind := by
  simp only [withoutCopy, PromiseNode.mk.injEq] at h
  exact ⟨h.1, h.2.1, h.2.2.2.2.2.2.2.1⟩

/-- The later tree has the same nodes with the same ids. -/
structure Kept (tree later : PromiseTree) : Prop where
  promiseId : later.promiseId = tree.promiseId
  children : later.children = tree.children
  nodes : ∀ path : Text, (later.nodes[path]?).map withoutCopy = (tree.nodes[path]?).map withoutCopy

theorem Kept.refl (tree : PromiseTree) : Kept tree tree :=
  ⟨rfl, rfl, fun _ => rfl⟩

theorem Kept.trans {first second third : PromiseTree} (h : Kept first second)
    (h' : Kept second third) : Kept first third :=
  ⟨h'.promiseId.trans h.promiseId, h'.children.trans h.children,
    fun path => (h'.nodes path).trans (h.nodes path)⟩

/-- A node of the later tree was there before, with the same ids. -/
theorem Kept.back {tree later : PromiseTree} (h : Kept tree later) {path : Text}
    {node : PromiseNode} (hnode : later.nodes[path]? = some node) :
    ∃ old, tree.nodes[path]? = some old ∧ withoutCopy old = withoutCopy node := by
  have hsame := h.nodes path
  rw [hnode, Option.map_some] at hsame
  exact Option.map_eq_some_iff.mp hsame.symm

theorem Kept.forth {tree later : PromiseTree} (h : Kept tree later) {path : Text}
    {node : PromiseNode} (hnode : tree.nodes[path]? = some node) :
    ∃ new, later.nodes[path]? = some new ∧ withoutCopy new = withoutCopy node := by
  have hsame := h.nodes path
  rw [hnode, Option.map_some] at hsame
  exact Option.map_eq_some_iff.mp hsame

/-- Every promise of the one runtime is one of the other, with the same nodes and ids, and
no counter went back. -/
structure SamePromises (runtime next : Runtime) : Prop where
  nextNodeId : runtime.nextNodeId ≤ next.nextNodeId
  nextInode : runtime.nextInode ≤ next.nextInode
  forth : ∀ (promiseId : Text) (tree : PromiseTree), runtime.promises[promiseId]? = some tree →
    ∃ later, next.promises[promiseId]? = some later ∧ Kept tree later
  back : ∀ (promiseId : Text) (later : PromiseTree), next.promises[promiseId]? = some later →
    ∃ tree, runtime.promises[promiseId]? = some tree ∧ Kept tree later

theorem SamePromises.of_eq {runtime next : Runtime}
    (hnodeId : runtime.nextNodeId ≤ next.nextNodeId) (hinode : runtime.nextInode ≤ next.nextInode)
    (hpromises : next.promises = runtime.promises) :
    SamePromises runtime next :=
  ⟨hnodeId, hinode, fun _ tree htree => ⟨tree, hpromises ▸ htree, .refl tree⟩,
    fun _ tree htree => ⟨tree, hpromises ▸ htree, .refl tree⟩⟩

theorem samePromises_unregisterProvider {runtime next : Runtime} {providerId : ProviderId}
    (h : runtime.unregisterProvider providerId = .ok next) : SamePromises runtime next := by
  obtain ⟨_, -, rfl⟩ := unregisterProvider_eq_ok h
  have hkept : ∀ tree, Kept tree (markProviderGone providerId tree) :=
    fun tree => ⟨by simp, by simp, by simp⟩
  refine ⟨le_rfl, le_rfl, ?_, ?_⟩
  · intro promiseId tree htree
    exact ⟨markProviderGone providerId tree, by simp [htree], hkept tree⟩
  · intro promiseId later hlater
    simp only [Std.ExtTreeMap.getElem?_map] at hlater
    obtain ⟨tree, htree, rfl⟩ := Option.map_eq_some_iff.mp hlater
    exact ⟨tree, htree, hkept tree⟩

theorem samePromises_markNodeMaterialized {runtime next : Runtime}
    {promiseId relativePath materializedPath : Text}
    (h : runtime.markNodeMaterialized promiseId relativePath materializedPath = .ok next) :
    SamePromises runtime next := by
  obtain ⟨path, marked, -, hmarked, -, rfl⟩ := markNodeMaterialized_eq_ok h
  have hkept : Kept marked { marked with
      nodes := marked.nodes.modify path fun node =>
        { node with materializedPath := some materializedPath } } := by
    refine ⟨rfl, rfl, fun other => ?_⟩
    simp only [Std.ExtTreeMap.getElem?_modify, Std.LawfulEqCmp.compare_eq_iff_eq]
    split
    · rename_i heq
      subst heq
      cases marked.nodes[path]? <;> rfl
    · rfl
  refine ⟨le_rfl, le_rfl, ?_, ?_⟩
  · intro other tree htree
    by_cases hid : promiseId = other
    · subst hid
      obtain rfl : marked = tree := Option.some.inj (hmarked.symm.trans htree)
      exact ⟨_, Std.ExtTreeMap.getElem?_insert_self, hkept⟩
    · exact ⟨tree, by simp [Std.ExtTreeMap.getElem?_insert, hid, htree], .refl tree⟩
  · intro other later hlater
    simp only [Std.ExtTreeMap.getElem?_insert, Std.LawfulEqCmp.compare_eq_iff_eq] at hlater
    split at hlater
    · rename_i hid
      subst hid
      obtain rfl := Option.some.inj hlater
      exact ⟨marked, hmarked, hkept⟩
    · exact ⟨later, hlater, .refl later⟩

/-! ## Distinct ids -/

/-- The stored nodes have numbers below the next one, and no two have one in common. -/
structure Numbered (runtime : Runtime) (number : PromiseNode → ℕ) (next : ℕ) : Prop where
  below : ∀ (promiseId path : Text) (node : PromiseNode), runtime.Stores promiseId path node →
    number node < next
  injective : ∀ (promiseId path promiseId' path' : Text) (node node' : PromiseNode),
    runtime.Stores promiseId path node → runtime.Stores promiseId' path' node' →
    number node = number node' → promiseId = promiseId' ∧ path = path'

/-- The node ids and the inodes of a runtime are numbers from its counters. -/
structure Identified (runtime : Runtime) : Prop where
  counter : fuseRootInode < runtime.nextInode
  notRoot : ∀ (promiseId path : Text) (node : PromiseNode), runtime.Stores promiseId path node →
    fuseRootInode < node.inode
  nodeIds : runtime.Numbered PromiseNode.nodeId runtime.nextNodeId
  inodes : runtime.Numbered PromiseNode.inode runtime.nextInode

/-- What is stored was stored before, with the same ids. -/
theorem SamePromises.stores {runtime next : Runtime} (h : SamePromises runtime next)
    {promiseId path : Text} {node : PromiseNode} (hnode : next.Stores promiseId path node) :
    ∃ old, runtime.Stores promiseId path old ∧ withoutCopy old = withoutCopy node := by
  obtain ⟨later, hlater, hnode⟩ := hnode
  obtain ⟨tree, htree, hkept⟩ := h.back promiseId later hlater
  obtain ⟨old, hold, heq⟩ := hkept.back hnode
  exact ⟨old, ⟨tree, htree, hold⟩, heq⟩

theorem Numbered.of_stores {runtime after : Runtime} {number : PromiseNode → ℕ} {next next' : ℕ}
    (h : runtime.Numbered number next) (hle : next ≤ next')
    (hstores : ∀ {promiseId path : Text} {node : PromiseNode}, after.Stores promiseId path node →
      ∃ old, runtime.Stores promiseId path old ∧ number old = number node) :
    after.Numbered number next' := by
  refine ⟨?_, ?_⟩
  · intro promiseId path node hnode
    obtain ⟨old, hold, heq⟩ := hstores hnode
    have := h.below _ _ _ hold
    omega
  · intro promiseId path promiseId' path' node node' hnode hnode' heq
    obtain ⟨old, hold, hsame⟩ := hstores hnode
    obtain ⟨old', hold', hsame'⟩ := hstores hnode'
    exact h.injective _ _ _ _ _ _ hold hold' (by omega)

/-- A call that keeps the promises keeps their ids distinct. -/
theorem Identified.of_samePromises {runtime next : Runtime} (h : runtime.Identified)
    (hsame : SamePromises runtime next) : next.Identified := by
  refine ⟨h.counter.trans_le hsame.nextInode, ?_, ?_, ?_⟩
  · intro promiseId path node hnode
    obtain ⟨old, hold, heq⟩ := hsame.stores hnode
    exact (withoutCopy_fields heq).2.1 ▸ h.notRoot _ _ _ hold
  · refine h.nodeIds.of_stores hsame.nextNodeId fun hnode => ?_
    obtain ⟨old, hold, heq⟩ := hsame.stores hnode
    exact ⟨old, hold, (withoutCopy_fields heq).1⟩
  · refine h.inodes.of_stores hsame.nextInode fun hnode => ?_
    obtain ⟨old, hold, heq⟩ := hsame.stores hnode
    exact ⟨old, hold, (withoutCopy_fields heq).2.1⟩

/-- A commit that fails keeps the promises. -/
theorem samePromises_commitPromise {runtime : Runtime} {builder : PromiseBuilder} {status : Status}
    (h : (runtime.commitPromise builder).1 = .error status) :
    SamePromises runtime (runtime.commitPromise builder).2 := by
  have hpromises : (runtime.commitPromise builder).2.promises = runtime.promises := by
    obtain ⟨_, _, _, hnext, -⟩ := (commitPromise_spec runtime builder).1 status h
    rw [hnext]
  obtain ⟨hnodeId, hinode⟩ : runtime.nextNodeId ≤ (runtime.commitPromise builder).2.nextNodeId ∧
      runtime.nextInode ≤ (runtime.commitPromise builder).2.nextInode := by
    unfold commitPromise
    split
    · have hle := assignIds_counters_le builder.nodes.keys
        { runtime with nextPromiseId := runtime.nextPromiseId + 1 } builder.nodes
      simp only [assignRuntimeIds, PromiseBuilder.finish]
      cases hassign : assignIds { runtime with nextPromiseId := runtime.nextPromiseId + 1 }
          builder.nodes builder.nodes.keys with
      | mk result after =>
          rw [hassign] at hle
          cases result <;> exact hle
    · exact ⟨le_rfl, le_rfl⟩
  exact .of_eq hnodeId hinode hpromises

/-- What is stored after a commit that succeeded. -/
theorem stores_commitPromise {runtime : Runtime} {builder : PromiseBuilder} {tree : PromiseTree}
    (h : (runtime.commitPromise builder).1 = .ok tree) (promiseId path : Text)
    (node : PromiseNode) :
    (runtime.commitPromise builder).2.Stores promiseId path node ↔
      if promiseName runtime.nextPromiseId = promiseId then tree.nodes[path]? = some node
      else runtime.Stores promiseId path node := by
  obtain ⟨-, -, -, -, -, -, _, _, hnext⟩ := (commitPromise_spec runtime builder).2 tree h
  unfold Stores
  rw [hnext]
  simp only [Std.ExtTreeMap.getElem?_insert, Std.LawfulEqCmp.compare_eq_iff_eq]
  split
  · simp
  · rfl

/-- The nodes of a new tree are numbered from where the stored ones end. -/
theorem Numbered.commitPromise {runtime : Runtime} {builder : PromiseBuilder} {tree : PromiseTree}
    {number : PromiseNode → ℕ} {next : ℕ} (h : runtime.Numbered number next)
    (hresult : (runtime.commitPromise builder).1 = .ok tree)
    (hnumber : ∀ path node, tree.nodes[path]? = some node →
      ∃ i, builder.nodes.keys[i]? = some path ∧ number node = next + i) :
    (runtime.commitPromise builder).2.Numbered number (next + builder.nodes.keys.length) := by
  have hstores := stores_commitPromise hresult
  refine ⟨?_, ?_⟩
  · intro promiseId path node hnode
    rw [hstores] at hnode
    split at hnode
    · obtain ⟨i, hi, heq⟩ := hnumber path node hnode
      have := (List.getElem?_eq_some_iff.mp hi).1
      omega
    · have := h.below _ _ _ hnode
      omega
  · intro promiseId path promiseId' path' node node' hnode hnode' heq
    rw [hstores] at hnode hnode'
    split at hnode <;> split at hnode'
    · -- the number is the index of the path
      rename_i hfirst hsecond
      obtain ⟨i, hi, hnode⟩ := hnumber path node hnode
      obtain ⟨j, hj, hnode'⟩ := hnumber path' node' hnode'
      obtain rfl : i = j := by omega
      exact ⟨hfirst.symm.trans hsecond, Option.some.inj (hi.symm.trans hj)⟩
    · obtain ⟨i, -, hnode⟩ := hnumber path node hnode
      have := h.below _ _ _ hnode'
      omega
    · obtain ⟨i, -, hnode'⟩ := hnumber path' node' hnode'
      have := h.below _ _ _ hnode
      omega
    · exact h.injective _ _ _ _ _ _ hnode hnode' heq

/-- A commit numbers its nodes with ids that no stored node has. -/
theorem Identified.commitPromise {runtime : Runtime} (h : runtime.Identified)
    (builder : PromiseBuilder) : (runtime.commitPromise builder).2.Identified := by
  cases hresult : (runtime.commitPromise builder).1 with
  | error status => exact h.of_samePromises (samePromises_commitPromise hresult)
  | ok tree =>
      obtain ⟨hnodeId, hinode, hnumbered⟩ := commitPromise_numbered hresult
      have hcounter := h.counter
      refine ⟨by omega, ?_, ?_, ?_⟩
      · intro promiseId path node hnode
        rw [stores_commitPromise hresult] at hnode
        split at hnode
        · obtain ⟨i, -, -, hid⟩ := hnumbered path node hnode
          omega
        · exact h.notRoot _ _ _ hnode
      · rw [hnodeId]
        refine h.nodeIds.commitPromise hresult fun path node hnode => ?_
        obtain ⟨i, hi, hid, -⟩ := hnumbered path node hnode
        exact ⟨i, hi, hid⟩
      · rw [hinode]
        refine h.inodes.commitPromise hresult fun path node hnode => ?_
        obtain ⟨i, hi, -, hid⟩ := hnumbered path node hnode
        exact ⟨i, hi, hid⟩

theorem identified_of_no_promises {runtime : Runtime} (hpromises : runtime.promises = ∅)
    (hcounter : fuseRootInode < runtime.nextInode) : runtime.Identified := by
  have hnone : ∀ {promiseId path node}, ¬ runtime.Stores promiseId path node := by
    rintro promiseId path node ⟨tree, htree, -⟩
    simp [hpromises] at htree
  exact ⟨hcounter, fun _ _ _ h => absurd h hnone,
    ⟨fun _ _ _ h => absurd h hnone, fun _ _ _ _ _ _ h => absurd h hnone⟩,
    ⟨fun _ _ _ h => absurd h hnone, fun _ _ _ _ _ _ h => absurd h hnone⟩⟩

/-- An operation that is no commit keeps the promises; a commit may add one. -/
theorem Effect.samePromises {runtime next : Runtime} {op : RuntimeOp} (h : Effect runtime op next) :
    SamePromises runtime next ∨ ∃ providerId nodes builder tree,
      (PromiseBuilder.new providerId).addNodes nodes = .ok builder ∧
      (runtime.commitPromise builder).1 = .ok tree ∧
      next = (runtime.commitPromise builder).2 := by
  cases h with
  | keep => exact Or.inl (.of_eq le_rfl le_rfl rfl)
  | register => exact Or.inl (.of_eq le_rfl le_rfl rfl)
  | unregister hnext => exact Or.inl (samePromises_unregisterProvider hnext)
  | @commit providerId nodes builder hbuilder =>
      cases hresult : (runtime.commitPromise builder).1 with
      | error status => exact Or.inl (samePromises_commitPromise hresult)
      | ok tree => exact Or.inr ⟨providerId, nodes, builder, tree, hbuilder, hresult, rfl⟩
  | mark hnext => exact Or.inl (samePromises_markNodeMaterialized hnext)
  | record hnext =>
      rcases recordCachedRead_eq_ok hnext with ⟨rfl, -⟩ | ⟨_, _, _, -, -, -, -, rfl⟩ <;>
        exact Or.inl (.of_eq le_rfl le_rfl rfl)

theorem Identified.effect {runtime next : Runtime} {op : RuntimeOp} (h : runtime.Identified)
    (heffect : Effect runtime op next) : next.Identified := by
  rcases heffect.samePromises with hsame | ⟨_, _, builder, _, -, -, rfl⟩
  · exact h.of_samePromises hsame
  · exact h.commitPromise builder

theorem Identified.run {runtime : Runtime} (h : runtime.Identified) (ops : List RuntimeOp) :
    (runtime.run ops).Identified := by
  induction ops generalizing runtime with
  | nil => exact h
  | cons op rest ih => exact ih (h.effect (runtime.effect_apply op))

/-- An inode leads to the node that has it. -/
theorem lookupInode_eq_ok {runtime : Runtime} (hwf : runtime.WellFormed) (h : runtime.Identified)
    {inode : ℕ} {promiseId : Text} {node : PromiseNode} :
    runtime.lookupInode inode = .ok (.promiseNode promiseId node) ↔
      runtime.Stores promiseId node.relativePath node ∧ node.inode = inode := by
  have hfound : ∀ {promiseId node}, runtime.lookupInode inode = .ok (.promiseNode promiseId node) →
      runtime.Stores promiseId node.relativePath node ∧ node.inode = inode := by
    intro promiseId node hentry
    refine ⟨hwf.lookupInode hentry, ?_⟩
    unfold lookupInode at hentry
    split at hentry
    · simp at hentry
    rw [okOr_eq_ok] at hentry
    obtain ⟨tree, -, hentry⟩ := List.exists_of_findSome?_eq_some hentry
    obtain ⟨found, -, hentry⟩ := List.exists_of_findSome?_eq_some hentry
    split at hentry
    · rename_i hinode
      obtain ⟨-, rfl⟩ := RuntimeEntry.promiseNode.inj (Option.some.inj hentry)
      exact hinode
    · simp at hentry
  refine ⟨hfound, ?_⟩
  rintro ⟨hstores, rfl⟩
  obtain ⟨tree, htree, hnode⟩ := hstores
  have hroot := h.notRoot _ _ _ ⟨tree, htree, hnode⟩
  obtain ⟨entry, hentry⟩ : ∃ entry, runtime.lookupInode node.inode = .ok entry := by
    unfold lookupInode
    rw [if_neg (by omega)]
    simp only [okOr_eq_ok, ← Option.isSome_iff_exists, List.findSome?_isSome_iff]
    refine ⟨tree, BTreeMap.mem_valueList.mpr ⟨promiseId, htree⟩, ?_⟩
    exact ⟨node, BTreeMap.mem_valueList.mpr ⟨_, hnode⟩, by simp⟩
  cases entry with
  | mountRoot =>
      unfold lookupInode at hentry
      rw [if_neg (by omega), okOr_eq_ok] at hentry
      obtain ⟨_, -, hentry⟩ := List.exists_of_findSome?_eq_some hentry
      obtain ⟨_, -, hentry⟩ := List.exists_of_findSome?_eq_some hentry
      split at hentry <;> simp at hentry
  | promiseNode otherId other =>
      -- the node found has the same inode, so it is the same node
      obtain ⟨hother, hinode⟩ := hfound hentry
      obtain ⟨rfl, hpath⟩ := h.inodes.injective _ _ _ _ _ _ hother ⟨tree, htree, hnode⟩ hinode
      obtain ⟨tree', htree', hother⟩ := hother
      obtain rfl : tree' = tree := Option.some.inj (htree'.symm.trans htree)
      rw [hpath] at hother
      obtain rfl : other = node := Option.some.inj (hother.symm.trans hnode)
      exact hentry

/-! ## Runs of every call -/

end Runtime

/-- A call on a runtime. -/
inductive RuntimeCall
  | op (op : RuntimeOp)
  | commitBuilder (providerId : ProviderId) (calls : List PromiseNodeBody)
  | setCachePolicy (cachePolicy : CachePolicy)
  deriving DecidableEq

namespace Runtime

/-- What a call makes of a runtime, whether or not it succeeds. -/
def perform (runtime : Runtime) : RuntimeCall → Runtime
  | .op op => runtime.apply op
  | .commitBuilder providerId calls =>
      (runtime.commitPromise ((PromiseBuilder.new providerId).runCalls calls)).2
  | .setCachePolicy cachePolicy => runtime.orKeep (runtime.setCachePolicy cachePolicy)

/-- A whole history of calls. -/
def performAll (runtime : Runtime) (calls : List RuntimeCall) : Runtime :=
  calls.foldl perform runtime

/-- A call is an operation, or it changes the policy. -/
theorem perform_cases (runtime : Runtime) (call : RuntimeCall) :
    (∃ op, Effect runtime op (runtime.perform call)) ∨
      ∃ cachePolicy, runtime.setCachePolicy cachePolicy = .ok (runtime.perform call) := by
  cases call with
  | op op => exact Or.inl ⟨op, runtime.effect_apply op⟩
  | commitBuilder providerId calls =>
      obtain ⟨nodes, hnodes⟩ := (PromiseBuilder.new providerId).exists_addNodes_eq_runCalls calls
      exact Or.inl ⟨.commitPromise providerId nodes, .commit hnodes⟩
  | setCachePolicy cachePolicy =>
      simp only [perform]
      cases hnext : runtime.setCachePolicy cachePolicy with
      | error status => exact Or.inl ⟨_, .keep .registerProvider⟩
      | ok next => exact Or.inr ⟨cachePolicy, hnext⟩

theorem samePromises_setCachePolicy {runtime next : Runtime} {cachePolicy : CachePolicy}
    (h : runtime.setCachePolicy cachePolicy = .ok next) : SamePromises runtime next := by
  obtain ⟨_, -, h⟩ := bind_eq_ok.mp h
  obtain rfl := Except.ok.inj h
  split <;> exact .of_eq le_rfl le_rfl rfl

theorem WellFormed.setCachePolicy {runtime next : Runtime} {cachePolicy : CachePolicy}
    (hwf : runtime.WellFormed) (h : runtime.setCachePolicy cachePolicy = .ok next) :
    next.WellFormed := by
  obtain ⟨-, hpromises, hproviders, hpromiseId, hproviderId, -⟩ := setCachePolicy_eq_ok h
  refine ⟨?_, ?_, ?_, ?_, ?_⟩
  · rw [hpromises]
    exact hwf.shape
  · rw [hpromises, hpromiseId]
    exact hwf.named
  · rw [hproviders, hproviderId]
    exact hwf.provider
  · rw [hpromises, hproviders]
    exact hwf.owner
  · rw [hproviderId]
    exact hwf.nextProvider

/-- What one call does to the promises that were committed before. -/
theorem perform_spec {runtime : Runtime} (hwf : runtime.WellFormed) (hids : runtime.Identified)
    (call : RuntimeCall) :
    (runtime.perform call).WellFormed ∧ (runtime.perform call).Identified ∧
      ∀ (promiseId : Text) (tree : PromiseTree), runtime.promises[promiseId]? = some tree →
        ∃ later, (runtime.perform call).promises[promiseId]? = some later ∧ Kept tree later := by
  rcases runtime.perform_cases call with ⟨op, heffect⟩ | ⟨cachePolicy, hnext⟩
  · refine ⟨hwf.effect heffect, hids.effect heffect, ?_⟩
    intro promiseId tree htree
    rcases heffect.samePromises with hsame | ⟨_, _, builder, committed, -, hresult, heq⟩
    · exact hsame.forth promiseId tree htree
    · -- a new promise goes under a name that is not in use
      obtain ⟨-, -, -, -, -, -, _, _, hnext⟩ :=
        (commitPromise_spec runtime builder).2 committed hresult
      have hother : promiseName runtime.nextPromiseId ≠ promiseId := by
        rintro rfl
        exact hwf.fresh (BTreeMap.mem_of_getElem? htree)
      refine ⟨tree, ?_, .refl tree⟩
      rw [heq, hnext]
      simp [Std.ExtTreeMap.getElem?_insert, hother, htree]
  · have hsame := samePromises_setCachePolicy hnext
    exact ⟨hwf.setCachePolicy hnext, hids.of_samePromises hsame, hsame.forth⟩

/-- A node that was not stored before belongs to a promise under the next id. -/
theorem stores_of_perform {runtime : Runtime} (call : RuntimeCall) {promiseId path : Text}
    {node : PromiseNode} (h : (runtime.perform call).Stores promiseId path node) :
    promiseId = promiseName runtime.nextPromiseId ∨
      ∃ old, runtime.Stores promiseId path old ∧ withoutCopy old = withoutCopy node := by
  rcases runtime.perform_cases call with ⟨op, heffect⟩ | ⟨cachePolicy, hnext⟩
  · rcases heffect.samePromises with hsame | ⟨_, _, builder, tree, -, hresult, heq⟩
    · exact Or.inr (hsame.stores h)
    · rw [heq, stores_commitPromise hresult] at h
      split at h
      · rename_i hname
        exact Or.inl hname.symm
      · exact Or.inr ⟨node, h, rfl⟩
  · exact Or.inr ((samePromises_setCachePolicy hnext).stores h)

theorem performAll_spec {runtime : Runtime} (hwf : runtime.WellFormed)
    (hids : runtime.Identified) (calls : List RuntimeCall) :
    (runtime.performAll calls).WellFormed ∧ (runtime.performAll calls).Identified ∧
      ∀ (promiseId : Text) (tree : PromiseTree), runtime.promises[promiseId]? = some tree →
        ∃ later, (runtime.performAll calls).promises[promiseId]? = some later ∧
          Kept tree later := by
  induction calls generalizing runtime with
  | nil => exact ⟨hwf, hids, fun _ tree htree => ⟨tree, htree, .refl tree⟩⟩
  | cons call rest ih =>
      obtain ⟨hwf', hids', hkept⟩ := perform_spec hwf hids call
      obtain ⟨hwf'', hids'', hkept'⟩ := ih hwf' hids'
      refine ⟨hwf'', hids'', ?_⟩
      intro promiseId tree htree
      obtain ⟨middle, hmiddle, hfirst⟩ := hkept promiseId tree htree
      obtain ⟨later, hlater, hsecond⟩ := hkept' promiseId middle hmiddle
      exact ⟨later, hlater, hfirst.trans hsecond⟩

/-- A stored node stays where it is. -/
theorem stores_performAll {runtime : Runtime} (hwf : runtime.WellFormed)
    (hids : runtime.Identified) (calls : List RuntimeCall) {promiseId path : Text}
    {node : PromiseNode} (h : runtime.Stores promiseId path node) :
    ∃ later, (runtime.performAll calls).Stores promiseId path later ∧
      withoutCopy later = withoutCopy node := by
  obtain ⟨tree, htree, hnode⟩ := h
  obtain ⟨-, -, hkept⟩ := performAll_spec hwf hids calls
  obtain ⟨tree', htree', hkept⟩ := hkept promiseId tree htree
  obtain ⟨later, hlater, heq⟩ := hkept.forth hnode
  exact ⟨later, ⟨tree', htree', hlater⟩, heq⟩

/-- A runtime after any calls, a change of its first policy included. -/
theorem reachable_spec (calls : List RuntimeCall) :
    (new.performAll calls).WellFormed ∧ (new.performAll calls).Identified := by
  have hstart : (new : Runtime).WellFormed :=
    ⟨by simp [new], by simp [new], by simp [new], by simp [new], by decide⟩
  obtain ⟨hwf, hids, -⟩ :=
    performAll_spec hstart (identified_of_no_promises rfl (by decide)) calls
  exact ⟨hwf, hids⟩

/-- What every call keeps is kept by a sequence of calls; a call may use that the runtime is well
formed. -/
theorem performAll_keeps {runtime : Runtime} (inv : Runtime → Prop)
    (hstep : ∀ (runtime : Runtime) (call : RuntimeCall), runtime.WellFormed →
      runtime.Identified → inv runtime → inv (runtime.perform call))
    (hwf : runtime.WellFormed) (hids : runtime.Identified) (hinv : inv runtime)
    (calls : List RuntimeCall) : inv (runtime.performAll calls) := by
  induction calls generalizing runtime with
  | nil => exact hinv
  | cons call rest ih =>
      obtain ⟨hwf', hids', -⟩ := perform_spec hwf hids call
      exact ih hwf' hids' (hstep runtime call hwf hids hinv)

/-- The invariant rule for runs of calls. -/
theorem performAll_invariant {inv : Runtime → Prop}
    (hstep : ∀ (runtime : Runtime) (call : RuntimeCall), runtime.WellFormed →
      runtime.Identified → inv runtime → inv (runtime.perform call))
    (hstart : inv new) (calls : List RuntimeCall) : inv (new.performAll calls) := by
  obtain ⟨hwf, hids⟩ := reachable_spec []
  exact performAll_keeps inv hstep hwf hids hstart calls

/-- Inodes, node ids and promise ids are never shared, an inode leads to its node, and a
committed promise stays as it is except for the paths of its copies. -/
theorem performAll_identities (calls : List RuntimeCall) :
    let runtime := new.performAll calls
    (∀ (promiseId path promiseId' path' : Text) (node node' : PromiseNode),
      runtime.Stores promiseId path node → runtime.Stores promiseId' path' node' →
      (promiseId, path) ≠ (promiseId', path') →
      node.inode ≠ node'.inode ∧ node.nodeId ≠ node'.nodeId) ∧
    (∀ (promiseId promiseId' : Text) (tree tree' : PromiseTree),
      runtime.promises[promiseId]? = some tree → runtime.promises[promiseId']? = some tree' →
      promiseId ≠ promiseId' → tree.promiseId ≠ tree'.promiseId) ∧
    (∀ (promiseId path : Text) (node : PromiseNode), runtime.Stores promiseId path node →
      node.inode ≠ fuseRootInode ∧
        runtime.lookupInode node.inode = .ok (.promiseNode promiseId node)) ∧
    ∀ (later : List RuntimeCall) (promiseId : Text) (tree : PromiseTree),
      runtime.promises[promiseId]? = some tree →
      ∃ tree', (runtime.performAll later).promises[promiseId]? = some tree' ∧
        tree'.promiseId = tree.promiseId ∧ tree'.children = tree.children ∧
        ∀ path : Text, (tree'.nodes[path]?).map withoutCopy =
          (tree.nodes[path]?).map withoutCopy := by
  intro runtime
  obtain ⟨hwf, hids⟩ : runtime.WellFormed ∧ runtime.Identified := reachable_spec calls
  refine ⟨?_, ?_, ?_, ?_⟩
  · intro promiseId path promiseId' path' node node' hnode hnode' hne
    refine ⟨fun heq => hne ?_, fun heq => hne ?_⟩
    · obtain ⟨rfl, rfl⟩ := hids.inodes.injective _ _ _ _ _ _ hnode hnode' heq
      rfl
    · obtain ⟨rfl, rfl⟩ := hids.nodeIds.injective _ _ _ _ _ _ hnode hnode' heq
      rfl
  · intro promiseId promiseId' tree tree' htree htree' hne
    rw [(hwf.shape htree).1, (hwf.shape htree').1]
    exact hne
  · intro promiseId path node hnode
    have hroot := hids.notRoot _ _ _ hnode
    refine ⟨by omega, (lookupInode_eq_ok hwf hids).mpr ⟨?_, rfl⟩⟩
    obtain ⟨tree, htree, hnode⟩ := hnode
    exact ⟨tree, htree, ((hwf.shape htree).2.path hnode).1.symm ▸ hnode⟩
  · intro later promiseId tree htree
    obtain ⟨-, -, hkept⟩ := performAll_spec hwf hids later
    obtain ⟨tree', htree', hid, hchildren, hnodes⟩ := hkept promiseId tree htree
    exact ⟨tree', htree', hid, hchildren, hnodes⟩

/-! ## The counter of the inodes is a 64-bit word -/

theorem assignIds_nextInode_le (paths : List Text) {runtime : Runtime}
    (h : runtime.nextInode ≤ u64Max) (nodes : BTreeMap Text PromiseNode) :
    (runtime.assignIds nodes paths).2.nextInode ≤ u64Max := by
  induction paths generalizing runtime nodes with
  | nil => exact h
  | cons path rest ih =>
      unfold assignIds allocateNodeId
      cases hnodeId : checkedAdd runtime.nextNodeId 1 with
      | none => exact h
      | some nextNodeId =>
          dsimp only
          unfold allocateInode
          cases hinode : checkedAdd runtime.nextInode 1 with
          | none => exact h
          | some nextInode =>
              obtain ⟨rfl, hle⟩ := checkedAdd_eq_some.mp hinode
              exact ih hle _

theorem commitPromise_nextInode_le {runtime : Runtime} (h : runtime.nextInode ≤ u64Max)
    (builder : PromiseBuilder) : (runtime.commitPromise builder).2.nextInode ≤ u64Max := by
  unfold commitPromise
  split
  · have hcounted : { runtime with nextPromiseId := runtime.nextPromiseId + 1 }.nextInode ≤
        u64Max := h
    have hassign := assignIds_nextInode_le
      (builder.finish (promiseName runtime.nextPromiseId)).nodes.keys hcounted
      (builder.finish (promiseName runtime.nextPromiseId)).nodes
    unfold assignRuntimeIds
    dsimp only
    generalize assignIds _ _ _ = assigned at hassign ⊢
    obtain ⟨_ | _, _⟩ := assigned <;> exact hassign
  · exact h

/-- The inodes of every runtime are below a 64-bit word. -/
theorem nextInode_le (calls : List RuntimeCall) : (new.performAll calls).nextInode ≤ u64Max := by
  refine @performAll_invariant (fun runtime => runtime.nextInode ≤ u64Max)
    (fun runtime call _ _ h => ?_) (by decide) calls
  rcases runtime.perform_cases call with ⟨op, heffect⟩ | ⟨cachePolicy, hnext⟩
  · generalize runtime.perform call = next at heffect ⊢
    cases heffect with
    | keep => exact h
    | register => exact h
    | unregister hnext =>
        obtain ⟨_, -, rfl⟩ := unregisterProvider_eq_ok hnext
        exact h
    | commit => exact commitPromise_nextInode_le h _
    | mark hnext =>
        obtain ⟨_, _, -, -, -, rfl⟩ := markNodeMaterialized_eq_ok hnext
        exact h
    | record hnext =>
        rcases recordCachedRead_eq_ok hnext with ⟨rfl, -⟩ | ⟨_, _, _, -, -, -, -, rfl⟩ <;> exact h
  · obtain ⟨_, -, hnext⟩ := bind_eq_ok.mp hnext
    rw [← Except.ok.inj hnext]
    split <;> exact h

theorem performAll_run (runtime : Runtime) (calls : List RuntimeCall) (ops : List RuntimeOp) :
    (runtime.performAll calls).run ops = runtime.performAll (calls ++ ops.map .op) := by
  rw [performAll, performAll, List.foldl_append, List.foldl_map]
  rfl

end Runtime

end FusePromise
