import FusePromise.Materialize.Frame
import FusePromise.Runtime.Identity

/-!
# Which nodes have a copy

A run marks the nodes of its plan in one loop under the runtime's lock.  The marks
are the only change of a node that is stored: what the other threads do meanwhile
adds promises, whose nodes have no copies, and changes no node.  So the nodes of a
plan are still stored when they are marked, and the loop does not fail.
-/

namespace FusePromise

open Machine Program

namespace Runtime

/-! ## Operations that mark nothing -/

/-- The nodes of the one runtime are stored in the other as they are, and what is stored there
besides belongs to new promises and has no copy. -/
structure Grows (runtime next : Runtime) : Prop where
  promises : ∀ {promiseId : Text}, promiseId ∈ runtime.promises → promiseId ∈ next.promises
  forth : ∀ {promiseId path : Text} {node : PromiseNode}, runtime.Stores promiseId path node →
    next.Stores promiseId path node
  back : ∀ {promiseId path : Text} {node : PromiseNode}, next.Stores promiseId path node →
    runtime.Stores promiseId path node ∨
      promiseId ∉ runtime.promises ∧ node.materializedPath = none

theorem Grows.refl (runtime : Runtime) : Grows runtime runtime :=
  ⟨id, id, Or.inl⟩

theorem Grows.trans {first second third : Runtime} (h : Grows first second)
    (h' : Grows second third) : Grows first third := by
  refine ⟨fun hmem => h'.promises (h.promises hmem), fun hnode => h'.forth (h.forth hnode), ?_⟩
  intro promiseId path node hnode
  rcases h'.back hnode with hsecond | ⟨hnew, hnone⟩
  · exact h.back hsecond
  · exact Or.inr ⟨fun hmem => hnew (h.promises hmem), hnone⟩

theorem Grows.of_promises {runtime next : Runtime} (h : next.promises = runtime.promises) :
    Grows runtime next := by
  refine ⟨fun hmem => h ▸ hmem, fun hnode => ?_, fun hnode => Or.inl ?_⟩
  · rwa [Stores, h]
  · rwa [Stores, h] at hnode

/-- A new promise has no copies. -/
theorem commitPromise_unmaterialized {runtime : Runtime} {builder : PromiseBuilder}
    {tree : PromiseTree} {path : Text} {node : PromiseNode} (hbuilder : builder.Unmaterialized)
    (h : (runtime.commitPromise builder).1 = .ok tree) (hnode : tree.nodes[path]? = some node) :
    node.materializedPath = none := by
  obtain ⟨-, -, -, -, -, hsame, -⟩ := (commitPromise_spec runtime builder).2 tree h
  have hpath := hsame path
  rw [hnode, Option.map_some] at hpath
  obtain ⟨declared, hdeclared, heq⟩ := Option.map_eq_some_iff.mp hpath.symm
  calc node.materializedPath
      = declared.materializedPath := (congrArg PromiseNode.materializedPath heq).symm
    _ = none := hbuilder hdeclared

theorem grows_commitPromise {runtime : Runtime} (hwf : runtime.WellFormed)
    {builder : PromiseBuilder} (hbuilder : builder.Unmaterialized) :
    Grows runtime (runtime.commitPromise builder).2 := by
  obtain ⟨herror, hok⟩ := commitPromise_spec runtime builder
  cases hresult : (runtime.commitPromise builder).1 with
  | error status =>
      obtain ⟨_, _, _, hnext, -⟩ := herror status hresult
      exact .of_promises (by rw [hnext])
  | ok tree =>
      obtain ⟨-, -, -, -, -, -, _, _, hnext⟩ := hok tree hresult
      have hfresh := hwf.fresh
      refine ⟨fun hmem => ?_, fun {promiseId path node} hnode => ?_,
        fun {promiseId path node} hnode => ?_⟩
      · rw [hnext]
        exact Std.ExtTreeMap.mem_insert.mpr (Or.inr hmem)
      · rw [stores_commitPromise hresult, if_neg]
        · exact hnode
        · rintro rfl
          obtain ⟨stored, hstored, -⟩ := hnode
          exact hfresh (BTreeMap.mem_of_getElem? hstored)
      · rw [stores_commitPromise hresult] at hnode
        split at hnode
        · rename_i hname
          exact Or.inr ⟨hname ▸ hfresh, commitPromise_unmaterialized hbuilder hresult hnode⟩
        · exact Or.inl hnode

theorem grows_unregisterProvider {runtime next : Runtime} {providerId : ProviderId}
    (h : runtime.unregisterProvider providerId = .ok next) : Grows runtime next := by
  obtain ⟨_, -, rfl⟩ := unregisterProvider_eq_ok h
  refine ⟨fun hmem => by simpa using hmem, fun hnode => ?_, fun hnode => Or.inl ?_⟩
  · obtain ⟨tree, htree, hstored⟩ := hnode
    exact ⟨markProviderGone providerId tree, by simp [htree], by simpa using hstored⟩
  · obtain ⟨later, hlater, hstored⟩ := hnode
    simp only [Std.ExtTreeMap.getElem?_map] at hlater
    obtain ⟨tree, htree, rfl⟩ := Option.map_eq_some_iff.mp hlater
    exact ⟨tree, htree, by simpa using hstored⟩

theorem Effect.grows {runtime next : Runtime} {op : RuntimeOp} (hwf : runtime.WellFormed)
    (h : Effect runtime op next) (hop : op.isMark = false) : Grows runtime next := by
  cases h with
  | keep => exact .refl runtime
  | register => exact .of_promises rfl
  | unregister hnext => exact grows_unregisterProvider hnext
  | commit hbuilder =>
      exact grows_commitPromise hwf
        (PromiseBuilder.unmaterialized_addNodes (PromiseBuilder.unmaterialized_new _) hbuilder)
  | mark => simp [RuntimeOp.isMark] at hop
  | record hnext =>
      rcases recordCachedRead_eq_ok hnext with ⟨rfl, -⟩ | ⟨_, _, _, -, -, -, -, rfl⟩
      · exact .refl _
      · exact .of_promises rfl

theorem grows_run {runtime : Runtime} (hwf : runtime.WellFormed) {ops : List RuntimeOp}
    (hops : ∀ op ∈ ops, op.isMark = false) : Grows runtime (runtime.run ops) := by
  induction ops generalizing runtime with
  | nil => exact .refl runtime
  | cons op rest ih =>
      have heffect := runtime.effect_apply op
      exact (heffect.grows hwf (hops op List.mem_cons_self)).trans
        (ih (hwf.effect heffect) fun other hother => hops other (List.mem_cons_of_mem _ hother))

/-! ## Marks -/

/-- The path of a stored node is the one it is marked under. -/
theorem WellFormed.markNodeMaterialized_of_stores {runtime : Runtime} (hwf : runtime.WellFormed)
    {promiseId path : Text} {node : PromiseNode} (h : runtime.Stores promiseId path node)
    (target : Text) :
    ∃ next, runtime.markNodeMaterialized promiseId path target = .ok next ∧
      next.Stores promiseId path { node with materializedPath := some target } ∧
      ∀ {otherId otherPath : Text} {other : PromiseNode},
        ¬ (otherId = promiseId ∧ otherPath = path) →
        (next.Stores otherId otherPath other ↔ runtime.Stores otherId otherPath other) := by
  obtain ⟨tree, htree, hnode⟩ := h
  obtain ⟨-, names, hnames, rfl⟩ := (hwf.shape htree).2.path hnode
  have hmem : joinNames names ∈ tree.nodes := BTreeMap.mem_of_getElem? hnode
  refine ⟨{ runtime with
      promises := runtime.promises.insert promiseId { tree with
        nodes := tree.nodes.modify (joinNames names) fun node =>
          { node with materializedPath := some target } } },
    ?_, ⟨_, Std.ExtTreeMap.getElem?_insert_self, ?_⟩, ?_⟩
  · refine bind_eq_ok.mpr ⟨joinNames names, normalizeRelativePath_joinNames hnames, ?_⟩
    refine bind_eq_ok.mpr ⟨tree, okOr_eq_ok.mpr htree, ?_⟩
    exact if_pos hmem
  · simp [hnode]
  · intro otherId otherPath other hne
    unfold Stores
    simp only [Std.ExtTreeMap.getElem?_insert, Std.LawfulEqCmp.compare_eq_iff_eq]
    by_cases hid : promiseId = otherId
    · subst hid
      have hpath : joinNames names ≠ otherPath := fun heq => hne ⟨rfl, heq.symm⟩
      simp only [if_true, Option.some.injEq, exists_eq_left', htree,
        Std.ExtTreeMap.getElem?_modify, Std.LawfulEqCmp.compare_eq_iff_eq, hpath, if_false]
    · simp only [hid, if_false]

/-- The nodes of the entries have their copies, and no other node has changed. -/
structure Marks (promiseId : Text) (entries : List MaterializeEntryPlan)
    (runtime next : Runtime) : Prop where
  marked : ∀ {entry : MaterializeEntryPlan} {node : PromiseNode}, entry ∈ entries →
    runtime.Stores promiseId entry.relativePath node →
    next.Stores promiseId entry.relativePath
      { node with materializedPath := some entry.targetPath }
  other : ∀ {otherId path : Text} {node : PromiseNode},
    ¬ (otherId = promiseId ∧ path ∈ entries.map MaterializeEntryPlan.relativePath) →
    (next.Stores otherId path node ↔ runtime.Stores otherId path node)

/-- The operations that mark the entries of a plan. -/
def markOps (promiseId : Text) (entries : List MaterializeEntryPlan) : List RuntimeOp :=
  entries.map fun entry =>
    .markNodeMaterialized promiseId entry.relativePath entry.targetPath

end Runtime

namespace Daemon

/-- The loop marks every entry of a plan whose nodes are stored. -/
theorem markEntries_ok {promiseId : Text} {entries : List MaterializeEntryPlan} {world : World}
    (hwf : world.runtime.WellFormed)
    (hstored : ∀ entry ∈ entries, ∃ node,
      world.runtime.Stores promiseId entry.relativePath node)
    (hnodup : (entries.map MaterializeEntryPlan.relativePath).Nodup) :
    ∃ marked, markEntries promiseId entries world =
        (.ok (), { world with
          runtime := world.runtime.run (Runtime.markOps promiseId entries)
          marked }) ∧
      Runtime.Marks promiseId entries world.runtime
        (world.runtime.run (Runtime.markOps promiseId entries)) := by
  induction entries generalizing world with
  | nil => exact ⟨world.marked, rfl, by simp, fun _ => Iff.rfl⟩
  | cons entry rest ih =>
      obtain ⟨node, hnode⟩ := hstored entry List.mem_cons_self
      obtain ⟨next, hnext, hhere, hother⟩ :=
        hwf.markNodeMaterialized_of_stores hnode entry.targetPath
      obtain ⟨hfresh, hrest⟩ := List.nodup_cons.mp hnodup
      have happly : world.runtime.apply
          (.markNodeMaterialized promiseId entry.relativePath entry.targetPath) = next := by
        simp only [Runtime.apply, hnext, Runtime.orKeep]
      -- a mark leaves the other entries alone, since no two have the same path
      have hne : ∀ {later : MaterializeEntryPlan}, later ∈ rest →
          ¬ (promiseId = promiseId ∧ later.relativePath = entry.relativePath) := by
        rintro later hlater ⟨-, heq⟩
        exact hfresh (List.mem_map.mpr ⟨later, hlater, heq⟩)
      have hwf' : next.WellFormed := hwf.markNodeMaterialized hnext
      obtain ⟨marked, hrun, hmarks⟩ := @ih
        { world with runtime := next, marked := world.marked ++ [entry.relativePath] } hwf'
        (fun later hlater => by
          obtain ⟨found, hfound⟩ := hstored later (List.mem_cons_of_mem _ hlater)
          exact ⟨found, (hother (hne hlater)).mpr hfound⟩) hrest
      have hops : world.runtime.run (Runtime.markOps promiseId (entry :: rest)) =
          next.run (Runtime.markOps promiseId rest) := by
        rw [← happly]
        rfl
      refine ⟨marked, ?_, ?_⟩
      · rw [hops]
        simp only [markEntries, Bind.bind, Prog.get, Prog.ofExcept, hnext, Prog.set]
        exact hrun
      · rw [hops]
        refine ⟨fun {later found} hlater hfound => ?_, fun {otherId path found} hnot => ?_⟩
        · rcases List.mem_cons.mp hlater with rfl | hlater
          · obtain rfl := hnode.unique hfound
            refine (hmarks.other ?_).mpr hhere
            rintro ⟨-, hmem⟩
            exact hfresh hmem
          · exact hmarks.marked hlater ((hother (hne hlater)).mpr hfound)
        · have hnotRest : ¬ (otherId = promiseId ∧
              path ∈ rest.map MaterializeEntryPlan.relativePath) :=
            fun hmem => hnot ⟨hmem.1, List.mem_cons_of_mem _ hmem.2⟩
          have hnotEntry : ¬ (otherId = promiseId ∧ path = entry.relativePath) := by
            rintro ⟨rfl, rfl⟩
            exact hnot ⟨rfl, List.mem_cons_self⟩
          exact (hmarks.other hnotRest).trans (hother hnotEntry)

end Daemon

end FusePromise
