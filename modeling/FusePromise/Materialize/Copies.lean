import FusePromise.Materialize.Overwrite

/-!
# What the copies of the nodes hold

The runtime remembers where the copy of a file is, and reads the copy instead of
asking the provider.  That is right as long as the copy holds the content of its
node, which `CopiesHold` says of a runtime and a filesystem.

A run of requests keeps it when no file is written over the copy of another node.
Nothing in the daemon sees to that: a request that overwrites takes what lies at its
targets, and the runtime still reads it as the copy of the node it was made for.
-/

namespace FusePromise

open Machine ByteMap Program Unix World

/-- Where the path of a copy leads there is a file with the content of the node. -/
def CopiesHold (content : Content) (runtime : Runtime) (fs : FileSystem) : Prop :=
  ∀ promiseId path node target, runtime.Stores promiseId path node → node.kind = .file →
    node.materializedPath = some target →
    ∃ loc object, fs.locate target = .ok loc ∧ fs.get loc = some object ∧
      object.body = .file (slice (content ⟨promiseId, path⟩) 0 node.attr.size.toNat)

namespace CopiesHold

variable {content : Content} {runtime next : Runtime} {fs : FileSystem}

/-- New nodes have no copies. -/
theorem grows (h : CopiesHold content runtime fs) (hgrows : Runtime.Grows runtime next) :
    CopiesHold content next fs := by
  intro promiseId path node target hstores hkind htarget
  rcases hgrows.back hstores with hbefore | ⟨-, hnone⟩
  · exact h promiseId path node target hbefore hkind htarget
  · simp [hnone] at htarget

theorem shrinks (h : CopiesHold content next fs) (hgrows : Runtime.Grows runtime next) :
    CopiesHold content runtime fs :=
  fun promiseId path node target hstores => h promiseId path node target (hgrows.forth hstores)

end CopiesHold

/-- No file of the entries is put where the copy of another node is. -/
def Layout.Spares {start : Holdings} {entries : List MaterializeEntryPlan}
    (layout : Layout start entries) (promiseId : Text) (runtime : Runtime) (fs : FileSystem) :
    Prop :=
  ∀ entry ∈ entries, entry.kind = .file → ∀ otherId path node target,
    runtime.Stores otherId path node → node.kind = .file → node.materializedPath = some target →
    fs.locate target = .ok (layout.loc entry) → otherId = promiseId ∧ path = entry.relativePath

/-- Every byte is one of the content. -/
def contentOnly (content : Content) (promiseId : Text) : Trust where
  Byte _ relativePath i v := v = content ⟨promiseId, relativePath⟩ i
  mono _ h := h

section Remains

variable {content : Content} {first : World} {entries : List MaterializeEntryPlan}
  {layout : Layout first.fs.held entries} {promiseId : Text} {copied : List CopiedChunk}
  {fs : FileSystem}

/-- Walks that do not mind permissions find what they found before. -/
theorem Remains.extends {trust : Trust} (h : Remains layout trust copied fs) :
    Unix.Extends (first.fs.view false) (fs.view false) := by
  intro loc v hv
  rw [← FileSystem.view_held] at hv ⊢
  obtain ⟨object, hobject, rfl⟩ := Option.map_eq_some_iff.mp hv
  obtain ⟨later, hlater, hbecomes⟩ := h hobject
  exact Or.inl (by rw [Holdings.view, hlater, Option.map_some, hbecomes.view_false])

/-- What a run has done so far leaves the copies as they should be. -/
theorem Remains.copiesHold (h : Remains layout (contentOnly content promiseId) copied fs)
    {runtime : Runtime} (hcopies : CopiesHold content runtime first.fs)
    (hspares : layout.Spares promiseId runtime first.fs)
    (hsize : ∀ entry ∈ entries, ∀ node, runtime.Stores promiseId entry.relativePath node →
      node.attr.size = entry.size) : CopiesHold content runtime fs := by
  intro otherId path node target hstores hkind htarget
  obtain ⟨loc, object, hlocate, hobject, hbody⟩ :=
    hcopies otherId path node target hstores hkind htarget
  obtain ⟨held, hheld, hbecomes⟩ := h (FileSystem.held_of_get hobject)
  obtain ⟨later, hlater, rfl⟩ := FileSystem.get_of_held hheld
  refine ⟨loc, later, walk_mono h.extends hlocate, hlater, ?_⟩
  generalize hdated : later.setMtime 0 = now at hbecomes
  have hnow : later.body = now.body := hdated ▸ rfl
  cases hbecomes with
  | same => exact hnow.trans hbody
  | mode => exact hnow.trans hbody
  | @content entry _ bytes old hmem hfile hloc _ hbytes hwhole =>
      obtain ⟨rfl, rfl⟩ :=
        hspares entry hmem hfile otherId path node target hstores hkind htarget (hloc ▸ hlocate)
      rw [hnow, hbytes, eq_slice_of_whole id hwhole, hsize entry hmem node hstores]

end Remains

/-- A byte of a stretch of a file. -/
theorem eq_of_getElem?_take_drop {f : ℕ → UInt8} {size offset length i : ℕ} {v : UInt8}
    (h : (((slice f 0 size).drop offset).take length)[i]? = some v) : v = f (offset + i) := by
  rw [List.getElem?_take] at h
  split at h
  · rw [List.getElem?_drop, getElem?_slice] at h
    split at h
    · rw [← Option.some.inj h, Nat.zero_add]
    · simp at h
  · simp at h

/-! ## One request -/

namespace Daemon

/-- A request that overwrites has no file of its subtree where the copy of another node is. -/
def SparesCopies (env : Environment) (request : MaterializeBody) (world : World) : Prop :=
  request.conflictPolicy = .overwrite → ∀ promiseId names nodes rootName targetDir,
    Asks env request world promiseId names nodes rootName targetDir →
    ∀ node ∈ nodes, node.kind = .file → ∀ otherId path other target,
      world.runtime.Stores otherId path other → other.kind = .file →
      other.materializedPath = some target →
      world.fs.locate target = .ok (placeBelow targetDir rootName (node.namesBelow names)) →
      otherId = promiseId ∧ path = node.relativePath

section Begun

variable {content : Content} {env : Environment} {request : MaterializeBody}
  {world first last : World} {plan : MaterializePlan} {tree : PromiseTree} {names : List Text}
  {rootName : Text} {nodes : List PromiseNode} {targetDir : Loc}

theorem Begun.spares (h : Begun env request world plan first tree names rootName nodes targetDir)
    (hwf : world.runtime.WellFormed) (hcopies : CopiesHold content world.runtime world.fs)
    (hspares : SparesCopies env request world) {layout : Layout first.fs.held plan.entries}
    (hloc : ∀ entry, layout.loc entry = placeBelow targetDir rootName (namesBelow names entry)) :
    layout.Spares plan.promiseId first.runtime first.fs := by
  intro entry hmem hkind otherId path other target hstores hother htarget hlocate
  have hbefore : world.runtime.Stores otherId path other := by
    rcases (h.grows hwf).back hstores with hbefore | ⟨-, hnone⟩
    · exact hbefore
    · simp [hnone] at htarget
  rw [hloc] at hlocate
  rw [h.fs] at hlocate
  by_cases hpolicy : request.conflictPolicy = .overwrite
  · rw [h.planned.entries_eq] at hmem
    obtain ⟨node, hnode, rfl⟩ := List.mem_map.mp hmem
    exact hspares hpolicy _ _ _ _ _ (h.asks (by simp [hpolicy])) node hnode hkind otherId path other
      target hbefore hother htarget hlocate
  · -- the target is free, but there is a copy
    obtain ⟨loc, object, hcopy, hobject, -⟩ :=
      hcopies otherId path other target hbefore hother htarget
    obtain rfl := Except.ok.inj (hcopy.symm.trans hlocate)
    have hfree := h.free hpolicy (namesBelow names entry)
    rw [h.fs, hobject] at hfree
    simp at hfree

theorem Begun.size (h : Begun env request world plan first tree names rootName nodes targetDir) :
    ∀ entry ∈ plan.entries, ∀ node, first.runtime.Stores plan.promiseId entry.relativePath node →
      node.attr.size = entry.size := by
  intro entry hmem node hstores
  obtain ⟨found, below, hnormal, hstored, rfl⟩ := h.planned.mem_entries.mp hmem
  have hfound := h.stored hstored
  rw [← (h.planned.shape.path hstored).1] at hfound
  rw [hstores.unique hfound]
  rfl

/-- As long as the copies hold the content, all bytes are bytes of the content. -/
theorem Begun.readsChunks_contentOnly
    (h : Begun env request world plan first tree names rootName nodes targetDir)
    (hwf : world.runtime.WellFormed) (henv : env.Honest content)
    (hcache : CacheHolds content world.runtime) {layout : Layout first.fs.held plan.entries}
    (hcopies : CopiesHold content first.runtime first.fs)
    (hspares : layout.Spares plan.promiseId first.runtime first.fs) :
    ∀ entry ∈ plan.entries,
      ReadsChunks layout (contentOnly content plan.promiseId) env plan.promiseId entry := by
  intro entry hmem
  refine readsChunks_of_source henv h.wellFormed (h.cacheHolds hwf henv hcache) (h.normalize hmem)
    (fun _ _ => rfl) ?_
  rintro offset bytes middle later hunmarked hremains hreads i v hv
  obtain ⟨ops, node, target, file, length, hops, hstores, hkind, htarget, hopen, hread, -⟩ := hreads
  obtain ⟨before, hbefore, hruntime⟩ := hunmarked.runtime
  rw [hruntime, ← Runtime.run_append] at hstores
  have hgrows : Runtime.Grows first.runtime (first.runtime.run (before ++ ops)) :=
    Runtime.grows_run h.wellFormed fun op hop =>
      ((List.mem_append.mp hop).elim (hbefore op) (hops op)).isMark
  obtain ⟨loc, object, hlocate, hobject, hbody⟩ :=
    (hremains.copiesHold hcopies hspares h.size).grows hgrows _ _ node target hstores hkind htarget
  have hfile := FileSystem.locate_of_resolve (FileSystem.openRead_eq_ok_iff.mp hopen).1
  obtain rfl := Except.ok.inj (hfile.symm.trans hlocate)
  rw [FileSystem.readAt_file hobject hbody] at hread
  obtain rfl := Except.ok.inj hread
  exact eq_of_getElem?_take_drop hv

end Begun

theorem Finished.cacheHolds {content : Content} {env : Environment} {first last : World}
    {entries : List MaterializeEntryPlan} {layout : Layout first.fs.held entries} {trust : Trust}
    {promiseId : Text} (h : Finished env layout trust promiseId last)
    (hwf : first.runtime.WellFormed) (henv : env.Honest content)
    (hcache : CacheHolds content first.runtime) : CacheHolds content last.runtime := by
  obtain ⟨before, created, marked, hbefore, rfl, -⟩ := h
  obtain ⟨ops, hops, hruntime⟩ := hbefore.1.runtime
  have hmiddle := hcache.run hwf fun op hop => henv.op (hops op hop)
  have hwf' := hwf.run ops
  rw [← hruntime] at hmiddle hwf'
  refine hmiddle.run hwf' fun op hop => ?_
  obtain ⟨entry, -, rfl⟩ := List.mem_map.mp hop
  trivial

end Daemon

/-- The nodes of a copied subtree have their copies, and so do the others. -/
theorem SubtreeCopied.copiesHold {content : Content} {promiseId : Text} {tree : PromiseTree}
    {names : List Text} {targetPath : Text} {targetDir : Loc} {rootName : Text} {world last : World}
    (h : SubtreeCopied content promiseId tree names targetPath targetDir rootName world last)
    (hcopies : CopiesHold content world.runtime last.fs) :
    CopiesHold content last.runtime last.fs := by
  intro otherId path node target hstores hkind htarget
  by_cases hin : otherId = promiseId ∧ ∃ below node, tree.NodeBelow names below node ∧
      path = joinNames (names ++ below)
  · obtain ⟨rfl, below, found, hbelow, rfl⟩ := hin
    obtain rfl := hstores.unique (h.marked hbelow)
    obtain rfl := Option.some.inj htarget
    obtain ⟨hlocate, object, hobject, hcopy⟩ := h.copy hbelow
    refine ⟨_, object, hlocate, hobject, ?_⟩
    rw [hcopy.body, PromiseNode.body, show found.kind = .file from hkind]
  · rcases (h.unmarked hin).2 hstores with hbefore | ⟨-, hnone⟩
    · exact hcopies otherId path node target hbefore hkind htarget
    · simp [hnone] at htarget

/-! ## Runs of requests -/

/-- A call that marks a node as materialized. -/
def RuntimeCall.isMark : RuntimeCall → Bool
  | .op operation => operation.isMark
  | _ => false

namespace Runtime

variable {runtime : Runtime}

theorem WellFormed.perform (hwf : runtime.WellFormed) (call : RuntimeCall) :
    (runtime.perform call).WellFormed := by
  rcases runtime.perform_cases call with ⟨op, heffect⟩ | ⟨cachePolicy, hnext⟩
  · exact hwf.effect heffect
  · exact hwf.setCachePolicy hnext

theorem grows_perform (hwf : runtime.WellFormed) {call : RuntimeCall}
    (hmark : call.isMark = false) : Grows runtime (runtime.perform call) := by
  cases call with
  | op op => exact (runtime.effect_apply op).grows hwf hmark
  | commitBuilder providerId calls =>
      obtain ⟨nodes, hnodes⟩ := (PromiseBuilder.new providerId).exists_addNodes_eq_runCalls calls
      exact (Effect.commit hnodes).grows hwf rfl
  | setCachePolicy cachePolicy =>
      simp only [perform]
      cases hnext : runtime.setCachePolicy cachePolicy with
      | error status => exact .refl runtime
      | ok next =>
          obtain ⟨_, -, hnext⟩ := bind_eq_ok.mp hnext
          obtain rfl := Except.ok.inj hnext
          split <;> exact .of_promises rfl

end Runtime

/-- What happens to the runtime and the filesystem, one thing after the other: calls of the
runtime, which record nothing but the content, and requests with honest providers, as far as they
are allowed.  Nothing else touches the filesystem. -/
inductive DaemonStep (content : Content) (allowed : Environment → MaterializeBody → World → Prop) :
    World → World → Prop
  | call {call : RuntimeCall} (hmark : call.isMark = false) (hcall : call.Honest content)
      (world : World) :
      DaemonStep content allowed world { world with runtime := world.runtime.perform call }
  | materialize {env : Environment} {request : MaterializeBody} {world last : World}
      {reports : List MaterializeProgress}
      {result : Except MaterializeOperationError MaterializeProgress} (henv : env.Honest content)
      (hallowed : allowed env request world)
      (hrun : (Daemon.materializeNodeInState env request world).Path reports (result, last)) :
      DaemonStep content allowed world last

/-- The runtime and the filesystem hold nothing but the content. -/
structure HoldsContent (content : Content) (world : World) : Prop where
  wellFormed : world.runtime.WellFormed
  cache : CacheHolds content world.runtime
  copies : CopiesHold content world.runtime world.fs

namespace HoldsContent

variable {content : Content} {world last : World} {env : Environment} {request : MaterializeBody}

theorem fresh (mount : IpcMountStatus) (fs : FileSystem) :
    HoldsContent content (.fresh Runtime.new mount fs) := by
  refine ⟨(Runtime.reachable_spec []).1, .of_empty rfl, ?_⟩
  rintro promiseId path node target ⟨tree, htree, -⟩
  simp [World.fresh, Runtime.new] at htree

theorem unmarked (h : HoldsContent content world) (henv : env.Honest content)
    (hunmarked : Unmarked env world last) (hcopies : CopiesHold content world.runtime last.fs) :
    HoldsContent content last := by
  obtain ⟨ops, hops, hruntime⟩ := hunmarked.runtime
  have hwf := h.wellFormed.run ops
  have hcache := h.cache.run h.wellFormed fun op hop => henv.op (hops op hop)
  have hgrows := Runtime.grows_run h.wellFormed fun op hop => (hops op hop).isMark
  rw [← hruntime] at hwf hcache hgrows
  exact ⟨hwf, hcache, hcopies.grows hgrows⟩

theorem call (h : HoldsContent content world) {call : RuntimeCall} (hmark : call.isMark = false)
    (hcall : call.Honest content) :
    HoldsContent content { world with runtime := world.runtime.perform call } :=
  ⟨h.wellFormed.perform call, h.cache.perform h.wellFormed hcall,
    h.copies.grows (Runtime.grows_perform h.wellFormed hmark)⟩

theorem materialize (h : HoldsContent content world) (henv : env.Honest content)
    (hspares : Daemon.SparesCopies env request world) {reports : List MaterializeProgress}
    {result : Except MaterializeOperationError MaterializeProgress}
    (hrun : (Daemon.materializeNodeInState env request world).Path reports (result, last)) :
    HoldsContent content last := by
  rcases Daemon.materializeNodeInState_cases h.wellFormed hrun with ⟨-, hkeeps⟩ |
    ⟨plan, first, tree, names, rootName, nodes, targetDir, layout, hplan, hbegun, htop, hloc, hpath⟩
  · exact h.unmarked henv hkeeps.toUnmarked (hkeeps.fs ▸ h.copies)
  have hgrows := hbegun.grows h.wellFormed
  have hfirst : HoldsContent content first :=
    ⟨hbegun.wellFormed, hbegun.cacheHolds h.wellFormed henv h.cache,
      hbegun.fs ▸ h.copies.grows hgrows⟩
  have hlayout := hbegun.spares h.wellFormed h.copies hspares hloc
  have houtcome := hbegun.outcome layout
    (hbegun.readsChunks_contentOnly h.wellFormed henv h.cache hfirst.copies hlayout) hpath
  cases result with
  | error error =>
      obtain ⟨hunmarked, hremains, -⟩ :
          During env first (RolledBack layout (contentOnly content plan.promiseId) _) last :=
        houtcome
      exact hfirst.unmarked henv hunmarked
        (Remains.copiesHold hremains hfirst.copies hlayout hbegun.size)
  | ok progress =>
      have hfinished : Daemon.Finished env layout (contentOnly content plan.promiseId)
          plan.promiseId last := houtcome
      have hcopies := Remains.copiesHold hfinished.remains hfirst.copies hlayout hbegun.size
      have hcopied := hbegun.subtreeCopied h.wellFormed htop hloc hfinished id
      exact ⟨hfinished.wellFormed hbegun.wellFormed,
        hfinished.cacheHolds hbegun.wellFormed henv hfirst.cache,
        hcopied.copiesHold (hcopies.shrinks hgrows)⟩

/-- Every step keeps the content, if no request writes over the copy of another node. -/
theorem step (h : HoldsContent content world)
    (hstep : DaemonStep content Daemon.SparesCopies world last) : HoldsContent content last := by
  cases hstep with
  | call hmark hcall => exact h.call hmark hcall
  | materialize henv hspares hrun => exact h.materialize henv hspares hrun

theorem reached {mount : IpcMountStatus} {fs : FileSystem}
    (h : Relation.ReflTransGen (DaemonStep content Daemon.SparesCopies)
      (.fresh Runtime.new mount fs) world) : HoldsContent content world := by
  induction h with
  | refl => exact .fresh mount fs
  | tail _ hstep ih => exact ih.step hstep

/-- A plan to read a copy reads the content, if the copy may be read. -/
theorem planRead (h : HoldsContent content world) {promiseId path : Text} {offset length : ℕ}
    {plan : MaterializedReadPlan}
    (hplan : world.runtime.planRead promiseId path offset length = .ok (.materialized plan)) :
    ∃ normal, normalizeRelativePath path = .ok normal ∧
      (world.fs.Readable plan.path → ∃ file, world.fs.openRead plan.path = .ok file ∧
        world.fs.readAt file plan.offset plan.length =
          .ok (slice (content ⟨promiseId, normal⟩) plan.offset plan.length)) ∧
      (¬ world.fs.Readable plan.path → world.fs.openRead plan.path = .error .acces) := by
  obtain ⟨tree, node, hfound, ⟨-, heof⟩ | ⟨clamped, -, hinside, hclamp, hcases⟩⟩ :=
    Runtime.planRead_eq_ok hplan
  · simp at heof
  obtain ⟨htree, -, -⟩ := Runtime.fileNode_eq_ok.mp hfound
  obtain ⟨-, hnormal, hstored, hkind⟩ := h.wellFormed.fileNode hfound
  rcases hcases with ⟨target, htarget, hmaterialized⟩ | ⟨-, _, -, hcached⟩ | ⟨-, -, _, -, hrequest⟩
  · obtain rfl := ReadPlan.materialized.inj hmaterialized
    obtain ⟨loc, object, hlocate, hobject, hbody⟩ :=
      h.copies promiseId _ node target ⟨tree, htree, hstored⟩ hkind htarget
    obtain ⟨hopen, hdenied⟩ := FileSystem.openRead_iff_readable hlocate hobject
    refine ⟨node.relativePath, hnormal, fun hreadable => ⟨loc, hopen hreadable, ?_⟩, hdenied⟩
    have hlength := (Runtime.clampLength_eq_ok.mp hclamp).1
    show world.fs.readAt loc offset clamped = .ok (slice _ offset clamped)
    rw [FileSystem.readAt_file hobject hbody, drop_slice _ _ _ _ (by omega),
      take_slice _ _ _ _ (by omega), Nat.zero_add]
  · simp at hcached
  · simp at hrequest

end HoldsContent

/-- In every run in which no request writes over the copy of another node, every copy holds the
content of its node.  A plan to read a copy reads the content when all directories on the way to
the copy may be searched and the copy may be read, and is denied when not. -/
theorem copies_hold_content (content : Content) {mount : IpcMountStatus} {fs : FileSystem}
    {world : World} (hrun : Relation.ReflTransGen (DaemonStep content Daemon.SparesCopies)
      (.fresh Runtime.new mount fs) world) :
    CopiesHold content world.runtime world.fs ∧
    ∀ promiseId path offset length plan,
      world.runtime.planRead promiseId path offset length = .ok (.materialized plan) →
      ∃ normal, normalizeRelativePath path = .ok normal ∧
        (world.fs.Readable plan.path → ∃ file, world.fs.openRead plan.path = .ok file ∧
          world.fs.readAt file plan.offset plan.length =
            .ok (slice (content ⟨promiseId, normal⟩) plan.offset plan.length)) ∧
        (¬ world.fs.Readable plan.path → world.fs.openRead plan.path = .error .acces) := by
  have hholds := HoldsContent.reached hrun
  exact ⟨hholds.copies, fun _ _ _ _ _ hplan => hholds.planRead hplan⟩

/-- Calls are steps. -/
theorem reaches_performAll {content : Content}
    {allowed : Environment → MaterializeBody → World → Prop} {calls : List RuntimeCall}
    (hmarks : ∀ call ∈ calls, call.isMark = false) (hcalls : ∀ call ∈ calls, call.Honest content)
    (mount : IpcMountStatus) (fs : FileSystem) :
    Relation.ReflTransGen (DaemonStep content allowed) (.fresh Runtime.new mount fs)
      (.fresh (Runtime.new.performAll calls) mount fs) := by
  induction calls using List.reverseRecOn with
  | nil => exact .refl
  | append_singleton calls call ih =>
      have hbefore := ih (fun call hcall => hmarks call (List.mem_append_left _ hcall))
        fun call hcall => hcalls call (List.mem_append_left _ hcall)
      rw [Runtime.performAll, List.foldl_append]
      exact hbefore.tail (.call (hmarks call (by simp)) (hcalls call (by simp)) _)

/-- A copy of three bytes is read instead of the file. -/
theorem copies_hold_content_file :
    ∃ world, Relation.ReflTransGen (DaemonStep (fun _ i => i.toUInt8) Daemon.SparesCopies)
        (.fresh Runtime.new ⟨some "/m".toList, true⟩ .empty) world ∧
      world.runtime.planRead "promise-1".toList "f".toList 0 3 =
        .ok (.materialized ⟨"/f".toList, 0, 3⟩) ∧
      ∃ file, world.fs.openRead "/f".toList = .ok file ∧
        world.fs.readAt file 0 3 = .ok [0, 1, 2] := by
  obtain ⟨reports, ⟨result, last⟩, hpath, hplan, hreadable⟩ : ∃ reports final,
      (Daemon.materializeNodeInState (.answering fun _ i => i.toUInt8)
        ⟨"/m/promise-1/f".toList, "/".toList, .fail⟩ (.promisedFile 3 .empty)).Path reports final ∧
      final.2.runtime.planRead "promise-1".toList "f".toList 0 3 =
        .ok (.materialized ⟨"/f".toList, 0, 3⟩) ∧
      final.2.fs.resolve "/f".toList = .ok ["f".toList] ∧
      (final.2.fs.get ["f".toList]).map Object.readable = some true :=
    ⟨_, _, Tree.path_answered (.ok (some .materializeContinue)) _, by decide +kernel,
      by decide +kernel, by decide +kernel⟩
  have hcalls : ∀ call ∈ promiseFile 3,
      call.isMark = false ∧ call.Honest fun _ i => i.toUInt8 := by
    simp [promiseFile, RuntimeCall.isMark, RuntimeOp.isMark, RuntimeCall.Honest, RuntimeOp.Honest]
  have hpromised : Relation.ReflTransGen (DaemonStep (fun _ i => i.toUInt8) Daemon.SparesCopies)
      (.fresh Runtime.new ⟨some "/m".toList, true⟩ .empty) (.promisedFile 3 .empty) :=
    reaches_performAll (fun call hcall => (hcalls call hcall).1)
      (fun call hcall => (hcalls call hcall).2) _ _
  have hrun := hpromised.tail (.materialize (Environment.answering_honest _)
    (fun hpolicy => by simp at hpolicy) hpath)
  obtain ⟨hresolve, hmode⟩ := hreadable
  obtain ⟨object, hobject, hmode⟩ := Option.map_eq_some_iff.mp hmode
  obtain ⟨_, -, hread, -⟩ := (copies_hold_content _ hrun).2 _ _ _ _ _ hplan
  obtain ⟨file, hopen, hread⟩ := hread ⟨_, object, hresolve, hobject, hmode⟩
  exact ⟨last, hrun, hplan, file, hopen, hread.trans (congrArg _ (by decide))⟩

/-- The calls that promise two files with the same name. -/
def promiseTwins : List RuntimeCall :=
  [.op .registerProvider, .commitBuilder 1
    [⟨"d".toList, "n1".toList, .directory, ⟨0o755, 0, 0⟩⟩,
      ⟨"d/f".toList, "n2".toList, .file, ⟨0o644, 1, 0⟩⟩,
      ⟨"e".toList, "n3".toList, .directory, ⟨0o755, 0, 0⟩⟩,
      ⟨"e/f".toList, "n4".toList, .file, ⟨0o644, 1, 0⟩⟩]]

/-- The one file is a byte `1` and the other a byte `2`. -/
def twinContent : Content := fun key _ =>
  if key.relativePath = "d/f".toList then 1 else 2

/-- The second file is written over the copy of the first one.  The runtime still reads it as a
copy of the first. -/
theorem copy_of_another_node :
    ∃ world, Relation.ReflTransGen (DaemonStep twinContent fun _ _ _ => True)
        (.fresh Runtime.new ⟨some "/m".toList, true⟩ .empty) world ∧
      world.runtime.planRead "promise-1".toList "d/f".toList 0 1 =
        .ok (.materialized ⟨"/f".toList, 0, 1⟩) ∧
      world.fs.openRead "/f".toList = .ok ["f".toList] ∧
      world.fs.readAt ["f".toList] 0 1 = .ok [2] ∧
      slice (twinContent ⟨"promise-1".toList, "d/f".toList⟩) 0 1 = [1] := by
  obtain ⟨reports, ⟨result, next⟩, hpath, hplan, hopen, hread⟩ : ∃ reports final,
      (Daemon.materializeNodeInState (.answering twinContent)
        ⟨"/m/promise-1/d/f".toList, "/".toList, .fail⟩ (.fresh (Runtime.new.performAll promiseTwins)
          ⟨some "/m".toList, true⟩ .empty)).Path reports final ∧
      let last := ((Daemon.materializeNodeInState (.answering twinContent)
        ⟨"/m/promise-1/e/f".toList, "/".toList, .overwrite⟩ final.2).answered
          (.ok (some .materializeContinue))).2.2
      last.runtime.planRead "promise-1".toList "d/f".toList 0 1 =
        .ok (.materialized ⟨"/f".toList, 0, 1⟩) ∧
      last.fs.openRead "/f".toList = .ok ["f".toList] ∧
      last.fs.readAt ["f".toList] 0 1 = .ok [2] :=
    ⟨_, _, Tree.path_answered (.ok (some .materializeContinue)) _, by decide +kernel,
      by decide +kernel, by decide +kernel⟩
  have hcalls : ∀ call ∈ promiseTwins, call.isMark = false ∧ call.Honest twinContent := by
    simp [promiseTwins, RuntimeCall.isMark, RuntimeOp.isMark, RuntimeCall.Honest, RuntimeOp.Honest]
  have hpromised := @reaches_performAll twinContent (fun _ _ _ => True) promiseTwins
    (fun call hcall => (hcalls call hcall).1) (fun call hcall => (hcalls call hcall).2)
    ⟨some "/m".toList, true⟩ .empty
  have hfirst := hpromised.tail (.materialize (Environment.answering_honest _) trivial hpath)
  have hsecond := hfirst.tail (.materialize (Environment.answering_honest _) trivial
    (Tree.path_answered (.ok (some .materializeContinue))
      (Daemon.materializeNodeInState (.answering twinContent)
        ⟨"/m/promise-1/e/f".toList, "/".toList, .overwrite⟩ next)))
  exact ⟨_, hsecond, hplan, hopen, hread, by decide⟩

end FusePromise
