import FusePromise.Materialize.Loops
import FusePromise.Materialize.Placing
import FusePromise.Materialize.Progress

/-!
# The run of a request

A request that has a plan begins its run in a filesystem in which every target was
looked at.  `Begun` is what is known then, and `Begun.outcome` what comes of
it: a run that is through or one that was rolled back, for every way the client
answers.

Under the policies that overwrite nothing no target was there.  Then the run has
nothing to lose: a run that was rolled back leaves what it found.
-/

namespace FusePromise

open Machine Program Unix World

namespace Daemon

/-! ## The beginning -/

section Preflight

variable {env : Environment} {first : World} {facts : Facts}

theorem triple_preflight (hgrowing : Growing facts) (conflictPolicy : MaterializeConflictPolicy)
    (entries : List MaterializeEntryPlan) :
    Triple (During env first facts) (preflightMaterializeTargets env conflictPolicy entries)
      (fun _ => During env first fun copied fs => facts copied fs ∧
        ∀ entry ∈ entries, ∃ existing, Found entry conflictPolicy existing fs)
      fun _ => During env first facts := by
  induction entries generalizing facts with
  | nil => exact .pure fun _ h => h.mono fun _ _ hfacts => ⟨hfacts, by simp⟩
  | cons entry rest ih =>
      refine Triple.bind (triple_existingTarget hgrowing) fun existing => ?_
      refine (ih (hgrowing.and (Found entry conflictPolicy existing))).conseq (fun _ h => h)
        (fun _ _ h => h.mono fun _ _ hfacts => ⟨hfacts.1.1, ?_⟩)
        fun _ _ h => h.mono fun _ _ hfacts => hfacts.1
      exact List.forall_mem_cons.mpr ⟨⟨existing, hfacts.1.2⟩, hfacts.2⟩

end Preflight

/-- What is known when the run of a plan begins: the plan is one for a subtree of a committed
tree, whose nodes are stored, and every target was looked at. -/
structure Begun (env : Environment) (request : MaterializeBody) (world : World)
    (plan : MaterializePlan) (first : World) (tree : PromiseTree) (names : List Text)
    (rootName : Text) (nodes : List PromiseNode) (targetDir : Loc) : Prop where
  planned : Planned request plan tree names rootName nodes
  resolved : world.mount.resolveVisiblePath request.sourcePath =
    .ok (plan.promiseId, joinNames names)
  committed : (env.planningRuntime world).promises[plan.promiseId]? = some tree
  wellFormed : first.runtime.WellFormed
  runtime : ∃ ops, (∀ op ∈ ops, env.Interferes op) ∧ first.runtime = world.runtime.run ops
  stored : ∀ {path : Text} {node : PromiseNode}, tree.nodes[path]? = some node →
    first.runtime.Stores plan.promiseId path node
  fs : first.fs = world.fs
  copied : world.copied <+: first.copied
  resolve : first.fs.resolve request.targetDir = .ok targetDir
  targetDir : first.fs.isDirectory targetDir = true
  found : ∀ entry ∈ plan.entries, ∃ existing,
    Found entry request.conflictPolicy existing first.fs
  called : request.conflictPolicy ≠ .rename →
    ∃ root, nodes.head? = some root ∧ materializeTargetName plan.promiseId root = .ok rootName

section Begun

variable {env : Environment} {request : MaterializeBody} {world first : World}
  {plan : MaterializePlan} {tree : PromiseTree} {names : List Text} {rootName : Text}
  {nodes : List PromiseNode} {targetDir : Loc}

theorem planRequest_begun (hwf : world.runtime.WellFormed)
    (h : planRequest env request world = (.ok plan, first)) :
    ∃ tree names rootName nodes targetDir,
      Begun env request world plan first tree names rootName nodes targetDir := by
  obtain ⟨last, hlast, rfl⟩ := planRequest_eq_ok h
  have hkeeps := (agrees_planMaterialize env.fault_same request).keeps world
  rw [hlast] at hkeeps
  obtain ⟨relativePath, tree, nodes, root, name, before, middle, hlooked⟩ :=
    planMaterialize_looked hlast
  obtain ⟨names, rootName, rfl, hcalled, hplanned⟩ := hlooked.planned hwf
  obtain ⟨object, hlstat, hbody⟩ := hlooked.targetDir
  obtain ⟨targetDir, hresolve, hobject⟩ := FileSystem.resolve_of_lstat hlstat hbody
  -- after the runtime was read, the plan only looks at the filesystem
  have hmiddle := (agrees_materializeTargetPath env.fault_same request.targetDir name root.kind
    request.conflictPolicy).keeps before
  rw [hlooked.target] at hmiddle
  have hafter := (agrees_preflightMaterializeTargets env.fault_same request.conflictPolicy
    plan.entries).keeps middle
  rw [hlooked.preflight] at hafter
  have hsince : ReadOnly env before last := IsTrans.trans _ _ _ hmiddle hafter
  have hfound : During env middle (fun _ fs => fs = middle.fs ∧
      ∀ entry ∈ plan.entries, ∃ existing, Found entry request.conflictPolicy existing fs) last := by
    have hgrowing : Growing fun _ fs => fs = middle.fs := fun _ _ _ _ hfs => hfs
    have hpreflight := @triple_preflight env middle _ hgrowing request.conflictPolicy plan.entries
      middle ⟨Std.Refl.refl middle, rfl⟩
    rwa [hlooked.preflight] at hpreflight
  refine ⟨tree, names, rootName, nodes, targetDir, hplanned, hlooked.resolved, hlooked.committed,
    ?_, hkeeps.runtime, ?_, hkeeps.fs, hkeeps.copied, ?_, ?_, hfound.2.2,
    fun hpolicy => ⟨root, hlooked.top, hcalled hpolicy ▸ hlooked.called⟩⟩
  · obtain ⟨ops, -, hruntime⟩ := hkeeps.runtime
    exact hruntime ▸ hwf.run ops
  · intro path node hnode
    obtain ⟨ops, hops, hruntime⟩ := hsince.runtime
    have hwf' : before.runtime.WellFormed := hlooked.runtime ▸ hwf.run _
    have hgrows := Runtime.grows_run hwf' fun op hop => (hops op hop).isMark
    show last.runtime.Stores _ _ _
    rw [hruntime]
    refine hgrows.forth ⟨tree, ?_, hnode⟩
    rw [hlooked.runtime]
    exact hlooked.committed
  · show last.fs.resolve _ = _
    rw [hkeeps.fs]
    exact hresolve
  · show last.fs.isDirectory _ = _
    rw [hkeeps.fs]
    exact FileSystem.isDirectory_iff.mpr ⟨object, hobject, hbody⟩

namespace Begun

theorem exists_layout
    (h : Begun env request world plan first tree names rootName nodes targetDir) :
    ∃ layout : Layout first.fs.held plan.entries, layout.targetDir = targetDir ∧
      ∀ entry, layout.loc entry = placeBelow targetDir rootName (namesBelow names entry) := by
  obtain ⟨object, hobject, hbody⟩ := FileSystem.isDirectory_iff.mp h.targetDir
  exact h.planned.exists_layout h.resolve hobject hbody

/-- What the runtime had when the request came, it still has. -/
theorem grows (h : Begun env request world plan first tree names rootName nodes targetDir)
    (hwf : world.runtime.WellFormed) : Runtime.Grows world.runtime first.runtime := by
  obtain ⟨ops, hops, hruntime⟩ := h.runtime
  rw [hruntime]
  exact Runtime.grows_run hwf fun op hop => (hops op hop).isMark

theorem stored_entry (h : Begun env request world plan first tree names rootName nodes targetDir) :
    ∀ entry ∈ plan.entries, ∃ node,
      first.runtime.Stores plan.promiseId entry.relativePath node := by
  intro entry hentry
  obtain ⟨node, below, hbelow, hstored, rfl⟩ := h.planned.mem_entries.mp hentry
  refine ⟨node, ?_⟩
  rw [PromiseNode.entryAt, (h.planned.shape.path hstored).1]
  exact h.stored hstored

theorem nodup_relativePath
    (h : Begun env request world plan first tree names rootName nodes targetDir) :
    (plan.entries.map MaterializeEntryPlan.relativePath).Nodup := by
  refine List.pairwise_map.mpr (h.planned.ordered.imp fun hnot heq => hnot ?_)
  rw [heq]

/-- The root of the copy lies in the target directory. -/
theorem enters_root (h : Begun env request world plan first tree names rootName nodes targetDir) :
    Enters (first.fs.view false) plan.targetPath targetDir rootName := by
  have hview : first.fs.view false targetDir = some .directory := by
    rw [← FileSystem.view_held, Holdings.view_false_eq_directory, FileSystem.isDirectory_held]
    exact h.targetDir
  rw [h.planned.target]
  exact enters_pathJoin_name h.planned.rootNormal (FileSystem.locate_of_resolve h.resolve) hview

theorem root_entry (h : Begun env request world plan first tree names rootName nodes targetDir) :
    ∃ entry ∈ plan.entries, entry.targetPath = plan.targetPath := by
  obtain ⟨node, hnode⟩ := Option.isSome_iff_exists.mp
    (Std.ExtTreeMap.mem_iff_isSome_getElem?.mp h.planned.stored)
  exact ⟨_, h.planned.mem_entries.mpr
    ⟨node, [], by simpa using h.planned.normal, by simpa using hnode, rfl⟩, rfl⟩

/-- Without `Overwrite` no target is there. -/
theorem free (h : Begun env request world plan first tree names rootName nodes targetDir)
    (hpolicy : request.conflictPolicy ≠ .overwrite) (below : List Name) :
    first.fs.get (placeBelow targetDir rootName below) = none := by
  obtain ⟨entry, hmem, hroot⟩ := h.root_entry
  obtain ⟨existing, hfound⟩ := h.found entry hmem
  cases existing with
  | some object => exact absurd (validateExistingMaterializeTarget_eq_ok hfound.2).1 hpolicy
  | none =>
      have hnoent : first.fs.lstat plan.targetPath = .error .noent := hroot ▸ hfound
      exact FileSystem.get_append_eq_none (FileSystem.get_of_lstat_noent h.enters_root hnoent) _

theorem free_entries (h : Begun env request world plan first tree names rootName nodes targetDir)
    (hpolicy : request.conflictPolicy ≠ .overwrite) {layout : Layout first.fs.held plan.entries}
    (hloc : ∀ entry, layout.loc entry = placeBelow targetDir rootName (namesBelow names entry)) :
    ∀ entry ∈ plan.entries, first.fs.get (layout.loc entry) = none := by
  intro entry _
  rw [hloc]
  exact h.free hpolicy _

/-- The root of the copy is not there. -/
theorem not_taken (h : Begun env request world plan first tree names rootName nodes targetDir)
    (hpolicy : request.conflictPolicy ≠ .overwrite) : ¬ world.fs.Taken plan.targetPath := by
  rw [← h.fs]
  rintro ⟨dir, name, henters, hsome⟩
  obtain rfl := h.enters_root.dir_eq henters
  obtain rfl := h.enters_root.last.symm.trans henters.last
  exact hsome (h.free hpolicy [])

end Begun

theorem planRequest_error {status : Status} {last : World}
    (h : planRequest env request world = (.error status, last)) : ReadOnly env world last := by
  unfold planRequest at h
  cases hbody : request.checked with
  | error error =>
      rw [hbody] at h
      obtain ⟨-, rfl⟩ := Prod.mk.inj h
      exact Std.Refl.refl world
  | ok body =>
      rw [hbody] at h
      have hkeeps := (agrees_planMaterialize env.fault_same body).keeps world
      cases hplan : planMaterialize env body world with
      | mk result next =>
          rw [hplan] at hkeeps
          cases result with
          | error error =>
              obtain ⟨-, rfl⟩ := Prod.mk.inj ((Prog.bind_error hplan).symm.trans h)
              exact hkeeps
          | ok plan => cases (Prog.bind_ok hplan).symm.trans h

/-- A request gets no plan, and only looks at the filesystem, or its run begins. -/
theorem materializeNodeInState_cases (hwf : world.runtime.WellFormed)
    {reports : List MaterializeProgress}
    {result : Except MaterializeOperationError MaterializeProgress} {last : World}
    (h : (materializeNodeInState env request world).Path reports (result, last)) :
    ((∃ status, result = .error (.withoutProgress status)) ∧ ReadOnly env world last) ∨
    ∃ plan first tree names rootName nodes targetDir, ∃ layout : Layout first.fs.held plan.entries,
      planRequest env request world = (.ok plan, first) ∧
      Begun env request world plan first tree names rootName nodes targetDir ∧
      layout.targetDir = targetDir ∧
      (∀ entry, layout.loc entry = placeBelow targetDir rootName (namesBelow names entry)) ∧
      (executePlan env plan first).Path reports (result, last) := by
  cases hplan : planRequest env request world with
  | mk planned next =>
      cases planned with
      | error status =>
          rw [materializeNodeInState_of_error hplan] at h
          cases h
          exact Or.inl ⟨⟨status, rfl⟩, planRequest_error hplan⟩
      | ok plan =>
          rw [materializeNodeInState_of_plan hplan] at h
          obtain ⟨tree, names, rootName, nodes, targetDir, hbegun⟩ := planRequest_begun hwf hplan
          obtain ⟨layout, htop, hloc⟩ := hbegun.exists_layout
          exact Or.inr ⟨plan, next, tree, names, rootName, nodes, targetDir, layout, rfl, hbegun,
            htop, hloc, h⟩

end Begun

/-! ## The end -/

section Outcome

variable {env : Environment} {first : World} {plan : MaterializePlan}
  {layout : Layout first.fs.held plan.entries} {trust : Trust}

/-- Any bytes are believed. -/
def anyBytes : Trust where
  Byte _ _ _ _ := True
  mono _ _ := trivial

theorem readsChunks_anyBytes (promiseId : Text) (entry : MaterializeEntryPlan) :
    ReadsChunks layout anyBytes env promiseId entry := by
  intro facts hgrowing _ offset length world hworld
  have hkeeps :=
    (agrees_readMaterializeChunk env.fault_same promiseId entry offset length).keeps world
  rcases hrun : readMaterializeChunk env promiseId entry offset length world with ⟨_ | bytes, last⟩
  · rw [hrun] at hkeeps
    exact hworld.readOnly hgrowing hkeeps
  · rw [hrun] at hkeeps
    have hlast := hworld.readOnly hgrowing hkeeps
    exact ⟨hlast.1, hlast.2, length_readMaterializeChunk_le hrun, fun _ => trivial⟩

variable {request : MaterializeBody} {world : World} {tree : PromiseTree} {names : List Text}
  {rootName : Text} {nodes : List PromiseNode} {targetDir : Loc}
  {reports : List MaterializeProgress}
  {last : Except MaterializeOperationError MaterializeProgress × World}

theorem Begun.outcome
    (h : Begun env request world plan first tree names rootName nodes targetDir)
    (layout : Layout first.fs.held plan.entries)
    (hread : ∀ entry ∈ plan.entries, ReadsChunks layout trust env plan.promiseId entry)
    (hpath : (executePlan env plan first).Path reports last) :
    Program.Outcome (fun _ => Finished env layout trust plan.promiseId)
      (fun _ => During env first (RolledBack layout trust layout.KeepsAccess)) last := by
  have hrun := triple_executePlan rfl hread h.wellFormed h.stored_entry h.nodup_relativePath id
    first rfl
  rcases hrun.path hpath with hstopped | hgood
  · exact hstopped.mono (fun _ _ h => h.elim) fun _ _ h => h
  · exact hgood

theorem Begun.outcome_anyBytes
    (h : Begun env request world plan first tree names rootName nodes targetDir)
    (layout : Layout first.fs.held plan.entries)
    (hpath : (executePlan env plan first).Path reports last) :
    Program.Outcome (fun _ => Finished env layout anyBytes plan.promiseId)
      (fun _ => During env first (RolledBack layout anyBytes layout.KeepsAccess)) last :=
  h.outcome layout (fun entry _ => readsChunks_anyBytes plan.promiseId entry) hpath

end Outcome

/-! ## A run that is through -/

namespace Finished

variable {env : Environment} {first world : World} {entries : List MaterializeEntryPlan}
  {layout : Layout first.fs.held entries} {trust : Trust} {promiseId : Text}
  {entry : MaterializeEntryPlan}

theorem dressing (h : Finished env layout trust promiseId world) :
    ∃ created, Dressing layout trust (entries.filter fun entry => entry.kind = .directory) created
      world.copied world.fs := by
  obtain ⟨before, created, marked, hbefore, rfl, -⟩ := h
  exact ⟨created, hbefore.2⟩

theorem remains (h : Finished env layout trust promiseId world) :
    Remains layout trust world.copied world.fs := by
  obtain ⟨created, ⟨old, stack, -, hledger⟩, -⟩ := h.dressing
  exact hledger.remains (List.filter_subset_self _)

theorem dressed (h : Finished env layout trust promiseId world) (hmem : entry ∈ entries)
    (hkind : entry.kind = .directory) : Dressed layout world.fs entry := by
  obtain ⟨created, -, hdressed⟩ := h.dressing
  exact hdressed entry (List.mem_filter.mpr ⟨hmem, by simpa using hkind⟩)

theorem written (h : Finished env layout trust promiseId world) (hmem : entry ∈ entries)
    (hkind : entry.kind = .file) :
    ∃ object, Written layout trust world.copied world.fs entry object := by
  obtain ⟨created, ⟨old, stack, -, hledger⟩, -⟩ := h.dressing
  exact hledger.files (mem_done_iff.mpr hmem) hkind

theorem exists_object (h : Finished env layout trust promiseId world) (hmem : entry ∈ entries) :
    ∃ object, world.fs.get (layout.loc entry) = some object := by
  cases hkind : entry.kind with
  | directory =>
      obtain ⟨object, hobject, -⟩ := h.dressed hmem hkind
      exact ⟨object, hobject⟩
  | file =>
      obtain ⟨object, hwritten⟩ := h.written hmem hkind
      exact ⟨object, hwritten.get⟩

/-- The path of an entry leads to its place. -/
theorem enters (h : Finished env layout trust promiseId world) (hmem : entry ∈ entries) :
    Enters (world.fs.view false) entry.targetPath (layout.dir entry) (layout.name entry) := by
  obtain ⟨object, hobject⟩ := h.exists_object hmem
  obtain ⟨created, ⟨old, stack, -, hledger⟩, -⟩ := h.dressing
  have hsome : world.fs.held (layout.loc entry) ≠ none := by
    rw [FileSystem.held_of_get hobject]
    simp
  exact hledger.enters hmem (FileSystem.isDirectory_of_held_cons hsome)

theorem taken (h : Finished env layout trust promiseId world) (hmem : entry ∈ entries) :
    world.fs.Taken entry.targetPath := by
  obtain ⟨object, hobject⟩ := h.exists_object hmem
  exact ⟨_, _, h.enters hmem, ne_of_eq_of_ne hobject (by simp)⟩

/-- Where no entry lies nothing has changed, the date of the target directory apart. -/
theorem get_eq (h : Finished env layout trust promiseId world) {loc : Loc}
    (htop : loc ≠ layout.targetDir) (hentries : ∀ entry ∈ entries, layout.loc entry ≠ loc) :
    world.fs.get loc = first.fs.get loc := by
  obtain ⟨created, ⟨old, stack, hfor, hledger⟩, -⟩ := h.dressing
  refine hledger.dates htop hentries fun made hmade => ?_
  obtain ⟨entry, hdone, hmadeFor⟩ := hfor made hmade
  rw [hmadeFor.loc]
  exact hentries entry (mem_done_iff.mp hdone)

theorem held_eq (h : Finished env layout trust promiseId world) {loc : Loc}
    (hentries : ∀ entry ∈ entries, layout.loc entry ≠ loc) :
    world.fs.held loc = first.fs.held loc := by
  by_cases htop : loc = layout.targetDir
  · subst htop
    obtain ⟨object, hobject, -⟩ := layout.isDirectory
    obtain ⟨later, hlater, hbecomes⟩ := h.remains hobject
    rw [hlater, hobject]
    cases hbecomes with
    | same => rfl
    | mode hmem hloc => exact absurd hloc (hentries _ hmem)
    | content hmem _ hloc => exact absurd hloc (hentries _ hmem)
  · simp only [FileSystem.held, h.get_eq htop hentries]

/-- The nodes of the entries have their copies.  What the other threads did before adds nodes
without copies. -/
theorem marks (h : Finished env layout trust promiseId world)
    (hwf : first.runtime.WellFormed) :
    ∃ runtime, Runtime.Grows first.runtime runtime ∧
      Runtime.Marks promiseId entries runtime world.runtime := by
  obtain ⟨before, created, marked, hbefore, rfl, hmarks⟩ := h
  obtain ⟨ops, hops, hruntime⟩ := hbefore.1.runtime
  refine ⟨before.runtime, ?_, hmarks⟩
  rw [hruntime]
  exact Runtime.grows_run hwf fun op hop => (hops op hop).isMark

theorem wellFormed (h : Finished env layout trust promiseId world)
    (hwf : first.runtime.WellFormed) : world.runtime.WellFormed := by
  obtain ⟨before, created, marked, hbefore, rfl, -⟩ := h
  obtain ⟨ops, -, hruntime⟩ := hbefore.1.runtime
  exact (hruntime ▸ hwf.run ops : before.runtime.WellFormed).run _

end Finished

end Daemon

theorem During.wellFormed {env : Environment} {first world : World} {facts : Facts}
    (h : During env first facts world) (hwf : first.runtime.WellFormed) :
    world.runtime.WellFormed := by
  obtain ⟨ops, -, hruntime⟩ := h.1.runtime
  exact hruntime ▸ hwf.run ops

theorem Layout.isDirectory_targetDir {first : World} {entries : List MaterializeEntryPlan}
    (layout : Layout first.fs.held entries) : first.fs.isDirectory layout.targetDir = true :=
  FileSystem.isDirectory_held.mp layout.isDirectory

/-! ## Nothing was there -/

section Free

variable {first : World} {entries : List MaterializeEntryPlan}
  {layout : Layout first.fs.held entries} {trust : Trust} {copied : List CopiedChunk}
  {fs : FileSystem} (hfree : ∀ entry ∈ entries, first.fs.get (layout.loc entry) = none)

include hfree

theorem Becomes.eq_of_free {loc : Loc} {object later : Object}
    (h : Becomes layout trust entries copied loc object later)
    (hobject : first.fs.held loc = some object) : later = object := by
  have hnot : ∀ entry ∈ entries, layout.loc entry ≠ loc := by
    rintro entry hmem rfl
    rw [FileSystem.held_eq_none.mpr (hfree entry hmem)] at hobject
    simp at hobject
  cases h with
  | same => rfl
  | mode hmem hloc => exact absurd hloc (hnot _ hmem)
  | content hmem _ hloc => exact absurd hloc (hnot _ hmem)

/-- Modes of directories that were not there cannot stand in the way. -/
theorem Layout.keepsAccess_of_free : layout.KeepsAccess := by
  refine staysAccessible_of_absent layout.letsIn_nil fun entry hentry => ?_
  exact hfree entry (List.mem_of_mem_filter (List.mem_reverse.mp hentry))

theorem Remains.held_of_free (h : Remains layout trust copied fs) {loc : Loc} {object : Object}
    (hobject : first.fs.held loc = some object) : fs.held loc = some object := by
  obtain ⟨later, hlater, hbecomes⟩ := h hobject
  rw [hlater, hbecomes.eq_of_free hfree hobject]

theorem RolledBack.held_of_free (h : RolledBack layout trust layout.KeepsAccess copied fs) :
    fs.held = first.fs.held := by
  funext loc
  cases hobject : first.fs.held loc with
  | none =>
      rw [FileSystem.held_eq_none] at hobject ⊢
      exact h.2.1 (layout.keepsAccess_of_free hfree) hobject
  | some object => exact Remains.held_of_free hfree h.1 hobject

theorem RolledBack.lasts_of_free (h : RolledBack layout trust layout.KeepsAccess copied fs) :
    FileSystem.Lasts first.fs fs := by
  refine .of_dated layout.isDirectory_targetDir (congrFun (RolledBack.held_of_free hfree h) _)
    fun loc hloc hsome => h.2.2 hloc ?_ hsome
  rintro entry hmem rfl
  exact hsome (hfree entry hmem)

theorem Daemon.Finished.lasts_of_free {env : Environment} {promiseId : Text} {world : World}
    (h : Finished env layout trust promiseId world) : FileSystem.Lasts first.fs world.fs := by
  obtain ⟨object, hobject, -⟩ := layout.isDirectory
  refine .of_dated layout.isDirectory_targetDir
    ((Remains.held_of_free hfree h.remains hobject).trans hobject.symm)
    fun loc hloc hsome => h.get_eq hloc ?_
  rintro entry hmem rfl
  exact hsome (hfree entry hmem)

end Free

end FusePromise
