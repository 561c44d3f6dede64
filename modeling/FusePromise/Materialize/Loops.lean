import FusePromise.Materialize.Marks
import FusePromise.Materialize.Writing

/-!
# The run of a plan

The three loops of a run, one after the other: the directories, the files, and the
declared modes and dates of the directories from the last to the first.  Each turn
leaves the books in order, with one more entry done or dressed.  A turn that fails
leaves something to undo, and the cleanup undoes it.

The marks come last.  They do not fail, so a run that ends with an error has marked
nothing.
-/

namespace FusePromise

open Machine Program Unix World

theorem Layout.nodup {start : Holdings} {entries : List MaterializeEntryPlan}
    (layout : Layout start entries) : entries.Nodup :=
  layout.ordered.imp fun hne heq => hne.1 (by rw [heq])

section

variable {first : World} {entries : List MaterializeEntryPlan}
  {layout : Layout first.fs.held entries} {trust : Trust} {safe : Prop} {env : Environment}

namespace Daemon

/-- What is left to undo when a step fails is undone, and the run ends. -/
theorem triple_undo {α : Type} {created : List CreatedTarget} {post : α → World → Prop}
    (error : MaterializeOperationError) :
    Triple (During env first (Undoable layout trust safe created))
      (do
        cleanupCreatedTargets env created
        Prog.fail error : Daemon MaterializeOperationError α)
      post fun _ => During env first (RolledBack layout trust safe) :=
  triple_rollBack.bind fun _ => .throw fun _ h => h

/-- A report when the books are in order. -/
theorem triple_reportBooked {done : List MaterializeEntryPlan} {created : List CreatedTarget}
    (progress : MaterializeProgress) :
    Dialogue.Triple Refuses (During env first (Booked layout trust [] done created))
      (orCleanup env created progress (reportProgress progress))
      (fun _ => During env first (Booked layout trust [] done created))
      (fun _ => During env first (RolledBack layout trust safe))
      fun _ => During env first (RolledBack layout trust safe) := by
  have hundo : ∀ world, During env first (Booked layout trust [] done created) world →
      During env first (Undoable layout trust safe created) world :=
    fun _ h => h.mono fun _ _ hbooked => hbooked.undoable
  exact triple_orCleanup ((triple_report growing_booked progress).conseq (fun _ h => h)
    (fun _ _ h => h) (fun _ => hundo) fun _ => hundo)

/-! ## Directories -/

theorem triple_createDirectories (conflictPolicy : MaterializeConflictPolicy)
    (rest done : List MaterializeEntryPlan)
    (hsplit : entries.filter (fun entry => entry.kind = .directory) = done ++ rest)
    (progress : MaterializeProgress) (created : List CreatedTarget) :
    Dialogue.Triple Refuses (During env first (Booked layout trust [] done created))
      (createDirectories env conflictPolicy rest progress created)
      (fun result => During env first (Booked layout trust []
        (entries.filter fun entry => entry.kind = .directory) result.2))
      (fun _ => During env first (RolledBack layout trust safe))
      fun _ => During env first (RolledBack layout trust safe) := by
  induction rest generalizing done progress created with
  | nil =>
      rw [hsplit, List.append_nil]
      exact .pure fun _ h => h
  | cons entry rest ih =>
      have hpart := List.filter_sublist (p := fun entry : MaterializeEntryPlan =>
        decide (entry.kind = .directory)) (l := entries)
      have hin : ∀ other ∈ done ++ entry :: rest, other ∈ entries ∧ other.kind = .directory := by
        intro other hother
        rw [← hsplit] at hother
        simpa using List.mem_filter.mp hother
      obtain ⟨hmem, hkind⟩ := hin entry (by simp)
      have hdone : done ⊆ entries := fun other hother => (hin other (by simp [hother])).1
      have hnew : entry ∉ done := by
        have hnodup := layout.nodup.sublist hpart
        rw [hsplit, List.nodup_append] at hnodup
        exact fun hmem => hnodup.2.2 entry hmem entry List.mem_cons_self rfl
      have hparents : ∀ parent ∈ entries, parent.kind = .directory →
          layout.dir entry = layout.loc parent → parent ∈ done := by
        intro parent hparent hparentKind hdir
        exact layout.mem_before hpart hsplit (List.mem_filter.mpr ⟨hparent, by simpa⟩) hdir
      refine .bind (triple_orCleanup (.lift (triple_createMaterializedDirectory hdone hmem hnew
        hparents conflictPolicy hkind))) fun target => ?_
      refine .bind (triple_reportBooked _) fun _ => ?_
      exact ih (done ++ [entry]) (by rw [hsplit]; simp) _ _

/-! ## Files -/

theorem triple_writeFiles {promiseId : Text} (conflictPolicy : MaterializeConflictPolicy)
    (hread : ∀ entry ∈ entries, ReadsChunks layout trust env promiseId entry)
    (rest written : List MaterializeEntryPlan)
    (hsplit : entries.filter (fun entry => entry.kind = .file) = written ++ rest)
    (progress : MaterializeProgress) (created : List CreatedTarget) :
    Dialogue.Triple Refuses
      (During env first (Booked layout trust []
        (entries.filter (fun entry => entry.kind = .directory) ++ written) created))
      (writeFiles env promiseId conflictPolicy rest progress created)
      (fun result => During env first (Booked layout trust []
        (entries.filter (fun entry => entry.kind = .directory) ++
          entries.filter fun entry => entry.kind = .file) result.2))
      (fun _ => During env first (RolledBack layout trust safe))
      fun _ => During env first (RolledBack layout trust safe) := by
  induction rest generalizing written progress created with
  | nil =>
      rw [hsplit, List.append_nil]
      exact .pure fun _ h => h
  | cons entry rest ih =>
      have hin : ∀ other ∈ written ++ entry :: rest, other ∈ entries ∧ other.kind = .file := by
        intro other hother
        rw [← hsplit] at hother
        simpa using List.mem_filter.mp hother
      obtain ⟨hmem, hkind⟩ := hin entry (by simp)
      have hdone : entries.filter (fun entry => entry.kind = .directory) ++ written ⊆ entries := by
        refine List.append_subset.mpr ⟨List.filter_subset_self _, fun other hother => ?_⟩
        exact (hin other (by simp [hother])).1
      have hnew : entry ∉ entries.filter (fun entry => entry.kind = .directory) ++ written := by
        have hnodup := layout.nodup.sublist (List.filter_sublist (p := fun entry :
          MaterializeEntryPlan => decide (entry.kind = .file)))
        rw [hsplit, List.nodup_append] at hnodup
        rw [List.mem_append, List.mem_filter]
        rintro (⟨-, hdirectory⟩ | hmem)
        · simp [hkind] at hdirectory
        · exact hnodup.2.2 entry hmem entry List.mem_cons_self rfl
      -- all directories are done before the first file
      have hparents : ∀ parent ∈ entries, parent.kind = .directory →
          layout.dir entry = layout.loc parent →
          parent ∈ entries.filter (fun entry => entry.kind = .directory) ++ written := by
        intro parent hparent hparentKind _
        exact List.mem_append_left _ (List.mem_filter.mpr ⟨hparent, by simpa⟩)
      refine .bind (.orElse (triple_writeMaterializedFile hdone hmem hnew hkind hparents
        conflictPolicy (hread entry hmem) fun bytes {facts} hgrowing =>
          triple_report hgrowing _) (fun error => triple_undo _) fun error => triple_undo _)
        fun outcome => ?_
      refine .bind (triple_reportBooked _) fun _ => ?_
      have hih := ih (written ++ [entry]) (by rw [hsplit]; simp)
      rw [← List.append_assoc] at hih
      exact hih _ _

end Daemon

/-! ## Modes and dates -/

/-- A directory with the mode and the date of its entry. -/
def Dressed (layout : Layout first.fs.held entries) (fs : FileSystem)
    (entry : MaterializeEntryPlan) : Prop :=
  ∃ object, fs.get (layout.loc entry) = some object ∧ object.body = .directory ∧
    object.mode = entry.mode &&& 0o7777 ∧ object.mtime = entry.mtimeNsec

/-- Every entry is done, and some directories are dressed. -/
def Dressing (layout : Layout first.fs.held entries) (trust : Trust)
    (styled : List MaterializeEntryPlan) (created : List CreatedTarget) : Facts :=
  fun copied fs => Booked layout trust styled
    (entries.filter (fun entry => entry.kind = .directory) ++
      entries.filter fun entry => entry.kind = .file) created copied fs ∧
    ∀ entry ∈ styled, Dressed layout fs entry

section Dressing

variable {styled : List MaterializeEntryPlan} {created : List CreatedTarget}
  {copied : List CopiedChunk} {fs : FileSystem} {entry : MaterializeEntryPlan}

theorem mem_done_iff :
    entry ∈ entries.filter (fun entry => entry.kind = .directory) ++
      entries.filter (fun entry => entry.kind = .file) ↔ entry ∈ entries := by
  rw [List.mem_append, List.mem_filter, List.mem_filter]
  cases hkind : entry.kind <;> simp

theorem growing_dressing : Growing (Dressing layout trust styled created) :=
  fun _ _ _ hlater h => ⟨growing_booked _ _ _ hlater h.1, h.2⟩

theorem Dressing.hasModes (h : Dressing layout trust styled created copied fs) :
    layout.Styled styled fs := by
  intro entry hentry
  obtain ⟨object, hobject, -, hmode, -⟩ := h.2 entry hentry
  exact ⟨object, hobject, hmode⟩

theorem Dressing.undoable (hsub : styled ⊆ entries) (hlets : safe → layout.LetsIn styled)
    (h : Dressing layout trust styled created copied fs) :
    Undoable layout trust safe created copied fs :=
  h.1.undoable_of_letsIn (fun _ hmem => mem_done_iff.mp hmem) hsub h.hasModes hlets

/-- A directory that was there before and is opened could be opened with the modes alone. -/
theorem Dressing.openRead_iff (hsub : styled ⊆ entries) (hmem : entry ∈ entries)
    (hkind : entry.kind = .directory) (hold : first.fs.get (layout.loc entry) ≠ none)
    (h : Dressing layout trust styled created copied fs) :
    (layout.withModes styled).openRead entry.targetPath = .ok (layout.loc entry) ↔
      fs.openRead entry.targetPath = .ok (layout.loc entry) := by
  have hstyled := h.hasModes
  obtain ⟨⟨old, stack, -, hledger⟩, -⟩ := h
  rcases hledger.directories (mem_done_iff.mpr hmem) hkind with
    ⟨object, hobject, hdir⟩ | ⟨made, hmade, -, hfor⟩
  · exact hledger.openRead_withModes hsub hstyled hmem hobject hdir
  · obtain ⟨object, hobject⟩ := Option.ne_none_iff_exists'.mp hold
    obtain ⟨later, hlater, -⟩ := hledger.kept.present (FileSystem.held_of_get hobject)
    rw [← hfor.loc, hledger.stands.stacked.old_eq_none hmade] at hlater
    simp at hlater

/-- The directory of an entry that is done, and the way to it. -/
theorem Dressing.enters (hmem : entry ∈ entries) (hkind : entry.kind = .directory)
    (h : Dressing layout trust styled created copied fs) :
    fs.isDirectory (layout.loc entry) = true ∧
      Enters (fs.view false) entry.targetPath (layout.dir entry) (layout.name entry) := by
  obtain ⟨⟨old, stack, -, hledger⟩, -⟩ := h
  have hdir : fs.held.IsDirectory (layout.loc entry) := by
    rcases hledger.directories (mem_done_iff.mpr hmem) hkind with
      hold | ⟨made, hmade, hdirectory, hfor⟩
    · exact hledger.isDirectory_of_old hold
    · have hview := hledger.stands.view_directory hmade hdirectory
      rwa [hfor.loc, Holdings.view_false_eq_directory] at hview
  refine ⟨FileSystem.isDirectory_held.mp hdir, hledger.enters hmem ?_⟩
  obtain ⟨object, hobject, -⟩ := hdir
  exact FileSystem.isDirectory_of_held_cons (by rw [← Layout.loc, hobject]; simp)

/-- The mode of one more directory; its date comes next. -/
theorem Dressing.chmod (hmem : entry ∈ entries) (hkind : entry.kind = .directory)
    (hstyled : styled ⊆ entries) (hnew : entry ∉ styled)
    (h : Dressing layout trust styled created copied fs) :
    let next := fs.chmodAt (layout.loc entry) (entry.mode &&& 0o7777)
    Booked layout trust (entry :: styled)
        (entries.filter (fun entry => entry.kind = .directory) ++
          entries.filter fun entry => entry.kind = .file) created copied next ∧
      (∀ entry ∈ styled, Dressed layout next entry) ∧
      ∃ object, next.get (layout.loc entry) = some object ∧ object.body = .directory ∧
        object.mode = entry.mode &&& 0o7777 := by
  obtain ⟨hisDir, -⟩ := h.enters hmem hkind
  obtain ⟨object, hobject, hbody⟩ := FileSystem.isDirectory_iff.mp hisDir
  obtain ⟨⟨old, stack, hfor, hledger⟩, hdressed⟩ := h
  obtain ⟨old', hstyle⟩ := hledger.style hmem (mem_done_iff.mpr hmem) hkind
  refine ⟨⟨old', stack, hfor, hstyle⟩, fun other hother => ?_,
    object.setMode (entry.mode &&& 0o7777), ?_, hbody, rfl⟩
  · obtain ⟨found, hfound, hrest⟩ := hdressed other hother
    refine ⟨found, ?_, hrest⟩
    rw [FileSystem.get_chmodAt, if_neg, hfound]
    intro heq
    exact hnew (layout.eq_of_loc_eq hmem (hstyled hother) heq ▸ hother)
  · rw [FileSystem.get_chmodAt, if_pos rfl, hobject]
    rfl

/-- A directory has its mode, and its date comes next. -/
def Styling (layout : Layout first.fs.held entries) (trust : Trust)
    (styled : List MaterializeEntryPlan) (created : List CreatedTarget)
    (entry : MaterializeEntryPlan) : Facts :=
  fun copied fs => Booked layout trust (entry :: styled)
    (entries.filter (fun entry => entry.kind = .directory) ++
      entries.filter fun entry => entry.kind = .file) created copied fs ∧
    (∀ entry ∈ styled, Dressed layout fs entry) ∧
    ∃ object, fs.get (layout.loc entry) = some object ∧ object.body = .directory ∧
      object.mode = entry.mode &&& 0o7777

theorem Styling.hasModes (h : Styling layout trust styled created entry copied fs) :
    layout.Styled (entry :: styled) fs := by
  obtain ⟨-, hdressed, object, hobject, -, hmode⟩ := h
  refine List.forall_mem_cons.mpr ⟨⟨object, hobject, hmode⟩, fun other hother => ?_⟩
  obtain ⟨found, hfound, -, hfoundMode, -⟩ := hdressed other hother
  exact ⟨found, hfound, hfoundMode⟩

theorem Styling.undoable (hsub : entry :: styled ⊆ entries)
    (hlets : safe → layout.LetsIn (entry :: styled))
    (h : Styling layout trust styled created entry copied fs) :
    Undoable layout trust safe created copied fs :=
  h.1.undoable_of_letsIn (fun _ hmem => mem_done_iff.mp hmem) hsub h.hasModes hlets

theorem growing_styling : Growing (Styling layout trust styled created entry) :=
  fun _ _ _ hlater h => ⟨growing_booked _ _ _ hlater h.1, h.2⟩

theorem Styling.touch (hmem : entry ∈ entries) (hstyled : styled ⊆ entries)
    (hnew : entry ∉ styled) (h : Styling layout trust styled created entry copied fs) :
    Dressing layout trust (entry :: styled) created copied
      (fs.touch (layout.loc entry) entry.mtimeNsec) := by
  obtain ⟨⟨old, stack, hfor, hledger⟩, hdressed, object, hobject, hbody, hmode⟩ := h
  have hdir : fs.held.IsDirectory (layout.loc entry) :=
    FileSystem.isDirectory_held.mpr (FileSystem.isDirectory_iff.mpr ⟨object, hobject, hbody⟩)
  refine ⟨⟨old, stack, hfor, hledger.redate hmem hdir _⟩, fun other hother => ?_⟩
  rcases List.mem_cons.mp hother with rfl | hother
  · refine ⟨object.setMtime other.mtimeNsec, ?_, hbody, hmode, rfl⟩
    rw [FileSystem.get_touch, if_pos rfl, hobject]
    rfl
  · obtain ⟨found, hfound, hrest⟩ := hdressed other hother
    refine ⟨found, ?_, hrest⟩
    rw [FileSystem.get_touch, if_neg, hfound]
    intro heq
    exact hnew (layout.eq_of_loc_eq hmem (hstyled hother) heq ▸ hother)

end Dressing

namespace Daemon

section Metadata

variable {styled : List MaterializeEntryPlan} {created : List CreatedTarget}
  {entry : MaterializeEntryPlan}

theorem triple_applyDirectoryMetadata (hmem : entry ∈ entries) (hkind : entry.kind = .directory)
    (hsub : styled ⊆ entries) (hnew : entry ∉ styled) (hlets : safe → layout.LetsIn styled)
    {rest : List MaterializeEntryPlan}
    (hstays : safe → layout.StaysAccessible styled (entry :: rest)) (expected : ℕ) :
    Triple (During env first (Dressing layout trust styled created))
      (applyDirectoryMetadata env entry expected)
      (fun _ world => During env first (Dressing layout trust (entry :: styled) created) world ∧
        (safe → layout.LetsIn (entry :: styled) ∧ layout.StaysAccessible (entry :: styled) rest))
      fun _ => During env first (Undoable layout trust safe created) := by
  have hundo : ∀ {world : World}, During env first (Dressing layout trust styled created) world →
      During env first (Undoable layout trust safe created) world :=
    fun h => h.mono fun _ _ hdressing => hdressing.undoable hsub hlets
  have hchmod : Triple (During env first (Dressing layout trust styled created))
      (setPermissions env (layout.loc entry) entry.mode)
      (fun _ => During env first (Styling layout trust styled created entry))
      fun _ => During env first (Undoable layout trust safe created) := by
    refine (triple_change growing_dressing fun hdressing hnext => ?_).mapError fun _ _ h => hundo h
    obtain rfl := Except.ok.inj hnext
    exact Dressing.chmod hmem hkind hsub hnew hdressing
  have htouch : (safe → layout.LetsIn (entry :: styled)) →
      Triple (During env first (Styling layout trust styled created entry))
        (applyMtime env (layout.loc entry) entry.mtimeNsec)
        (fun _ => During env first (Dressing layout trust (entry :: styled) created))
        fun _ => During env first (Undoable layout trust safe created) := by
    intro hletsNext
    refine (triple_change growing_styling fun hstyling hnext => ?_).mapError fun _ _ h =>
      h.mono fun _ _ hstyling => hstyling.undoable (List.cons_subset.mpr ⟨hmem, hsub⟩) hletsNext
    obtain ⟨mtime, hmtime, hnext⟩ := bind_eq_ok.mp hnext
    obtain rfl := Except.ok.inj hnext
    rw [timespec_nsec hmtime]
    exact Styling.touch hmem hsub hnew hstyling
  have hopened : (safe → layout.LetsIn (entry :: styled) ∧
      layout.StaysAccessible (entry :: styled) rest) →
      Triple (During env first (Dressing layout trust styled created))
        (do
          let metadata ← (inspect env fun fs => fs.found (layout.loc entry)).mapError errnoToStatus
          if metadata.identity ≠ expected then Prog.fail .unavailable
          else do
            setPermissions env (layout.loc entry) entry.mode
            applyMtime env (layout.loc entry) entry.mtimeNsec)
        (fun _ world => During env first (Dressing layout trust (entry :: styled) created) world ∧
          (safe → layout.LetsIn (entry :: styled) ∧
            layout.StaysAccessible (entry :: styled) rest))
        fun _ => During env first (Undoable layout trust safe created) := by
    intro hnext
    refine Triple.bind ((triple_inspect growing_dressing).mapError fun _ _ h =>
      hundo (h.mono fun _ _ hfacts => hfacts.1)) fun metadata => ?_
    split
    · exact .throw fun _ h => hundo (h.mono fun _ _ hfacts => hfacts.1)
    · refine Triple.bind (hchmod.strengthen_pre fun _ h => h.mono fun _ _ hfacts => hfacts.1)
        fun _ => ?_
      exact (htouch fun hsafe => (hnext hsafe).1).conseq (fun _ h => h) (fun _ _ h => ⟨h, hnext⟩)
        fun _ _ h => h
  refine Triple.bind ((triple_inspect growing_dressing).mapError fun _ _ h =>
    hundo (h.mono fun _ _ hfacts => hfacts.1)) fun directory => ?_
  intro world h
  -- what was opened is the directory at the place of the entry
  obtain ⟨hisDir, henters⟩ := Dressing.enters hmem hkind h.2.1
  obtain rfl := FileSystem.openRead_eq_ok henters hisDir h.2.2
  refine hopened (fun hsafe => hstays hsafe fun hold => ?_) world
    (h.mono fun _ _ hfacts => hfacts.1)
  exact (Dressing.openRead_iff hsub hmem hkind hold h.2.1).mpr h.2.2

/-- The directories get their modes and dates from the last to the first. -/
theorem triple_applyMetadata (rest styled : List MaterializeEntryPlan)
    (hrest : ∀ entry ∈ rest, entry ∈ entries ∧ entry.kind = .directory) (hsub : styled ⊆ entries)
    (hnodup : (rest ++ styled).Nodup) (hlets : safe → layout.LetsIn styled)
    (hstays : safe → layout.StaysAccessible styled rest) :
    Triple (During env first (Dressing layout trust styled created))
      (forEach (applyEntryMetadata env created) rest)
      (fun _ => During env first (Dressing layout trust (rest.reverse ++ styled) created))
      fun _ => During env first (Undoable layout trust safe created) := by
  induction rest generalizing styled with
  | nil => exact .pure fun _ h => h
  | cons entry rest ih =>
      obtain ⟨hmem, hkind⟩ := hrest entry List.mem_cons_self
      rw [List.cons_append, List.nodup_cons, List.mem_append] at hnodup
      obtain ⟨hnew, hnodup⟩ := hnodup
      have hstep : Triple (During env first (Dressing layout trust styled created))
          (applyEntryMetadata env created entry)
          (fun _ world => During env first (Dressing layout trust (entry :: styled) created) world ∧
            (safe → layout.LetsIn (entry :: styled) ∧
              layout.StaysAccessible (entry :: styled) rest))
          fun _ => During env first (Undoable layout trust safe created) := by
        unfold applyEntryMetadata
        split
        · exact .throw fun _ h => h.mono fun _ _ hdressing => hdressing.undoable hsub hlets
        · exact triple_applyDirectoryMetadata hmem hkind hsub (fun h => hnew (Or.inr h)) hlets
            hstays _
      refine Triple.bind hstep fun _ => ?_
      rw [List.reverse_cons, List.append_assoc, List.singleton_append]
      rintro world ⟨hworld, hnext⟩
      refine ih (entry :: styled) (fun other hother => hrest other (List.mem_cons_of_mem _ hother))
        (List.cons_subset.mpr ⟨hmem, hsub⟩) ?_ (fun hsafe => (hnext hsafe).1)
        (fun hsafe => (hnext hsafe).2) world hworld
      rw [List.nodup_middle, List.nodup_cons, List.mem_append]
      exact ⟨hnew, hnodup⟩

end Metadata

/-! ## The whole run -/

/-- The run is through: the copy is complete, and its nodes are marked. -/
def Finished (env : Environment) (layout : Layout first.fs.held entries) (trust : Trust)
    (promiseId : Text) (world : World) : Prop :=
  ∃ before created marked,
    During env first (Dressing layout trust
      (entries.filter fun entry => entry.kind = .directory) created) before ∧
    world = { before with
      runtime := before.runtime.run (Runtime.markOps promiseId entries)
      marked } ∧
    Runtime.Marks promiseId entries before.runtime world.runtime

theorem triple_markEntries {promiseId : Text} {facts : Facts} (hgrowing : Growing facts)
    (hwf : first.runtime.WellFormed)
    (hstored : ∀ entry ∈ entries, ∃ node,
      first.runtime.Stores promiseId entry.relativePath node)
    (hnodup : (entries.map MaterializeEntryPlan.relativePath).Nodup)
    {fail : Status → World → Prop} :
    Triple (During env first facts)
      (do
        let _ ← lockRuntime env
        markEntries promiseId entries)
      (fun _ world => ∃ before marked, During env first facts before ∧
        world = { before with
          runtime := before.runtime.run (Runtime.markOps promiseId entries)
          marked } ∧
        Runtime.Marks promiseId entries before.runtime world.runtime)
      fail := by
  intro world hworld
  have hkeeps := keeps_lockRuntime (ε := Status) env world
  simp only [Bind.bind]
  cases hlock : (lockRuntime env : Daemon Status Runtime) world with
  | mk result locked =>
      rw [hlock] at hkeeps
      have hlocked := hworld.readOnly hgrowing hkeeps
      cases result with
      | error status =>
          simp [lockRuntime, Bind.bind, nextTick, Prog.get, Prog.set, Pure.pure] at hlock
      | ok runtime =>
          obtain ⟨ops, hops, hruntime⟩ := hlocked.1.runtime
          have hgrows := Runtime.grows_run hwf fun op hop => (hops op hop).isMark
          rw [← hruntime] at hgrows
          obtain ⟨marked, hrun, hmarks⟩ := markEntries_ok (hruntime ▸ hwf.run ops)
            (fun entry hentry => (hstored entry hentry).imp fun _ hnode => hgrows.forth hnode)
            hnodup
          dsimp only
          rw [hrun]
          exact ⟨locked, marked, hlocked, rfl, hmarks⟩

/-- The first part of a run: the directories and the files of the plan are made. -/
def makeTargets (env : Environment) (plan : MaterializePlan) :
    Reporting MaterializeOperationError (MaterializeProgress × List CreatedTarget) := do
  let progress := MaterializeProgress.new plan.targetPath plan.entries
  orCleanup env [] progress (reportProgress progress)
  let (progress, created) ← createDirectories env plan.conflictPolicy
    (plan.entries.filter fun entry => entry.kind = .directory) progress []
  writeFiles env plan.promiseId plan.conflictPolicy
    (plan.entries.filter fun entry => entry.kind = .file) progress created

/-- The second part: the directories get their modes and dates, and the nodes are marked. -/
def dressTargets (env : Environment) (plan : MaterializePlan)
    (made : MaterializeProgress × List CreatedTarget) :
    Reporting MaterializeOperationError MaterializeProgress := do
  orCleanup env made.2 made.1 (Dialogue.lift (forEach (applyEntryMetadata env made.2)
    (plan.entries.filter fun entry => entry.kind = .directory).reverse))
  orCleanup env made.2 made.1 (Dialogue.lift do
    let _ ← lockRuntime env
    markEntries plan.promiseId plan.entries)
  return made.1

theorem executePlan_eq (plan : MaterializePlan) :
    executePlan env plan = makeTargets env plan >>= dressTargets env plan := by
  unfold makeTargets
  rw [Dialogue.bind_assoc]
  refine congrArg (bind _) (funext fun _ => ?_)
  rw [Dialogue.bind_assoc]
  rfl

/-- The first part makes every target, or it is rolled back. -/
theorem triple_makeTargets {plan : MaterializePlan} (hentries : plan.entries = entries)
    (hread : ∀ entry ∈ entries, ReadsChunks layout trust env plan.promiseId entry) :
    Dialogue.Triple Refuses (fun world => world = first) (makeTargets env plan)
      (fun made => During env first (Dressing layout trust [] made.2))
      (fun _ => During env first (RolledBack layout trust safe))
      fun _ => During env first (RolledBack layout trust safe) := by
  subst hentries
  have hstart : During env first (Booked layout trust [] [] []) first :=
    ⟨Std.Refl.refl first, first.fs.held, [], by simp, .begin⟩
  rintro world rfl
  refine Dialogue.Triple.bind (triple_reportBooked _) (fun _ => ?_) world hstart
  refine .bind (triple_createDirectories _ _ [] rfl _ _) fun (progress, created) => ?_
  refine (triple_writeFiles _ hread _ [] rfl _ _).conseq (fun _ h => by rwa [List.append_nil])
    (fun _ _ h => ?_) (fun _ _ h => h) fun _ _ h => h
  exact h.mono fun _ _ hbooked => ⟨hbooked, by simp⟩

/-- A run of a plan makes the copy and marks its nodes, or it is rolled back.  The rollback is
complete if no mode of the plan shuts out what the run made. -/
theorem triple_executePlan {plan : MaterializePlan} (hentries : plan.entries = entries)
    (hread : ∀ entry ∈ entries, ReadsChunks layout trust env plan.promiseId entry)
    (hwf : first.runtime.WellFormed)
    (hstored : ∀ entry ∈ entries, ∃ node,
      first.runtime.Stores plan.promiseId entry.relativePath node)
    (hnodup : (entries.map MaterializeEntryPlan.relativePath).Nodup)
    (hstays : safe → layout.StaysAccessible []
      (entries.filter fun entry => entry.kind = .directory).reverse) :
    Dialogue.Triple Refuses (fun world => world = first) (executePlan env plan)
      (fun _ => Finished env layout trust plan.promiseId)
      (fun _ => During env first (RolledBack layout trust safe))
      fun _ => During env first (RolledBack layout trust safe) := by
  subst hentries
  rw [executePlan_eq]
  refine .bind (triple_makeTargets rfl hread) fun made => ?_
  have hdirectories : ∀ entry ∈ (plan.entries.filter fun entry => entry.kind = .directory).reverse,
      entry ∈ plan.entries ∧ entry.kind = .directory := by
    intro entry hentry
    simpa using List.mem_filter.mp (List.mem_reverse.mp hentry)
  have hmetadata : Triple (During env first (Dressing layout trust [] made.2))
      (forEach (applyEntryMetadata env made.2)
        (plan.entries.filter fun entry => entry.kind = .directory).reverse)
      (fun _ => During env first (Dressing layout trust
        (plan.entries.filter fun entry => entry.kind = .directory) made.2))
      fun _ => During env first (Undoable layout trust safe made.2) := by
    refine (triple_applyMetadata _ [] hdirectories (by simp) ?_ (fun _ => layout.letsIn_nil)
      hstays).conseq (fun _ h => h) (fun _ _ h => ?_) fun _ _ h => h
    · simpa using layout.nodup.filter _
    · rwa [List.reverse_reverse, List.append_nil] at h
  refine .bind (triple_orCleanup (.lift hmetadata)) fun _ => ?_
  refine .bind (triple_orCleanup (.lift (triple_markEntries growing_dressing hwf hstored hnodup)))
    fun _ => .pure ?_
  rintro last ⟨before, marked, hbefore, hlast, hmarks⟩
  exact ⟨before, made.2, marked, hbefore, hlast, hmarks⟩

end Daemon

end

end FusePromise
