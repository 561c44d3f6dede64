import FusePromise.Materialize.Books

/-!
# Making directories and writing files

The steps of the two loops of a run that make something.  A directory is made or
found.  A file is a `Draft` until it is finished: an object on top of the stack, at
its final place or at a temporary one beside it, with the bytes written so far.
Finishing it leaves it where it is or renames it to its place.

Where the bytes come from is not decided here.  The reading of a chunk is assumed to
return bytes that are believed, and what is believed is left open.
-/

namespace FusePromise

open Machine Program Unix World

/-- What may be reused: under `Overwrite`, an object of the kind of the entry. -/
theorem validateExistingMaterializeTarget_eq_ok {entry : MaterializeEntryPlan} {object : Object}
    {conflictPolicy : MaterializeConflictPolicy} {u : Unit}
    (h : validateExistingMaterializeTarget entry object conflictPolicy = .ok u) :
    conflictPolicy = .overwrite ∧
      (entry.kind = .directory → object.body = .directory) ∧
      (entry.kind = .file → ∃ bytes, object.body = .file bytes) := by
  unfold validateExistingMaterializeTarget at h
  cases hbody : object.body <;> cases hpolicy : conflictPolicy <;> cases hkind : entry.kind <;>
    simp_all

section

variable {first : World} {entries : List MaterializeEntryPlan}
  {layout : Layout first.fs.held entries} {trust : Trust} {safe : Prop} {env : Environment}
  {done : List MaterializeEntryPlan} {created : List CreatedTarget}
  {entry : MaterializeEntryPlan}

/-- The place of an entry that is not done is not on the stack. -/
theorem not_made {stack : List Made}
    (hfor : ∀ made ∈ stack, ∃ entry ∈ done, MadeFor layout entry made) (hdone : done ⊆ entries)
    (hmem : entry ∈ entries) (hnew : entry ∉ done) :
    ∀ made ∈ stack, made.loc ≠ layout.loc entry := by
  intro made hmade heq
  obtain ⟨other, hother, hmadeFor⟩ := hfor made hmade
  rw [hmadeFor.loc] at heq
  exact hnew (layout.eq_of_loc_eq (hdone hother) hmem heq ▸ hother)

namespace Daemon

/-! ## Directories -/

section Directory

variable (hdone : done ⊆ entries) (hmem : entry ∈ entries) (hnew : entry ∉ done)
  (hparents : ∀ parent ∈ entries, parent.kind = .directory →
    layout.dir entry = layout.loc parent → parent ∈ done)

/-- A directory that was just made, before its identity is known. -/
def MadeDirectory (layout : Layout first.fs.held entries) (trust : Trust)
    (done : List MaterializeEntryPlan) (created : List CreatedTarget)
    (entry : MaterializeEntryPlan) : Facts :=
  fun copied fs => ∃ old stack made, (∀ made ∈ stack, ∃ entry ∈ done, MadeFor layout entry made) ∧
    MadeFor layout entry made ∧ made.directory = true ∧
    Ledger layout trust [] done copied (created ++ [createdTarget made]) old (made :: stack) fs ∧
    Enters (fs.view true) made.path made.dir made.name

include hdone hmem hnew in
/-- A directory that is there and may be used is not removed in the end. -/
theorem Booked.reuse {copied : List CopiedChunk} {fs : FileSystem} {object : Object}
    {conflictPolicy : MaterializeConflictPolicy}
    (h : Booked layout trust [] done created copied fs) (hkind : entry.kind = .directory)
    (hisDir : fs.held.IsDirectory (layout.dir entry))
    (hfound : Found entry conflictPolicy (some object) fs) :
    Booked layout trust [] (done ++ [entry])
      (created ++ [⟨entry.targetPath, object.identity, .directory, false⟩]) copied fs := by
  obtain ⟨old, stack, hfor, hledger⟩ := h
  obtain ⟨hlstat, hvalid⟩ := hfound
  have hget := FileSystem.get_of_lstat (hledger.enters hmem hisDir) hlstat
  have hold : old (layout.loc entry) = some (object.setMtime 0) := by
    rw [← hledger.stands.other (not_made hfor hdone hmem hnew)]
    exact FileSystem.held_of_get hget
  have hreused := hledger.reuse hkind hold
    ((validateExistingMaterializeTarget_eq_ok hvalid).2.1 hkind)
  refine ⟨old, stack, fun made hmade => ?_, hreused⟩
  obtain ⟨other, hother, hmadeFor⟩ := hfor made hmade
  exact ⟨other, List.mem_append_left _ hother, hmadeFor⟩

include hmem hparents in
theorem madeDirectory_of_mkdir {copied : List CopiedChunk} {fs next : FileSystem} {now : ℤ}
    (h : Booked layout trust [] done created copied fs)
    (hmkdir : fs.mkdir entry.targetPath 0o700 now = .ok next) :
    MadeDirectory layout trust done created entry copied next := by
  obtain ⟨old, stack, hfor, hledger⟩ := h
  have hisDir := hledger.isDirectory_dir hmem hparents
  obtain ⟨henters, hmay, hfree, hchanges⟩ :=
    FileSystem.mkdir_eq_ok (hledger.enters hmem hisDir) hmkdir
  let made : Made := ⟨entry.targetPath, layout.dir entry, layout.name entry, fs.nextIdentity, true⟩
  have hmadeFor : MadeFor layout entry made := ⟨rfl, rfl, rfl⟩
  refine ⟨old, stack, made, hfor, hmadeFor, rfl, ?_, ?_⟩
  · exact hledger.make hmem rfl hfree (hledger.place hmem hmadeFor hparents) henters hmay
      ⟨rfl, by simp [made]⟩ (fun _ => rfl) hchanges
  · -- the new directory locks nothing on the way to it
    have hextends : Unix.Extends (fs.view true) (next.view true) := by
      rw [← FileSystem.view_held, ← FileSystem.view_held, hchanges.held_eq]
      intro loc v hv
      refine Or.inl ?_
      rw [Holdings.view, Function.update_of_ne, ← Holdings.view, hv]
      rintro rfl
      rw [Holdings.view, FileSystem.held_eq_none.mpr hfree] at hv
      simp at hv
    exact henters.mono hextends

theorem triple_createdIdentity {fail : Status → World → Prop} :
    Triple (During env first (MadeDirectory layout trust done created entry))
      (createdIdentity entry.targetPath)
      (fun identity => During env first fun copied fs => ∃ old stack made,
        (∀ made ∈ stack, ∃ entry ∈ done, MadeFor layout entry made) ∧
        MadeFor layout entry made ∧ made.directory = true ∧ made.identity = identity ∧
        Ledger layout trust [] done copied (created ++ [createdTarget made]) old (made :: stack) fs)
      fail := by
  rintro world ⟨hfirst, old, stack, made, hfor, hmadeFor, hdir, hledger, henters⟩
  obtain ⟨object, hobject, his⟩ := hledger.stands.object List.mem_cons_self
  obtain ⟨found, hfound, rfl⟩ := FileSystem.get_of_held hobject
  have hlstat : world.fs.lstat entry.targetPath = .ok found := by
    rw [← hmadeFor.path, FileSystem.lstat_of_enters henters]
    exact FileSystem.found_eq_ok.mpr hfound
  simp only [createdIdentity, Bind.bind, Prog.get, hlstat]
  exact ⟨hfirst, old, stack, made, hfor, hmadeFor, hdir, his.1.symm, hledger⟩

include hdone hmem hnew hparents in
theorem triple_createMaterializedDirectory (conflictPolicy : MaterializeConflictPolicy)
    (hkind : entry.kind = .directory) :
    Triple (During env first (Booked layout trust [] done created))
      (createMaterializedDirectory env entry conflictPolicy)
      (fun target => During env first
        (Booked layout trust [] (done ++ [entry]) (created ++ [target])))
      fun _ => During env first (Undoable layout trust safe created) := by
  have hundo : ∀ copied fs, Booked layout trust [] done created copied fs →
      Undoable layout trust safe created copied fs :=
    fun _ _ hbooked => hbooked.undoable
  refine Triple.bind ((triple_existingTarget growing_booked).weaken_fail
    fun _ _ h => h.mono hundo) fun existing => ?_
  cases existing with
  -- a directory that was there is put on record and not on the stack
  | some object =>
      refine .pure fun world h => h.mono fun copied fs hfacts => ?_
      have hisDir : fs.held.IsDirectory (layout.dir entry) := by
        obtain ⟨old, stack, -, hledger⟩ := hfacts.1
        exact hledger.isDirectory_dir hmem hparents
      exact Booked.reuse hdone hmem hnew hfacts.1 hkind hisDir hfacts.2
  | none =>
      have hmkdir : Triple
          (During env first fun copied fs =>
            Booked layout trust [] done created copied fs ∧ Found entry conflictPolicy none fs)
          (change env fun now fs => fs.mkdir entry.targetPath 0o700 now)
          (fun _ => During env first (MadeDirectory layout trust done created entry)) _ :=
        triple_change (growing_booked.and _) fun hfacts hmkdir =>
          madeDirectory_of_mkdir hmem hparents hfacts.1 hmkdir
      refine Triple.bind
        (hmkdir.mapError fun _ _ h => h.mono fun _ _ hfacts => hundo _ _ hfacts.1) fun _ => ?_
      refine triple_createdIdentity.bind fun identity => .pure fun world h => ?_
      refine h.mono fun copied fs hfacts => ?_
      obtain ⟨old, stack, made, hfor, hmadeFor, hdir, rfl, hledger⟩ := hfacts
      have htarget : createdTarget made = ⟨entry.targetPath, made.identity, .directory, true⟩ := by
        simp [createdTarget, hdir, hmadeFor.path]
      rw [htarget] at hledger
      refine ⟨old, made :: stack, fun other hother => ?_, hledger.add_made hkind
        List.mem_cons_self hdir hmadeFor⟩
      rcases List.mem_cons.mp hother with rfl | hother
      · exact ⟨entry, by simp, hmadeFor⟩
      · obtain ⟨other, hin, hotherFor⟩ := hfor _ hother
        exact ⟨other, List.mem_append_left _ hin, hotherFor⟩

end Directory

end Daemon

/-! ## Drafts -/

/-- Where a draft will be in the end: it is there already, or it will replace an old file. -/
def Destination (layout : Layout first.fs.held entries) (entry : MaterializeEntryPlan)
    (target : MaterializeFileTarget) (made : Made) (old : Holdings) : Prop :=
  (target.replaceOnSuccess = false ∧ target.finalRemoveOnCleanup = true ∧
      MadeFor layout entry made) ∨
    (target.replaceOnSuccess = true ∧ target.finalRemoveOnCleanup = false ∧
      Enters (old.view false) made.path made.dir made.name ∧
      ∃ original content, old (layout.loc entry) = some original ∧ original.body = .file content)

/-- A file that is being written. -/
structure Draft (layout : Layout first.fs.held entries) (trust : Trust)
    (done : List MaterializeEntryPlan) (created : List CreatedTarget)
    (entry : MaterializeEntryPlan) (target : MaterializeFileTarget) (made : Made) (old : Holdings)
    (stack : List Made) (copied : List CopiedChunk) (fs : FileSystem) : Prop where
  placed : ∀ made ∈ stack, ∃ entry ∈ done, MadeFor layout entry made
  records : Records created stack
  ledger : Ledger layout trust [] done copied (created ++ [createdTarget made]) old
    (made :: stack) fs
  directory : made.directory = false
  dir : made.dir = layout.dir entry
  fresh : ∀ other ∈ done, other.kind = .file → layout.loc other ≠ made.loc
  file : target.file = made.loc
  writeTarget : target.writeTarget = createdTarget made
  finalPath : target.finalPath = entry.targetPath
  destination : Destination layout entry target made old

/-- The draft holds the first bytes of its file, and the object has a property. -/
def Drafted (layout : Layout first.fs.held entries) (trust : Trust)
    (done : List MaterializeEntryPlan) (created : List CreatedTarget)
    (entry : MaterializeEntryPlan) (target : MaterializeFileTarget) (offset : ℕ)
    (property : Object → Prop) : Facts :=
  fun copied fs => ∃ made old stack object bytes,
    Draft layout trust done created entry target made old stack copied fs ∧
    fs.get made.loc = some object ∧ object.body = .file bytes ∧
    trust.Part copied entry offset bytes ∧ property object

section Draft

variable {target : MaterializeFileTarget} {made : Made} {old : Holdings} {stack : List Made}
  {copied : List CopiedChunk} {fs next : FileSystem} {offset : ℕ} {property : Object → Prop}

theorem Draft.mono {later : List CopiedChunk} (hlater : copied <+: later)
    (h : Draft layout trust done created entry target made old stack copied fs) :
    Draft layout trust done created entry target made old stack later fs :=
  { h with ledger := h.ledger.mono hlater }

theorem growing_drafted :
    Growing (Drafted layout trust done created entry target offset property) := by
  rintro copied later fs hlater ⟨made, old, stack, object, bytes, hdraft, hget, hbody, hpart, hprop⟩
  exact ⟨made, old, stack, object, bytes, hdraft.mono hlater, hget, hbody, hpart.mono hlater, hprop⟩

theorem Draft.undoable (h : Draft layout trust done created entry target made old stack copied fs) :
    Undoable layout trust safe (created ++ [target.writeTarget]) copied fs := by
  rw [h.writeTarget]
  exact h.ledger.undoable

theorem Drafted.undoable
    (h : Drafted layout trust done created entry target offset property copied fs) :
    Undoable layout trust safe (created ++ [target.writeTarget]) copied fs := by
  obtain ⟨made, old, stack, object, bytes, hdraft, -⟩ := h
  exact hdraft.undoable

theorem Drafted.remains
    (h : Drafted layout trust done created entry target offset property copied fs) :
    Remains layout trust copied fs := by
  obtain ⟨made, old, stack, object, bytes, hdraft, -⟩ := h
  exact hdraft.ledger.remains (List.nil_subset _)

/-- A change of the draft itself. -/
theorem Draft.amend (h : Draft layout trust done created entry target made old stack copied fs)
    (hmem : entry ∈ entries) {object : Object} (his : made.Is object)
    (hchanges : FileSystem.Changes fs next made.loc (some object)) :
    Draft layout trust done created entry target made old stack copied next :=
  { h with
    ledger := h.ledger.amend List.mem_cons_self hmem h.dir h.fresh his hchanges
      (by simp [h.directory]) }

/-- What is at the place of a draft is the object that was made. -/
theorem Draft.is {object : Object}
    (h : Draft layout trust done created entry target made old stack copied fs)
    (hget : fs.get made.loc = some object) : made.Is object := by
  obtain ⟨found, hfound, his⟩ := h.ledger.stands.object List.mem_cons_self
  rw [FileSystem.held_of_get hget] at hfound
  obtain rfl := Option.some.inj hfound
  exact his

/-- More bytes at the end of a draft. -/
theorem Drafted.append (hmem : entry ∈ entries)
    (h : Drafted layout trust done created entry target offset (fun _ => True) copied fs)
    (bytes : List UInt8) (now : ℤ) :
    (∀ safe, Undoable layout trust safe (created ++ [target.writeTarget]) copied
        (fs.appendAt target.file bytes now)) ∧
      (trust.Chunk copied entry offset bytes →
        Drafted layout trust done created entry target (offset + bytes.length) (fun _ => True)
          copied (fs.appendAt target.file bytes now)) := by
  obtain ⟨made, old, stack, object, content, hdraft, hget, hbody, hpart, -⟩ := h
  have hchanges := fs.changes_appendAt made.loc bytes now
  rw [hget, ← hdraft.file] at hchanges
  have hlater : (object.append bytes now).body = .file (content ++ bytes) := by
    simp only [Object.append, hbody]
  have his : made.Is (object.append bytes now) := by
    obtain ⟨hidentity, hkind⟩ := hdraft.is hget
    refine ⟨?_, by rw [hkind, hbody, hlater]; simp⟩
    simpa only [Object.append, hbody] using hidentity
  rw [hdraft.file] at hchanges
  have hnext := hdraft.amend hmem his hchanges
  rw [hdraft.file]
  exact ⟨fun _ => hnext.undoable, fun hchunk => ⟨made, old, stack, _, _, hnext, hchanges.here,
    hlater, hpart.append hchunk, trivial⟩⟩

end Draft

namespace Daemon

/-! ## Opening a file -/

section Opening

variable (hmem : entry ∈ entries)
  (hparents : ∀ parent ∈ entries, parent.kind = .directory →
    layout.dir entry = layout.loc parent → parent ∈ done)

/-- What opening a new file at a path has done. -/
def Opened (facts : Facts) (path : Text) (dir : Loc) (name : Name) (result : Loc × ℕ) : Facts :=
  fun copied fs => ∃ before now, facts copied before ∧ result.1 = name :: dir ∧
    Enters (before.view true) path dir name ∧ before.mayChange dir = true ∧
    before.get (name :: dir) = none ∧
    FileSystem.Changes before fs (name :: dir) (some ⟨result.2, 0o600, now, .file []⟩)

theorem triple_openMaterializeOutput {facts : Facts} {path : Text} {dir : Loc} {name : Name}
    (hgrowing : Growing facts)
    (henters : ∀ copied fs, facts copied fs → Enters (fs.view false) path dir name) :
    Triple (During env first facts) (openMaterializeOutput env path)
      (fun result => During env first (Opened facts path dir name result))
      fun error world => error.target = none ∧ During env first facts world := by
  have hopen : Triple (During env first facts) (call env fun now fs => fs.openNew path 0o600 now)
      (fun file => During env first fun copied fs => ∃ identity,
        Opened facts path dir name (file, identity) copied fs) _ :=
    triple_call hgrowing fun {copied fs next now file} hfacts hresult => by
      obtain ⟨rfl, hwalk, hmay, hfree, hchanges⟩ :=
        FileSystem.createEntry_eq_ok (henters copied fs hfacts) hresult
      exact ⟨fs.nextIdentity, fs, now, hfacts, rfl, hwalk, hmay, hfree, hchanges⟩
  refine Triple.bind (hopen.mapError fun _ _ h => ⟨rfl, h.mono fun _ _ hfacts => hfacts.1⟩)
    fun file => ?_
  rintro world ⟨hfirst, identity, before, now, hfacts, hfile, hrest⟩
  have hfound : world.fs.found file = .ok ⟨identity, 0o600, now, .file []⟩ := by
    rw [FileSystem.found_eq_ok, show file = name :: dir from hfile]
    exact hrest.2.2.2.here
  simp only [Bind.bind, Prog.get, hfound]
  exact ⟨hfirst, before, now, hfacts, hfile, hrest⟩

include hmem hparents in
theorem drafted_of_opened {result : Loc × ℕ} {copied : List CopiedChunk} {fs : FileSystem}
    (h : Opened (Booked layout trust [] done created) entry.targetPath (layout.dir entry)
      (layout.name entry) result copied fs) :
    Drafted layout trust done created entry
      ⟨result.1, ⟨entry.targetPath, result.2, .file, true⟩, entry.targetPath, true, false⟩ 0
      (fun _ => True) copied fs := by
  obtain ⟨before, now, ⟨old, stack, hfor, hledger⟩, hfile, henters, hmay, hfree, hchanges⟩ := h
  let made : Made := ⟨entry.targetPath, layout.dir entry, layout.name entry, result.2, false⟩
  have hmadeFor : MadeFor layout entry made := ⟨rfl, rfl, rfl⟩
  refine ⟨made, old, stack, _, [], ⟨hfor, hledger.records, ?_, rfl, rfl, hledger.ne_of_free hfree,
    hfile, rfl, rfl, Or.inl ⟨rfl, rfl, hmadeFor⟩⟩, hchanges.here, rfl, ⟨rfl, by simp⟩, trivial⟩
  exact hledger.make hmem rfl hfree (hledger.place hmem hmadeFor hparents) henters hmay
    ⟨rfl, by simp [made]⟩ (by simp [made]) hchanges

include hmem hparents in
theorem triple_openFinalMaterializedFile :
    Triple (During env first (Booked layout trust [] done created))
      (openFinalMaterializedFile env entry true)
      (fun target => During env first
        (Drafted layout trust done created entry target 0 fun _ => True))
      fun error => During env first
        (Undoable layout trust safe (created ++ error.target.toList)) := by
  have henters : ∀ copied fs, Booked layout trust [] done created copied fs →
      Enters (fs.view false) entry.targetPath (layout.dir entry) (layout.name entry) := by
    rintro copied fs ⟨old, stack, -, hledger⟩
    exact hledger.enters hmem (hledger.isDirectory_dir hmem hparents)
  refine Triple.bind ((triple_openMaterializeOutput growing_booked henters).weaken_fail ?_)
    fun result => .pure fun world h => h.mono fun copied fs hfacts =>
      drafted_of_opened hmem hparents hfacts
  rintro error world ⟨htarget, h⟩
  rw [htarget, Option.toList_none, List.append_nil]
  exact h.mono fun _ _ ⟨_, _, _, hledger⟩ => hledger.undoable

/-- The place of an entry has an old file, which can be replaced. -/
def Replaceable (layout : Layout first.fs.held entries) (trust : Trust)
    (done : List MaterializeEntryPlan) (created : List CreatedTarget)
    (entry : MaterializeEntryPlan) : Facts :=
  fun copied fs => ∃ old stack, (∀ made ∈ stack, ∃ entry ∈ done, MadeFor layout entry made) ∧
    Ledger layout trust [] done copied created old stack fs ∧
    ∃ original content, old (layout.loc entry) = some original ∧ original.body = .file content

theorem growing_replaceable : Growing (Replaceable layout trust done created entry) := by
  rintro copied later fs hlater ⟨old, stack, hfor, hledger, hfile⟩
  exact ⟨old, stack, hfor, hledger.mono hlater, hfile⟩

theorem Replaceable.undoable {copied : List CopiedChunk} {fs : FileSystem}
    (h : Replaceable layout trust done created entry copied fs) :
    Undoable layout trust safe created copied fs := by
  obtain ⟨old, stack, -, hledger, -⟩ := h
  exact hledger.undoable

include hmem in
/-- The temporary path leads to the directory of the entry. -/
theorem enters_tempPath {old : Holdings} {copied : List CopiedChunk} {attempt : ℕ}
    {tempPath : Text} (hkept : Kept layout trust [] copied old)
    (hold : old (layout.loc entry) ≠ none)
    (hpath : materializeTempPath env.processId entry.targetPath attempt = .ok tempPath) :
    Enters (old.view false) tempPath (layout.dir entry) ((tempPath.splitOn '/').getLastD []) := by
  obtain ⟨tempName, htemp⟩ := enters_materializeTempPath (hkept.enters hmem hold) hpath
  rwa [htemp.last]

include hmem in
theorem drafted_of_replacement {result : Loc × ℕ} {copied : List CopiedChunk} {fs : FileSystem}
    {attempt : ℕ} {tempPath : Text}
    (hpath : materializeTempPath env.processId entry.targetPath attempt = .ok tempPath)
    (h : Opened (Replaceable layout trust done created entry) tempPath (layout.dir entry)
      ((tempPath.splitOn '/').getLastD []) result copied fs) :
    Drafted layout trust done created entry
      ⟨result.1, ⟨tempPath, result.2, .file, true⟩, entry.targetPath, false, true⟩ 0
      (fun _ => True) copied fs := by
  obtain ⟨before, now, ⟨old, stack, hfor, hledger, original, content, hold, hcontent⟩, hfile,
    henters, hmay, hfree, hchanges⟩ := h
  let made : Made :=
    ⟨tempPath, layout.dir entry, (tempPath.splitOn '/').getLastD [], result.2, false⟩
  have htemp := enters_tempPath hmem hledger.kept (by rw [hold]; simp) hpath
  refine ⟨made, old, stack, _, [], ⟨hfor, hledger.records, ?_, rfl, rfl, hledger.ne_of_free hfree,
    hfile, rfl, rfl, Or.inr ⟨rfl, rfl, htemp, original, content, hold, hcontent⟩⟩,
    hchanges.here, rfl, ⟨rfl, by simp⟩, trivial⟩
  exact hledger.make hmem rfl hfree (Or.inr htemp) henters hmay ⟨rfl, by simp [made]⟩
    (by simp [made]) hchanges

theorem triple_nextTempAttempt {facts : Facts} {ε : Type} {fail : ε → World → Prop}
    (hgrowing : Growing facts) :
    Triple (During env first facts) (nextTempAttempt : Daemon ε ℕ)
      (fun _ => During env first facts) fail :=
  fun _ h => h.readOnly hgrowing ⟨.of_eq rfl rfl rfl le_rfl le_rfl List.prefix_rfl rfl, rfl⟩

include hmem in
theorem triple_openReplacement (left : ℕ) :
    Triple (During env first (Replaceable layout trust done created entry))
      (openReplacement env entry left)
      (fun target => During env first
        (Drafted layout trust done created entry target 0 fun _ => True))
      fun error => During env first
        (Undoable layout trust safe (created ++ error.target.toList)) := by
  -- nothing is made before the open succeeds
  have hundo : ∀ {error : MaterializeWriteError} {world : World}, error.target = none →
      During env first (Replaceable layout trust done created entry) world →
      During env first (Undoable layout trust safe (created ++ error.target.toList)) world := by
    intro error world htarget h
    rw [htarget, Option.toList_none, List.append_nil]
    exact h.mono fun _ _ hfacts => hfacts.undoable
  induction left with
  | zero => exact .throw fun world h => hundo rfl h
  | succ left ih =>
      refine Triple.bind (triple_nextTempAttempt growing_replaceable) fun attempt => ?_
      have hpath : Triple (During env first (Replaceable layout trust done created entry))
          (Prog.ofExcept (materializeTempPath env.processId entry.targetPath attempt))
          (fun tempPath world =>
            materializeTempPath env.processId entry.targetPath attempt = .ok tempPath ∧
              During env first (Replaceable layout trust done created entry) world)
          fun _ => During env first (Replaceable layout trust done created entry) :=
        .ofExcept (fun _ hresult _ h => ⟨hresult, h⟩) fun _ _ _ h => h
      refine Triple.bind (hpath.mapError fun _ _ h => hundo rfl h) fun tempPath => ?_
      rintro world ⟨hpath, h⟩
      have henters : ∀ copied fs, Replaceable layout trust done created entry copied fs →
          Enters (fs.view false) tempPath (layout.dir entry)
            ((tempPath.splitOn '/').getLastD []) := by
        rintro copied fs ⟨old, stack, -, hledger, original, content, hold, -⟩
        have henters := enters_tempPath hmem hledger.kept (by rw [hold]; simp) hpath
        rw [← FileSystem.view_held]
        exact henters.mono (hledger.stands.extends_old false)
      refine Triple.bind (triple_openMaterializeOutput growing_replaceable henters).attempt
        (fun result => ?_) world h
      cases result with
      | ok result =>
          exact .pure fun world h => h.mono fun _ _ hfacts =>
            drafted_of_replacement hmem hpath hfacts
      | error error =>
          dsimp only
          split
          · exact ih.strengthen_pre fun _ h => h.2
          · exact .throw fun world h => hundo h.1 h.2

include hmem hparents in
theorem triple_openMaterializedFile (hdone : done ⊆ entries) (hnew : entry ∉ done)
    (hkind : entry.kind = .file) (conflictPolicy : MaterializeConflictPolicy) :
    Triple (During env first (Booked layout trust [] done created))
      (openMaterializedFile env entry conflictPolicy)
      (fun target => During env first
        (Drafted layout trust done created entry target 0 fun _ => True))
      fun error => During env first
        (Undoable layout trust safe (created ++ error.target.toList)) := by
  have hfinal : Triple (During env first (Booked layout trust [] done created))
      (openFinalMaterializedFile env entry true) _
      fun error => During env first (Undoable layout trust safe (created ++ error.target.toList)) :=
    triple_openFinalMaterializedFile hmem hparents
  refine Triple.bind ((triple_existingTarget growing_booked).mapError fun _ _ h => ?_)
    fun existing => ?_
  · show During env first (Undoable layout trust safe (created ++ [])) _
    rw [List.append_nil]
    exact h.mono fun _ _ hbooked => hbooked.undoable
  · have hbooked : ∀ world, During env first (fun copied fs =>
          Booked layout trust [] done created copied fs ∧ Found entry conflictPolicy existing fs)
          world → During env first (Booked layout trust [] done created) world :=
      fun _ h => h.mono fun _ _ hfacts => hfacts.1
    split
    · exact hfinal.strengthen_pre hbooked
    · cases existing with
      | none => exact hfinal.strengthen_pre hbooked
      | some object =>
          refine (triple_openReplacement hmem 16).strengthen_pre fun _ h => h.mono ?_
          rintro copied fs ⟨⟨old, stack, hfor, hledger⟩, hlstat, hvalid⟩
          have hisDir := hledger.isDirectory_dir hmem hparents
          have hget := FileSystem.get_of_lstat (hledger.enters hmem hisDir) hlstat
          obtain ⟨content, hcontent⟩ :=
            (validateExistingMaterializeTarget_eq_ok hvalid).2.2 hkind
          refine ⟨old, stack, hfor, hledger, object.setMtime 0, content, ?_, hcontent⟩
          rw [← hledger.stands.other (not_made hfor hdone hmem hnew)]
          exact FileSystem.held_of_get hget
    · exact hfinal.strengthen_pre hbooked

end Opening

/-! ## Writing the bytes -/

section Chunks

variable {target : MaterializeFileTarget} {offset : ℕ} {promiseId : Text}

/-- As long as what was there before is there, the reading of a chunk keeps what is known, and
the bytes that are read are believed. -/
def ReadsChunks (layout : Layout first.fs.held entries) (trust : Trust) (env : Environment)
    (promiseId : Text) (entry : MaterializeEntryPlan) : Prop :=
  ∀ {facts : Facts}, Growing facts →
    (∀ copied fs, facts copied fs → Remains layout trust copied fs) → ∀ offset length,
    Triple (During env first facts) (readMaterializeChunk env promiseId entry offset length)
      (fun bytes => During env first fun copied fs => facts copied fs ∧ bytes.length ≤ length ∧
        trust.Chunk copied entry offset bytes)
      fun _ => During env first facts

/-- A write that fails has written a part of the bytes. -/
theorem triple_writeAll (safe : Prop) (hmem : entry ∈ entries) (bytes : List UInt8) :
    Triple (During env first fun copied fs =>
        Drafted layout trust done created entry target offset (fun _ => True) copied fs ∧
          trust.Chunk copied entry offset bytes)
      (writeAll env target.file bytes)
      (fun _ => During env first
        (Drafted layout trust done created entry target (offset + bytes.length) fun _ => True))
      fun _ => During env first (Undoable layout trust safe (created ++ [target.writeTarget])) := by
  have hgrowing : Growing fun copied fs =>
      Drafted layout trust done created entry target offset (fun _ => True) copied fs ∧
        trust.Chunk copied entry offset bytes :=
    fun _ _ _ hlater hfacts => ⟨growing_drafted _ _ _ hlater hfacts.1,
      fun hv => trust.mono hlater (hfacts.2 hv)⟩
  have happended : ∀ {world : World} (fs : FileSystem), Unmarked env world { world with fs } :=
    fun _ => .of_eq rfl rfl rfl le_rfl le_rfl List.prefix_rfl rfl
  refine (triple_nextTick hgrowing).bind fun tick => ?_
  split
  · refine (triple_noteFailure hgrowing).bind fun _ => ?_
    rintro world ⟨hfirst, hdrafted, -⟩
    exact ⟨IsTrans.trans _ _ _ hfirst (happended _), (Drafted.append hmem hdrafted _ _).1 safe⟩
  · rintro world ⟨hfirst, hdrafted, hchunk⟩
    exact ⟨IsTrans.trans _ _ _ hfirst (happended _), (Drafted.append hmem hdrafted _ _).2 hchunk⟩

/-- The loop ends with the whole file: every turn writes a byte, so the bytes that were left
at the start are enough turns. -/
theorem triple_writeChunks (hmem : entry ∈ entries) {reportFileProgress : ℕ → Reporting Status Unit}
    (hread : ReadsChunks layout trust env promiseId entry)
    (hreport : ∀ (bytes : ℕ) {facts : Facts}, Growing facts →
      Dialogue.Triple Refuses (During env first facts) (reportFileProgress bytes)
        (fun _ => During env first facts) (fun _ => During env first facts)
        fun _ => During env first facts)
    (left offset : ℕ) (hoffset : offset ≤ entry.size.toNat)
    (hleft : entry.size.toNat ≤ offset + left) :
    Dialogue.Triple Refuses
      (During env first (Drafted layout trust done created entry target offset fun _ => True))
      (writeChunks env promiseId entry target reportFileProgress left offset)
      (fun _ => During env first
        (Drafted layout trust done created entry target entry.size.toNat fun _ => True))
      (fun error => During env first (Undoable layout trust safe (created ++ error.target.toList)))
      fun error => During env first
        (Undoable layout trust safe (created ++ error.target.toList)) := by
  induction left generalizing offset with
  | zero =>
      obtain rfl : offset = entry.size.toNat := by omega
      exact .pure fun _ h => h
  | succ left ih =>
      -- whatever has been written can be undone, so every failure is covered by this
      have hundo : ∀ {offset : ℕ} {world : World},
          During env first (Drafted layout trust done created entry target offset fun _ => True)
            world →
          During env first (Undoable layout trust safe (created ++ [target.writeTarget])) world :=
        fun h => h.mono fun _ _ hdrafted => hdrafted.undoable
      unfold writeChunks
      split
      · obtain rfl : offset = entry.size.toNat := by omega
        exact .pure fun _ h => h
      refine .bind
        (.lift ((hread growing_drafted (fun _ _ hdrafted => hdrafted.remains) _ _).mapError
        fun _ _ h => hundo h)) fun bytes => ?_
      split
      · exact .lift (.throw fun _ h => hundo (h.mono fun _ _ hfacts => hfacts.1))
      rename_i hnonempty
      have hsome : 0 < bytes.length := List.length_pos_iff.mpr hnonempty
      intro world hworld
      have hlength : bytes.length ≤ min (entry.size.toNat - offset) maxProviderReadLen :=
        hworld.2.2.1
      refine Dialogue.Triple.bind
        (.lift ((triple_writeAll safe hmem bytes).mapError fun _ _ h => ?_)) (fun _ => ?_) world
        (hworld.mono fun _ _ hfacts => ⟨hfacts.1, hfacts.2.2⟩)
      · exact h
      cases hnext : checkedAdd offset bytes.length with
      | none => exact .lift (.throw fun _ h => hundo h)
      | some next =>
          obtain ⟨rfl, -⟩ := checkedAdd_eq_some.mp hnext
          refine .bind ((hreport _ growing_drafted).mapError (fun _ _ h => hundo h)
            fun _ _ h => hundo h) fun _ => ?_
          -- a chunk is not empty, so one turn fewer is enough for the rest
          exact ih _ (by omega) (by omega)

end Chunks

/-! ## Finishing a file -/

section Finishing

variable {target : MaterializeFileTarget} {offset : ℕ} {promiseId : Text}

/-- A change of the draft that leaves its bytes. -/
theorem drafted_adjust (hmem : entry ∈ entries) {copied : List CopiedChunk}
    {fs next : FileSystem} {property property' : Object → Prop} (adjusted : Object → Object)
    (hsame : ∀ object, (adjusted object).identity = object.identity ∧
      (adjusted object).body = object.body)
    (hproperty : ∀ object, property object → property' (adjusted object))
    (hchanges : FileSystem.Changes fs next target.file ((fs.get target.file).map adjusted))
    (h : Drafted layout trust done created entry target offset property copied fs) :
    Drafted layout trust done created entry target offset property' copied next := by
  obtain ⟨made, old, stack, object, bytes, hdraft, hget, hbody, hpart, hobject⟩ := h
  rw [hdraft.file, hget, Option.map_some] at hchanges
  have his : made.Is (adjusted object) := by
    obtain ⟨hidentity, hkind⟩ := hdraft.is hget
    exact ⟨(hsame object).1.trans hidentity, by rw [hkind, (hsame object).2]⟩
  exact ⟨made, old, stack, _, bytes, hdraft.amend hmem his hchanges, hchanges.here,
    (hsame object).2.trans hbody, hpart, hproperty object hobject⟩

theorem triple_setPermissions (hmem : entry ∈ entries) (mode : UInt32) :
    Triple (During env first (Drafted layout trust done created entry target offset fun _ => True))
      (setPermissions env target.file mode)
      (fun _ => During env first (Drafted layout trust done created entry target offset
        fun object => object.mode = mode &&& 0o7777))
      fun _ => During env first (Undoable layout trust safe (created ++ [target.writeTarget])) := by
  refine (triple_change growing_drafted fun {copied fs next now} hdrafted hchmod => ?_).mapError
    fun _ _ h => h.mono fun _ _ hdrafted => hdrafted.undoable
  obtain rfl := Except.ok.inj hchmod
  exact drafted_adjust hmem (Object.setMode _) (fun _ => ⟨rfl, rfl⟩) (fun _ _ => rfl)
    (fs.changes_chmodAt target.file _) hdrafted

/-- The two parts of a timestamp make up the whole. -/
theorem timespec_nsec {mtimeNsec mtime : ℤ}
    (h : timespec (mtimeNsec.tdiv 1000000000) (mtimeNsec.tmod 1000000000) = .ok mtime) :
    mtime = mtimeNsec := by
  unfold timespec at h
  split at h
  · rw [← Except.ok.inj h]
    exact Int.tdiv_mul_add_tmod mtimeNsec 1000000000
  · simp at h

theorem triple_applyMtime (hmem : entry ∈ entries) (mode : UInt32) (mtimeNsec : ℤ) :
    Triple (During env first (Drafted layout trust done created entry target offset fun object =>
        object.mode = mode))
      (applyMtime env target.file mtimeNsec)
      (fun _ => During env first (Drafted layout trust done created entry target offset
        fun object => object.mode = mode ∧ object.mtime = mtimeNsec))
      fun _ => During env first (Undoable layout trust safe (created ++ [target.writeTarget])) := by
  refine (triple_change growing_drafted fun {copied fs next now} hdrafted htouch => ?_).mapError
    fun _ _ h => h.mono fun _ _ hdrafted => hdrafted.undoable
  obtain ⟨mtime, hmtime, htouch⟩ := bind_eq_ok.mp htouch
  obtain rfl := Except.ok.inj htouch
  rw [timespec_nsec hmtime]
  exact drafted_adjust hmem (Object.setMtime _) (fun _ => ⟨rfl, rfl⟩)
    (fun _ hmode => ⟨hmode, rfl⟩) (fs.changes_touch target.file _) hdrafted

/-- The draft is whole and has the mode and the date of its entry. -/
def Ready (layout : Layout first.fs.held entries) (trust : Trust)
    (done : List MaterializeEntryPlan) (created : List CreatedTarget)
    (entry : MaterializeEntryPlan) (target : MaterializeFileTarget) : Facts :=
  Drafted layout trust done created entry target entry.size.toNat fun object =>
    object.mode = entry.mode &&& 0o7777 ∧ object.mtime = entry.mtimeNsec

section

variable (hdone : done ⊆ entries) (hmem : entry ∈ entries) (hnew : entry ∉ done)
  (hkind : entry.kind = .file) {copied : List CopiedChunk} {fs next : FileSystem}

include hkind in
/-- A draft that is at its place stays there. -/
theorem Ready.stay (hstays : target.replaceOnSuccess = false)
    (h : Ready layout trust done created entry target copied fs) :
    Booked layout trust [] (done ++ [entry]) (created ++ [⟨target.finalPath,
      target.writeTarget.identity, .file, target.finalRemoveOnCleanup⟩]) copied fs := by
  obtain ⟨made, old, stack, object, bytes, hdraft, hget, hbody, hpart, hmode, hmtime⟩ := h
  rcases hdraft.destination with ⟨-, hremove, hmadeFor⟩ | ⟨hreplace, -⟩
  swap
  · simp [hstays] at hreplace
  have htarget : createdTarget made = ⟨target.finalPath, target.writeTarget.identity, .file,
      target.finalRemoveOnCleanup⟩ := by
    rw [hdraft.finalPath, hdraft.writeTarget, hremove, ← hmadeFor.path]
    simp [createdTarget, hdraft.directory]
  have hwritten : Written layout trust copied fs entry object := by
    refine ⟨?_, ⟨bytes, hbody, hpart⟩, hmode, hmtime⟩
    rw [← hmadeFor.loc]
    exact hget
  refine ⟨old, made :: stack, fun other hother => ?_, ?_⟩
  · rcases List.mem_cons.mp hother with rfl | hother
    · exact ⟨entry, by simp, hmadeFor⟩
    · obtain ⟨another, hanother, hfor⟩ := hdraft.placed other hother
      exact ⟨another, List.mem_append_left _ hanother, hfor⟩
  · rw [← htarget]
    exact hdraft.ledger.add_file hkind hwritten

include hdone hmem hnew hkind in
/-- A draft that replaces an old file is renamed. -/
theorem Ready.replace (hreplaces : target.replaceOnSuccess = true) {now : ℤ}
    (h : Ready layout trust done created entry target copied fs)
    (hrename : fs.rename target.writeTarget.path target.finalPath now = .ok next) :
    Booked layout trust [] (done ++ [entry]) (created ++ [⟨target.finalPath,
      target.writeTarget.identity, .file, target.finalRemoveOnCleanup⟩]) copied next := by
  obtain ⟨made, old, stack, object, bytes, hdraft, hget, hbody, hpart, hmode, hmtime⟩ := h
  rcases hdraft.destination with ⟨hstays, -⟩ | ⟨-, hremove, htemp, original, content, hold, hfile⟩
  · simp [hreplaces] at hstays
  have hfree : old made.loc = none := hdraft.ledger.stands.stacked.1
  -- the draft lies where nothing was, the file where something was
  have hne : made.name ≠ layout.name entry := by
    intro heq
    rw [Made.loc, heq, hdraft.dir] at hfree
    rw [Layout.loc, hfree] at hold
    simp at hold
  have hisDir : fs.held.IsDirectory (layout.dir entry) := by
    have hsome : fs.held made.loc ≠ none := by
      rw [FileSystem.held_of_get hget]
      simp
    rw [← hdraft.dir]
    exact FileSystem.isDirectory_of_held_cons hsome
  have hsource : Enters (fs.view false) target.writeTarget.path (layout.dir entry) made.name := by
    rw [hdraft.writeTarget, ← FileSystem.view_held, ← hdraft.dir]
    exact hdraft.ledger.stands.enters List.mem_cons_self
  have hfinal : Enters (fs.view false) target.finalPath (layout.dir entry)
      (layout.name entry) := by
    rw [hdraft.finalPath]
    exact hdraft.ledger.enters hmem hisDir
  obtain ⟨hhere, hgone, hheld, hother⟩ := FileSystem.rename_eq_ok hsource hfinal hne hrename
  rw [← hdraft.dir] at hhere hgone hheld hother
  have hloc : layout.name entry :: made.dir = layout.loc entry := by rw [hdraft.dir]; rfl
  rw [hloc] at hhere
  simp only [hloc] at hheld hother
  obtain ⟨old', hsettled⟩ := hdraft.ledger.settle hmem hkind hdraft.dir hdraft.directory
    hdraft.records (show CreatedTarget.removeOnCleanup ⟨target.finalPath,
      target.writeTarget.identity, .file, target.finalRemoveOnCleanup⟩ = false from hremove) rfl
    (fun other hin _ heq => hnew (layout.eq_of_loc_eq (hdone hin) hmem heq ▸ hin))
    hdraft.fresh hold hfile hget hbody hpart hhere hgone hheld hother
  refine ⟨old', stack, fun made hmade => ?_, hsettled.add_file hkind
    ⟨hhere.trans hget, ⟨bytes, hbody, hpart⟩, hmode, hmtime⟩⟩
  obtain ⟨another, hanother, hfor⟩ := hdraft.placed made hmade
  exact ⟨another, List.mem_append_left _ hanother, hfor⟩

include hdone hmem hnew hkind in
theorem triple_finalizeMaterializedFile (bytesWritten : ℕ) :
    Triple (During env first (Ready layout trust done created entry target))
      (finalizeMaterializedFile env target bytesWritten)
      (fun made => During env first
        (Booked layout trust [] (done ++ [entry]) (created ++ [made])))
      fun error => During env first
        (Undoable layout trust safe (created ++ error.target.toList)) := by
  unfold finalizeMaterializedFile
  split
  · rename_i hreplaces
    refine Triple.bind ((triple_change growing_drafted fun hready hrename =>
      Ready.replace hdone hmem hnew hkind hreplaces hready hrename).mapError fun _ _ h => ?_)
      fun _ => .pure fun _ h => h
    exact h.mono fun _ _ hready => Drafted.undoable hready
  · rename_i hstays
    exact .pure fun world h => h.mono fun _ _ hready =>
      Ready.stay hkind (by simpa using hstays) hready

variable (hparents : ∀ parent ∈ entries, parent.kind = .directory →
    layout.dir entry = layout.loc parent → parent ∈ done)

include hdone hmem hnew hkind hparents in
/-- A file is written and is in its place, or what there is of it can be removed. -/
theorem triple_writeMaterializedFile (conflictPolicy : MaterializeConflictPolicy)
    {reportFileProgress : ℕ → Reporting Status Unit}
    (hread : ReadsChunks layout trust env promiseId entry)
    (hreport : ∀ (bytes : ℕ) {facts : Facts}, Growing facts →
      Dialogue.Triple Refuses (During env first facts) (reportFileProgress bytes)
        (fun _ => During env first facts) (fun _ => During env first facts)
        fun _ => During env first facts) :
    Dialogue.Triple Refuses (During env first (Booked layout trust [] done created))
      (writeMaterializedFile env promiseId entry conflictPolicy reportFileProgress)
      (fun outcome => During env first
        (Booked layout trust [] (done ++ [entry]) (created ++ [outcome.target])))
      (fun error => During env first (Undoable layout trust safe (created ++ error.target.toList)))
      fun error => During env first
        (Undoable layout trust safe (created ++ error.target.toList)) := by
  refine .bind (.lift (triple_openMaterializedFile hmem hparents hdone hnew hkind conflictPolicy))
    fun target => ?_
  refine .bind (triple_writeChunks hmem hread hreport _ 0 (Nat.zero_le _) (by simp))
    fun offset => ?_
  refine .bind (.lift ((triple_setPermissions hmem entry.mode).mapError fun _ _ h => h))
    fun _ => ?_
  refine .bind (.lift ((triple_applyMtime hmem _ entry.mtimeNsec).mapError fun _ _ h => h))
    fun _ => ?_
  exact .bind (.lift (triple_finalizeMaterializedFile hdone hmem hnew hkind offset))
    fun created => .pure fun _ h => h

end

end Finishing

end Daemon

end

end FusePromise
