import FusePromise.Materialize.Cleanup
import FusePromise.Materialize.Layout
import FusePromise.Unix.Modes

/-!
# The books of a run

What a run has done to the filesystem so far, compared with the filesystem it
started from.  Objects that were there before are kept: a directory may have got
the mode declared for it, and a file may have been replaced by the whole content of
an entry.  Everything else that is there was made by the run and stands on a stack.

The steps of a run are the primitive changes at the places of the layout, and each
of them keeps the books: `make` for a new object, `amend` for a change of one that
was made, `style` for the mode and the date of a directory, `settle` for the rename
that puts a temporary file in its place.
-/

namespace FusePromise

open Machine Program Unix

/-- What is believed of the bytes a run reads, given the chunks it has read from earlier
copies. -/
structure Trust where
  Byte : List CopiedChunk → Text → ℕ → UInt8 → Prop
  mono : ∀ {copied later : List CopiedChunk} {relativePath : Text} {i : ℕ} {v : UInt8},
    copied <+: later → Byte copied relativePath i v → Byte later relativePath i v

namespace Trust

variable (trust : Trust)

/-- The first bytes of the file of an entry. -/
structure Part (copied : List CopiedChunk) (entry : MaterializeEntryPlan) (offset : ℕ)
    (bytes : List UInt8) : Prop where
  length : bytes.length = offset
  byte : ∀ {i : ℕ} {v : UInt8}, bytes[i]? = some v → trust.Byte copied entry.relativePath i v

/-- Bytes of the file of an entry, from an offset on. -/
def Chunk (copied : List CopiedChunk) (entry : MaterializeEntryPlan) (offset : ℕ)
    (bytes : List UInt8) : Prop :=
  ∀ {i : ℕ} {v : UInt8}, bytes[i]? = some v → trust.Byte copied entry.relativePath (offset + i) v

/-- All the bytes of the file of an entry. -/
abbrev Whole (copied : List CopiedChunk) (entry : MaterializeEntryPlan) (bytes : List UInt8) :
    Prop :=
  trust.Part copied entry entry.size.toNat bytes

variable {trust}

theorem Part.mono {copied later : List CopiedChunk} {entry : MaterializeEntryPlan} {offset : ℕ}
    {bytes : List UInt8} (h : trust.Part copied entry offset bytes) (hlater : copied <+: later) :
    trust.Part later entry offset bytes :=
  ⟨h.length, fun hv => trust.mono hlater (h.byte hv)⟩

theorem Part.append {copied : List CopiedChunk} {entry : MaterializeEntryPlan} {offset : ℕ}
    {bytes more : List UInt8} (h : trust.Part copied entry offset bytes)
    (hmore : trust.Chunk copied entry offset more) :
    trust.Part copied entry (offset + more.length) (bytes ++ more) := by
  refine ⟨by rw [List.length_append, h.length], fun {i v} hv => ?_⟩
  by_cases hi : i < bytes.length
  · rw [List.getElem?_append_left hi] at hv
    exact h.byte hv
  · rw [List.getElem?_append_right (by omega)] at hv
    have hbyte := hmore hv
    rwa [← h.length, show bytes.length + (i - bytes.length) = i by omega] at hbyte

end Trust

section Books

variable {start : FileSystem} {entries : List MaterializeEntryPlan}
  (layout : Layout start.held entries) (trust : Trust)

/-- What may become of an object that was there before: `styled` are the directories whose
modes have been applied. -/
inductive Becomes (styled : List MaterializeEntryPlan) (copied : List CopiedChunk) (loc : Loc)
    (object : Object) : Object → Prop
  | same : Becomes styled copied loc object object
  | mode {entry : MaterializeEntryPlan} (hmem : entry ∈ styled) (hloc : layout.loc entry = loc)
      (hdir : object.body = .directory) :
      Becomes styled copied loc object (object.setMode (entry.mode &&& 0o7777))
  | content {entry : MaterializeEntryPlan} {later : Object} {bytes content : List UInt8}
      (hmem : entry ∈ entries) (hkind : entry.kind = .file) (hloc : layout.loc entry = loc)
      (hfile : object.body = .file content) (hbody : later.body = .file bytes)
      (hwhole : trust.Whole copied entry bytes) : Becomes styled copied loc object later

/-- What was there before is there, and nothing else. -/
structure Kept (styled : List MaterializeEntryPlan) (copied : List CopiedChunk)
    (old : Holdings) : Prop where
  absent : ∀ {loc : Loc}, start.held loc = none → old loc = none
  present : ∀ {loc : Loc} {object : Object}, start.held loc = some object →
    ∃ later, old loc = some later ∧ Becomes layout trust styled copied loc object later

/-- The file of an entry is complete. -/
structure Written (copied : List CopiedChunk) (fs : FileSystem) (entry : MaterializeEntryPlan)
    (object : Object) : Prop where
  get : fs.get (layout.loc entry) = some object
  body : ∃ bytes, object.body = .file bytes ∧ trust.Whole copied entry bytes
  mode : object.mode = entry.mode &&& 0o7777
  mtime : object.mtime = entry.mtimeNsec

/-- The object made for an entry. -/
structure MadeFor (entry : MaterializeEntryPlan) (made : Made) : Prop where
  path : made.path = entry.targetPath
  dir : made.dir = layout.dir entry
  name : made.name = layout.name entry

/-- The list of created targets has every directory that is done, and those that were there
before with their identity. -/
structure Recorded (done : List MaterializeEntryPlan) (created : List CreatedTarget) : Prop where
  listed : ∀ {entry : MaterializeEntryPlan}, entry ∈ done → entry.kind = .directory →
    ∃ target ∈ created, target.kind = .directory ∧ target.path = entry.targetPath
  reused : ∀ {target : CreatedTarget}, target ∈ created → target.kind = .directory →
    target.removeOnCleanup = false → ∃ entry ∈ done, target.path = entry.targetPath ∧
      ∃ object, start.held (layout.loc entry) = some object ∧ object.identity = target.identity

/-- The books of a run: `old` is what was there before, as it is now, and `stack` what was made. -/
structure Ledger (styled done : List MaterializeEntryPlan) (copied : List CopiedChunk)
    (created : List CreatedTarget) (old : Holdings) (stack : List Made) (fs : FileSystem) :
    Prop where
  kept : Kept layout trust styled copied old
  stands : Stands old fs.held stack
  records : Records created stack
  recorded : Recorded layout done created
  /-- A new directory has its first mode until it gets the declared one. -/
  modes : ∀ {made : Made}, made ∈ stack → made.directory = true →
    (∃ entry ∈ styled, MadeFor layout entry made) ∨
      ∃ object, fs.held made.loc = some object ∧ object.mode = 0o700
  /-- Where an object was made in an old directory, that was allowed. -/
  allowed : ∀ {made : Made}, made ∈ stack → start.held.IsDirectory made.dir →
    Enters (start.held.view true) made.path made.dir made.name ∧ start.held.Writable made.dir
  directories : ∀ {entry : MaterializeEntryPlan}, entry ∈ done → entry.kind = .directory →
    old.IsDirectory (layout.loc entry) ∨
      ∃ made ∈ stack, made.directory = true ∧ MadeFor layout entry made
  files : ∀ {entry : MaterializeEntryPlan}, entry ∈ done → entry.kind = .file →
    ∃ object, Written layout trust copied fs entry object
  dates : ∀ {loc : Loc}, loc ≠ layout.targetDir → (∀ entry ∈ entries, layout.loc entry ≠ loc) →
    (∀ made ∈ stack, made.loc ≠ loc) → fs.get loc = start.get loc
  /-- Objects are made in the directories of the entries. -/
  inside : ∀ made ∈ stack, ∃ entry ∈ entries, made.dir = layout.dir entry

variable {layout trust}

theorem MadeFor.loc {entry : MaterializeEntryPlan} {made : Made} (h : MadeFor layout entry made) :
    made.loc = layout.loc entry := by
  rw [Made.loc, h.name, h.dir]
  rfl

namespace Recorded

variable {done : List MaterializeEntryPlan} {created : List CreatedTarget}
  {entry : MaterializeEntryPlan} {target : CreatedTarget}

/-- A target that is no directory, or one that is removed in the end. -/
theorem push (h : Recorded layout done created)
    (htarget : target.kind = .directory → target.removeOnCleanup = true) :
    Recorded layout done (created ++ [target]) := by
  refine ⟨fun hmem hkind => ?_, fun {other} hother hkind hkeep => ?_⟩
  · obtain ⟨other, hother, hrest⟩ := h.listed hmem hkind
    exact ⟨other, List.mem_append_left _ hother, hrest⟩
  · rcases List.mem_append.mp hother with hother | hother
    · exact h.reused hother hkind hkeep
    · rw [List.mem_singleton.mp hother] at hkind hkeep
      simp [htarget hkind] at hkeep

/-- A file at the end of the list says nothing about directories. -/
theorem pop (h : Recorded layout done (created ++ [target])) (htarget : target.kind = .file) :
    Recorded layout done created := by
  refine ⟨fun hmem hkind => ?_, fun hother => h.reused (List.mem_append_left _ hother)⟩
  obtain ⟨other, hother, hotherKind, hpath⟩ := h.listed hmem hkind
  rcases List.mem_append.mp hother with hother | hother
  · exact ⟨other, hother, hotherKind, hpath⟩
  · rw [List.mem_singleton.mp hother, htarget] at hotherKind
    simp at hotherKind

theorem add (h : Recorded layout done created)
    (hentry : entry.kind = .directory → ∃ target ∈ created, target.kind = .directory ∧
      target.path = entry.targetPath) : Recorded layout (done ++ [entry]) created := by
  refine ⟨fun hmem hkind => ?_, fun hother hkind hkeep => ?_⟩
  · rcases List.mem_append.mp hmem with hmem | hmem
    · exact h.listed hmem hkind
    · rw [List.mem_singleton.mp hmem] at hkind ⊢
      exact hentry hkind
  · obtain ⟨other, hmem, hrest⟩ := h.reused hother hkind hkeep
    exact ⟨other, List.mem_append_left _ hmem, hrest⟩

/-- A directory that was there before. -/
theorem reuse (h : Recorded layout done created) {object : Object}
    (hobject : start.held (layout.loc entry) = some object) :
    Recorded layout (done ++ [entry])
      (created ++ [⟨entry.targetPath, object.identity, .directory, false⟩]) := by
  refine ⟨fun hmem hkind => ?_, fun hother hkind hkeep => ?_⟩
  · rcases List.mem_append.mp hmem with hmem | hmem
    · obtain ⟨other, hother, hrest⟩ := h.listed hmem hkind
      exact ⟨other, List.mem_append_left _ hother, hrest⟩
    · rw [List.mem_singleton.mp hmem]
      exact ⟨_, List.mem_append_right _ List.mem_cons_self, rfl, rfl⟩
  · rcases List.mem_append.mp hother with hother | hother
    · obtain ⟨other, hmem, hrest⟩ := h.reused hother hkind hkeep
      exact ⟨other, List.mem_append_left _ hmem, hrest⟩
    · rw [List.mem_singleton.mp hother]
      exact ⟨entry, by simp, rfl, object, hobject, rfl⟩

end Recorded

/-! ## Objects that were there before -/

namespace Becomes

variable {styled : List MaterializeEntryPlan} {copied : List CopiedChunk} {loc : Loc}
  {object later : Object}

theorem view_false (h : Becomes layout trust styled copied loc object later) :
    later.view false = object.view false := by
  cases h with
  | same => rfl
  | mode => rfl
  | content _ _ _ hfile hbody => simp only [Object.view, hfile, hbody]

/-- Without a change of modes a walk sees the same. -/
theorem view_true (h : Becomes layout trust [] copied loc object later) :
    later.view true = object.view true := by
  cases h with
  | same => rfl
  | mode hmem => simp at hmem
  | content _ _ _ hfile hbody => simp only [Object.view, hfile, hbody]

theorem mono {styled' : List MaterializeEntryPlan} {copied' : List CopiedChunk}
    (h : Becomes layout trust styled copied loc object later) (hstyled : styled ⊆ styled')
    (hcopied : copied <+: copied') : Becomes layout trust styled' copied' loc object later := by
  cases h with
  | same => exact .same
  | mode hmem hloc hdir => exact .mode (hstyled hmem) hloc hdir
  | content hmem hkind hloc hfile hbody hwhole =>
      exact .content hmem hkind hloc hfile hbody (hwhole.mono hcopied)

end Becomes

namespace Kept

variable {styled : List MaterializeEntryPlan} {copied : List CopiedChunk} {old : Holdings}
  {loc : Loc} {entry : MaterializeEntryPlan} {object : Object}

theorem begin : Kept layout trust [] copied start.held :=
  ⟨id, fun h => ⟨_, h, .same⟩⟩

theorem mono {styled' : List MaterializeEntryPlan} {copied' : List CopiedChunk}
    (h : Kept layout trust styled copied old) (hstyled : styled ⊆ styled')
    (hcopied : copied <+: copied') : Kept layout trust styled' copied' old := by
  refine ⟨h.absent, fun hobject => ?_⟩
  obtain ⟨later, hlater, hbecomes⟩ := h.present hobject
  exact ⟨later, hlater, hbecomes.mono hstyled hcopied⟩

theorem origin (h : Kept layout trust styled copied old) {later : Object}
    (hold : old loc = some later) :
    ∃ object, start.held loc = some object ∧
      Becomes layout trust styled copied loc object later := by
  cases hstart : start.held loc with
  | none =>
      rw [h.absent hstart] at hold
      simp at hold
  | some object =>
      obtain ⟨found, hfound, hbecomes⟩ := h.present hstart
      obtain rfl := Option.some.inj (hold.symm.trans hfound)
      exact ⟨object, rfl, hbecomes⟩

/-- Permissions apart, walks see what they saw before. -/
theorem view_false (h : Kept layout trust styled copied old) :
    old.view false = start.held.view false := by
  funext loc
  unfold Holdings.view
  cases hstart : start.held loc with
  | none => rw [h.absent hstart]
  | some object =>
      obtain ⟨later, hlater, hbecomes⟩ := h.present hstart
      rw [hlater, Option.map_some, Option.map_some, hbecomes.view_false]

theorem view_true (h : Kept layout trust [] copied old) :
    old.view true = start.held.view true := by
  funext loc
  unfold Holdings.view
  cases hstart : start.held loc with
  | none => rw [h.absent hstart]
  | some object =>
      obtain ⟨later, hlater, hbecomes⟩ := h.present hstart
      rw [hlater, Option.map_some, Option.map_some, hbecomes.view_true]

theorem isDirectory_iff (h : Kept layout trust styled copied old) :
    old.IsDirectory loc ↔ start.held.IsDirectory loc := by
  rw [← Holdings.view_false_eq_directory, h.view_false, Holdings.view_false_eq_directory]

theorem closed (h : Kept layout trust styled copied old) {name : Name}
    (hsome : old (name :: loc) ≠ none) : old.IsDirectory loc := by
  rw [h.isDirectory_iff]
  exact FileSystem.isDirectory_of_held_cons fun hnone => hsome (h.absent hnone)

/-- The path of an entry that was there before leads to its place. -/
theorem enters (h : Kept layout trust styled copied old) (hmem : entry ∈ entries)
    (hold : old (layout.loc entry) ≠ none) :
    Enters (old.view false) entry.targetPath (layout.dir entry) (layout.name entry) := by
  refine layout.enters ?_ h.closed hmem (h.closed hold)
  rw [h.view_false]
  exact fun _ _ hview => Or.inl hview

theorem writable (h : Kept layout trust [] copied old) (hdir : start.held.IsDirectory loc) :
    old.Writable loc ↔ start.held.Writable loc := by
  obtain ⟨object, hobject, hbody⟩ := hdir
  obtain ⟨later, hlater, hbecomes⟩ := h.present hobject
  cases hbecomes with
  | same => simp only [Holdings.Writable, hobject, hlater]
  | mode hmem => simp at hmem
  | content _ _ _ hfile => simp [hbody] at hfile

/-- A directory gets its declared mode. -/
theorem style (h : Kept layout trust styled copied old)
    (hold : old (layout.loc entry) = some object) (hdir : object.body = .directory) :
    Kept layout trust (entry :: styled) copied
      (Function.update old (layout.loc entry)
        (some (object.setMode (entry.mode &&& 0o7777)))) := by
  refine ⟨fun {loc} hnone => ?_, fun {loc original} horiginal => ?_⟩
  · rw [Function.update_of_ne, h.absent hnone]
    rintro rfl
    rw [h.absent hnone] at hold
    simp at hold
  · by_cases hloc : loc = layout.loc entry
    · subst hloc
      refine ⟨_, Function.update_self .., ?_⟩
      obtain ⟨found, hfound, hbecomes⟩ := h.present horiginal
      obtain rfl := Option.some.inj (hold.symm.trans hfound)
      cases hbecomes with
      | same => exact .mode List.mem_cons_self rfl hdir
      | mode _ _ hdir => exact .mode List.mem_cons_self rfl hdir
      | content _ _ _ _ hbody => simp [hdir] at hbody
    · rw [Function.update_of_ne hloc]
      obtain ⟨later, hlater, hbecomes⟩ := h.present horiginal
      exact ⟨later, hlater, hbecomes.mono (List.subset_cons_self _ _) List.prefix_rfl⟩

/-- A file is replaced by the content of an entry. -/
theorem replace (h : Kept layout trust styled copied old) (hmem : entry ∈ entries)
    (hkind : entry.kind = .file) {later : Object} {content bytes : List UInt8}
    (hold : old (layout.loc entry) = some object) (hfile : object.body = .file content)
    (hbody : later.body = .file bytes) (hwhole : trust.Whole copied entry bytes) :
    Kept layout trust styled copied
      (Function.update old (layout.loc entry) (some later)) := by
  refine ⟨fun {loc} hnone => ?_, fun {loc original} horiginal => ?_⟩
  · rw [Function.update_of_ne, h.absent hnone]
    rintro rfl
    rw [h.absent hnone] at hold
    simp at hold
  · by_cases hloc : loc = layout.loc entry
    · subst hloc
      refine ⟨_, Function.update_self .., ?_⟩
      obtain ⟨found, hfound, hbecomes⟩ := h.present horiginal
      obtain rfl := Option.some.inj (hold.symm.trans hfound)
      cases hbecomes with
      | same => exact .content hmem hkind rfl hfile hbody hwhole
      | mode _ _ hdir =>
          rw [Object.setMode, hdir] at hfile
          simp at hfile
      | content _ _ _ hfile _ _ => exact .content hmem hkind rfl hfile hbody hwhole
    · rw [Function.update_of_ne hloc]
      exact h.present horiginal

end Kept

/-! ## Steps -/

theorem Written.mono {copied later : List CopiedChunk} {fs : FileSystem}
    {entry : MaterializeEntryPlan} {object : Object}
    (h : Written layout trust copied fs entry object) (hlater : copied <+: later) :
    Written layout trust later fs entry object := by
  obtain ⟨bytes, hbody, hwhole⟩ := h.body
  exact ⟨h.get, ⟨bytes, hbody, hwhole.mono hlater⟩, h.mode, h.mtime⟩

theorem Written.of_get {copied : List CopiedChunk} {fs next : FileSystem}
    {entry : MaterializeEntryPlan} {object : Object}
    (h : Written layout trust copied fs entry object)
    (hget : next.get (layout.loc entry) = fs.get (layout.loc entry)) :
    Written layout trust copied next entry object :=
  ⟨hget.trans h.get, h.body, h.mode, h.mtime⟩

/-- A file is not the directory of something. -/
theorem Written.ne_dir {copied : List CopiedChunk} {fs : FileSystem}
    {entry : MaterializeEntryPlan} {object : Object} {dir : Loc}
    (h : Written layout trust copied fs entry object) (hdir : fs.held.IsDirectory dir) :
    layout.loc entry ≠ dir := by
  rintro rfl
  obtain ⟨found, hfound, hbody⟩ := hdir
  obtain ⟨bytes, hfile, -⟩ := h.body
  rw [FileSystem.held_of_get h.get] at hfound
  obtain rfl := Option.some.inj hfound
  rw [Object.setMtime, hfile] at hbody
  simp at hbody

/-- The directory of an entry is the target directory or the place of another entry. -/
theorem Layout.dir_ne {entry : MaterializeEntryPlan} (hmem : entry ∈ entries) {loc : Loc}
    (htop : loc ≠ layout.targetDir) (hentries : ∀ other ∈ entries, layout.loc other ≠ loc) :
    loc ≠ layout.dir entry := by
  rintro rfl
  rcases layout.place hmem with ⟨hdir, -⟩ | ⟨parent, hparent, -, hdir, -⟩
  · exact htop hdir
  · exact hentries parent hparent hdir.symm

namespace Ledger

variable {styled done : List MaterializeEntryPlan} {copied : List CopiedChunk}
  {created : List CreatedTarget} {old : Holdings} {stack : List Made} {fs next : FileSystem}
  {entry : MaterializeEntryPlan} {made : Made} {object : Object}

theorem begin : Ledger layout trust [] [] copied [] start.held [] start :=
  ⟨.begin, .start FileSystem.isDirectory_of_held_cons, rfl, ⟨by simp, by simp⟩, by simp, by simp,
    by simp, by simp, fun _ _ _ => rfl, by simp⟩

theorem mono (h : Ledger layout trust styled done copied created old stack fs)
    {later : List CopiedChunk} (hlater : copied <+: later) :
    Ledger layout trust styled done later created old stack fs := by
  refine ⟨h.kept.mono (List.Subset.refl _) hlater, h.stands, h.records, h.recorded, h.modes,
    h.allowed, h.directories, fun hmem hkind => ?_, h.dates, h.inside⟩
  obtain ⟨object, hwritten⟩ := h.files hmem hkind
  exact ⟨object, hwritten.mono hlater⟩

/-- More directories may have got their modes. -/
theorem styled_mono (h : Ledger layout trust styled done copied created old stack fs)
    {styled' : List MaterializeEntryPlan} (hstyled : styled ⊆ styled') :
    Ledger layout trust styled' done copied created old stack fs := by
  refine { h with
    kept := h.kept.mono hstyled List.prefix_rfl
    modes := fun hmade hdirectory => (h.modes hmade hdirectory).imp ?_ id }
  rintro ⟨entry, hentry, hfor⟩
  exact ⟨entry, hstyled hentry, hfor⟩

theorem extends_start (h : Ledger layout trust styled done copied created old stack fs) :
    Unix.Extends (start.held.view false) (fs.held.view false) := by
  rw [← h.kept.view_false]
  exact h.stands.extends_old false

theorem isDirectory_of_old (h : Ledger layout trust styled done copied created old stack fs)
    {loc : Loc} (hdir : old.IsDirectory loc) : fs.held.IsDirectory loc := by
  obtain ⟨object, hobject, hbody⟩ := hdir
  exact ⟨object, h.stands.of_old hobject, hbody⟩

/-- The directory of an entry is there once the entries above it are done. -/
theorem isDirectory_dir (h : Ledger layout trust styled done copied created old stack fs)
    (hmem : entry ∈ entries)
    (hparents : ∀ parent ∈ entries, parent.kind = .directory →
      layout.dir entry = layout.loc parent → parent ∈ done) :
    fs.held.IsDirectory (layout.dir entry) := by
  rcases layout.place hmem with ⟨hdir, -⟩ | ⟨parent, hparent, hkind, hdir, -⟩
  · rw [hdir]
    exact h.isDirectory_of_old (h.kept.isDirectory_iff.mpr layout.isDirectory)
  · rw [hdir]
    rcases h.directories (hparents parent hparent hkind hdir) hkind with
      hold | ⟨made, hmade, hdirectory, hfor⟩
    · exact h.isDirectory_of_old hold
    · rw [← Holdings.view_false_eq_directory]
      have hview := h.stands.view_directory hmade hdirectory
      rwa [hfor.loc] at hview

/-- Where the path of an entry leads now. -/
theorem enters (h : Ledger layout trust styled done copied created old stack fs)
    (hmem : entry ∈ entries) (hdir : fs.held.IsDirectory (layout.dir entry)) :
    Enters (fs.view false) entry.targetPath (layout.dir entry) (layout.name entry) := by
  rw [← FileSystem.view_held]
  exact layout.enters h.extends_start FileSystem.isDirectory_of_held_cons hmem hdir

/-- An object for an entry lies in a directory of the stack or in an old one. -/
theorem place (h : Ledger layout trust styled done copied created old stack fs)
    (hmem : entry ∈ entries) (hfor : MadeFor layout entry made)
    (hparents : ∀ parent ∈ entries, parent.kind = .directory →
      layout.dir entry = layout.loc parent → parent ∈ done) :
    (∃ parent ∈ stack, made.Under parent) ∨
      Enters (old.view false) made.path made.dir made.name := by
  rw [h.kept.view_false, hfor.path, hfor.dir, hfor.name]
  rcases layout.place hmem with ⟨hdir, henters⟩ | ⟨parent, hparent, hkind, hdir, hpath, hplain⟩
  · rw [hdir]
    exact Or.inr henters
  · rcases h.directories (hparents parent hparent hkind hdir) hkind with
      hold | ⟨above, habove, hdirectory, haboveFor⟩
    · refine Or.inr (layout.enters (fun _ _ hv => Or.inl hv) FileSystem.isDirectory_of_held_cons
        hmem ?_)
      rw [hdir]
      exact h.kept.isDirectory_iff.mp hold
    · refine Or.inl ⟨above, habove, hdirectory, ?_, ?_, ?_⟩
      · rw [hfor.dir, hdir]
        exact haboveFor.loc.symm
      · rw [hfor.path, haboveFor.path, hfor.name]
        exact hpath
      · rw [hfor.name]
        exact hplain

/-- What a change at another place does to the files that are done. -/
theorem files_of_changes (h : Ledger layout trust styled done copied created old stack fs)
    {loc : Loc} {value : Option Object} (hchanges : FileSystem.Changes fs next loc value)
    (hdir : fs.held.IsDirectory loc.tail)
    (hne : ∀ entry ∈ done, entry.kind = .file → layout.loc entry ≠ loc) :
    ∀ {entry : MaterializeEntryPlan}, entry ∈ done → entry.kind = .file →
      ∃ object, Written layout trust copied next entry object := by
  intro entry hmem hkind
  obtain ⟨object, hwritten⟩ := h.files hmem hkind
  exact ⟨object, hwritten.of_get
    (hchanges.get (hne entry hmem hkind) (hwritten.ne_dir hdir))⟩

/-- A free place is not the place of a file that is done. -/
theorem ne_of_free (h : Ledger layout trust styled done copied created old stack fs) {loc : Loc}
    (hfree : fs.get loc = none) :
    ∀ entry ∈ done, entry.kind = .file → layout.loc entry ≠ loc := by
  intro entry hmem hkind heq
  obtain ⟨found, hwritten⟩ := h.files hmem hkind
  have hget := hwritten.get
  rw [heq, hfree] at hget
  simp at hget

/-- A new object at a free place in the directory of an entry. -/
theorem make (h : Ledger layout trust [] done copied created old stack fs) (hmem : entry ∈ entries)
    (hdir : made.dir = layout.dir entry) (hfree : fs.get made.loc = none)
    (hplace : (∃ parent ∈ stack, made.Under parent) ∨
      Enters (old.view false) made.path made.dir made.name)
    (henters : Enters (fs.view true) made.path made.dir made.name)
    (hmay : fs.mayChange made.dir = true) (his : made.Is object)
    (hmode : made.directory = true → object.mode = 0o700)
    (hchanges : FileSystem.Changes fs next made.loc (some object)) :
    Ledger layout trust [] done copied (created ++ [createdTarget made]) old (made :: stack)
      next := by
  have hisDir : fs.held.IsDirectory made.dir := by
    have hview := henters.dir
    rw [← FileSystem.view_held] at hview
    obtain ⟨found, hfound, hbody, -⟩ := Holdings.view_true_eq_directory.mp hview
    exact ⟨found, hfound, hbody⟩
  have hallowed : start.held.IsDirectory made.dir →
      Enters (start.held.view true) made.path made.dir made.name ∧
        start.held.Writable made.dir := by
    intro hstart
    have hold : old.IsDirectory made.dir := h.kept.isDirectory_iff.mpr hstart
    have hstartEnters : Enters (start.held.view false) made.path made.dir made.name := by
      rcases hplace with ⟨parent, hparent, hunder⟩ | hplace
      · rw [hunder.dir] at hold
        obtain ⟨found, hfound, -⟩ := hold
        rw [h.stands.stacked.old_eq_none hparent] at hfound
        simp at hfound
      · rwa [h.kept.view_false] at hplace
    rw [← FileSystem.view_held] at henters
    refine ⟨.of_later h.extends_start (fun loc => ?_) hstartEnters henters, ?_⟩
    · -- an old object is seen now as it was seen before
      cases hloc : start.held loc with
      | none => exact Or.inl rfl
      | some original =>
          obtain ⟨later, hlater, hbecomes⟩ := h.kept.present hloc
          refine Or.inr ?_
          rw [Holdings.view, Holdings.view, hloc, h.stands.of_old hlater, Option.map_some,
            Option.map_some, hbecomes.view_true]
    · rw [← h.kept.writable hstart]
      obtain ⟨found, hfound, hwrite⟩ := FileSystem.writable_held.mpr hmay
      obtain ⟨later, hlater, -⟩ := hold
      rw [h.stands.of_old hlater] at hfound
      exact ⟨later, hlater, Option.some.inj hfound ▸ hwrite⟩
  refine ⟨h.kept, ?_, h.records.push made, h.recorded.push fun _ => rfl, ?_, ?_, ?_,
    h.files_of_changes hchanges hisDir (h.ne_of_free hfree), ?_,
    List.forall_mem_cons.mpr ⟨⟨entry, hmem, hdir⟩, h.inside⟩⟩
  · rw [hchanges.held_eq]
    exact h.stands.push (FileSystem.held_eq_none.mpr hfree) hplace his
  · intro other hother hdirectory
    rcases List.mem_cons.mp hother with rfl | hother
    · exact Or.inr ⟨_, FileSystem.held_of_get hchanges.here, hmode hdirectory⟩
    · refine (h.modes hother hdirectory).imp id ?_
      rintro ⟨found, hfound, hfirst⟩
      refine ⟨found, ?_, hfirst⟩
      rw [hchanges.held, hfound]
      intro heq
      rw [heq, FileSystem.held_eq_none.mpr hfree] at hfound
      simp at hfound
  · intro other hother
    rcases List.mem_cons.mp hother with rfl | hother
    · exact hallowed
    · exact h.allowed hother
  · intro entry hmem hkind
    refine (h.directories hmem hkind).imp id ?_
    rintro ⟨other, hother, hrest⟩
    exact ⟨other, List.mem_cons_of_mem _ hother, hrest⟩
  · intro loc htop hentries hstack
    have hparent : loc ≠ made.loc.tail := by
      show loc ≠ made.dir
      rw [hdir]
      exact layout.dir_ne hmem htop hentries
    rw [hchanges.get (hstack made List.mem_cons_self).symm hparent]
    exact h.dates htop hentries fun other hother => hstack other (List.mem_cons_of_mem _ hother)

/-- A change of an object of the stack. -/
theorem amend (h : Ledger layout trust styled done copied created old stack fs)
    (hmade : made ∈ stack) (hmem : entry ∈ entries) (hdir : made.dir = layout.dir entry)
    (hfresh : ∀ entry ∈ done, entry.kind = .file → layout.loc entry ≠ made.loc)
    (his : made.Is object) (hchanges : FileSystem.Changes fs next made.loc (some object))
    (hstyled : made.directory = true → ∃ entry ∈ styled, MadeFor layout entry made) :
    Ledger layout trust styled done copied created old stack next := by
  have hisDir : fs.held.IsDirectory made.dir := by
    obtain ⟨found, hfound, -⟩ := h.stands.object hmade
    exact FileSystem.isDirectory_of_held_cons (by rw [← Made.loc, hfound]; simp)
  refine ⟨h.kept, ?_, h.records, h.recorded, ?_, h.allowed, h.directories,
    h.files_of_changes hchanges hisDir hfresh, ?_, h.inside⟩
  · rw [hchanges.held_eq]
    exact h.stands.update hmade his
  · intro other hother hdirectory
    by_cases hloc : other.loc = made.loc
    · obtain rfl := h.stands.stacked.unique hmade hother hloc
      exact Or.inl (hstyled hdirectory)
    · rw [hchanges.held hloc]
      exact h.modes hother hdirectory
  · intro loc htop hentries hstack
    have hparent : loc ≠ made.loc.tail := by
      show loc ≠ made.dir
      rw [hdir]
      exact layout.dir_ne hmem htop hentries
    rw [hchanges.get (hstack made hmade).symm hparent]
    exact h.dates htop hentries hstack

/-- The declared mode of a directory, whether it was made or was there before. -/
theorem style (h : Ledger layout trust styled done copied created old stack fs)
    (hmem : entry ∈ entries) (hdone : entry ∈ done) (hkind : entry.kind = .directory) :
    ∃ old', Ledger layout trust (entry :: styled) done copied created old' stack
      (fs.chmodAt (layout.loc entry) (entry.mode &&& 0o7777)) := by
  have hchanges := fs.changes_chmodAt (layout.loc entry) (entry.mode &&& 0o7777)
  -- the place of a directory is that of no file
  have hfresh : ∀ other ∈ done, other.kind = .file → layout.loc other ≠ layout.loc entry := by
    intro other hother hotherKind heq
    obtain ⟨found, hwritten⟩ := h.files hother hotherKind
    refine hwritten.ne_dir ?_ heq
    rcases h.directories hdone hkind with hold | ⟨made, hmade, hdirectory, hfor⟩
    · exact h.isDirectory_of_old hold
    · have hview := h.stands.view_directory hmade hdirectory
      rwa [hfor.loc, Holdings.view_false_eq_directory] at hview
  rcases h.directories hdone hkind with hold | ⟨made, hmade, hdirectory, hfor⟩
  -- a directory that was there before: the old holdings change with it
  · obtain ⟨object, hobject, hbody⟩ := hold
    have hnow := h.stands.of_old hobject
    obtain ⟨found, hfound, rfl⟩ := FileSystem.get_of_held hnow
    rw [hfound] at hchanges
    have hisDir : fs.held.IsDirectory (layout.dir entry) :=
      FileSystem.isDirectory_of_held_cons (by rw [← Layout.loc, hnow]; simp)
    have hkept := h.kept.style hobject hbody
    refine ⟨_, hkept, ?_, h.records, h.recorded, fun {other} hother hdirectory => ?_, h.allowed,
      fun hother hotherKind => ?_, h.files_of_changes hchanges hisDir hfresh,
      fun htop hentries hstack => ?_, h.inside⟩
    · rw [hchanges.held_eq]
      exact h.stands.replace hobject rfl
    · rw [hchanges.held]
      · refine (h.modes hother hdirectory).imp ?_ id
        rintro ⟨another, hanother, hfor⟩
        exact ⟨another, List.mem_cons_of_mem _ hanother, hfor⟩
      · intro heq
        rw [← heq, h.stands.stacked.old_eq_none hother] at hobject
        simp at hobject
    · rw [hkept.isDirectory_iff, ← h.kept.isDirectory_iff]
      exact h.directories hother hotherKind
    · rw [hchanges.get (hentries entry hmem).symm (layout.dir_ne hmem htop hentries)]
      exact h.dates htop hentries hstack
  -- a directory that was made: the stack has it, whatever its mode
  · obtain ⟨object, hobject, his⟩ := h.stands.object hmade
    obtain ⟨found, hfound, rfl⟩ := FileSystem.get_of_held hobject
    rw [← hfor.loc] at hchanges hfresh ⊢
    rw [hfound] at hchanges
    have hstill : made.Is (found.setMode (entry.mode &&& 0o7777)) := his
    exact ⟨old, (h.styled_mono (List.subset_cons_self entry styled)).amend hmade hmem hfor.dir
      hfresh hstill hchanges fun _ => ⟨entry, List.mem_cons_self, hfor⟩⟩

/-- The date of a directory that is done. -/
theorem redate (h : Ledger layout trust styled done copied created old stack fs)
    (hmem : entry ∈ entries) (hdir : fs.held.IsDirectory (layout.loc entry)) (mtime : ℤ) :
    Ledger layout trust styled done copied created old stack
      (fs.touch (layout.loc entry) mtime) := by
  refine ⟨h.kept, ?_, h.records, h.recorded, ?_, h.allowed, h.directories,
    fun hother hkind => ?_, fun htop hentries hstack => ?_, h.inside⟩
  · rw [FileSystem.held_touch]
    exact h.stands
  · rw [FileSystem.held_touch]
    exact h.modes
  · obtain ⟨found, hwritten⟩ := h.files hother hkind
    exact ⟨found, hwritten.of_get (FileSystem.get_touch_of_ne (hwritten.ne_dir hdir))⟩
  · rw [FileSystem.get_touch_of_ne (hentries entry hmem).symm]
    exact h.dates htop hentries hstack

/-- The rename that puts a temporary file in the place of an old file. -/
theorem settle (h : Ledger layout trust [] done copied (created ++ [createdTarget made]) old
      (made :: stack) fs) (hmem : entry ∈ entries) (hkind : entry.kind = .file)
    (hdir : made.dir = layout.dir entry) (hdirectory : made.directory = false)
    (hrecords : Records created stack) {target : CreatedTarget}
    (htarget : target.removeOnCleanup = false) (htargetKind : target.kind = .file)
    (hfresh : ∀ other ∈ done, other.kind = .file → layout.loc other ≠ layout.loc entry)
    (hfreshMade : ∀ other ∈ done, other.kind = .file → layout.loc other ≠ made.loc)
    {original : Object} {content bytes : List UInt8}
    (hold : old (layout.loc entry) = some original) (hfile : original.body = .file content)
    (hobject : fs.get made.loc = some object) (hbody : object.body = .file bytes)
    (hwhole : trust.Whole copied entry bytes)
    (hhere : next.get (layout.loc entry) = fs.get made.loc) (hgone : next.get made.loc = none)
    (hheld : ∀ {other : Loc}, other ≠ made.loc → other ≠ layout.loc entry →
      next.held other = fs.held other)
    (hget : ∀ {other : Loc}, other ≠ made.loc → other ≠ layout.loc entry → other ≠ made.dir →
      next.get other = fs.get other) :
    ∃ old', Ledger layout trust [] done copied (created ++ [target]) old' stack next := by
  have hfree : old made.loc = none := h.stands.stacked.1
  have hne : layout.loc entry ≠ made.loc := by
    intro heq
    rw [heq, hfree] at hold
    simp at hold
  -- the old file becomes the whole content of the entry
  have hkept := h.kept.replace hmem hkind hold hfile
    (show (object.setMtime 0).body = .file bytes from hbody) hwhole
  have hisDir : fs.held.IsDirectory made.dir := by
    have hsome : fs.held made.loc ≠ none := by
      rw [FileSystem.held_of_get hobject]
      simp
    exact FileSystem.isDirectory_of_held_cons hsome
  -- a rename takes the object from one place and puts it in the other
  have hnext : next.held = Function.update (Function.update fs.held made.loc none)
      (layout.loc entry) (some (object.setMtime 0)) := by
    funext other
    by_cases hother : other = layout.loc entry
    · rw [hother, Function.update_self]
      exact FileSystem.held_of_get (hhere.trans hobject)
    · rw [Function.update_of_ne hother]
      by_cases hotherMade : other = made.loc
      · rw [hotherMade, Function.update_self]
        exact FileSystem.held_eq_none.mpr hgone
      · rw [Function.update_of_ne hotherMade]
        exact hheld hotherMade hother
  have hrecorded : Recorded layout done (created ++ [target]) :=
    (h.recorded.pop (by simp [createdTarget, hdirectory])).push (by simp [htargetKind])
  refine ⟨_, hkept, ?_, hrecords.reuse htarget, hrecorded, fun {other} hother hotherDir => ?_,
    fun hother => h.allowed (List.mem_cons_of_mem _ hother), fun hother hotherKind => ?_,
    fun hother hotherKind => ?_, fun {loc} htop hentries hstack => ?_,
    fun other hother => h.inside other (List.mem_cons_of_mem _ hother)⟩
  · rw [hnext]
    refine h.stands.pop.replace hold ?_
    simp only [Object.view, Object.setMtime, hbody, hfile]
  · -- neither of the two places is that of a new directory
    rw [hheld]
    · exact h.modes (List.mem_cons_of_mem _ hother) hotherDir
    · exact h.stands.stacked.2.1 other hother
    · intro heq
      rw [← heq, h.stands.stacked.2.2.2.old_eq_none hother] at hold
      simp at hold
  · -- the temporary file, which leaves the stack, was not the directory of an entry
    rw [hkept.isDirectory_iff, ← h.kept.isDirectory_iff]
    refine (h.directories hother hotherKind).imp id ?_
    rintro ⟨other, hmade, hisDirectory, hfor⟩
    refine ⟨other, (List.mem_cons.mp hmade).resolve_left ?_, hisDirectory, hfor⟩
    rintro rfl
    rw [hdirectory] at hisDirectory
    simp at hisDirectory
  · obtain ⟨found, hwritten⟩ := h.files hother hotherKind
    exact ⟨found, hwritten.of_get (hget (hfreshMade _ hother hotherKind)
      (hfresh _ hother hotherKind) (hwritten.ne_dir hisDir))⟩
  · -- elsewhere only the date of the directory has changed, and there was nothing at the
    -- temporary name
    by_cases hloc : loc = made.loc
    · rw [hloc, hgone]
      cases hstart : start.get made.loc with
      | none => rfl
      | some found =>
          obtain ⟨later, hlater, -⟩ := h.kept.present (FileSystem.held_of_get hstart)
          rw [hfree] at hlater
          simp at hlater
    · have hparent : loc ≠ made.dir := by
        rw [hdir]
        exact layout.dir_ne hmem htop hentries
      rw [hget hloc (hentries entry hmem).symm hparent]
      refine h.dates htop hentries fun other hother => ?_
      rcases List.mem_cons.mp hother with rfl | hother
      · exact fun heq => hloc heq.symm
      · exact hstack other hother

/-! ## Entries that are done -/

/-- A directory that was made is done. -/
theorem add_made (h : Ledger layout trust styled done copied created old stack fs)
    (hkind : entry.kind = .directory) (hmade : made ∈ stack) (hdirectory : made.directory = true)
    (hfor : MadeFor layout entry made) :
    Ledger layout trust styled (done ++ [entry]) copied created old stack fs := by
  have hcreated : createdTarget made ∈ created := by
    have hmem : createdTarget made ∈ created.filter CreatedTarget.removeOnCleanup := by
      rw [h.records]
      exact List.mem_reverse.mpr (List.mem_map_of_mem hmade)
    exact (List.mem_filter.mp hmem).1
  have hrecorded : Recorded layout (done ++ [entry]) created :=
    h.recorded.add fun _ => ⟨_, hcreated, by simp [createdTarget, hdirectory], hfor.path⟩
  refine { h with recorded := hrecorded, directories := ?_, files := ?_ }
  · intro other hmem hotherKind
    rcases List.mem_append.mp hmem with hmem | hmem
    · exact h.directories hmem hotherKind
    · rw [List.mem_singleton.mp hmem]
      exact Or.inr ⟨made, hmade, hdirectory, hfor⟩
  · intro other hmem hotherKind
    rcases List.mem_append.mp hmem with hmem | hmem
    · exact h.files hmem hotherKind
    · rw [List.mem_singleton.mp hmem, hkind] at hotherKind
      simp at hotherKind

/-- A directory that was there before is done. -/
theorem reuse (h : Ledger layout trust [] done copied created old stack fs)
    (hkind : entry.kind = .directory) (hold : old (layout.loc entry) = some object)
    (hdir : object.body = .directory) :
    Ledger layout trust [] (done ++ [entry]) copied
      (created ++ [⟨entry.targetPath, object.identity, .directory, false⟩]) old stack fs := by
  have hstart : start.held (layout.loc entry) = some object := by
    obtain ⟨original, horiginal, hbecomes⟩ := h.kept.origin hold
    cases hbecomes with
    | same => exact horiginal
    | mode hmem => simp at hmem
    | content _ _ _ _ hbody => simp [hdir] at hbody
  refine { h with
    records := h.records.reuse rfl
    recorded := h.recorded.reuse hstart
    directories := ?_
    files := ?_ }
  · intro other hmem hotherKind
    rcases List.mem_append.mp hmem with hmem | hmem
    · exact h.directories hmem hotherKind
    · rw [List.mem_singleton.mp hmem]
      exact Or.inl ⟨object, hold, hdir⟩
  · intro other hmem hotherKind
    rcases List.mem_append.mp hmem with hmem | hmem
    · exact h.files hmem hotherKind
    · rw [List.mem_singleton.mp hmem, hkind] at hotherKind
      simp at hotherKind

theorem add_file (h : Ledger layout trust styled done copied created old stack fs)
    (hkind : entry.kind = .file) (hwritten : Written layout trust copied fs entry object) :
    Ledger layout trust styled (done ++ [entry]) copied created old stack fs := by
  refine { h with recorded := h.recorded.add (by simp [hkind]), directories := ?_, files := ?_ }
  · intro other hmem hotherKind
    rcases List.mem_append.mp hmem with hmem | hmem
    · exact h.directories hmem hotherKind
    · rw [List.mem_singleton.mp hmem, hkind] at hotherKind
      simp at hotherKind
  · intro other hmem hotherKind
    rcases List.mem_append.mp hmem with hmem | hmem
    · exact h.files hmem hotherKind
    · rw [List.mem_singleton.mp hmem]
      exact ⟨object, hwritten⟩

end Ledger

/-! ## What a cleanup leaves -/

/-- What was there before, with the declared modes of some directories. -/
def Layout.withModes (layout : Layout start.held entries) (styled : List MaterializeEntryPlan) :
    FileSystem :=
  start.chmodAll layout.loc (fun entry => entry.mode &&& 0o7777) styled

/-- The modes of some directories do not stand in the way of what the plan makes. -/
def Layout.LetsIn (layout : Layout start.held entries) (styled : List MaterializeEntryPlan) :
    Prop :=
  Unix.LetsIn start MaterializeEntryPlan.targetPath layout.loc entries (layout.withModes styled)

/-- So it is after each of the modes that are still to come, as far as the directories can be
opened. -/
def Layout.StaysAccessible (layout : Layout start.held entries)
    (styled rest : List MaterializeEntryPlan) : Prop :=
  Unix.StaysAccessible start MaterializeEntryPlan.targetPath layout.loc
    (fun entry => entry.mode &&& 0o7777) entries (layout.withModes styled) rest

/-- No mode of the plan shuts out what the plan makes. -/
def Layout.KeepsAccess (layout : Layout start.held entries) : Prop :=
  layout.StaysAccessible [] (entries.filter fun entry => entry.kind = .directory).reverse

theorem Layout.letsIn_nil (layout : Layout start.held entries) : layout.LetsIn [] :=
  .refl

/-- Each of these directories has its declared mode. -/
def Layout.Styled (layout : Layout start.held entries) (styled : List MaterializeEntryPlan)
    (fs : FileSystem) : Prop :=
  ∀ entry ∈ styled, ∃ object, fs.get (layout.loc entry) = some object ∧
    object.mode = entry.mode &&& 0o7777

namespace Ledger

variable {styled done : List MaterializeEntryPlan} {copied : List CopiedChunk}
  {created : List CreatedTarget} {old : Holdings} {stack : List Made} {fs : FileSystem}

/-- Before any mode has changed, what was allowed is still allowed. -/
theorem accessible (h : Ledger layout trust [] done copied created old stack fs) :
    Accessible old stack := by
  intro made hmem hdir
  rw [h.kept.isDirectory_iff] at hdir
  rw [h.kept.view_true, h.kept.writable hdir]
  exact h.allowed hmem hdir

section Styled

variable (h : Ledger layout trust styled done copied created old stack fs)
  (hsub : styled ⊆ entries) (hstyled : layout.Styled styled fs)

include h hsub hstyled

/-- An old directory has its first mode, or its declared one if that was applied. -/
theorem withModes_of_old {loc : Loc} {later : Object} (hlater : old loc = some later)
    (hbody : later.body = .directory) : (layout.withModes styled).held loc = some later := by
  obtain ⟨object, hobject, hbecomes⟩ := h.kept.origin hlater
  obtain ⟨found, hfound, rfl⟩ := FileSystem.get_of_held hobject
  by_cases hin : ∃ entry ∈ styled, layout.loc entry = loc
  · obtain ⟨entry, hentry, rfl⟩ := hin
    have hunique : ∀ other ∈ styled, layout.loc other = layout.loc entry → other = entry :=
      fun other hother heq => layout.eq_of_loc_eq (hsub hother) (hsub hentry) heq
    rw [FileSystem.held, Layout.withModes, FileSystem.get_chmodAll_of_mem hentry hunique, hfound]
    refine congrArg some ?_
    cases hbecomes with
    | same =>
        obtain ⟨now, hnow, hmode⟩ := hstyled entry hentry
        have hsame := (FileSystem.held_of_get hnow).symm.trans (h.stands.of_old hlater)
        have hkeeps : found.mode = entry.mode &&& 0o7777 := by
          rw [← hmode]
          exact (congrArg Object.mode (Option.some.inj hsame)).symm
        simp only [Object.setMode, Object.setMtime, ← hkeeps]
    | mode hmem hloc => rw [hunique _ hmem hloc]; rfl
    | content _ _ _ _ hfile => simp [hbody] at hfile
  · push Not at hin
    rw [FileSystem.held, Layout.withModes, FileSystem.get_chmodAll_of_ne hin, hfound]
    cases hbecomes with
    | same => rfl
    | mode hmem hloc => exact absurd hloc (hin _ hmem)
    | content _ _ _ _ hfile => simp [hbody] at hfile

theorem view_withModes : (layout.withModes styled).view true = old.view true := by
  funext loc
  rw [← FileSystem.view_held]
  cases hold : old loc with
  | none =>
      have hnone : start.get loc = none := by
        cases hstart : start.get loc with
        | none => rfl
        | some object =>
            obtain ⟨later, hlater, -⟩ := h.kept.present (FileSystem.held_of_get hstart)
            rw [hold] at hlater
            simp at hlater
      have hget : (layout.withModes styled).get loc = none := by
        rcases FileSystem.get_chmodAll_cases loc with heq | ⟨given, heq⟩
        · exact heq.trans hnone
        · exact heq.trans (by rw [hnone]; rfl)
      simp only [Holdings.view, FileSystem.held, hget, hold, Option.map_none]
  | some later =>
      by_cases hbody : later.body = .directory
      · simp only [Holdings.view, h.withModes_of_old hsub hstyled hold hbody, hold]
      · obtain ⟨object, hobject, hbecomes⟩ := h.kept.origin hold
        obtain ⟨found, hfound, rfl⟩ := FileSystem.get_of_held hobject
        -- what is no directory looks the same with every mode
        have hviews : found.body ≠ .directory ∧ later.view true = found.view true := by
          cases hbecomes with
          | same => exact ⟨hbody, rfl⟩
          | mode _ _ hdir => exact absurd hdir hbody
          | content _ _ _ hfile hlater =>
              have hfile : found.body = _ := hfile
              simp only [Object.view, hfile, hlater]
              simp
        have hmoded : ∀ given, (found.setMode given).view true = found.view true := by
          intro given
          cases hkind : found.body <;> simp_all [Object.view, Object.setMode]
        rw [Holdings.view, Holdings.view, hold, Option.map_some, hviews.2]
        rcases FileSystem.get_chmodAll_cases loc with heq | ⟨given, heq⟩
        · rw [FileSystem.held, Layout.withModes, heq, hfound]
          rfl
        · rw [FileSystem.held, Layout.withModes, heq, hfound]
          exact congrArg some (hmoded given)

theorem writable_withModes {loc : Loc} (hdir : start.held.IsDirectory loc) :
    (layout.withModes styled).mayChange loc = true ↔ old.Writable loc := by
  obtain ⟨later, hlater, hbody⟩ := h.kept.isDirectory_iff.mpr hdir
  rw [← FileSystem.writable_held]
  simp only [Holdings.Writable, h.withModes_of_old hsub hstyled hlater hbody, hlater]

/-- An old directory can be opened if it can be with the modes alone. -/
theorem openRead_withModes {entry : MaterializeEntryPlan} {object : Object}
    (hmem : entry ∈ entries) (hold : old (layout.loc entry) = some object)
    (hdir : object.body = .directory) :
    (layout.withModes styled).openRead entry.targetPath = .ok (layout.loc entry) ↔
      fs.openRead entry.targetPath = .ok (layout.loc entry) := by
  obtain ⟨found, hfound, hdated⟩ :=
    FileSystem.get_of_held (h.withModes_of_old hsub hstyled hold hdir)
  obtain ⟨now, hnow, hdatedNow⟩ := FileSystem.get_of_held (h.stands.of_old hold)
  have hreadable : found.readable = now.readable := by
    have hmode := congrArg Object.mode (hdated.symm.trans hdatedNow)
    simp only [Object.setMtime] at hmode
    rw [Object.readable, Object.readable, hmode]
  have hwalk : walk ((layout.withModes styled).view true) linkLimit []
        (entry.targetPath.splitOn '/') = .ok (layout.loc entry) ↔
      walk (fs.view true) linkLimit [] (entry.targetPath.splitOn '/') =
        .ok (layout.loc entry) := by
    have hextends := h.stands.extends_old
    rw [h.view_withModes hsub hstyled, ← FileSystem.view_held]
    refine ⟨walk_mono (hextends true), fun hresolve => ?_⟩
    have henters := h.kept.enters hmem (by rw [hold]; simp)
    have hentry : old.view false (layout.loc entry) = some .directory :=
      Holdings.view_false_eq_directory.mpr ⟨object, hold, hdir⟩
    refine walk_mix (hextends false) fs.held.locks.extends (Holdings.mixed fun loc => ?_)
      (henters.walk_entry hentry (by simp)) hresolve
    cases hloc : old loc with
    | none => exact Or.inl rfl
    | some object =>
        exact Or.inr (by rw [Holdings.view, Holdings.view, h.stands.of_old hloc, hloc])
  simp only [FileSystem.openRead_eq_ok_iff, FileSystem.resolve, hwalk, hfound, hnow,
    Option.some.injEq, exists_eq_left', hreadable]

/-- What can be made is removed again, if the modes do not stand in the way. -/
theorem accessible_of_letsIn (hfor : ∀ made ∈ stack, ∃ entry ∈ entries, MadeFor layout entry made)
    (hlets : layout.LetsIn styled) : Accessible old stack := by
  intro made hmem hdir
  obtain ⟨entry, hentry, hmade⟩ := hfor made hmem
  rw [h.kept.isDirectory_iff] at hdir
  obtain ⟨henters, hwrite⟩ := h.allowed hmem hdir
  have hfree : start.held (layout.loc entry) = none := by
    cases hstart : start.held (layout.loc entry) with
    | none => rfl
    | some object =>
        obtain ⟨later, hlater, -⟩ := h.kept.present hstart
        rw [← hmade.loc, h.stands.stacked.old_eq_none hmem] at hlater
        simp at hlater
  rw [hmade.path, hmade.dir, hmade.name] at henters ⊢
  rw [hmade.dir] at hdir hwrite
  rw [← h.view_withModes hsub hstyled, ← h.writable_withModes hsub hstyled hdir]
  rw [FileSystem.view_held] at henters
  exact hlets entry hentry _ _ rfl (FileSystem.held_eq_none.mp hfree)
    (FileSystem.isDirectory_held.mp hdir) henters (FileSystem.writable_held.mp hwrite)

end Styled

end Ledger

/-- What was there before is there, and nothing is said of the rest. -/
def Remains (layout : Layout start.held entries) (trust : Trust) (copied : List CopiedChunk)
    (fs : FileSystem) : Prop :=
  ∀ {loc : Loc} {object : Object}, start.held loc = some object →
    ∃ later, fs.held loc = some later ∧ Becomes layout trust entries copied loc object later

theorem Ledger.remains {styled done : List MaterializeEntryPlan} {copied : List CopiedChunk}
    {created : List CreatedTarget} {old : Holdings} {stack : List Made} {fs : FileSystem}
    (h : Ledger layout trust styled done copied created old stack fs)
    (hstyled : styled ⊆ entries) : Remains layout trust copied fs := by
  intro loc object hobject
  obtain ⟨later, hlater, hbecomes⟩ := h.kept.present hobject
  exact ⟨later, h.stands.of_old hlater, hbecomes.mono hstyled List.prefix_rfl⟩

theorem Kept.remains_of_undoing {styled : List MaterializeEntryPlan} {copied : List CopiedChunk}
    {old : Holdings} {stack : List Made} {fs : FileSystem}
    (h : Kept layout trust styled copied old) (hstyled : styled ⊆ entries)
    (hundone : Undoing old fs.held stack []) : Remains layout trust copied fs := by
  intro loc object hobject
  obtain ⟨later, hlater, hbecomes⟩ := h.present hobject
  refine ⟨later, ?_, hbecomes.mono hstyled List.prefix_rfl⟩
  rw [hundone.other ?_ (by simp), hlater]
  rintro made hmem rfl
  rw [hundone.free hmem] at hlater
  simp at hlater

end Books

end FusePromise
