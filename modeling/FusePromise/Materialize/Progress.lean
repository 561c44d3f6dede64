import FusePromise.Foundation.Questions
import FusePromise.Materialize.Plan
import FusePromise.Runtime.Planner

/-!
# The progress of a run

A run counts the directories, files and bytes it has done and shows the counters to
the client: in every report, and in the reply at the end.  They are 64-bit words and
so are the totals, which are taken from the plan when it is made.  As long as the
sizes of the planned files add up to a word, the counters only grow and stay within
the totals, and a run that succeeds has reached them.
-/

namespace FusePromise

open Machine Program

/-! ## Counters -/

namespace MaterializeProgress

/-- No counter and no total of the first is larger. -/
structure AtMost (first second : MaterializeProgress) : Prop where
  entriesDone : first.entriesDone ≤ second.entriesDone
  entriesTotal : first.entriesTotal ≤ second.entriesTotal
  bytesWritten : first.bytesWritten ≤ second.bytesWritten
  bytesTotal : first.bytesTotal ≤ second.bytesTotal
  filesWritten : first.filesWritten ≤ second.filesWritten
  filesTotal : first.filesTotal ≤ second.filesTotal
  directoriesCreated : first.directoriesCreated ≤ second.directoriesCreated
  directoriesTotal : first.directoriesTotal ≤ second.directoriesTotal

/-- Nothing exceeds its total. -/
structure InBounds (progress : MaterializeProgress) : Prop where
  entries : progress.entriesDone ≤ progress.entriesTotal
  bytes : progress.bytesWritten ≤ progress.bytesTotal
  files : progress.filesWritten ≤ progress.filesTotal
  directories : progress.directoriesCreated ≤ progress.directoriesTotal

/-- What a reply may show after a report, in a run that has so many bytes to write. -/
structure Follows (bytes : ℕ) (first second : MaterializeProgress) : Prop where
  atMost : first.AtMost second
  inBounds : second.InBounds
  bytesTotal : second.bytesTotal = bytes

/-- The counters when a directory is done, which was made or found. -/
def directoryDone (progress : MaterializeProgress) (made : Bool) : MaterializeProgress :=
  { progress with
    directoriesCreated :=
      if made then wrappingAdd progress.directoriesCreated 1 else progress.directoriesCreated
    entriesDone := wrappingAdd progress.entriesDone 1 }

/-- The counters when so many bytes of the next file are written. -/
def writing (progress : MaterializeProgress) (bytes : ℕ) : MaterializeProgress :=
  { progress with bytesWritten := wrappingAdd progress.bytesWritten bytes }

/-- The counters when the file is done. -/
def fileDone (progress : MaterializeProgress) : MaterializeProgress :=
  { progress with
    filesWritten := wrappingAdd progress.filesWritten 1
    entriesDone := wrappingAdd progress.entriesDone 1 }

theorem AtMost.refl (progress : MaterializeProgress) : progress.AtMost progress :=
  ⟨le_rfl, le_rfl, le_rfl, le_rfl, le_rfl, le_rfl, le_rfl, le_rfl⟩

theorem AtMost.trans {first second third : MaterializeProgress} (h : first.AtMost second)
    (h' : second.AtMost third) : first.AtMost third :=
  ⟨h.entriesDone.trans h'.entriesDone, h.entriesTotal.trans h'.entriesTotal,
    h.bytesWritten.trans h'.bytesWritten, h.bytesTotal.trans h'.bytesTotal,
    h.filesWritten.trans h'.filesWritten, h.filesTotal.trans h'.filesTotal,
    h.directoriesCreated.trans h'.directoriesCreated,
    h.directoriesTotal.trans h'.directoriesTotal⟩

instance (bytes : ℕ) : IsTrans MaterializeProgress (Follows bytes) where
  trans _ _ _ h h' := ⟨h.atMost.trans h'.atMost, h'.inBounds, h'.bytesTotal⟩

end MaterializeProgress

/-! ## The totals of a plan -/

def plannedFiles (entries : List MaterializeEntryPlan) : List MaterializeEntryPlan :=
  entries.filter fun entry => entry.kind = .file

def plannedDirectories (entries : List MaterializeEntryPlan) : List MaterializeEntryPlan :=
  entries.filter fun entry => entry.kind = .directory

/-- The declared sizes of the files, added without a limit. -/
def plannedBytes (files : List MaterializeEntryPlan) : ℕ :=
  (files.map fun entry => entry.size.toNat).sum

theorem length_planned (entries : List MaterializeEntryPlan) :
    (plannedDirectories entries).length + (plannedFiles entries).length = entries.length := by
  induction entries with
  | nil => rfl
  | cons entry rest ih =>
      unfold plannedDirectories plannedFiles at ih ⊢
      cases hkind : entry.kind <;> simp [hkind] <;> omega

theorem foldl_wrappingAdd (words : List ℕ) (start : ℕ) :
    words.foldl wrappingAdd (start % 2 ^ 64) = (start + words.sum) % 2 ^ 64 := by
  induction words generalizing start with
  | nil => rfl
  | cons word rest ih =>
      rw [List.foldl_cons, List.sum_cons, wrappingAdd, Nat.mod_add_mod, ih, Nat.add_assoc]

theorem wrappingAdd_eq {a b : ℕ} (h : a + b ≤ u64Max) : wrappingAdd a b = a + b := by
  unfold wrappingAdd
  unfold u64Max at h
  omega

/-- The total of a new progress is the sum of the sizes, as a word. -/
theorem MaterializeProgress.new_bytesTotal (targetPath : Text)
    (entries : List MaterializeEntryPlan) :
    (new targetPath entries).bytesTotal = plannedBytes (plannedFiles entries) % 2 ^ 64 := by
  have h := foldl_wrappingAdd ((plannedFiles entries).map fun entry => entry.size.toNat) 0
  rw [Nat.zero_add] at h
  exact h

/-- The counters after so many directories, files and bytes of a plan. -/
structure Counts (entries : List MaterializeEntryPlan) (directories files bytes : ℕ)
    (progress : MaterializeProgress) : Prop where
  entriesTotal : progress.entriesTotal = entries.length
  bytesTotal : progress.bytesTotal = plannedBytes (plannedFiles entries)
  filesTotal : progress.filesTotal = (plannedFiles entries).length
  directoriesTotal : progress.directoriesTotal = (plannedDirectories entries).length
  entriesDone : progress.entriesDone = directories + files
  bytesWritten : progress.bytesWritten = bytes
  filesWritten : progress.filesWritten = files
  directoriesCreated : progress.directoriesCreated ≤ directories

namespace Counts

variable {entries : List MaterializeEntryPlan} {directories files bytes : ℕ}
  {progress : MaterializeProgress}

theorem new (hbytes : plannedBytes (plannedFiles entries) ≤ u64Max) (targetPath : Text) :
    Counts entries 0 0 0 (.new targetPath entries) := by
  refine ⟨rfl, ?_, rfl, rfl, rfl, rfl, rfl, le_rfl⟩
  rw [MaterializeProgress.new_bytesTotal]
  exact Nat.mod_eq_of_lt (by unfold u64Max at hbytes; omega)

theorem inBounds (h : Counts entries directories files bytes progress)
    (hdirectories : directories ≤ (plannedDirectories entries).length)
    (hfiles : files ≤ (plannedFiles entries).length)
    (hbytes : bytes ≤ plannedBytes (plannedFiles entries)) : progress.InBounds := by
  have hlength := length_planned entries
  constructor
  · rw [h.entriesDone, h.entriesTotal]
    omega
  · rw [h.bytesWritten, h.bytesTotal]
    exact hbytes
  · rw [h.filesWritten, h.filesTotal]
    exact hfiles
  · rw [h.directoriesTotal]
    exact h.directoriesCreated.trans hdirectories

theorem directoryDone (h : Counts entries directories files bytes progress)
    (hword : directories + files + 1 ≤ u64Max) (made : Bool) :
    Counts entries (directories + 1) files bytes (progress.directoryDone made) ∧
      progress.AtMost (progress.directoryDone made) := by
  have hcreated : wrappingAdd progress.directoriesCreated 1 = progress.directoriesCreated + 1 :=
    wrappingAdd_eq (by have := h.directoriesCreated; omega)
  have hdone : wrappingAdd progress.entriesDone 1 = directories + files + 1 := by
    rw [h.entriesDone, wrappingAdd_eq hword]
  have hmade : progress.directoriesCreated ≤ (progress.directoryDone made).directoriesCreated ∧
      (progress.directoryDone made).directoriesCreated ≤ progress.directoriesCreated + 1 := by
    cases made <;> simp [MaterializeProgress.directoryDone, hcreated]
  refine ⟨⟨h.entriesTotal, h.bytesTotal, h.filesTotal, h.directoriesTotal, ?_, h.bytesWritten,
    h.filesWritten, ?_⟩, ⟨?_, le_rfl, le_rfl, le_rfl, le_rfl, le_rfl, hmade.1, le_rfl⟩⟩
  · exact hdone.trans (by omega)
  · exact hmade.2.trans (Nat.succ_le_succ h.directoriesCreated)
  · show progress.entriesDone ≤ wrappingAdd progress.entriesDone 1
    rw [hdone, h.entriesDone]
    omega

theorem writing (h : Counts entries directories files bytes progress) {written : ℕ}
    (hword : bytes + written ≤ u64Max) :
    Counts entries directories files (bytes + written) (progress.writing written) :=
  ⟨h.entriesTotal, h.bytesTotal, h.filesTotal, h.directoriesTotal, h.entriesDone,
    h.bytesWritten ▸ wrappingAdd_eq (h.bytesWritten.symm ▸ hword), h.filesWritten,
    h.directoriesCreated⟩

theorem writing_atMost (h : Counts entries directories files bytes progress) {less more : ℕ}
    (hle : less ≤ more) (hword : bytes + more ≤ u64Max) :
    (progress.writing less).AtMost (progress.writing more) := by
  refine ⟨le_rfl, le_rfl, ?_, le_rfl, le_rfl, le_rfl, le_rfl, le_rfl⟩
  rw [(h.writing (show bytes + less ≤ u64Max by omega)).bytesWritten,
    (h.writing hword).bytesWritten]
  omega

theorem fileDone (h : Counts entries directories files bytes progress)
    (hword : directories + files + 1 ≤ u64Max) :
    Counts entries directories (files + 1) bytes progress.fileDone ∧
      progress.AtMost progress.fileDone := by
  have hfiles : wrappingAdd progress.filesWritten 1 = files + 1 := by
    rw [h.filesWritten, wrappingAdd_eq (by omega)]
  have hdone : wrappingAdd progress.entriesDone 1 = directories + files + 1 := by
    rw [h.entriesDone, wrappingAdd_eq hword]
  refine ⟨⟨h.entriesTotal, h.bytesTotal, h.filesTotal, h.directoriesTotal, ?_, h.bytesWritten,
    hfiles, h.directoriesCreated⟩, ⟨?_, le_rfl, le_rfl, le_rfl, ?_, le_rfl, le_rfl, le_rfl⟩⟩
  · exact hdone.trans (by omega)
  · show progress.entriesDone ≤ wrappingAdd progress.entriesDone 1
    rw [hdone, h.entriesDone]
    omega
  · show progress.filesWritten ≤ wrappingAdd progress.filesWritten 1
    rw [hfiles, h.filesWritten]
    omega

/-- Counters within the totals may be shown after smaller ones. -/
theorem follows (h : Counts entries directories files bytes progress)
    (hdirectories : directories ≤ (plannedDirectories entries).length)
    (hfiles : files ≤ (plannedFiles entries).length)
    (hbytes : bytes ≤ plannedBytes (plannedFiles entries)) {last : MaterializeProgress}
    (hlast : last.AtMost progress) :
    last.Follows (plannedBytes (plannedFiles entries)) progress :=
  ⟨hlast, h.inBounds hdirectories hfiles hbytes, h.bytesTotal⟩

end Counts

/-! ## The length of a chunk -/

theorem CachedChunk.length_readRanges_le {offset stop : ℕ} {ranges : List CachedRange}
    {bytes : List UInt8} (h : readRanges offset stop ranges = some bytes) :
    bytes.length ≤ stop - offset := by
  induction ranges with
  | nil => simp [readRanges] at h
  | cons range rest ih =>
      obtain ⟨rangeStop, -, h⟩ := Option.bind_eq_some_iff.mp h
      split at h
      · obtain ⟨start, hstart, h⟩ := Option.bind_eq_some_iff.mp h
        obtain ⟨last, hlast, h⟩ := Option.bind_eq_some_iff.mp h
        obtain ⟨-, rfl⟩ := checkedSub_eq_some.mp hstart
        obtain ⟨-, rfl⟩ := checkedSub_eq_some.mp hlast
        rw [← Option.some.inj h, List.length_drop, List.length_take]
        omega
      · exact ih h

theorem CachedFile.length_readLoop_le {file : CachedFile} {stop chunkSize fuel cursor : ℕ}
    {bytes : List UInt8} (h : readLoop file stop chunkSize fuel cursor = some bytes) :
    bytes.length ≤ stop - cursor := by
  induction fuel generalizing cursor bytes with
  | zero =>
      unfold readLoop at h
      split at h
      · simp at h
      · simp [← Option.some.inj h]
  | succ fuel ih =>
      unfold readLoop at h
      split at h
      · obtain ⟨readLen, hlen, h⟩ := Option.bind_eq_some_iff.mp h
        obtain ⟨chunk, -, h⟩ := Option.bind_eq_some_iff.mp h
        obtain ⟨first, hfirst, h⟩ := Option.bind_eq_some_iff.mp h
        obtain ⟨rest, hrest, hbytes⟩ := Option.bind_eq_some_iff.mp h
        obtain ⟨hle, rfl⟩ := checkedSub_eq_some.mp hlen
        obtain ⟨chunkStop, hstop, hfirst⟩ := Option.bind_eq_some_iff.mp hfirst
        obtain ⟨rfl, -⟩ := checkedAdd_eq_some.mp hstop
        have hfirstLength := CachedChunk.length_readRanges_le hfirst
        have hrestLength := ih hrest
        rw [← Option.some.inj hbytes, List.length_append]
        omega
      · simp [← Option.some.inj h]

namespace Runtime

variable {runtime : Runtime} {promiseId relativePath : Text} {offset length : ℕ}

theorem length_cachedRead_le {bytes : List UInt8}
    (h : runtime.cachedRead promiseId relativePath offset length = some bytes) :
    bytes.length ≤ length := by
  obtain ⟨chunkSize, -, h⟩ := Option.bind_eq_some_iff.mp h
  obtain ⟨file, -, h⟩ := Option.bind_eq_some_iff.mp h
  obtain ⟨stop, hstop, h⟩ := Option.bind_eq_some_iff.mp h
  obtain ⟨rfl, -⟩ := checkedAdd_eq_some.mp hstop
  have := CachedFile.length_readLoop_le h
  omega

theorem planProviderRead_length_le {plan : ProviderReadPlan}
    (h : runtime.planProviderRead promiseId relativePath offset length = .ok plan) :
    plan.length ≤ length := by
  obtain ⟨⟨tree, node⟩, -, h⟩ := bind_eq_ok.mp h
  dsimp only at h
  split at h
  · simp at h
  · obtain ⟨clamped, hclamped, h⟩ := bind_eq_ok.mp h
    obtain ⟨providerId, -, h⟩ := bind_eq_ok.mp h
    rw [← Except.ok.inj h]
    exact (clampLength_eq_ok.mp hclamped).1 ▸ min_le_left _ _

/-- No plan is for more than was asked. -/
theorem planRead_length_le {plan : ReadPlan}
    (h : runtime.planRead promiseId relativePath offset length = .ok plan) :
    match plan with
    | .request plan => plan.length ≤ length
    | .materialized plan => plan.length ≤ length
    | .cached bytes => bytes.length ≤ length
    | .eof => True := by
  obtain ⟨⟨tree, node⟩, -, h⟩ := bind_eq_ok.mp h
  dsimp only at h
  split at h
  · obtain rfl := Except.ok.inj h
    trivial
  · obtain ⟨clamped, hclamped, h⟩ := bind_eq_ok.mp h
    have hle : clamped ≤ length := (clampLength_eq_ok.mp hclamped).1 ▸ min_le_left _ _
    split at h
    · obtain rfl := Except.ok.inj h
      exact hle
    · split at h
      · rename_i bytes hcached
        obtain rfl := Except.ok.inj h
        exact (length_cachedRead_le hcached).trans hle
      · obtain ⟨provider, hprovider, h⟩ := bind_eq_ok.mp h
        obtain rfl := Except.ok.inj h
        exact (planProviderRead_length_le hprovider).trans hle

end Runtime

namespace Daemon

theorem length_providerChunk_le {request : ProviderReadRequest}
    {answer : IoResult ProviderReadResponse} {bytes : List UInt8}
    (h : providerChunk request answer = .ok bytes) : bytes.length ≤ request.length := by
  obtain ⟨response, -, h⟩ := bind_eq_ok.mp h
  obtain ⟨_, hvalid, h⟩ := bind_eq_ok.mp h
  split at h
  · rename_i hok
    obtain rfl := Except.ok.inj h
    have hcheck : validateProviderReadResponseForRequest request response = .ok () := by
      generalize validateProviderReadResponseForRequest request response = check at hvalid
      cases check with
      | ok u => rfl
      | error error => simp [Except.mapError] at hvalid
    obtain ⟨-, -, -, hlength⟩ := validateProviderReadResponseForRequest_eq_ok.mp hcheck
    simpa [hok] using hlength
  · simp at h

/-- A chunk of the provider is the answer to a request for the range of the plan. -/
theorem readMaterializeProviderChunk_eq_ok {env : Environment} {plan : ProviderReadPlan}
    {bytes : List UInt8} {world last : World}
    (h : readMaterializeProviderChunk env plan world = (.ok bytes, last)) :
    ∃ tick request, providerChunk request (env.answer tick request) = .ok bytes ∧
      request.promiseId = plan.promiseId ∧ request.relativePath = plan.relativePath ∧
      request.offset = plan.offset ∧ request.length = plan.length := by
  obtain ⟨request, _, hrequest, h⟩ := Prog.bind_eq_ok.mp h
  have hplan := Except.ok.inj (Prod.mk.inj hrequest).1
  obtain ⟨_, -, h⟩ := Prog.ofExcept_bind_eq_ok.mp h
  obtain ⟨_, _, -, h⟩ := Prog.bind_eq_ok.mp h
  obtain ⟨tick, _, -, h⟩ := Prog.bind_eq_ok.mp h
  refine ⟨tick, request, ?_, by rw [← hplan], by rw [← hplan], by rw [← hplan], by rw [← hplan]⟩
  cases hchunk : providerChunk request (env.answer tick request) with
  | error status =>
      simp only [hchunk] at h
      obtain ⟨_, _, -, h⟩ := Prog.bind_eq_ok.mp h
      simp [Prog.fail] at h
  | ok chunk =>
      simp only [hchunk] at h
      cases chunk with
      | nil =>
          obtain ⟨_, _, -, h⟩ := Prog.bind_eq_ok.mp h
          rw [(Prog.pure_eq_ok.mp h).1]
      | cons byte rest => rw [(Prog.pure_eq_ok.mp h).1]

theorem length_readMaterializeProviderChunk_le {env : Environment} {plan : ProviderReadPlan}
    {bytes : List UInt8} {world last : World}
    (h : readMaterializeProviderChunk env plan world = (.ok bytes, last)) :
    bytes.length ≤ plan.length := by
  obtain ⟨tick, request, hchunk, -, -, -, hlength⟩ := readMaterializeProviderChunk_eq_ok h
  exact hlength ▸ length_providerChunk_le hchunk

theorem length_readLocalMaterializedChunk {env : Environment} {path : Text} {offset length : ℕ}
    {bytes : List UInt8} {world last : World}
    (h : readLocalMaterializedChunk env path offset length world = (.ok bytes, last)) :
    bytes.length = length := by
  obtain ⟨file, _, -, h⟩ := Prog.bind_eq_ok.mp h
  obtain ⟨copy, _, -, h⟩ := Prog.bind_eq_ok.mp h
  split at h
  · simp [Prog.fail] at h
  · rename_i hexact
    rw [← (Prog.pure_eq_ok.mp h).1, not_not.mp hexact]

/-- A chunk is never longer than was asked for, wherever it comes from. -/
theorem length_readMaterializeChunk_le {env : Environment} {promiseId : Text}
    {entry : MaterializeEntryPlan} {offset length : ℕ} {bytes : List UInt8} {world last : World}
    (h : readMaterializeChunk env promiseId entry offset length world = (.ok bytes, last)) :
    bytes.length ≤ length := by
  obtain ⟨runtime, _, -, h⟩ := Prog.bind_eq_ok.mp h
  cases hplan : runtime.planProviderRead promiseId entry.relativePath offset length with
  | ok plan =>
      simp only [hplan] at h
      exact (length_readMaterializeProviderChunk_le h).trans
        (Runtime.planProviderRead_length_le hplan)
  | error status =>
      cases status with
      | providerGone =>
          simp only [hplan] at h
          obtain ⟨later, _, -, h⟩ := Prog.bind_eq_ok.mp h
          obtain ⟨plan, hread, h⟩ := Prog.ofExcept_bind_eq_ok.mp h
          have hlength := Runtime.planRead_length_le hread
          cases plan with
          | request plan => exact (length_readMaterializeProviderChunk_le h).trans hlength
          | materialized plan =>
              obtain ⟨copy, _, hcopy, h⟩ := Prog.bind_eq_ok.mp h
              obtain ⟨_, _, -, h⟩ := Prog.bind_eq_ok.mp h
              obtain ⟨rfl, -⟩ := Prog.pure_eq_ok.mp h
              exact (length_readLocalMaterializedChunk hcopy).trans_le hlength
          | cached cached => exact (Prog.pure_eq_ok.mp h).1 ▸ hlength
          | eof => simp [Prog.fail] at h
      | _ => simp [hplan, Prog.fail] at h

/-! ## What is reported -/

/-- The progress an error comes with may be shown after the last report. -/
def Shown (bytes : ℕ) (error : MaterializeOperationError) (last : MaterializeProgress) : Prop :=
  ∀ progress, error.progress = some progress → last.Follows bytes progress

section Tells

open MaterializeProgress

variable {env : Environment} {bytes : ℕ} {α : Type}

theorem triple_cleanup_succeeds {ε : Type} (created : List CreatedTarget) :
    Triple (fun _ => True) (cleanupCreatedTargets env created : Daemon ε Unit) (fun _ _ => True)
      fun _ _ => False := by
  have hquietly (op : ℤ → Unix.FileSystem → Except Unix.Errno Unix.FileSystem) :
      Triple (fun _ => True) (quietly env op : Daemon ε Unit) (fun _ _ => True)
        fun _ _ => False := fun _ _ => trivial
  have hsame {action : Daemon ε Unit} (target : CreatedTarget)
      (h : Triple (fun _ => True) action (fun _ _ => True) fun _ _ => False) :
      Triple (fun _ => True) (ifSameTarget target action) (fun _ _ => True)
        fun _ _ => False := by
    have hlstat : Triple (fun _ => True) (lstatQuietly target.path : Daemon ε _)
        (fun _ _ => True) fun _ _ => False := by
      intro world _
      simp only [lstatQuietly, Bind.bind, Prog.get]
      cases world.fs.lstat target.path <;> trivial
    refine hlstat.bind fun metadata => ?_
    split
    · split
      · exact h
      · exact .pure fun _ _ => trivial
    · exact .pure fun _ _ => trivial
  have hforEach {action : CreatedTarget → Daemon ε Unit}
      (h : ∀ target, Triple (fun _ => True) (action target) (fun _ _ => True) fun _ _ => False)
      (targets : List CreatedTarget) :
      Triple (fun _ => True) (forEach action targets) (fun _ _ => True) fun _ _ => False := by
    induction targets with
    | nil => exact .pure fun _ _ => trivial
    | cons target rest ih => exact (h target).bind fun _ => ih
  refine .bind (hforEach (fun target => ?_) _) fun _ => hforEach (fun target => ?_) _
  · exact hsame target (hquietly _)
  · refine hsame target ?_
    split <;> exact hquietly _

/-- A cleanup, and then the error with the progress. -/
theorem triple_cleanup_fail (created : List CreatedTarget) {error : MaterializeOperationError}
    {fail : MaterializeOperationError → Prop} {post : α → World → Prop} (h : fail error) :
    Triple (fun _ => True)
      (do
        cleanupCreatedTargets env created
        Prog.fail error : Daemon MaterializeOperationError α) post fun error _ => fail error :=
  ((triple_cleanup_succeeds created).weaken_fail fun _ _ => False.elim).bind
    fun _ => .throw fun _ _ => h

theorem tells_orCleanup {step : Reporting Status α} {pre : MaterializeProgress → Prop}
    {post : α → MaterializeProgress → Prop} {created : List CreatedTarget}
    {progress : MaterializeProgress}
    (h : Dialogue.Tells (Follows bytes) pre step post fun _ last => last.Follows bytes progress) :
    Dialogue.Tells (Follows bytes) pre (orCleanup env created progress step) post
      (Shown bytes) := by
  refine h.orElse fun status last hlast => triple_cleanup_fail created ?_
  rintro shown hshown
  obtain rfl := Option.some.inj hshown
  exact hlast

theorem tells_reportProgress {pre : MaterializeProgress → Prop} {progress : MaterializeProgress}
    (h : ∀ last : MaterializeProgress, last.AtMost progress → last.Follows bytes progress)
    (hpre : ∀ last, pre last → last.AtMost progress) :
    Dialogue.Tells (Follows bytes) pre (reportProgress progress)
      (fun _ last => last.AtMost progress) fun _ last => last.Follows bytes progress := by
  refine .ask (fun last hlast => h last (hpre last hlast)) fun answer => ?_
  split
  · exact .pure fun _ _ => .refl progress
  · have hnote : Triple (fun _ => True) (noteFailure : Daemon Status Unit) (fun _ _ => True)
        fun _ _ => False := fun _ _ => trivial
    exact (hnote.weaken_fail fun _ _ => False.elim).bind fun _ =>
      .throw fun _ _ => h progress (.refl progress)

/-- A part of the writing of a file that asks nothing, and what follows it. -/
theorem tells_written_bind {β : Type} {prog : Daemon MaterializeWriteError α} {good : α → Prop}
    {written : ℕ} {next : α → Reporting MaterializeWriteError β}
    {pre : MaterializeProgress → Prop} {progress : MaterializeProgress}
    {post : β → MaterializeProgress → Prop}
    (h : Triple (fun _ => True) prog (fun a _ => good a)
      fun error _ => error.bytesWritten = written)
    (hpre : ∀ last, pre last → last.Follows bytes (progress.writing written))
    (hnext : ∀ a, good a → Dialogue.Tells (Follows bytes) pre (next a) post
      fun error last => last.Follows bytes (progress.writing error.bytesWritten)) :
    Dialogue.Tells (Follows bytes) pre (Dialogue.lift prog >>= next) post
      fun error last => last.Follows bytes (progress.writing error.bytesWritten) := by
  refine .lift_bind h (fun error last herror hlast => ?_) hnext
  rw [herror]
  exact hpre last hlast

/-! ## The loops -/

variable {entries : List MaterializeEntryPlan} (hword : entries.length ≤ u64Max)
  (hbytes : plannedBytes (plannedFiles entries) ≤ u64Max)

include hword in
theorem tells_createDirectories (conflictPolicy : MaterializeConflictPolicy)
    (before rest : List MaterializeEntryPlan) (progress : MaterializeProgress)
    (created : List CreatedTarget) (hsplit : plannedDirectories entries = before ++ rest)
    (h : Counts entries before.length 0 0 progress) :
    Dialogue.Tells (Follows (plannedBytes (plannedFiles entries)))
      (fun last => last.AtMost progress)
      (createDirectories env conflictPolicy rest progress created)
      (fun result last => Counts entries (plannedDirectories entries).length 0 0 result.1 ∧
        last.AtMost result.1)
      (Shown (plannedBytes (plannedFiles entries))) := by
  induction rest generalizing before progress created with
  | nil =>
      refine .pure fun last hlast => ⟨?_, hlast⟩
      rw [hsplit, List.append_nil]
      exact h
  | cons entry rest ih =>
      have hlength : before.length + 1 ≤ (plannedDirectories entries).length := by
        rw [hsplit, List.length_append, List.length_cons]
        omega
      have hplanned := length_planned entries
      refine .bind (tells_orCleanup (.lift .trivial (fun _ _ _ hlast => hlast)
        fun _ last _ hlast => h.follows (by omega) (by omega) (by omega) hlast)) fun target => ?_
      obtain ⟨hnext, hgrows⟩ := h.directoryDone (by omega) target.removeOnCleanup
      refine .bind (tells_orCleanup (tells_reportProgress
        (fun last hlast => hnext.follows hlength (by omega) (by omega) hlast)
        fun last hlast => hlast.trans hgrows)) fun _ => ?_
      refine ih (before ++ [entry]) _ _ ?_ ?_
      · rw [hsplit, List.append_assoc, List.singleton_append]
      · rw [List.length_append, List.length_singleton]
        exact hnext

/-- A file that could not be opened has no bytes. -/
theorem triple_openMaterializedFile_error (entry : MaterializeEntryPlan)
    (conflictPolicy : MaterializeConflictPolicy) :
    Triple (fun _ => True) (openMaterializedFile env entry conflictPolicy) (fun _ _ => True)
      fun error _ => error.bytesWritten = 0 := by
  have houtput (path : Text) : Triple (fun _ => True) (openMaterializeOutput env path)
      (fun _ _ => True) fun error _ => error.bytesWritten = 0 := by
    refine .bind (Triple.trivial.mapError fun _ _ _ => rfl) fun file world _ => ?_
    simp only [Bind.bind, Prog.get]
    cases world.fs.found file <;> first | rfl | trivial
  have hfinal (remove : Bool) : Triple (fun _ => True) (openFinalMaterializedFile env entry remove)
      (fun _ _ => True) fun error _ => error.bytesWritten = 0 :=
    (houtput _).bind fun _ => .pure fun _ _ => trivial
  have hreplacement (left : ℕ) : Triple (fun _ => True) (openReplacement env entry left)
      (fun _ _ => True) fun error _ => error.bytesWritten = 0 := by
    induction left with
    | zero => exact .throw fun _ _ => rfl
    | succ left ih =>
        have hnext : Triple (fun _ => True) (nextTempAttempt : Daemon MaterializeWriteError ℕ)
            (fun _ _ => True) fun error _ => error.bytesWritten = 0 := fun _ _ => trivial
        refine hnext.bind fun attempt => ?_
        refine .bind (Triple.trivial.mapError fun _ _ _ => rfl) fun tempPath => ?_
        refine ((houtput tempPath).attempt).bind fun result => ?_
        cases result with
        | ok opened => exact .pure fun _ _ => trivial
        | error error =>
            dsimp only
            split
            · exact ih.strengthen_pre fun _ _ => trivial
            · exact .throw fun _ h => h
  refine .bind (Triple.trivial.mapError fun _ _ _ => rfl) fun existing => ?_
  split
  · exact hfinal true
  · split
    · exact hreplacement 16
    · exact hfinal true
  · exact hfinal true

section File

variable {promiseId : Text} {entry : MaterializeEntryPlan} {progress : MaterializeProgress}
  {files done : ℕ} (h : Counts entries (plannedDirectories entries).length files done progress)
  (hfiles : files ≤ (plannedFiles entries).length)
  (hfits : done + entry.size.toNat ≤ plannedBytes (plannedFiles entries))

include h hfiles hfits hbytes

/-- While a file is written, the bytes of it that are written are added to the counter. -/
theorem follows_writing {written : ℕ} (hwritten : written ≤ entry.size.toNat)
    {last : MaterializeProgress} (hlast : last.AtMost (progress.writing written)) :
    last.Follows (plannedBytes (plannedFiles entries)) (progress.writing written) :=
  (h.writing (by omega)).follows le_rfl hfiles (by omega) hlast

theorem tells_writeChunks (target : MaterializeFileTarget) (left offset : ℕ)
    (hoffset : offset ≤ entry.size.toNat) (hleft : entry.size.toNat - offset ≤ left) :
    Dialogue.Tells (Follows (plannedBytes (plannedFiles entries)))
      (fun last => last.AtMost (progress.writing offset))
      (writeChunks env promiseId entry target (fun written => reportProgress
        (progress.writing written)) left offset)
      (fun written last => written = entry.size.toNat ∧
        last.AtMost (progress.writing entry.size.toNat))
      fun error last => last.Follows (plannedBytes (plannedFiles entries))
        (progress.writing error.bytesWritten) := by
  induction left generalizing offset with
  | zero =>
      obtain rfl : offset = entry.size.toNat := by omega
      exact .pure fun last hlast => ⟨rfl, hlast⟩
  | succ left ih =>
      unfold writeChunks
      split
      · obtain rfl : offset = entry.size.toNat := by omega
        exact .pure fun last hlast => ⟨rfl, hlast⟩
      · -- a failure shows the bytes that were written before the turn
        have hfail : ∀ last : MaterializeProgress, last.AtMost (progress.writing offset) →
            last.Follows (plannedBytes (plannedFiles entries)) (progress.writing offset) :=
          fun last hlast => follows_writing hbytes h hfiles hfits hoffset hlast
        have hchunk : Triple (fun _ => True)
            (readMaterializeChunk env promiseId entry offset
              (min (entry.size.toNat - offset) maxProviderReadLen))
            (fun bytes _ => bytes.length ≤ entry.size.toNat - offset) fun _ _ => True :=
          .of_ok fun _ _ _ hread =>
            (length_readMaterializeChunk_le hread).trans (min_le_left _ _)
        refine tells_written_bind (hchunk.mapError fun _ _ _ => rfl) hfail fun bytes hlength => ?_
        split
        · exact .throw hfail
        · rename_i hsome
          refine tells_written_bind (Triple.trivial.mapError fun _ _ _ => rfl) hfail
            fun _ _ => ?_
          split
          · exact .throw hfail
          · rename_i next hnext
            obtain ⟨rfl, -⟩ := checkedAdd_eq_some.mp hnext
            have hpositive := List.length_pos_iff.mpr hsome
            have hinside : offset + bytes.length ≤ entry.size.toNat := by omega
            refine .bind (.mapError (tells_reportProgress (fun last hlast =>
              follows_writing hbytes h hfiles hfits hinside hlast) fun last hlast =>
                hlast.trans (h.writing_atMost (by omega) (by omega))) fun _ _ hlast => hlast)
              fun _ => ?_
            exact ih _ hinside (by omega)

/-- A file that is written has its declared size. -/
theorem tells_writeMaterializedFile (conflictPolicy : MaterializeConflictPolicy) :
    Dialogue.Tells (Follows (plannedBytes (plannedFiles entries)))
      (fun last => last.AtMost progress)
      (writeMaterializedFile env promiseId entry conflictPolicy fun written =>
        reportProgress (progress.writing written))
      (fun outcome last => outcome.bytesWritten = entry.size.toNat ∧
        last.AtMost (progress.writing entry.size.toNat))
      fun error last => last.Follows (plannedBytes (plannedFiles entries))
        (progress.writing error.bytesWritten) := by
  have hzero : progress.AtMost (progress.writing 0) := by
    refine ⟨le_rfl, le_rfl, ?_, le_rfl, le_rfl, le_rfl, le_rfl, le_rfl⟩
    rw [(h.writing (by omega)).bytesWritten, h.bytesWritten]
    exact Nat.le_add_right _ _
  have hstart : ∀ last : MaterializeProgress, last.AtMost progress →
      last.Follows (plannedBytes (plannedFiles entries)) (progress.writing 0) :=
    fun last hlast => follows_writing hbytes h hfiles hfits (Nat.zero_le _) (hlast.trans hzero)
  refine tells_written_bind (triple_openMaterializedFile_error entry conflictPolicy) hstart
    fun target _ => ?_
  refine .bind (fun s last hlast => tells_writeChunks hbytes h hfiles hfits target
    entry.size.toNat 0 (Nat.zero_le _) le_rfl s last (hlast.trans hzero)) fun offset => ?_
  have hend : ∀ last : MaterializeProgress, offset = entry.size.toNat ∧
      last.AtMost (progress.writing entry.size.toNat) →
      last.Follows (plannedBytes (plannedFiles entries)) (progress.writing offset) := by
    rintro last ⟨rfl, hlast⟩
    exact follows_writing hbytes h hfiles hfits le_rfl hlast
  refine tells_written_bind (Triple.trivial.mapError fun _ _ _ => rfl) hend fun _ _ => ?_
  refine tells_written_bind (Triple.trivial.mapError fun _ _ _ => rfl) hend fun _ _ => ?_
  have hfinalize : Triple (fun _ => True) (finalizeMaterializedFile env target offset)
      (fun _ _ => True) fun error _ => error.bytesWritten = offset := by
    unfold finalizeMaterializedFile
    split
    · exact .bind (Triple.trivial.mapError fun _ _ _ => rfl) fun _ => .pure fun _ _ => trivial
    · exact .pure fun _ _ => trivial
  exact tells_written_bind hfinalize hend fun created _ => .pure fun last hlast => hlast

end File

include hword hbytes in
theorem tells_writeFiles (promiseId : Text) (conflictPolicy : MaterializeConflictPolicy)
    (before rest : List MaterializeEntryPlan) (progress : MaterializeProgress)
    (created : List CreatedTarget) (hsplit : plannedFiles entries = before ++ rest)
    (h : Counts entries (plannedDirectories entries).length before.length (plannedBytes before)
      progress) :
    Dialogue.Tells (Follows (plannedBytes (plannedFiles entries)))
      (fun last => last.AtMost progress)
      (writeFiles env promiseId conflictPolicy rest progress created)
      (fun result last => Counts entries (plannedDirectories entries).length
        (plannedFiles entries).length (plannedBytes (plannedFiles entries)) result.1 ∧
        last.AtMost result.1)
      (Shown (plannedBytes (plannedFiles entries))) := by
  induction rest generalizing before progress created with
  | nil =>
      refine .pure fun last hlast => ⟨?_, hlast⟩
      rw [List.append_nil] at hsplit
      rw [hsplit]
      exact hsplit ▸ h
  | cons entry rest ih =>
      have hlength : before.length + 1 ≤ (plannedFiles entries).length := by
        rw [hsplit, List.length_append, List.length_cons]
        omega
      have hplanned := length_planned entries
      have hwritten : plannedBytes (before ++ [entry]) =
          plannedBytes before + entry.size.toNat := by
        simp [plannedBytes]
      -- the bytes of the files so far and of this one are not more than all
      have hfits : plannedBytes before + entry.size.toNat ≤
          plannedBytes (plannedFiles entries) := by
        rw [hsplit, List.append_cons, ← hwritten]
        simp [plannedBytes]
      refine .bind (.orElse (tells_writeMaterializedFile hbytes h (by omega) hfits conflictPolicy)
        fun error last hlast => triple_cleanup_fail _ ?_) fun outcome => .assuming fun hsize => ?_
      · intro shown hshown
        obtain rfl := Option.some.inj hshown
        exact hlast
      · have hwriting := h.writing (show plannedBytes before + entry.size.toNat ≤ u64Max by omega)
        obtain ⟨hnext, hgrows⟩ := hwriting.fileDone (by omega)
        rw [← hsize] at hnext hgrows hfits
        rw [← hsize] at hwritten
        refine .bind (tells_orCleanup (tells_reportProgress
          (fun last hlast => hnext.follows le_rfl hlength hfits hlast)
          fun last hlast => (hsize ▸ hlast).trans hgrows)) fun _ => ?_
        refine ih (before ++ [entry]) _ _
          (by rw [hsplit, List.append_assoc, List.singleton_append]) ?_
        rw [List.length_append, List.length_singleton, hwritten]
        exact hnext


include hword hbytes in
/-- The snapshots of a run of a plan, from its first report to its result. -/
theorem tells_executePlan {plan : MaterializePlan} (hentries : plan.entries = entries) :
    Dialogue.Tells (Follows (plannedBytes (plannedFiles entries)))
      (fun last => last.AtMost (.new plan.targetPath entries)) (executePlan env plan)
      (fun progress last => last.Follows (plannedBytes (plannedFiles entries)) progress ∧
        progress.entriesDone = progress.entriesTotal ∧
        progress.filesWritten = progress.filesTotal ∧
        progress.bytesWritten = progress.bytesTotal)
      (Shown (plannedBytes (plannedFiles entries))) := by
  subst hentries
  have hnew := Counts.new hbytes plan.targetPath
  have hplanned := length_planned plan.entries
  refine .bind (tells_orCleanup (tells_reportProgress
    (fun last hlast => hnew.follows (Nat.zero_le _) (Nat.zero_le _) (Nat.zero_le _) hlast)
    fun last hlast => hlast)) fun _ => ?_
  refine .bind (tells_createDirectories hword _ [] _ _ [] rfl hnew)
    fun (progress, created) => .assuming fun hdirectories => ?_
  refine .bind (tells_writeFiles hword hbytes _ _ [] _ _ _ rfl hdirectories)
    fun (progress, created) => .assuming fun hfiles => ?_
  have hfollows : ∀ last : MaterializeProgress, last.AtMost progress →
      last.Follows (plannedBytes (plannedFiles plan.entries)) progress :=
    fun last hlast => hfiles.follows le_rfl le_rfl le_rfl hlast
  refine .bind (tells_orCleanup (.lift .trivial (fun _ _ _ hlast => hlast)
    fun _ last _ hlast => hfollows last hlast)) fun _ => ?_
  refine .bind (tells_orCleanup (.lift .trivial (fun _ _ _ hlast => hlast)
    fun _ last _ hlast => hfollows last hlast)) fun _ => ?_
  refine .pure fun last hlast => ⟨hfollows last hlast, ?_, ?_, ?_⟩
  · rw [hfiles.entriesDone, hfiles.entriesTotal, hplanned]
  · rw [hfiles.filesWritten, hfiles.filesTotal]
  · rw [hfiles.bytesWritten, hfiles.bytesTotal]

end Tells

/-! ## The sizes of the source -/

/-- The sizes declared for the files at and below a source path, added without a limit. -/
def declaredBytes (runtime : Runtime) (mount : IpcMountStatus) (sourcePath : Text) : ℕ :=
  match mount.resolveVisiblePath sourcePath with
  | .error _ => 0
  | .ok (promiseId, relativePath) =>
      match runtime.promise promiseId with
      | none => 0
      | some tree =>
          match tree.subtreeNodes relativePath with
          | .error _ => 0
          | .ok nodes =>
              ((nodes.filter fun node => node.kind = .file).map fun node =>
                node.attr.size.toNat).sum

section Planned

variable {env : Environment} {request : MaterializeBody} {plan : MaterializePlan}
  {tree : PromiseTree}
  {names : List Text} {rootName : Text} {nodes : List PromiseNode}

/-- The entries of a plan have the kinds and sizes of the nodes. -/
theorem plannedBytes_eq (h : Planned request plan tree names rootName nodes) :
    plannedBytes (plannedFiles plan.entries) =
      ((nodes.filter fun node => node.kind = .file).map fun node => node.attr.size.toNat).sum := by
  have hsame : (plan.entries.map fun entry => (entry.kind, entry.size)) =
      nodes.map fun node => (node.kind, node.attr.size) := by
    refine map_of_mapM_eq_ok h.entries fun node _ entry hentry => ?_
    obtain ⟨suffix, -, hentry⟩ := bind_eq_ok.mp hentry
    rw [← Except.ok.inj hentry]
  have hsizes : ∀ {β : Type} (items : List β) (kind : β → NodeKind) (size : β → UInt64),
      ((items.filter fun item => kind item = .file).map fun item => (size item).toNat) =
        (((items.map fun item => (kind item, size item)).filter fun pair =>
          pair.1 = .file).map fun pair => pair.2.toNat) := by
    intro β items kind size
    rw [List.filter_map, List.map_map]
    rfl
  rw [plannedBytes, plannedFiles, hsizes, hsame, hsizes nodes]

/-- The entries of a plan are counted by a word, since the nodes have different inodes. -/
theorem length_entries_le (calls : List RuntimeCall) {promiseId : Text}
    (htree : (Runtime.new.performAll calls).promises[promiseId]? = some tree)
    (h : Planned request plan tree names rootName nodes) : plan.entries.length ≤ u64Max := by
  obtain ⟨-, hids⟩ := Runtime.reachable_spec calls
  have hstores : ∀ node ∈ nodes,
      (Runtime.new.performAll calls).Stores promiseId node.relativePath node := by
    intro node hnode
    obtain ⟨below, -, hstored⟩ := h.preorder.mem_iff.mp hnode
    exact ⟨tree, htree, (h.shape.path hstored).1.symm ▸ hstored⟩
  have hnodup : (nodes.map PromiseNode.inode).Nodup := by
    refine List.pairwise_map.mpr (h.preorder.ordered.imp_of_mem ?_)
    intro first second hfirst hsecond hnot heq
    obtain ⟨-, hpath⟩ := hids.inodes.injective _ _ _ _ _ _ (hstores first hfirst)
      (hstores second hsecond) heq
    exact hnot (hpath ▸ List.prefix_rfl)
  have hsubset : (nodes.map PromiseNode.inode).toFinset ⊆
      Finset.range (Runtime.new.performAll calls).nextInode := by
    intro inode hinode
    obtain ⟨node, hnode, rfl⟩ := List.mem_map.mp (List.mem_toFinset.mp hinode)
    exact Finset.mem_range.mpr (hids.inodes.below _ _ _ (hstores node hnode))
  calc plan.entries.length
      = (plan.entries.map MaterializeEntryPlan.relativePath).length := by rw [List.length_map]
    _ = (nodes.map PromiseNode.inode).length := by
        rw [h.map_relativePath, List.length_map, List.length_map]
    _ = (nodes.map PromiseNode.inode).toFinset.card := (List.toFinset_card_of_nodup hnodup).symm
    _ ≤ (Finset.range (Runtime.new.performAll calls).nextInode).card :=
        Finset.card_le_card hsubset
    _ ≤ u64Max := by
        rw [Finset.card_range]
        exact Runtime.nextInode_le calls

theorem declaredBytes_eq {runtime : Runtime} {mount : IpcMountStatus} {promiseId : Text}
    (hresolve : mount.resolveVisiblePath request.sourcePath = .ok (promiseId, joinNames names))
    (htree : runtime.promises[promiseId]? = some tree)
    (h : Planned request plan tree names rootName nodes) :
    plannedBytes (plannedFiles plan.entries) =
      declaredBytes runtime mount request.sourcePath := by
  rw [plannedBytes_eq h, declaredBytes, hresolve]
  simp only [Runtime.promise, htree, h.listed]

end Planned

/-! ## The snapshots of a run -/

/-- The progress in the reply at the end of a run. -/
def resultProgress : Except MaterializeOperationError MaterializeProgress →
    Option MaterializeProgress
  | .ok progress => some progress
  | .error error => error.progress

/-- What a run shows of its progress: in the reports and then in the reply. -/
def snapshots (reports : List MaterializeProgress)
    (result : Except MaterializeOperationError MaterializeProgress) : List MaterializeProgress :=
  reports ++ (resultProgress result).toList

/-- In every run, whatever is answered to the reports: the snapshots only grow, each is within
its totals and has this total of bytes, and a run that succeeds has reached the totals. -/
def ExactProgress (bytes : ℕ)
    (run : Tree MaterializeProgress ProgressAnswer
      (Except MaterializeOperationError MaterializeProgress × World)) : Prop :=
  ∀ reports result, run.Path reports result →
    (snapshots reports result.1).Pairwise MaterializeProgress.AtMost ∧
    (∀ progress ∈ snapshots reports result.1,
      progress.InBounds ∧ progress.bytesTotal = bytes) ∧
    ∀ progress, result.1 = .ok progress →
      progress.entriesDone = progress.entriesTotal ∧
      progress.filesWritten = progress.filesTotal ∧
      progress.bytesWritten = progress.bytesTotal

section Runs

variable {env : Environment} {request : MaterializeBody} {world last : World}
  {plan : MaterializePlan} {status : Status}

theorem planRequest_eq_ok (h : planRequest env request world = (.ok plan, last)) :
    ∃ planned, planMaterialize env request world = (.ok plan, planned) ∧
      last = { planned with plan := some plan } := by
  obtain ⟨body, hbody, h⟩ := Prog.ofExcept_bind_eq_ok.mp h
  obtain ⟨found, planned, hfound, h⟩ := Prog.bind_eq_ok.mp h
  obtain ⟨_, _, hrecord, h⟩ := Prog.bind_eq_ok.mp h
  obtain ⟨rfl, rfl⟩ := Prog.pure_eq_ok.mp h
  unfold MaterializeBody.checked at hbody
  split at hbody
  · cases hbody
  · cases hbody
    exact ⟨planned, hfound, (Prod.mk.inj hrecord).2.symm⟩

theorem materializeNodeInState_of_plan (h : planRequest env request world = (.ok plan, last)) :
    materializeNodeInState env request world = executePlan env plan last := by
  have hplan : (planRequest env request).mapError MaterializeOperationError.withoutProgress world =
      (.ok plan, last) := by
    simp only [Prog.mapError, Prog.orElse, h]
  exact Dialogue.lift_bind_ok hplan

theorem materializeNodeInState_of_error
    (h : planRequest env request world = (.error status, last)) :
    materializeNodeInState env request world = .done (.error (.withoutProgress status), last) := by
  have hplan : (planRequest env request).mapError MaterializeOperationError.withoutProgress world =
      (.error (.withoutProgress status), last) := by
    simp only [Prog.mapError, Prog.orElse, h, Prog.fail]
  exact Dialogue.lift_bind_error hplan

/-- The plan of a runtime that calls have led to has a word of entries, and its files are those
of the source. -/
theorem planRequest_counted (calls : List RuntimeCall)
    (hruntime : world.runtime = Runtime.new.performAll calls)
    (h : planRequest env request world = (.ok plan, last)) :
    plan.entries.length ≤ u64Max ∧ plannedBytes (plannedFiles plan.entries) =
      declaredBytes (env.planningRuntime world) world.mount request.sourcePath := by
  obtain ⟨planned, hplanned, -⟩ := planRequest_eq_ok h
  have hwf : world.runtime.WellFormed := hruntime ▸ (Runtime.reachable_spec calls).1
  obtain ⟨tree, names, rootName, nodes, htree, hresolve, hplan⟩ :=
    planMaterialize_planned hwf hplanned
  refine ⟨?_, declaredBytes_eq hresolve htree hplan⟩
  rw [Environment.planningRuntime, hruntime, Runtime.performAll_run] at htree
  exact length_entries_le _ htree hplan

/-- A run shows its totals in the first report. -/
theorem executePlan_asks (env : Environment) (plan : MaterializePlan) (world : World) :
    ∃ next, executePlan env plan world =
      .ask (MaterializeProgress.new plan.targetPath plan.entries) next :=
  ⟨_, rfl⟩

/-- The progress of a run that stays without a plan. -/
theorem exactProgress_of_error (bytes : ℕ)
    (h : planRequest env request world = (.error status, last)) :
    ExactProgress bytes (materializeNodeInState env request world) := by
  rw [materializeNodeInState_of_error h]
  intro reports result hpath
  cases hpath
  refine ⟨.nil, fun progress hmem => ?_, fun progress hok => ?_⟩
  · cases hmem
  · cases hok

theorem exactProgress_of_plan {bytes : ℕ} (hword : plan.entries.length ≤ u64Max)
    (hbytes : plannedBytes (plannedFiles plan.entries) ≤ u64Max)
    (htotal : plannedBytes (plannedFiles plan.entries) = bytes)
    (h : planRequest env request world = (.ok plan, last)) :
    ExactProgress bytes (materializeNodeInState env request world) := by
  subst htotal
  rw [materializeNodeInState_of_plan h]
  intro reports result hpath
  obtain ⟨hchain, hresult⟩ := (tells_executePlan hword hbytes rfl last
    (.new plan.targetPath plan.entries) (.refl _)).path hpath
  have hshown : ∀ progress, resultProgress result.1 = some progress →
      (reports.getLastD (.new plan.targetPath plan.entries)).Follows
        (plannedBytes (plannedFiles plan.entries)) progress := by
    obtain ⟨error | done, final⟩ := result
    · exact hresult
    · intro progress hprogress
      obtain rfl := Option.some.inj hprogress
      exact hresult.1
  -- the reply is one more snapshot after the last report
  have hsnapshots : (MaterializeProgress.new plan.targetPath plan.entries ::
      snapshots reports result.1).IsChain
        (MaterializeProgress.Follows (plannedBytes (plannedFiles plan.entries))) := by
    rw [snapshots, ← List.cons_append, List.isChain_append]
    refine ⟨hchain, ?_, ?_⟩
    · cases resultProgress result.1 <;> simp
    · intro first hfirst second hsecond
      rw [List.getLast?_cons, ← List.getLastD_eq_getLast?, Option.mem_some_iff] at hfirst
      rw [← hfirst]
      refine hshown second ?_
      cases hlast : resultProgress result.1 with
      | none => simp [hlast] at hsecond
      | some progress => simpa [hlast] using hsecond
  obtain ⟨hfirst, hpairs⟩ := List.pairwise_cons.mp (List.isChain_iff_pairwise.mp hsnapshots)
  refine ⟨hpairs.imp fun hfollows => hfollows.atMost,
    fun progress hmem => ⟨(hfirst progress hmem).inBounds, (hfirst progress hmem).bytesTotal⟩, ?_⟩
  intro progress hok
  obtain ⟨_, final⟩ := result
  cases hok
  exact hresult.2

/-- A total that is no word is never shown. -/
theorem le_of_exactProgress {bytes : ℕ}
    (htotal : plannedBytes (plannedFiles plan.entries) = bytes)
    (h : planRequest env request world = (.ok plan, last))
    (hexact : ExactProgress bytes (materializeNodeInState env request world)) :
    bytes ≤ u64Max := by
  rw [materializeNodeInState_of_plan h] at hexact
  obtain ⟨next, hask⟩ := executePlan_asks env plan last
  rw [hask] at hexact
  obtain ⟨reports, result, hpath⟩ := (next (.ok none)).exists_path
  have hshown := ((hexact _ _ (.ask _ _ hpath)).2.1 _ List.mem_cons_self).2
  rw [MaterializeProgress.new_bytesTotal, htotal] at hshown
  unfold u64Max
  omega

end Runs

/-- The reports of a run are exact if and only if the declared sizes of the source add up to a word;
a request without a plan makes no report. -/
theorem exactProgress_iff (calls : List RuntimeCall) (env : Environment)
    (request : MaterializeBody) {world : World}
    (hruntime : world.runtime = Runtime.new.performAll calls) :
    ExactProgress (declaredBytes (env.planningRuntime world) world.mount request.sourcePath)
        (materializeNodeInState env request world) ↔
      (∃ status last, planRequest env request world = (.error status, last)) ∨
        declaredBytes (env.planningRuntime world) world.mount request.sourcePath ≤ u64Max := by
  rcases h : planRequest env request world with ⟨status | plan, last⟩
  · exact ⟨fun _ => .inl ⟨status, last, rfl⟩, fun _ => exactProgress_of_error _ h⟩
  obtain ⟨hword, htotal⟩ := planRequest_counted calls hruntime h
  constructor
  · intro hexact
    exact .inr (le_of_exactProgress htotal h hexact)
  · rintro (⟨_, _, herror⟩ | hbytes)
    · cases herror
    · exact exactProgress_of_plan hword (htotal ▸ hbytes) htotal h

end Daemon

/-- A directory with two files of these sizes, mounted over an empty filesystem. -/
def World.twoFiles (first second : UInt64) : World :=
  .fresh (Runtime.new.performAll [.op .registerProvider, .commitBuilder 1
      [⟨"d".toList, "n1".toList, .directory, ⟨0o755, 0, 0⟩⟩,
        ⟨"d/a".toList, "n2".toList, .file, ⟨0o644, first, 0⟩⟩,
        ⟨"d/b".toList, "n3".toList, .file, ⟨0o644, second, 0⟩⟩]])
    ⟨some "/m".toList, true⟩ .empty

namespace Daemon

theorem exactProgress_iff_small :
    ExactProgress 8 (materializeNodeInState .undisturbed
      ⟨"/m/promise-1/d".toList, "/".toList, .fail⟩ (.twoFiles 3 5)) := by
  have hbytes : declaredBytes (Environment.undisturbed.planningRuntime (.twoFiles 3 5))
      (World.twoFiles 3 5).mount "/m/promise-1/d".toList = 8 := by
    decide +kernel
  have hexact := (exactProgress_iff _ .undisturbed
    ⟨"/m/promise-1/d".toList, "/".toList, .fail⟩
    (show (World.twoFiles 3 5).runtime = _ from rfl)).mpr
    (.inr (by rw [hbytes]; decide))
  rwa [hbytes] at hexact

/-- The largest size and one byte more: the total that is shown is zero. -/
theorem not_exactProgress_of_wrap :
    declaredBytes (Environment.undisturbed.planningRuntime (.twoFiles 0xffffffffffffffff 1))
        (World.twoFiles 0xffffffffffffffff 1).mount "/m/promise-1/d".toList = 2 ^ 64 ∧
      (∃ first next, first.bytesTotal = 0 ∧
        materializeNodeInState .undisturbed ⟨"/m/promise-1/d".toList, "/".toList, .fail⟩
          (.twoFiles 0xffffffffffffffff 1) = .ask first next) ∧
      ¬ ExactProgress (2 ^ 64) (materializeNodeInState .undisturbed
        ⟨"/m/promise-1/d".toList, "/".toList, .fail⟩ (.twoFiles 0xffffffffffffffff 1)) := by
  have hplan : (planRequest .undisturbed ⟨"/m/promise-1/d".toList, "/".toList, .fail⟩
      (.twoFiles 0xffffffffffffffff 1)).1 = .ok ⟨"promise-1".toList, "/d".toList, .fail,
        [⟨"d".toList, "/d".toList, .directory, 0, 0o755, 0⟩,
          ⟨"d/a".toList, "/d/a".toList, .file, 0xffffffffffffffff, 0o644, 0⟩,
          ⟨"d/b".toList, "/d/b".toList, .file, 1, 0o644, 0⟩]⟩ := by
    decide +kernel
  have hrun := Prog.eq_ok_of_fst hplan
  obtain ⟨next, hask⟩ := executePlan_asks .undisturbed _ _
  refine ⟨by decide +kernel, ⟨_, next, ?_, (materializeNodeInState_of_plan hrun).trans hask⟩, ?_⟩
  · rw [MaterializeProgress.new_bytesTotal]
    decide
  · intro hexact
    have hle := le_of_exactProgress (by decide) hrun hexact
    exact absurd hle (by decide)

end Daemon

end FusePromise
