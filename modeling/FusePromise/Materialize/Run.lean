import FusePromise.Foundation.Dialogue
import FusePromise.Ipc.System
import FusePromise.Materialize.Target

/-!
# A materialize run

`materialize_node_in_state` with everything it calls.  It works on a `World`: the
runtime, the target filesystem and the counters it shares with the rest of the
daemon.  No other process touches the filesystem.

What the run does not decide comes from an `Environment`, which is asked at every
system call, provider read and lock, in the order of the run: it says whether the
call fails, what the provider answers, and what the other threads have done to
the runtime meanwhile.  A failure never says that something is missing, `stat` of
an object that was just created does not fail, and neither do the calls of the
cleanup.

The client is not part of the environment.  A progress report is a question, and
what was read from the client's stream is its answer; so the part of the run that
reports is a `Dialogue`, and the rest are programs that ask nothing.
-/

namespace FusePromise

open Machine Program

/-- An operation that marks a node as materialized. -/
def RuntimeOp.isMark : RuntimeOp → Bool
  | .markNodeMaterialized _ _ _ => true
  | _ => false

/-- What the other threads do while the run waits for a lock or an answer: operations on
the runtime, and request ids taken from the shared counter. -/
structure Gap where
  ops : List { op : RuntimeOp // op.isMark = false }
  idsTaken : ℕ

/-- What a run cannot know, by the number of its question. -/
structure Environment where
  processId : ℕ
  now : ℕ → ℤ
  fault : ℕ → Option { errno : Unix.Errno // errno ≠ .noent }
  /-- How much of the data a failing write has written. -/
  written : ℕ → ℕ
  gap : ℕ → Gap
  answer : ℕ → ProviderReadRequest → IoResult ProviderReadResponse

/-- A chunk that was read from an earlier copy of its file. -/
structure CopiedChunk where
  promiseId : Text
  relativePath : Text
  offset : ℕ
  bytes : List UInt8
  deriving DecidableEq

/-- The state a run works on.  The last four fields are a record of what happened: the plan,
the nodes marked, the chunks read from earlier copies, and how often the environment or
the client has made the run fail. -/
structure World where
  runtime : Runtime
  mount : IpcMountStatus
  nextReadRequestId : ℕ
  tempCounter : ℕ
  fs : Unix.FileSystem
  tick : ℕ
  plan : Option MaterializePlan
  marked : List Text
  copied : List CopiedChunk
  failures : ℕ

/-- What became of a progress frame: the error of the write or of the read that follows it,
or the frame that was read, if the stream was not over. -/
abbrev ProgressAnswer := IoResult (Option Request)

/-- A part of a run that reports nothing. -/
abbrev Daemon := Prog World
/-- A part of a run that reports progress. -/
abbrev Reporting := Dialogue MaterializeProgress ProgressAnswer World

/-! ## Asking the environment -/

def errnoKind : Unix.Errno → ErrorKind
  | .noent => .notFound
  | .exist => .alreadyExists
  | .acces | .perm => .permissionDenied
  | .inval => .invalidInput
  | .intr => .interrupted
  | .notdir | .isdir | .loop | .notempty | .nospc | .io => .other

/-- `io_error_to_status` of the error of a call. -/
def errnoToStatus (errno : Unix.Errno) : Status :=
  ioErrorToStatus ⟨errnoKind errno, ""⟩

namespace Daemon

variable {ε α : Type}

/-- The number of this question to the environment. -/
def nextTick : Daemon ε ℕ := fun world =>
  (.ok world.tick, { world with tick := world.tick + 1 })

/-- The environment has made the run fail. -/
def noteFailure : Daemon ε Unit :=
  Prog.modify fun world => { world with failures := world.failures + 1 }

/-- A system call, which may also fail for no reason of its own. -/
def call (env : Environment) (op : ℤ → Unix.FileSystem → Except Unix.Errno (Unix.FileSystem × α)) :
    Daemon Unix.Errno α := do
  let tick ← nextTick
  match env.fault tick with
  | some errno => do
      noteFailure
      Prog.fail errno.val
  | none =>
      let world ← Prog.get
      match op (env.now tick) world.fs with
      | .error errno => Prog.fail errno
      | .ok (fs, value) => do
          Prog.set { world with fs }
          return value

/-- A call that changes nothing. -/
def inspect (env : Environment) (op : Unix.FileSystem → Except Unix.Errno α) :
    Daemon Unix.Errno α :=
  call env fun _ fs => do
    let value ← op fs
    return (fs, value)

/-- A call that changes something and returns nothing. -/
def change (env : Environment) (op : ℤ → Unix.FileSystem → Except Unix.Errno Unix.FileSystem) :
    Daemon Unix.Errno Unit :=
  call env fun now fs => do
    let next ← op now fs
    return (next, ())

/-- A call of the cleanup: its result is dropped. -/
def quietly (env : Environment)
    (op : ℤ → Unix.FileSystem → Except Unix.Errno Unix.FileSystem) : Daemon ε Unit := do
  let tick ← nextTick
  Prog.modify fun world =>
    match op (env.now tick) world.fs with
    | .ok fs => { world with fs }
    | .error _ => world

/-- The runtime, after what the other threads did before its lock was taken. -/
def lockRuntime (env : Environment) : Daemon ε Runtime := do
  let tick ← nextTick
  let world ← Prog.get
  let runtime := world.runtime.run ((env.gap tick).ops.map Subtype.val)
  Prog.set { world with
    runtime
    nextReadRequestId := wrappingAdd world.nextReadRequestId (env.gap tick).idsTaken }
  return runtime

/-! ## Reporting to the client -/

/-- What the answer to a progress frame means. -/
def progressDecision : ProgressAnswer → Result Unit
  | .error _ => .error .cancelled
  | .ok (some .materializeContinue) => .ok ()
  | .ok (some .materializeCancel) | .ok none => .error .cancelled
  | .ok (some _) => .error .invalidArgument

/-- A refusal ends the run. -/
def reportProgress (progress : MaterializeProgress) : Reporting Status Unit :=
  Dialogue.ask progress fun answer =>
    match progressDecision answer with
    | .ok () => return
    | .error status => do
        noteFailure
        Prog.fail status

/-! ## Planning -/

def symlinkMetadata (env : Environment) (path : Text) : Daemon Unix.Errno Unix.Object :=
  inspect env fun fs => fs.lstat path

/-- The target directory has an absolute path and is a directory, not a link to one. -/
def validateTargetDir (env : Environment) (targetDir : Text) : Daemon Status Unit :=
  if ¬ isAbsolute targetDir then Prog.fail .invalidArgument
  else do
    let metadata ← (symlinkMetadata env targetDir).mapError errnoToStatus
    if metadata.body = .directory then return else Prog.fail .invalidArgument

/-- The loop over the candidates, from the given attempt on. -/
def uniqueFrom (env : Environment) (targetDir targetName : Text) (targetKind : NodeKind) :
    ℕ → ℕ → Daemon Status Text
  | 0, _ => Prog.fail .alreadyExists
  | left + 1, attempt => do
      let candidate := pathJoin targetDir
        (if attempt = 0 then targetName else renameCandidateName targetName targetKind attempt)
      match ← (symlinkMetadata env candidate).attempt with
      | .ok _ => uniqueFrom env targetDir targetName targetKind left (attempt + 1)
      | .error errno =>
          if errno = .noent then return candidate else Prog.fail (errnoToStatus errno)

def uniqueMaterializeTargetPath (env : Environment) (targetDir targetName : Text)
    (targetKind : NodeKind) : Daemon Status Text :=
  uniqueFrom env targetDir targetName targetKind 1024 0

/-- Only a policy that renames looks for a free name. -/
def materializeTargetPath (env : Environment) (targetDir targetName : Text)
    (targetKind : NodeKind) (conflictPolicy : MaterializeConflictPolicy) : Daemon Status Text :=
  if conflictPolicy ≠ .rename then return pathJoin targetDir targetName
  else uniqueMaterializeTargetPath env targetDir targetName targetKind

/-- The target of an entry, if it exists and may be used. -/
def existingTarget (env : Environment) (entry : MaterializeEntryPlan)
    (conflictPolicy : MaterializeConflictPolicy) : Daemon Status (Option Unix.Object) := do
  match ← (symlinkMetadata env entry.targetPath).attempt with
  | .ok metadata => do
      Prog.ofExcept (validateExistingMaterializeTarget entry metadata conflictPolicy)
      return some metadata
  | .error errno => if errno = .noent then return none else Prog.fail (errnoToStatus errno)

/-- Every target is looked at before anything is made. -/
def preflightMaterializeTargets (env : Environment) (conflictPolicy : MaterializeConflictPolicy) :
    List MaterializeEntryPlan → Daemon Status Unit
  | [] => return
  | entry :: rest => do
      let _ ← existingTarget env entry conflictPolicy
      preflightMaterializeTargets env conflictPolicy rest

/-- The plan is made from the runtime as it is under one lock. -/
def planMaterialize (env : Environment) (request : MaterializeBody) :
    Daemon Status MaterializePlan := do
  validateTargetDir env request.targetDir
  let world ← Prog.get
  let (promiseId, relativePath) ←
    Prog.ofExcept (world.mount.resolveVisiblePath request.sourcePath)
  let runtime ← lockRuntime env
  let tree ← Prog.ofExcept (okOr (runtime.promise promiseId) .notFound)
  if tree.state ≠ .available ∨ ¬ runtime.hasProvider tree.providerId then
    Prog.fail .providerGone
  else do
    let nodes ← Prog.ofExcept (tree.subtreeNodes relativePath)
    let root ← Prog.ofExcept (okOr nodes.head? .notFound)
    let name ← Prog.ofExcept (materializeTargetName promiseId root)
    let targetPath ← materializeTargetPath env request.targetDir name root.kind
      request.conflictPolicy
    let entries ← Prog.ofExcept (nodes.mapM (entryPlan relativePath targetPath))
    preflightMaterializeTargets env request.conflictPolicy entries
    return ⟨promiseId, targetPath, request.conflictPolicy, entries⟩

/-! ## Cleanup -/

/-- `stat` of an object that is there does not fail in the cleanup. -/
def lstatQuietly (path : Text) : Daemon ε (Option Unix.Object) := do
  let world ← Prog.get
  match world.fs.lstat path with
  | .ok metadata => return some metadata
  | .error _ => return none

/-- Do something to a target that is still the object the run has made. -/
def ifSameTarget (target : CreatedTarget) (action : Daemon ε Unit) : Daemon ε Unit := do
  match ← lstatQuietly target.path with
  | some metadata => if metadata.identity = target.identity then action else return
  | none => return

/-- A directory that is still the one on record can be entered and written again. -/
def restoreCreatedDirectoryPermissions (env : Environment) (target : CreatedTarget) :
    Daemon ε Unit :=
  ifSameTarget target (quietly env fun _ fs => fs.chmod target.path 0o700)

/-- Only what is still the object on record is removed.  A failure is ignored. -/
def removeCreatedTarget (env : Environment) (target : CreatedTarget) : Daemon ε Unit :=
  ifSameTarget target <|
    match target.kind with
    | .file => quietly env fun now fs => fs.unlink target.path now
    | .directory => quietly env fun now fs => fs.rmdir target.path now

def forEach {β : Type} (action : β → Daemon ε Unit) : List β → Daemon ε Unit
  | [] => return
  | item :: rest => do
      action item
      forEach action rest

/-- Open all new directories first, then remove in reverse order. -/
def cleanupCreatedTargets (env : Environment) (created : List CreatedTarget) : Daemon ε Unit := do
  forEach (restoreCreatedDirectoryPermissions env)
    (created.filter fun target => target.kind = .directory ∧ target.removeOnCleanup)
  forEach (removeCreatedTarget env) (created.reverse.filter CreatedTarget.removeOnCleanup)

/-- A step of the run: when it fails, what was created is cleaned up. -/
def orCleanup (env : Environment) (created : List CreatedTarget) (progress : MaterializeProgress)
    (step : Reporting Status α) : Reporting MaterializeOperationError α :=
  step.orElse fun status => do
    cleanupCreatedTargets env created
    Prog.fail ⟨status, some progress⟩

/-! ## Directories -/

/-- `stat` of an object that was just created. -/
def createdIdentity (path : Text) : Daemon Status ℕ := do
  let world ← Prog.get
  match world.fs.lstat path with
  | .ok metadata => return metadata.identity
  | .error errno => Prog.fail (errnoToStatus errno)

/-- A directory that is there is used, and is not removed by the cleanup. -/
def createMaterializedDirectory (env : Environment) (entry : MaterializeEntryPlan)
    (conflictPolicy : MaterializeConflictPolicy) : Daemon Status CreatedTarget := do
  match ← existingTarget env entry conflictPolicy with
  | some metadata => return ⟨entry.targetPath, metadata.identity, .directory, false⟩
  | none => do
      (change env fun now fs => fs.mkdir entry.targetPath 0o700 now).mapError errnoToStatus
      let identity ← createdIdentity entry.targetPath
      return ⟨entry.targetPath, identity, .directory, true⟩

def applyMtime (env : Environment) (file : Unix.Loc) (mtimeNsec : ℤ) : Daemon Status Unit :=
  (change env fun _ fs =>
    fs.futimens file (mtimeNsec.tdiv 1000000000) (mtimeNsec.tmod 1000000000)).mapError errnoToStatus

/-- `set_permissions` on an open file. -/
def setPermissions (env : Environment) (file : Unix.Loc) (mode : UInt32) : Daemon Status Unit :=
  (change env fun _ fs => .ok (fs.chmodAt file (mode &&& 0o7777))).mapError errnoToStatus

/-- The directory is opened, and has to be the one on record. -/
def applyDirectoryMetadata (env : Environment) (entry : MaterializeEntryPlan) (expected : ℕ) :
    Daemon Status Unit := do
  let directory ← (inspect env fun fs => fs.openRead entry.targetPath).mapError errnoToStatus
  let metadata ← (inspect env fun fs => fs.found directory).mapError errnoToStatus
  if metadata.identity ≠ expected then Prog.fail .unavailable
  else do
    setPermissions env directory entry.mode
    applyMtime env directory entry.mtimeNsec

/-! ## Reading a chunk -/

/-- The bytes of an answer that passes the checks of `route_provider_read`. -/
def providerChunk (request : ProviderReadRequest) (answer : IoResult ProviderReadResponse) :
    Result (List UInt8) := do
  let response ← answer.mapError ioErrorToStatus
  (validateProviderReadResponseForRequest request response).mapError ioErrorToStatus
  if response.status = .ok then return response.bytes
  else .error (providerReadStatusToStatus response.status)

/-- The request of a plan, with the next id. -/
def newProviderReadRequest (plan : ProviderReadPlan) : Daemon ε ProviderReadRequest := do
  let world ← Prog.get
  Prog.set { world with nextReadRequestId := wrappingAdd world.nextReadRequestId 1 }
  return {
    requestId := world.nextReadRequestId
    providerId := plan.providerId
    promiseId := plan.promiseId
    relativePath := plan.relativePath
    providerNodeId := plan.providerNodeId
    offset := plan.offset
    length := plan.length }

/-- An empty answer counts as a failure of the provider. -/
def readMaterializeProviderChunk (env : Environment) (plan : ProviderReadPlan) :
    Daemon Status (List UInt8) := do
  let request ← newProviderReadRequest plan
  -- `route_provider_read` sends a valid request only
  let _ ← Prog.ofExcept (request.intoBody.mapError ioErrorToStatus)
  let _ ← lockRuntime env
  let tick ← nextTick
  match providerChunk request (env.answer tick request) with
  | .ok [] => do
      noteFailure
      return []
  | .ok bytes => return bytes
  | .error status => do
      noteFailure
      Prog.fail status

/-- A copy that is too short is an error. -/
def readLocalMaterializedChunk (env : Environment) (path : Text) (offset length : ℕ) :
    Daemon Status (List UInt8) := do
  let file ← (inspect env fun fs => fs.openRead path).mapError errnoToStatus
  let bytes ← (inspect env fun fs => fs.readAt file offset length).mapError errnoToStatus
  if bytes.length ≠ length then Prog.fail .io else return bytes

/-- Without the provider an earlier copy or the cache may do. -/
def readMaterializeChunk (env : Environment) (promiseId : Text) (entry : MaterializeEntryPlan)
    (offset length : ℕ) : Daemon Status (List UInt8) := do
  let runtime ← lockRuntime env
  match runtime.planProviderRead promiseId entry.relativePath offset length with
  | .ok plan => readMaterializeProviderChunk env plan
  | .error .providerGone => do
      let runtime ← lockRuntime env
      match ← Prog.ofExcept (runtime.planRead promiseId entry.relativePath offset length) with
      | .request plan => readMaterializeProviderChunk env plan
      | .materialized plan => do
          let bytes ← readLocalMaterializedChunk env plan.path plan.offset plan.length
          Prog.modify fun world =>
            { world with
              copied := world.copied ++ [⟨promiseId, entry.relativePath, plan.offset, bytes⟩] }
          return bytes
      | .cached bytes => return bytes
      | .eof => Prog.fail .io
  | .error status => Prog.fail status

/-! ## Files -/

def openMaterializeOutput (env : Environment) (path : Text) :
    Daemon MaterializeWriteError (Unix.Loc × ℕ) := do
  let file ← (call env fun now fs => fs.openNew path 0o600 now).mapError fun errno =>
    .withoutCreatedTarget (errnoToStatus errno)
  let world ← Prog.get
  match world.fs.found file with
  | .ok metadata => return (file, metadata.identity)
  | .error errno => Prog.fail (.withoutCreatedTarget (errnoToStatus errno))

/-- A file that was not there is written in place. -/
def openFinalMaterializedFile (env : Environment) (entry : MaterializeEntryPlan)
    (removeOnCleanup : Bool) : Daemon MaterializeWriteError MaterializeFileTarget := do
  let (file, identity) ← openMaterializeOutput env entry.targetPath
  return {
    file
    writeTarget := ⟨entry.targetPath, identity, .file, removeOnCleanup⟩
    finalPath := entry.targetPath
    finalRemoveOnCleanup := removeOnCleanup
    replaceOnSuccess := false }

/-- The next number for a temporary name. -/
def nextTempAttempt : Daemon ε ℕ := do
  let world ← Prog.get
  Prog.set { world with tempCounter := wrappingAdd world.tempCounter 1 }
  return world.tempCounter

/-- The loop over the temporary names. -/
def openReplacement (env : Environment) (entry : MaterializeEntryPlan) :
    ℕ → Daemon MaterializeWriteError MaterializeFileTarget
  | 0 => Prog.fail (.withoutCreatedTarget .alreadyExists)
  | left + 1 => do
      let attempt ← nextTempAttempt
      let tempPath ← (Prog.ofExcept (materializeTempPath env.processId entry.targetPath
        attempt)).mapError .withoutCreatedTarget
      match ← (openMaterializeOutput env tempPath).attempt with
      | .ok (file, identity) =>
          return {
            file
            writeTarget := ⟨tempPath, identity, .file, true⟩
            finalPath := entry.targetPath
            finalRemoveOnCleanup := false
            replaceOnSuccess := true }
      | .error error =>
          if error.status = .alreadyExists then openReplacement env entry left
          else Prog.fail error

/-- A file that is there is written beside its place, under one of sixteen names. -/
def openReplacementMaterializedFile (env : Environment) (entry : MaterializeEntryPlan) :
    Daemon MaterializeWriteError MaterializeFileTarget :=
  openReplacement env entry 16

def openMaterializedFile (env : Environment) (entry : MaterializeEntryPlan)
    (conflictPolicy : MaterializeConflictPolicy) :
    Daemon MaterializeWriteError MaterializeFileTarget := do
  let existing ← (existingTarget env entry conflictPolicy).mapError .withoutCreatedTarget
  match conflictPolicy with
  | .fail => openFinalMaterializedFile env entry true
  | .overwrite =>
      if existing.isSome then openReplacementMaterializedFile env entry
      else openFinalMaterializedFile env entry true
  | .rename => openFinalMaterializedFile env entry true

/-- `write_all` on an open file: a failure leaves a part of the data written. -/
def writeAll (env : Environment) (file : Unix.Loc) (bytes : List UInt8) : Daemon Status Unit := do
  let tick ← nextTick
  match env.fault tick with
  | some errno => do
      noteFailure
      Prog.modify fun world =>
        { world with fs := world.fs.appendAt file (bytes.take (env.written tick)) (env.now tick) }
      Prog.fail (errnoToStatus errno.val)
  | none =>
      Prog.modify fun world => { world with fs := world.fs.appendAt file bytes (env.now tick) }

/-- The loop over the chunks of a file.  Each turn writes at least one byte, so the bytes
that are left bound the number of turns. -/
def writeChunks (env : Environment) (promiseId : Text) (entry : MaterializeEntryPlan)
    (target : MaterializeFileTarget) (reportFileProgress : ℕ → Reporting Status Unit) :
    ℕ → ℕ → Reporting MaterializeWriteError ℕ
  | 0, offset => return offset
  | left + 1, offset =>
      if entry.size.toNat ≤ offset then return offset
      else do
        let length := min (entry.size.toNat - offset) maxProviderReadLen
        let bytes ← (readMaterializeChunk env promiseId entry offset length).mapError
          (MaterializeWriteError.withTarget target.writeTarget offset)
        if bytes = [] then Dialogue.lift (Prog.fail (.withTarget target.writeTarget offset .io))
        else do
          (writeAll env target.file bytes).mapError
            (MaterializeWriteError.withTarget target.writeTarget offset)
          match checkedAdd offset bytes.length with
          | none =>
              Dialogue.lift (Prog.fail (.withTarget target.writeTarget offset .invalidArgument))
          | some next => do
              (reportFileProgress next).mapError
                (MaterializeWriteError.withTarget target.writeTarget next)
              writeChunks env promiseId entry target reportFileProgress left next

/-- What was written beside its place is renamed. -/
def finalizeMaterializedFile (env : Environment) (target : MaterializeFileTarget)
    (bytesWritten : ℕ) : Daemon MaterializeWriteError CreatedTarget := do
  if target.replaceOnSuccess then
    (change env fun now fs => fs.rename target.writeTarget.path target.finalPath now).mapError
      fun errno => .withTarget target.writeTarget bytesWritten (errnoToStatus errno)
  return ⟨target.finalPath, target.writeTarget.identity, .file, target.finalRemoveOnCleanup⟩

/-- The mode and the date come before the rename. -/
def writeMaterializedFile (env : Environment) (promiseId : Text) (entry : MaterializeEntryPlan)
    (conflictPolicy : MaterializeConflictPolicy) (reportFileProgress : ℕ → Reporting Status Unit) :
    Reporting MaterializeWriteError MaterializeFileOutcome := do
  let target ← openMaterializedFile env entry conflictPolicy
  let offset ← writeChunks env promiseId entry target reportFileProgress entry.size.toNat 0
  (setPermissions env target.file entry.mode).mapError
    (MaterializeWriteError.withTarget target.writeTarget offset)
  (applyMtime env target.file entry.mtimeNsec).mapError
    (MaterializeWriteError.withTarget target.writeTarget offset)
  let created ← finalizeMaterializedFile env target offset
  return ⟨offset, created⟩

/-! ## The run -/

/-- The loop over the directories. -/
def createDirectories (env : Environment) (conflictPolicy : MaterializeConflictPolicy) :
    List MaterializeEntryPlan → MaterializeProgress → List CreatedTarget →
      Reporting MaterializeOperationError (MaterializeProgress × List CreatedTarget)
  | [], progress, created => return (progress, created)
  | entry :: rest, progress, created => do
      let target ← orCleanup env created progress
        (Dialogue.lift (createMaterializedDirectory env entry conflictPolicy))
      let progress := { progress with
        directoriesCreated :=
          if target.removeOnCleanup then wrappingAdd progress.directoriesCreated 1
          else progress.directoriesCreated
        entriesDone := wrappingAdd progress.entriesDone 1 }
      orCleanup env (created ++ [target]) progress (reportProgress progress)
      createDirectories env conflictPolicy rest progress (created ++ [target])

/-- The loop over the files. -/
def writeFiles (env : Environment) (promiseId : Text)
    (conflictPolicy : MaterializeConflictPolicy) :
    List MaterializeEntryPlan → MaterializeProgress → List CreatedTarget →
      Reporting MaterializeOperationError (MaterializeProgress × List CreatedTarget)
  | [], progress, created => return (progress, created)
  | entry :: rest, progress, created => do
      let writing (bytes : ℕ) : MaterializeProgress :=
        { progress with bytesWritten := wrappingAdd progress.bytesWritten bytes }
      let outcome ← (writeMaterializedFile env promiseId entry conflictPolicy
          fun bytes => reportProgress (writing bytes)).orElse fun error => do
        cleanupCreatedTargets env (created ++ error.target.toList)
        Prog.fail ⟨error.status, some (writing error.bytesWritten)⟩
      let progress := { writing outcome.bytesWritten with
        filesWritten := wrappingAdd progress.filesWritten 1
        entriesDone := wrappingAdd progress.entriesDone 1 }
      orCleanup env (created ++ [outcome.target]) progress (reportProgress progress)
      writeFiles env promiseId conflictPolicy rest progress (created ++ [outcome.target])

/-- The directory of an entry among the targets.  Paths are equal when their components are. -/
def createdDirectory (created : List CreatedTarget) (entry : MaterializeEntryPlan) :
    Option CreatedTarget :=
  created.find? fun target =>
    target.kind = .directory ∧ components target.path = components entry.targetPath

/-- A directory that is not on record is an error. -/
def applyEntryMetadata (env : Environment) (created : List CreatedTarget)
    (entry : MaterializeEntryPlan) : Daemon Status Unit :=
  match createdDirectory created entry with
  | none => Prog.fail .io
  | some target => applyDirectoryMetadata env entry target.identity

/-- The loop over the entries under the runtime's lock. -/
def markEntries (promiseId : Text) : List MaterializeEntryPlan → Daemon Status Unit
  | [] => return
  | entry :: rest => do
      let world ← Prog.get
      let runtime ← Prog.ofExcept
        (world.runtime.markNodeMaterialized promiseId entry.relativePath entry.targetPath)
      Prog.set { world with runtime, marked := world.marked ++ [entry.relativePath] }
      markEntries promiseId rest

/-- What follows the plan. -/
def executePlan (env : Environment) (plan : MaterializePlan) :
    Reporting MaterializeOperationError MaterializeProgress := do
  let directories := plan.entries.filter fun entry => entry.kind = .directory
  let files := plan.entries.filter fun entry => entry.kind = .file
  let progress := MaterializeProgress.new plan.targetPath plan.entries
  orCleanup env [] progress (reportProgress progress)
  let (progress, created) ← createDirectories env plan.conflictPolicy directories progress []
  let (progress, created) ← writeFiles env plan.promiseId plan.conflictPolicy files progress created
  orCleanup env created progress
    (Dialogue.lift (forEach (applyEntryMetadata env created) directories.reverse))
  orCleanup env created progress (Dialogue.lift do
    let _ ← lockRuntime env
    markEntries plan.promiseId plan.entries)
  return progress

/-- The plan of a request, which is put on record. -/
def planRequest (env : Environment) (request : MaterializeBody) :
    Daemon Status MaterializePlan := do
  let request ← Prog.ofExcept request.checked
  let plan ← planMaterialize env request
  Prog.modify fun world => { world with plan := some plan }
  return plan

/-- The reply has the fields of the last progress. -/
def materializeNodeInState (env : Environment) (request : MaterializeBody) :
    Reporting MaterializeOperationError MaterializeProgress := do
  let plan ← (planRequest env request).mapError MaterializeOperationError.withoutProgress
  executePlan env plan

end Daemon

end FusePromise
