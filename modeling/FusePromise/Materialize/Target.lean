import FusePromise.Ipc.Mount
import FusePromise.Runtime.State
import FusePromise.Unix.Calls

/-!
# Targets of a materialize request

The request, the plan made from it and the records of a run, with the functions
that compute names and paths: where the root of the copy goes, what it is called
when the name is taken, where each node goes below it, and the temporary name
under which a file is written before it replaces another one.
-/

namespace FusePromise

open Machine

/-! ## `std::path` on Unix -/

/-- A segment that `Path::components` drops. -/
def skipped (segment : Text) : Bool :=
  segment = [] ∨ segment = ['.']

/-- `Path::parent`: the text before the last component, without separators and `.` at
its end.  A `.` at the start of a relative path is a component. -/
def pathParent (path : Text) : Option Text :=
  let leading := (segments path).head? = some ['.']
  match (segments path).reverse.dropWhile skipped with
  | [] => if leading then some [] else none
  | _ :: before =>
      match before.dropWhile skipped with
      | [] => some (if isAbsolute path then ['/'] else if leading then ['.'] else [])
      | rest => some (joinNames rest.reverse)

/-- `Path::file_name`. -/
def pathFileName (path : Text) : Option Text :=
  match (components path).getLast? with
  | some (.normal name) => some name
  | _ => none

/-- The stem and the extension of a name with a dot that is not its first character. -/
def splitExtension (name : Text) : Option (Text × Text) :=
  if name = ['.', '.'] then none
  else
    match (name.splitOn '.').reverse with
    | extension :: last :: before =>
        let stem := ['.'].intercalate (last :: before).reverse
        if stem = [] then none else some (stem, extension)
    | _ => none

/-! ## Requests and plans -/

/-- What to do about a target that is there. -/
inductive MaterializeConflictPolicy
  | fail
  | overwrite
  | rename
  deriving DecidableEq

/-- The body of a materialize request. -/
structure MaterializeBody where
  sourcePath : Text
  targetDir : Text
  conflictPolicy : MaterializeConflictPolicy
  deriving DecidableEq

/-- The request is its body once both paths are given. -/
def MaterializeBody.checked (body : MaterializeBody) : Result MaterializeBody :=
  if body.sourcePath = [] ∨ body.targetDir = [] then .error .invalidArgument else .ok body

/-- A node that is to be copied, and where to. -/
structure MaterializeEntryPlan where
  relativePath : Text
  targetPath : Text
  kind : NodeKind
  size : UInt64
  mode : UInt32
  mtimeNsec : ℤ
  deriving DecidableEq

/-- The nodes of a request, with their targets. -/
structure MaterializePlan where
  promiseId : Text
  targetPath : Text
  conflictPolicy : MaterializeConflictPolicy
  entries : List MaterializeEntryPlan
  deriving DecidableEq

/-! ## Names and paths of targets -/

/-- A whole promise is copied under its own name. -/
def materializeTargetName (promiseId : Text) (node : PromiseNode) : Result Text :=
  if node.relativePath = [] then .ok promiseId
  else if node.name = [] then .error .invalidArgument
  else .ok node.name

/-- The path of a node below the source. -/
def subtreeTargetSuffix (sourceRelativePath nodeRelativePath : Text) : Result Text :=
  if nodeRelativePath = sourceRelativePath then .ok []
  else if sourceRelativePath = [] then .ok nodeRelativePath
  else okOr ((sourceRelativePath ++ ['/']).isPrefixOf? nodeRelativePath) .invalidArgument

/-- The entry planned for a node of the subtree. -/
def entryPlan (sourceRelativePath targetPath : Text) (node : PromiseNode) :
    Result MaterializeEntryPlan := do
  let suffix ← subtreeTargetSuffix sourceRelativePath node.relativePath
  return {
    relativePath := node.relativePath
    targetPath := if suffix = [] then targetPath else pathJoin targetPath suffix
    kind := node.kind
    size := node.attr.size
    mode := node.attr.mode
    mtimeNsec := node.attr.mtimeNsec }

/-- `format!(" (\x7b\x7d)", attempt)`. -/
def attemptMark (attempt : ℕ) : Text :=
  " (".toList ++ Nat.toDigits 10 attempt ++ [')']

/-- The number of a file goes before its extension. -/
def renameCandidateName (targetName : Text) (targetKind : NodeKind) (attempt : ℕ) : Text :=
  if targetKind = .directory then targetName ++ attemptMark attempt
  else
    match splitExtension targetName with
    | none => targetName ++ attemptMark attempt
    | some (stem, extension) => stem ++ attemptMark attempt ++ '.' :: extension

/-- `.NAME.fuse-promise-tmp-PID-ATTEMPT`. -/
def materializeTempName (processId : ℕ) (fileName : Text) (attempt : ℕ) : Text :=
  '.' :: fileName ++ ".fuse-promise-tmp-".toList ++ Nat.toDigits 10 processId ++
    '-' :: Nat.toDigits 10 attempt

/-- A hidden name beside the target. -/
def materializeTempPath (processId : ℕ) (targetPath : Text) (attempt : ℕ) : Result Text := do
  let parent ← okOr (pathParent targetPath) .invalidArgument
  let fileName ← okOr (pathFileName targetPath) .invalidArgument
  return pathJoin parent (materializeTempName processId fileName attempt)

/-- What a target that exists must be. -/
def validateExistingMaterializeTarget (entry : MaterializeEntryPlan) (metadata : Unix.Object)
    (conflictPolicy : MaterializeConflictPolicy) : Result Unit :=
  match metadata.body with
  | .symlink _ => .error .invalidArgument
  | body =>
      match conflictPolicy with
      | .fail | .rename => .error .alreadyExists
      | .overwrite =>
          match entry.kind, body with
          | .directory, .directory => .ok ()
          | .file, .file _ => .ok ()
          | _, _ => .error .alreadyExists

/-! ## Records of a run -/

inductive MaterializeTargetKind
  | file
  | directory
  deriving DecidableEq

/-- A target on record; one that was there before is not removed. -/
structure CreatedTarget where
  path : Text
  identity : ℕ
  kind : MaterializeTargetKind
  removeOnCleanup : Bool
  deriving DecidableEq

/-- What a client is told. -/
structure MaterializeProgress where
  targetPath : Text
  entriesDone : ℕ
  entriesTotal : ℕ
  bytesWritten : ℕ
  bytesTotal : ℕ
  filesWritten : ℕ
  filesTotal : ℕ
  directoriesCreated : ℕ
  directoriesTotal : ℕ
  deriving DecidableEq

/-- The counters are 64-bit words, which wrap around. -/
def MaterializeProgress.new (targetPath : Text) (entries : List MaterializeEntryPlan) :
    MaterializeProgress :=
  let files := entries.filter fun entry => entry.kind = .file
  let directories := entries.filter fun entry => entry.kind = .directory
  { targetPath
    entriesDone := 0
    entriesTotal := entries.length
    bytesWritten := 0
    bytesTotal := (files.map fun entry => entry.size.toNat).foldl wrappingAdd 0
    filesWritten := 0
    filesTotal := files.length
    directoriesCreated := 0
    directoriesTotal := directories.length }

/-- Something had been made when the run stopped. -/
def MaterializeProgress.hasPartial (progress : MaterializeProgress) : Bool :=
  progress.bytesWritten > 0 ∨ progress.filesWritten > 0 ∨ progress.directoriesCreated > 0

/-- The error of a run, with the last progress if there was any. -/
structure MaterializeOperationError where
  status : Status
  progress : Option MaterializeProgress
  deriving DecidableEq

def MaterializeOperationError.withoutProgress (status : Status) : MaterializeOperationError :=
  ⟨status, none⟩

structure MaterializeFileOutcome where
  bytesWritten : ℕ
  target : CreatedTarget
  deriving DecidableEq

/-- A file that is open for writing, and what becomes of it. -/
structure MaterializeFileTarget where
  file : Unix.Loc
  writeTarget : CreatedTarget
  finalPath : Text
  finalRemoveOnCleanup : Bool
  replaceOnSuccess : Bool

/-- The error of a file, with what has to be cleaned up for it. -/
structure MaterializeWriteError where
  status : Status
  target : Option CreatedTarget
  bytesWritten : ℕ
  deriving DecidableEq

def MaterializeWriteError.withoutCreatedTarget (status : Status) : MaterializeWriteError :=
  ⟨status, none, 0⟩

def MaterializeWriteError.withTarget (target : CreatedTarget) (bytesWritten : ℕ)
    (status : Status) : MaterializeWriteError :=
  ⟨status, some target, bytesWritten⟩

end FusePromise
