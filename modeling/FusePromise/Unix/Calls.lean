import FusePromise.Unix.FileSystem

/-!
# System calls

The calls a program makes on paths, as functions of the filesystem.  A path is
resolved from the root.  A call that changes the entries of a directory needs to
search and write it, and sets its modification time to `now`.  An open file is
the location it was found at.
-/

namespace Unix

/-- The kernel's limit for the links of one walk. -/
def linkLimit : ℕ := 40

/-- The time a timestamp stands for, unless its nanoseconds are out of range. -/
def timespec (seconds nanoseconds : ℤ) : Except Errno ℤ :=
  if 0 ≤ nanoseconds ∧ nanoseconds < 1000000000 then .ok (seconds * 1000000000 + nanoseconds)
  else .error .inval

namespace FileSystem

/-! ## Resolving paths -/

def view (fs : FileSystem) (checked : Bool) (loc : Loc) : Option View :=
  (fs.get loc).map (Object.view checked)

/-- Where a path leads, through all links. -/
def resolve (fs : FileSystem) (path : List Char) : Except Errno Loc :=
  walk (fs.view true) linkLimit [] (path.splitOn '/')

/-- Where a path leads, whether or not it may be walked. -/
def locate (fs : FileSystem) (path : List Char) : Except Errno Loc :=
  walk (fs.view false) linkLimit [] (path.splitOn '/')

/-- The directory that holds the last segment of a path, and that segment. -/
def lookupParent (fs : FileSystem) (path : List Char) : Except Errno (Loc × Name) := do
  let segments := path.splitOn '/'
  let dir ← walk (fs.view true) linkLimit [] segments.dropLast
  match fs.view true dir with
  | some .directory => .ok (dir, segments.getLastD [])
  | some .locked => .error .acces
  | some _ => .error .notdir
  | none => .error .noent

/-- The object at a place, as `fstat` finds it. -/
def found (fs : FileSystem) (loc : Loc) : Except Errno Object :=
  match fs.get loc with
  | some object => .ok object
  | none => .error .noent

/-- The object at a path.  A link is not followed when it is the last segment. -/
def lstat (fs : FileSystem) (path : List Char) : Except Errno Object :=
  if Plain ((path.splitOn '/').getLastD []) then do
    let (dir, name) ← fs.lookupParent path
    fs.found (name :: dir)
  else do
    let loc ← fs.resolve path
    fs.found loc

/-! ## Objects -/

def chmodAt (fs : FileSystem) (loc : Loc) (mode : UInt32) : FileSystem :=
  fs.adjust loc (Object.setMode mode) fun _ hbody => hbody

def touch (fs : FileSystem) (loc : Loc) (mtime : ℤ) : FileSystem :=
  fs.adjust loc (Object.setMtime mtime) fun _ hbody => hbody

def appendAt (fs : FileSystem) (loc : Loc) (bytes : List UInt8) (now : ℤ) : FileSystem :=
  fs.adjust loc (Object.append bytes now) fun object hbody => by simp [Object.append, hbody]

/-- `chmod` of a path.  Every object belongs to the caller. -/
def chmod (fs : FileSystem) (path : List Char) (mode : UInt32) : Except Errno FileSystem := do
  let loc ← fs.resolve path
  return fs.chmodAt loc mode

/-- A timestamp that is out of range is refused. -/
def futimens (fs : FileSystem) (loc : Loc) (seconds nanoseconds : ℤ) :
    Except Errno FileSystem := do
  let mtime ← timespec seconds nanoseconds
  return fs.touch loc mtime

/-- Open for reading: a directory, or whatever else the path leads to. -/
def openRead (fs : FileSystem) (path : List Char) : Except Errno Loc := do
  let loc ← fs.resolve path
  let object ← fs.found loc
  if object.readable then return loc else .error .acces

/-! ## Entries -/

/-- A directory whose entries may be changed. -/
def mayChange (fs : FileSystem) (dir : Loc) : Bool :=
  match fs.get dir with
  | some object => object.writable
  | none => false

/-- A new object in a directory. -/
def create (fs : FileSystem) (dir : Loc) (name : Name) (mode : UInt32) (body : Body) (now : ℤ)
    (hdir : fs.isDirectory dir = true) (hplace : fs.isDirectory (name :: dir) = false) :
    FileSystem :=
  { (fs.put name dir ⟨fs.nextIdentity, mode, now, body⟩ hdir hplace).touch dir now with
    nextIdentity := fs.nextIdentity + 1 }

/-- A new entry, at a path where nothing is. -/
def createEntry (fs : FileSystem) (path : List Char) (mode : UInt32) (body : Body) (now : ℤ) :
    Except Errno (FileSystem × Loc) := do
  let (dir, name) ← fs.lookupParent path
  if ¬ Plain name ∨ (fs.get (name :: dir)).isSome then .error .exist
  else if fs.mayChange dir = false then .error .acces
  else if h : fs.isDirectory dir = true ∧ fs.isDirectory (name :: dir) = false then
    return (fs.create dir name mode body now h.1 h.2, name :: dir)
  else .error .notdir

def mkdir (fs : FileSystem) (path : List Char) (mode : UInt32) (now : ℤ) :
    Except Errno FileSystem := do
  let (next, _) ← fs.createEntry path mode .directory now
  return next

/-- `open` with `O_CREAT`, `O_EXCL` and `O_NOFOLLOW`. -/
def openNew (fs : FileSystem) (path : List Char) (mode : UInt32) (now : ℤ) :
    Except Errno (FileSystem × Loc) :=
  fs.createEntry path mode (.file []) now

/-- An entry that is there and may be changed, and the object it names. -/
def lookupEntry (fs : FileSystem) (path : List Char) : Except Errno (Loc × Name × Object) := do
  let (dir, name) ← fs.lookupParent path
  if ¬ Plain name then .error .inval
  else
    let object ← fs.found (name :: dir)
    if fs.mayChange dir then return (dir, name, object) else .error .acces

/-- The entry and its object are gone. -/
def removeEntry (fs : FileSystem) (dir : Loc) (name : Name) (now : ℤ) : Except Errno FileSystem :=
  if h : fs.isEmpty (name :: dir) = true then .ok ((fs.take name dir h).touch dir now)
  else .error .notempty

/-- A directory is not unlinked. -/
def unlink (fs : FileSystem) (path : List Char) (now : ℤ) : Except Errno FileSystem := do
  let (dir, name, object) ← fs.lookupEntry path
  if object.body = .directory then .error .isdir else fs.removeEntry dir name now

/-- Only an empty directory is removed. -/
def rmdir (fs : FileSystem) (path : List Char) (now : ℤ) : Except Errno FileSystem := do
  let (dir, name, object) ← fs.lookupEntry path
  if object.body = .directory then fs.removeEntry dir name now else .error .notdir

/-- `rename` of something that is not a directory, within one directory or to another,
in place of what is there. -/
def rename (fs : FileSystem) (source target : List Char) (now : ℤ) :
    Except Errno FileSystem := do
  let (dir, name, object) ← fs.lookupEntry source
  let (dir', name') ← fs.lookupParent target
  if object.body = .directory ∨ ¬ Plain name' then .error .inval
  else if fs.mayChange dir' = false then .error .acces
  else if h : fs.isEmpty (name :: dir) = true then
    let taken := fs.take name dir h
    if h' : taken.isDirectory dir' = true ∧ taken.isDirectory (name' :: dir') = false then
      return ((taken.put name' dir' object h'.1 h'.2).touch dir now).touch dir' now
    else .error .isdir
  else .error .notempty

/-- `pread`: the bytes of a file from an offset, at most `length` of them. -/
def readAt (fs : FileSystem) (loc : Loc) (offset length : ℕ) : Except Errno (List UInt8) := do
  let object ← fs.found loc
  match object.body with
  | .file bytes => .ok ((bytes.drop offset).take length)
  | .directory => .error .isdir
  | _ => .error .inval

end FileSystem

end Unix
