import FusePromise.Foundation.Machine
import FusePromise.Unix.Walk

/-!
# A filesystem

Objects by location, with the invariant that the parent of every object is a
directory.  The three primitive changes keep it: `adjust` rewrites what an object
holds, `put` stores an object where no directory is, and `take` removes one that
has no entries.  Everything belongs to one user, so that permissions are the
owner's bits.  There are no hard links.
-/

namespace Unix

/-- What an object is. -/
inductive Body
  | file (bytes : List UInt8)
  | directory
  | symlink (target : List Char)
  | special
  deriving DecidableEq

/-- An object, with the pair of device and inode numbers as its identity. -/
structure Object where
  identity : ℕ
  mode : UInt32
  mtime : ℤ
  body : Body
  deriving DecidableEq

namespace Object

def readable (object : Object) : Bool := object.mode &&& 0o400 ≠ 0
def writable (object : Object) : Bool := object.mode &&& 0o200 ≠ 0
def searchable (object : Object) : Bool := object.mode &&& 0o100 ≠ 0

/-- What the object is to a walk, with or without regard to permissions. -/
def view (checked : Bool) (object : Object) : View :=
  match object.body with
  | .directory => if checked && !object.searchable then .locked else .directory
  | .symlink target => .link target
  | .file _ | .special => .leaf

def setMode (mode : UInt32) (object : Object) : Object := { object with mode }
def setMtime (mtime : ℤ) (object : Object) : Object := { object with mtime }

/-- Bytes written at the end of a file. -/
def append (bytes : List UInt8) (now : ℤ) (object : Object) : Object :=
  match object.body with
  | .file content => { object with body := .file (content ++ bytes), mtime := now }
  | _ => object

end Object

/-- The objects by place.  What has a place has a directory it lies in. -/
structure FileSystem where
  objects : BTreeMap Loc Object
  nextIdentity : ℕ
  root : ∃ object, objects[([] : Loc)]? = some object ∧ object.body = .directory
  parent : ∀ {name : Name} {loc : Loc}, name :: loc ∈ objects →
    ∃ object, objects[loc]? = some object ∧ object.body = .directory

namespace FileSystem

variable (fs : FileSystem)

def get (loc : Loc) : Option Object := fs.objects[loc]?

def isDirectory (loc : Loc) : Bool :=
  match fs.get loc with
  | some object => object.body = .directory
  | none => false

/-- No object lies directly below the location. -/
def isEmpty (loc : Loc) : Bool :=
  fs.objects.keys.all fun key => key = [] ∨ key.tail ≠ loc

/-- Nothing but the root directory. -/
def empty : FileSystem where
  objects := (∅ : BTreeMap Loc Object).insert [] ⟨0, 0o755, 0, .directory⟩
  nextIdentity := 1
  root := ⟨_, Std.ExtTreeMap.getElem?_insert_self, rfl⟩
  parent := by
    intro name loc hmem
    rw [Std.ExtTreeMap.mem_insert] at hmem
    simp at hmem

variable {fs}

theorem isDirectory_iff {loc : Loc} :
    fs.isDirectory loc = true ↔ ∃ object, fs.get loc = some object ∧ object.body = .directory := by
  unfold isDirectory
  cases fs.get loc <;> simp

theorem isEmpty_iff {loc : Loc} : fs.isEmpty loc = true ↔ ∀ name, fs.get (name :: loc) = none := by
  simp only [isEmpty, List.all_eq_true, Std.ExtTreeMap.mem_keys, decide_eq_true_eq]
  constructor
  · intro h name
    by_contra hsome
    have hmem : name :: loc ∈ fs.objects :=
      Std.ExtTreeMap.mem_iff_isSome_getElem?.mpr (Option.isSome_iff_ne_none.mpr hsome)
    simpa using h _ hmem
  · intro h key hmem
    cases key with
    | nil => exact Or.inl rfl
    | cons name rest =>
        refine Or.inr ?_
        rintro rfl
        have hnone : fs.objects[name :: rest]? = none := h name
        rw [Std.ExtTreeMap.mem_iff_isSome_getElem?, hnone] at hmem
        simp at hmem

/-- Nothing is below an object that is not a directory. -/
theorem get_cons_eq_none {loc : Loc} (h : fs.isDirectory loc = false) (name : Name) :
    fs.get (name :: loc) = none := by
  by_contra hsome
  have hmem : name :: loc ∈ fs.objects :=
    Std.ExtTreeMap.mem_iff_isSome_getElem?.mpr (Option.isSome_iff_ne_none.mpr hsome)
  rw [isDirectory_iff.mpr (fs.parent hmem)] at h
  simp at h

theorem get_append_eq_none {loc : Loc} (h : fs.get loc = none) (below : List Name) :
    fs.get (below ++ loc) = none := by
  induction below with
  | nil => exact h
  | cons name rest ih => exact get_cons_eq_none (by simp [isDirectory, ih]) name

variable (fs)

/-! ## Changes -/

/-- Rewrite an object without making or unmaking a directory. -/
def adjust (loc : Loc) (change : Object → Object)
    (hbody : ∀ object, object.body = .directory → (change object).body = .directory) :
    FileSystem where
  objects := fs.objects.modify loc change
  nextIdentity := fs.nextIdentity
  root := by
    obtain ⟨object, hget, hdir⟩ := fs.root
    simp only [Std.ExtTreeMap.getElem?_modify]
    split
    · rename_i heq
      rw [Std.LawfulEqCmp.compare_eq_iff_eq] at heq
      subst heq
      exact ⟨change object, by simp [hget], hbody object hdir⟩
    · exact ⟨object, hget, hdir⟩
  parent := by
    intro name loc' hmem
    rw [Std.ExtTreeMap.mem_modify] at hmem
    obtain ⟨object, hget, hdir⟩ := fs.parent hmem
    simp only [Std.ExtTreeMap.getElem?_modify]
    split
    · rename_i heq
      rw [Std.LawfulEqCmp.compare_eq_iff_eq] at heq
      subst heq
      exact ⟨change object, by simp [hget], hbody object hdir⟩
    · exact ⟨object, hget, hdir⟩

/-- Store an object in a directory, where no directory is. -/
def put (name : Name) (dir : Loc) (object : Object) (hdir : fs.isDirectory dir = true)
    (hplace : fs.isDirectory (name :: dir) = false) : FileSystem where
  objects := fs.objects.insert (name :: dir) object
  nextIdentity := fs.nextIdentity
  root := by
    obtain ⟨object', hget, hroot⟩ := fs.root
    exact ⟨object', by simp [Std.ExtTreeMap.getElem?_insert, hget], hroot⟩
  parent := by
    intro name' loc' hmem
    have hkeep : ∀ {loc : Loc} {object' : Object}, fs.objects[loc]? = some object' →
        object'.body = .directory →
        ∃ found, (fs.objects.insert (name :: dir) object)[loc]? = some found ∧
          found.body = .directory := by
      intro loc object' hget hbody
      have hne : name :: dir ≠ loc := by
        rintro rfl
        rw [isDirectory_iff.mpr ⟨object', hget, hbody⟩] at hplace
        simp at hplace
      exact ⟨object', by simp [Std.ExtTreeMap.getElem?_insert, hne, hget], hbody⟩
    rw [Std.ExtTreeMap.mem_insert, Std.LawfulEqCmp.compare_eq_iff_eq] at hmem
    rcases hmem with heq | hmem
    · obtain ⟨rfl, rfl⟩ := List.cons.inj heq
      obtain ⟨object', hget, hbody⟩ := isDirectory_iff.mp hdir
      exact hkeep hget hbody
    · obtain ⟨object', hget, hbody⟩ := fs.parent hmem
      exact hkeep hget hbody

/-- Remove an object without entries. -/
def take (name : Name) (dir : Loc) (hempty : fs.isEmpty (name :: dir) = true) : FileSystem where
  objects := fs.objects.erase (name :: dir)
  nextIdentity := fs.nextIdentity
  root := by
    obtain ⟨object, hget, hroot⟩ := fs.root
    exact ⟨object, by simp [Std.ExtTreeMap.getElem?_erase, hget], hroot⟩
  parent := by
    intro name' loc' hmem
    rw [Std.ExtTreeMap.mem_erase] at hmem
    obtain ⟨object, hget, hbody⟩ := fs.parent hmem.2
    have hne : name :: dir ≠ loc' := by
      rintro rfl
      have hnone : fs.objects[name' :: name :: dir]? = none := isEmpty_iff.mp hempty name'
      rw [Std.ExtTreeMap.mem_iff_isSome_getElem?, hnone] at hmem
      simp at hmem
    exact ⟨object, by simp [Std.ExtTreeMap.getElem?_erase, hne, hget], hbody⟩

variable {fs}

@[simp] theorem get_adjust {loc : Loc} {change : Object → Object}
    {hbody : ∀ object, object.body = .directory → (change object).body = .directory}
    (loc' : Loc) :
    (fs.adjust loc change hbody).get loc' =
      if loc = loc' then (fs.get loc).map change else fs.get loc' := by
  simp only [get, adjust, Std.ExtTreeMap.getElem?_modify, Std.LawfulEqCmp.compare_eq_iff_eq]

@[simp] theorem get_put {name : Name} {dir : Loc} {object : Object}
    {hdir : fs.isDirectory dir = true} {hplace : fs.isDirectory (name :: dir) = false}
    (loc : Loc) :
    (fs.put name dir object hdir hplace).get loc =
      if name :: dir = loc then some object else fs.get loc := by
  simp only [get, put, Std.ExtTreeMap.getElem?_insert, Std.LawfulEqCmp.compare_eq_iff_eq]

@[simp] theorem get_take {name : Name} {dir : Loc} {hempty : fs.isEmpty (name :: dir) = true}
    (loc : Loc) :
    (fs.take name dir hempty).get loc = if name :: dir = loc then none else fs.get loc := by
  simp only [get, take, Std.ExtTreeMap.getElem?_erase, Std.LawfulEqCmp.compare_eq_iff_eq]

end FileSystem

end Unix
