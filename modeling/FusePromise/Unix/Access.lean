import FusePromise.Unix.Calls

/-!
# What the calls do

`held` is a filesystem as a function: what is at each location, its date apart.
A path `Enters` a directory when it can be followed up to its last segment, which
is then the name of an entry there.  The same relation without regard to
permissions says where the path leads if it can be followed at all, so that a call
on such a path either finds that directory or is denied.  Below that, one lemma
for each call says what a successful call has found and what it has changed.
-/

namespace Unix

/-- What is at each location, its date apart. -/
abbrev Holdings := Loc → Option Object

namespace Holdings

def view (holdings : Holdings) (checked : Bool) (loc : Loc) : Option View :=
  (holdings loc).map (Object.view checked)

def IsDirectory (holdings : Holdings) (loc : Loc) : Prop :=
  ∃ object, holdings loc = some object ∧ object.body = .directory

def Writable (holdings : Holdings) (loc : Loc) : Prop :=
  ∃ object, holdings loc = some object ∧ object.writable = true

end Holdings

theorem Object.view_false_eq_directory {object : Object} :
    object.view false = .directory ↔ object.body = .directory := by
  unfold view
  cases object.body <;> simp

theorem Object.view_true_eq_directory {object : Object} :
    object.view true = .directory ↔ object.body = .directory ∧ object.searchable = true := by
  unfold view
  cases object.body <;> simp

theorem Holdings.view_false_eq_directory {holdings : Holdings} {loc : Loc} :
    holdings.view false loc = some .directory ↔ holdings.IsDirectory loc := by
  simp only [view, IsDirectory, Option.map_eq_some_iff, Object.view_false_eq_directory]

theorem Holdings.view_true_eq_directory {holdings : Holdings} {loc : Loc} :
    holdings.view true loc = some .directory ↔
      ∃ object, holdings loc = some object ∧ object.body = .directory ∧
        object.searchable = true := by
  simp only [view, Option.map_eq_some_iff, Object.view_true_eq_directory]

/-- Checking permissions locks directories and does nothing else. -/
theorem Holdings.locks (holdings : Holdings) :
    Locks (holdings.view false) (holdings.view true) := by
  intro loc
  unfold view
  cases holdings loc with
  | none => exact Or.inl rfl
  | some object =>
      simp only [Option.map_some, Option.some.injEq, Object.view]
      cases object.body with
      | directory => cases object.searchable <;> simp
      | _ => exact Or.inl rfl

/-- What was there before is seen with permissions as it is seen later; of the rest nothing is
seen. -/
theorem Holdings.mixed {old now : Holdings}
    (hsame : ∀ loc, old loc = none ∨ now.view true loc = old.view true loc) (loc : Loc) :
    old.view true loc = old.view false loc ∨ old.view true loc = now.view true loc := by
  refine (hsame loc).imp (fun hnone => ?_) Eq.symm
  simp only [view, hnone, Option.map_none]

/-! ## Entering a directory -/

/-- The path can be followed to the directory `dir`, and its last segment is `name`. -/
structure Enters (view : Loc → Option View) (path : List Char) (dir : Loc) (name : Name) :
    Prop where
  last : (path.splitOn '/').getLastD [] = name
  plain : Plain name
  walk : walk view linkLimit [] (path.splitOn '/').dropLast = .ok dir
  dir : view dir = some .directory

namespace Enters

variable {view view' : Loc → Option View} {path path' : List Char} {dir dir' : Loc}
  {name name' : Name}

theorem mono (hextends : Extends view view') (h : Enters view path dir name) :
    Enters view' path dir name :=
  ⟨h.last, h.plain, walk_mono hextends h.walk, by simpa using hextends dir _ h.dir⟩

theorem dir_eq (h : Enters view path dir name) (h' : Enters view path dir' name') :
    dir = dir' :=
  Except.ok.inj (h.walk.symm.trans h'.walk)

/-- A path that two views of one filesystem let through is let through when each location
is seen as in one of them. -/
theorem mix {first second mixed : Loc → Option View} (hfirst : Extends first view)
    (hsecond : Extends second view)
    (hmixed : ∀ loc, mixed loc = first loc ∨ mixed loc = second loc)
    (h : Enters first path dir name) (h' : Enters second path dir' name') :
    Enters mixed path dir name := by
  obtain rfl := (h.mono hfirst).dir_eq (h'.mono hsecond)
  refine ⟨h.last, h.plain, walk_mix hfirst hsecond hmixed h.walk h'.walk, ?_⟩
  rcases hmixed dir with heq | heq
  · exact heq.trans h.dir
  · exact heq.trans h'.dir

/-- A path that can be followed later could be followed before, if what was there before is seen
as it was. -/
theorem of_later {old now : Holdings} (hextends : Extends (old.view false) (now.view false))
    (hsame : ∀ loc, old loc = none ∨ now.view true loc = old.view true loc)
    (h : Enters (old.view false) path dir name) (h' : Enters (now.view true) path dir' name') :
    Enters (old.view true) path dir name :=
  mix hextends now.locks.extends (Holdings.mixed hsame) h h'

theorem segments (h : Enters view path dir name) :
    path.splitOn '/' = (path.splitOn '/').dropLast ++ [name] := by
  have hne := List.splitOn_ne_nil '/' path
  have hlast : (path.splitOn '/').getLast hne = name := by
    rw [← h.last, List.getLastD_eq_getLast?, List.getLast?_eq_some_getLast hne, Option.getD_some]
  rw [← hlast, List.dropLast_append_getLast]

/-- One more segment leads into the entry, if that is a directory. -/
theorem child (h : Enters view path dir name) (hdir : view (name :: dir) = some .directory)
    (hpath : path'.splitOn '/' = path.splitOn '/' ++ [name']) (hplain : Plain name') :
    Enters view path' (name :: dir) name' := by
  refine ⟨by rw [hpath]; simp, hplain, ?_, hdir⟩
  rw [hpath, List.dropLast_concat, h.segments]
  exact walk_open h.walk (by simpa using h.plain) ⟨h.dir, hdir⟩

/-- The whole path leads to the entry, if that is no link. -/
theorem walk_entry (h : Enters view path dir name) {v : View} (hentry : view (name :: dir) = some v)
    (hlink : ∀ target, v ≠ .link target) :
    Unix.walk view linkLimit [] (path.splitOn '/') = .ok (name :: dir) := by
  have hdown : walkPlain view dir [name] = .done (name :: dir) := by
    simp only [walkPlain, turn_plain h.plain h.dir, turnEntry, hentry]
    cases v with
    | link target => exact absurd rfl (hlink target)
    | _ => rfl
  rw [h.segments, walk_append h.walk (by simp [h.dir]) (by simp [hdown])]
  simp [Unix.walk, hdown]

end Enters

namespace FileSystem

variable {fs next : FileSystem} {path : List Char} {dir loc : Loc} {name : Name}

/-- What a filesystem holds, its dates apart. -/
def held (fs : FileSystem) : Holdings :=
  fun loc => (fs.get loc).map (Object.setMtime 0)

theorem view_held (fs : FileSystem) (checked : Bool) : fs.held.view checked = fs.view checked := by
  funext loc
  simp only [Holdings.view, held, view, Option.map_map]
  rfl

theorem held_eq_none : fs.held loc = none ↔ fs.get loc = none := by
  simp [held]

theorem held_of_get {object : Object} (h : fs.get loc = some object) :
    fs.held loc = some (object.setMtime 0) := by
  simp [held, h]

theorem get_of_held {object : Object} (h : fs.held loc = some object) :
    ∃ found, fs.get loc = some found ∧ object = found.setMtime 0 := by
  obtain ⟨found, hfound, rfl⟩ := Option.map_eq_some_iff.mp h
  exact ⟨found, hfound, rfl⟩

theorem isDirectory_held : fs.held.IsDirectory loc ↔ fs.isDirectory loc = true := by
  rw [isDirectory_iff]
  constructor
  · rintro ⟨object, hheld, hbody⟩
    obtain ⟨found, hfound, rfl⟩ := get_of_held hheld
    exact ⟨found, hfound, hbody⟩
  · rintro ⟨object, hget, hbody⟩
    exact ⟨_, held_of_get hget, hbody⟩

theorem writable_held : fs.held.Writable loc ↔ fs.mayChange loc = true := by
  unfold mayChange Holdings.Writable held
  cases fs.get loc <;> simp [Object.writable, Object.setMtime]

/-- What is above an object is a directory. -/
theorem isDirectory_of_held_cons (h : fs.held (name :: dir) ≠ none) :
    fs.held.IsDirectory dir := by
  rw [isDirectory_held]
  by_contra hdir
  exact h (held_eq_none.mpr (get_cons_eq_none (by simpa using hdir) name))

/-! ## Following a path -/

theorem lookupParent_of_enters (h : Enters (fs.view true) path dir name) :
    fs.lookupParent path = .ok (dir, name) := by
  simp only [lookupParent, h.walk, bind, Except.bind, h.dir, h.last]

/-- A path that leads to a directory leads there or is denied. -/
theorem lookupParent_cases (h : Enters (fs.view false) path dir name) :
    Enters (fs.view true) path dir name ∨ fs.lookupParent path = .error .acces := by
  have hlocks := fs.held.locks
  simp only [view_held] at hlocks
  rcases walk_locks hlocks linkLimit [] (path.splitOn '/').dropLast with hwalk | hwalk
  · rw [h.walk] at hwalk
    rcases hlocks dir with hdir | ⟨-, hdir⟩
    · exact Or.inl ⟨h.last, h.plain, hwalk, hdir.trans h.dir⟩
    · exact Or.inr (by simp only [lookupParent, hwalk, bind, Except.bind, hdir])
  · exact Or.inr (by simp only [lookupParent, hwalk, bind, Except.bind])

/-- An entry that is a directory is found by the whole path. -/
theorem resolve_of_enters (h : Enters (fs.view true) path dir name)
    (hdir : fs.isDirectory (name :: dir) = true) : fs.resolve path = .ok (name :: dir) := by
  obtain ⟨object, hget, hbody⟩ := isDirectory_iff.mp hdir
  have hentry : fs.view true (name :: dir) = some (object.view true) := by
    rw [view, hget, Option.map_some]
  refine h.walk_entry hentry fun target => ?_
  cases hsearch : object.searchable <;> simp [Object.view, hbody, hsearch]

/-- An entry that is no link is where the whole path leads. -/
theorem locate_of_enters (h : Enters (fs.view false) path dir name) {object : Object}
    (hobject : fs.get (name :: dir) = some object)
    (hlink : ∀ target, object.body ≠ .symlink target) :
    fs.locate path = .ok (name :: dir) := by
  have hentry : fs.view false (name :: dir) = some (object.view false) := by
    rw [view, hobject, Option.map_some]
  refine h.walk_entry hentry fun target => ?_
  cases hbody : object.body with
  | symlink target => exact absurd hbody (hlink target)
  | _ => simp [Object.view, hbody]

theorem resolve_cases (h : Enters (fs.view false) path dir name)
    (hdir : fs.isDirectory (name :: dir) = true) :
    fs.resolve path = .ok (name :: dir) ∨ fs.resolve path = .error .acces := by
  have hlocks := fs.held.locks
  simp only [view_held] at hlocks
  have hentry : fs.view false (name :: dir) = some .directory := by
    rw [← view_held, Holdings.view_false_eq_directory, isDirectory_held]
    exact hdir
  have hlocate := h.walk_entry hentry (by simp)
  rcases walk_locks hlocks linkLimit [] (path.splitOn '/') with hwalk | hwalk
  · exact Or.inl (hwalk.trans hlocate)
  · exact Or.inr hwalk

theorem locate_of_resolve (h : fs.resolve path = .ok loc) : fs.locate path = .ok loc := by
  have hextends := fs.held.locks.extends
  simp only [view_held] at hextends
  exact walk_mono hextends h

theorem lstat_of_enters (h : Enters (fs.view true) path dir name) :
    fs.lstat path = fs.found (name :: dir) := by
  simp only [lstat, h.last, h.plain, if_true, lookupParent_of_enters h, bind, Except.bind]

theorem lstat_cases (h : Enters (fs.view false) path dir name) :
    Enters (fs.view true) path dir name ∨ fs.lstat path = .error .acces := by
  refine (lookupParent_cases h).imp id fun hdenied => ?_
  simp only [lstat, h.last, h.plain, if_true, hdenied, bind, Except.bind]

theorem found_eq_ok {object : Object} : fs.found loc = .ok object ↔ fs.get loc = some object := by
  unfold found
  cases fs.get loc <;> simp

theorem found_eq_error {errno : Errno} :
    fs.found loc = .error errno ↔ fs.get loc = none ∧ errno = .noent := by
  unfold found
  cases fs.get loc <;> simp [eq_comm]

theorem enters_of_lookupParent_eq_ok (h : fs.lookupParent path = .ok (dir, name))
    (hplain : Plain name) : Enters (fs.view true) path dir name := by
  unfold lookupParent at h
  cases hwalk : walk (fs.view true) linkLimit [] (path.splitOn '/').dropLast with
  | error errno => simp [hwalk, bind, Except.bind] at h
  | ok found =>
      simp only [hwalk, bind, Except.bind] at h
      split at h
      · rename_i hview
        obtain ⟨rfl, rfl⟩ := Prod.mk.inj (Except.ok.inj h)
        exact ⟨rfl, hplain, hwalk, hview⟩
      all_goals simp at h

/-- A path to a directory can be followed to it. -/
theorem resolve_of_lstat {object : Object} (h : fs.lstat path = .ok object)
    (hbody : object.body = .directory) : ∃ loc, fs.resolve path = .ok loc ∧
      fs.get loc = some object := by
  unfold lstat at h
  split at h
  · rename_i hplain
    cases hlookup : fs.lookupParent path with
    | error errno => simp [hlookup, bind, Except.bind] at h
    | ok found =>
        obtain ⟨dir, name⟩ := found
        simp only [hlookup, bind, Except.bind] at h
        have hget := found_eq_ok.mp h
        have hname : (path.splitOn '/').getLastD [] = name := by
          unfold lookupParent at hlookup
          cases hwalk : walk (fs.view true) linkLimit [] (path.splitOn '/').dropLast with
          | error errno => simp [hwalk, bind, Except.bind] at hlookup
          | ok other =>
              simp only [hwalk, bind, Except.bind] at hlookup
              split at hlookup <;> simp_all
        have henters := enters_of_lookupParent_eq_ok hlookup (hname ▸ hplain)
        exact ⟨name :: dir, resolve_of_enters henters
          (isDirectory_iff.mpr ⟨object, hget, hbody⟩), hget⟩
  · cases hresolve : fs.resolve path with
    | error errno => simp [hresolve, bind, Except.bind] at h
    | ok loc =>
        simp only [hresolve, bind, Except.bind] at h
        exact ⟨loc, rfl, found_eq_ok.mp h⟩

theorem get_of_lstat {object : Object} (h : Enters (fs.view false) path dir name)
    (hlstat : fs.lstat path = .ok object) : fs.get (name :: dir) = some object := by
  rcases lstat_cases h with henters | hdenied
  · rw [lstat_of_enters henters, found_eq_ok] at hlstat
    exact hlstat
  · simp [hdenied] at hlstat

theorem get_of_lstat_noent (h : Enters (fs.view false) path dir name)
    (hlstat : fs.lstat path = .error .noent) : fs.get (name :: dir) = none := by
  rcases lstat_cases h with henters | hdenied
  · rw [lstat_of_enters henters, found_eq_error] at hlstat
    exact hlstat.1
  · simp [hdenied] at hlstat

/-! ## What a call changes -/

/-- The later filesystem has `value` at a location.  Elsewhere only the date of the directory
that holds the location may be another one. -/
structure Changes (fs next : FileSystem) (loc : Loc) (value : Option Object) : Prop where
  here : next.get loc = value
  held : ∀ {other : Loc}, other ≠ loc → next.held other = fs.held other
  get : ∀ {other : Loc}, other ≠ loc → other ≠ loc.tail → next.get other = fs.get other

theorem Changes.held_eq {value : Option Object} (h : Changes fs next loc value) :
    next.held = Function.update fs.held loc (value.map (Object.setMtime 0)) := by
  funext other
  by_cases hother : other = loc
  · subst hother
    rw [Function.update_self, FileSystem.held, h.here]
  · rw [Function.update_of_ne hother, h.held hother]

/-- A change of what an object holds leaves everything else alone. -/
theorem changes_adjust (fs : FileSystem) (loc : Loc) {change : Object → Object}
    (hbody : ∀ object, object.body = .directory → (change object).body = .directory) :
    Changes fs (fs.adjust loc change hbody) loc ((fs.get loc).map change) := by
  have hget : ∀ {other : Loc}, other ≠ loc →
      (fs.adjust loc change hbody).get other = fs.get other :=
    fun hother => by rw [get_adjust, if_neg hother.symm]
  refine ⟨by rw [get_adjust, if_pos rfl], fun hother => ?_, fun hother _ => hget hother⟩
  rw [held, held, hget hother]

theorem changes_chmodAt (fs : FileSystem) (loc : Loc) (mode : UInt32) :
    Changes fs (fs.chmodAt loc mode) loc ((fs.get loc).map (Object.setMode mode)) :=
  fs.changes_adjust loc _

theorem changes_touch (fs : FileSystem) (loc : Loc) (mtime : ℤ) :
    Changes fs (fs.touch loc mtime) loc ((fs.get loc).map (Object.setMtime mtime)) :=
  fs.changes_adjust loc _

theorem changes_appendAt (fs : FileSystem) (loc : Loc) (bytes : List UInt8) (now : ℤ) :
    Changes fs (fs.appendAt loc bytes now) loc ((fs.get loc).map (Object.append bytes now)) :=
  fs.changes_adjust loc _

theorem get_chmodAt (fs : FileSystem) (loc : Loc) (mode : UInt32) (other : Loc) :
    (fs.chmodAt loc mode).get other =
      if loc = other then (fs.get loc).map (Object.setMode mode) else fs.get other :=
  get_adjust other

theorem get_touch (fs : FileSystem) (loc : Loc) (mtime : ℤ) (other : Loc) :
    (fs.touch loc mtime).get other =
      if loc = other then (fs.get loc).map (Object.setMtime mtime) else fs.get other :=
  get_adjust other

theorem held_touch (fs : FileSystem) (loc : Loc) (mtime : ℤ) :
    (fs.touch loc mtime).held = fs.held := by
  funext other
  simp only [held, get_touch]
  split
  · rename_i heq
    subst heq
    rw [Option.map_map]
    rfl
  · rfl

theorem get_touch_of_ne {mtime : ℤ} {other : Loc} (h : other ≠ loc) :
    (fs.touch loc mtime).get other = fs.get other := by
  rw [get_touch, if_neg h.symm]

theorem changes_create {mode : UInt32} {body : Body} {now : ℤ} (hdir : fs.isDirectory dir = true)
    (hplace : fs.isDirectory (name :: dir) = false) :
    Changes fs (fs.create dir name mode body now hdir hplace) (name :: dir)
      (some ⟨fs.nextIdentity, mode, now, body⟩) := by
  have hget : ∀ other : Loc, (fs.create dir name mode body now hdir hplace).get other =
      ((fs.put name dir ⟨fs.nextIdentity, mode, now, body⟩ hdir hplace).touch dir now).get other :=
    fun _ => rfl
  refine ⟨?_, fun {other} hother => ?_, fun {other} hother hparent => ?_⟩
  · rw [hget, get_touch_of_ne (List.cons_ne_self name dir), get_put, if_pos rfl]
  · show ((fs.put name dir ⟨fs.nextIdentity, mode, now, body⟩ hdir hplace).touch dir now).held
      other = _
    rw [held_touch, held, held, get_put, if_neg hother.symm]
  · rw [hget, get_touch_of_ne (show other ≠ dir from hparent), get_put, if_neg hother.symm]

theorem changes_removeEntry {now : ℤ} (h : fs.removeEntry dir name now = .ok next) :
    Changes fs next (name :: dir) none := by
  unfold removeEntry at h
  split at h
  · rename_i hempty
    obtain rfl := Except.ok.inj h
    refine ⟨?_, fun {other} hother => ?_, fun {other} hother hparent => ?_⟩
    · rw [get_touch_of_ne (List.cons_ne_self name dir), get_take, if_pos rfl]
    · rw [held_touch, held, held, get_take, if_neg hother.symm]
    · rw [get_touch_of_ne (show other ≠ dir from hparent), get_take, if_neg hother.symm]
  · simp at h

/-! ## The calls -/

theorem createEntry_eq_ok {mode : UInt32} {body : Body} {now : ℤ}
    (h : Enters (fs.view false) path dir name)
    (hcall : fs.createEntry path mode body now = .ok (next, loc)) :
    loc = name :: dir ∧ Enters (fs.view true) path dir name ∧ fs.mayChange dir = true ∧
      fs.get (name :: dir) = none ∧
      Changes fs next (name :: dir) (some ⟨fs.nextIdentity, mode, now, body⟩) := by
  unfold createEntry at hcall
  rcases lookupParent_cases h with henters | hdenied
  swap
  · simp [hdenied, bind, Except.bind] at hcall
  simp only [lookupParent_of_enters henters, bind, Except.bind, h.plain, not_true_eq_false,
    false_or] at hcall
  split at hcall
  · simp at hcall
  rename_i hfree
  split at hcall
  · simp at hcall
  rename_i hmay
  split at hcall
  · obtain ⟨rfl, rfl⟩ := Prod.mk.inj (Except.ok.inj hcall)
    exact ⟨rfl, henters, by simpa using hmay, by simpa using hfree, changes_create _ _⟩
  · simp at hcall

theorem mkdir_eq_ok {mode : UInt32} {now : ℤ} (h : Enters (fs.view false) path dir name)
    (hcall : fs.mkdir path mode now = .ok next) :
    Enters (fs.view true) path dir name ∧ fs.mayChange dir = true ∧
      fs.get (name :: dir) = none ∧
      Changes fs next (name :: dir) (some ⟨fs.nextIdentity, mode, now, .directory⟩) := by
  unfold mkdir at hcall
  cases hentry : fs.createEntry path mode .directory now with
  | error errno => simp [hentry, bind, Except.bind] at hcall
  | ok result =>
      obtain ⟨made, loc⟩ := result
      obtain ⟨-, henters, hmay, hfree, hchanges⟩ := createEntry_eq_ok h hentry
      simp only [hentry, bind, Except.bind] at hcall
      obtain rfl := Except.ok.inj hcall
      exact ⟨henters, hmay, hfree, hchanges⟩

theorem lookupEntry_of_enters {object : Object} (h : Enters (fs.view true) path dir name)
    (hget : fs.get (name :: dir) = some object) (hmay : fs.mayChange dir = true) :
    fs.lookupEntry path = .ok (dir, name, object) := by
  have hfound : fs.found (name :: dir) = .ok object := found_eq_ok.mpr hget
  simp only [lookupEntry, lookupParent_of_enters h, bind, Except.bind, h.plain,
    not_true_eq_false, if_false, hfound, hmay, if_true]
  rfl

theorem lookupEntry_eq_ok {found : Loc × Name × Object} (h : Enters (fs.view false) path dir name)
    (hcall : fs.lookupEntry path = .ok found) :
    Enters (fs.view true) path dir name ∧ fs.mayChange dir = true ∧
      ∃ object, fs.get (name :: dir) = some object ∧ found = (dir, name, object) := by
  unfold lookupEntry at hcall
  rcases lookupParent_cases h with henters | hdenied
  swap
  · simp [hdenied, bind, Except.bind] at hcall
  simp only [lookupParent_of_enters henters, bind, Except.bind, h.plain, not_true_eq_false,
    if_false] at hcall
  cases hfound : fs.found (name :: dir) with
  | error errno => simp [hfound] at hcall
  | ok object =>
      simp only [hfound] at hcall
      split at hcall
      · rename_i hmay
        exact ⟨henters, hmay, object, found_eq_ok.mp hfound, (Except.ok.inj hcall).symm⟩
      · simp at hcall

/-- `unlink` or `rmdir`, by what the object is. -/
def remove (fs : FileSystem) (directory : Bool) (path : List Char) (now : ℤ) :
    Except Errno FileSystem :=
  if directory then fs.rmdir path now else fs.unlink path now

theorem remove_of_enters {directory : Bool} {now : ℤ} {object : Object}
    (h : Enters (fs.view true) path dir name) (hget : fs.get (name :: dir) = some object)
    (hkind : directory = true ↔ object.body = .directory) (hmay : fs.mayChange dir = true)
    (hempty : ∀ below, fs.get (below :: name :: dir) = none) :
    ∃ next, fs.remove directory path now = .ok next := by
  have hlookup := lookupEntry_of_enters h hget hmay
  have hentry : ∃ next, fs.removeEntry dir name now = .ok next := by
    rw [removeEntry, dif_pos (isEmpty_iff.mpr hempty)]
    exact ⟨_, rfl⟩
  cases directory with
  | true =>
      have hdir : object.body = .directory := hkind.mp rfl
      simpa only [remove, if_true, rmdir, hlookup, bind, Except.bind, hdir] using hentry
  | false =>
      have hdir : object.body ≠ .directory := fun heq => by simpa using hkind.mpr heq
      simpa only [remove, Bool.false_eq_true, if_false, unlink, hlookup, bind, Except.bind, hdir]
        using hentry

theorem remove_eq_ok {directory : Bool} {now : ℤ} (h : Enters (fs.view false) path dir name)
    (hcall : fs.remove directory path now = .ok next) :
    Enters (fs.view true) path dir name ∧ fs.mayChange dir = true ∧
      Changes fs next (name :: dir) none := by
  have hentry : ∃ object, fs.lookupEntry path = .ok (dir, name, object) ∧
      fs.removeEntry dir name now = .ok next := by
    cases directory with
    | true =>
        simp only [remove, if_true, rmdir] at hcall
        cases hlookup : fs.lookupEntry path with
        | error errno => simp [hlookup, bind, Except.bind] at hcall
        | ok found =>
            obtain ⟨-, -, object, -, rfl⟩ := lookupEntry_eq_ok h hlookup
            simp only [hlookup, bind, Except.bind] at hcall
            split at hcall
            · exact ⟨object, rfl, hcall⟩
            · simp at hcall
    | false =>
        simp only [remove, Bool.false_eq_true, if_false, unlink] at hcall
        cases hlookup : fs.lookupEntry path with
        | error errno => simp [hlookup, bind, Except.bind] at hcall
        | ok found =>
            obtain ⟨-, -, object, -, rfl⟩ := lookupEntry_eq_ok h hlookup
            simp only [hlookup, bind, Except.bind] at hcall
            split at hcall
            · simp at hcall
            · exact ⟨object, rfl, hcall⟩
  obtain ⟨object, hlookup, hentry⟩ := hentry
  obtain ⟨henters, hmay, -⟩ := lookupEntry_eq_ok h hlookup
  exact ⟨henters, hmay, changes_removeEntry hentry⟩

theorem chmod_of_enters (h : Enters (fs.view true) path dir name)
    (hdir : fs.isDirectory (name :: dir) = true) (mode : UInt32) :
    fs.chmod path mode = .ok (fs.chmodAt (name :: dir) mode) := by
  simp only [chmod, resolve_of_enters h hdir, bind, Except.bind]
  rfl

theorem chmod_eq_ok {mode : UInt32} (h : Enters (fs.view false) path dir name)
    (hdir : fs.isDirectory (name :: dir) = true) (hcall : fs.chmod path mode = .ok next) :
    next = fs.chmodAt (name :: dir) mode := by
  rcases resolve_cases h hdir with hresolve | hdenied
  · simp only [chmod, hresolve, bind, Except.bind] at hcall
    exact (Except.ok.inj hcall).symm
  · simp [chmod, hdenied, bind, Except.bind] at hcall

theorem openRead_eq_ok_iff : fs.openRead path = .ok loc ↔
    fs.resolve path = .ok loc ∧ ∃ object, fs.get loc = some object ∧ object.readable = true := by
  unfold openRead
  cases hresolve : fs.resolve path with
  | error errno => simp [bind, Except.bind]
  | ok found =>
      cases hfound : fs.get found with
      | none =>
          simp only [FileSystem.found, hfound, bind, Except.bind]
          constructor
          · simp
          · rintro ⟨heq, object, hobject, -⟩
            rw [← Except.ok.inj heq, hfound] at hobject
            simp at hobject
      | some object =>
          simp only [FileSystem.found, hfound, bind, Except.bind]
          constructor
          · intro h
            split at h
            · rename_i hreadable
              obtain rfl := Except.ok.inj h
              exact ⟨rfl, object, hfound, hreadable⟩
            · simp at h
          · rintro ⟨heq, other, hother, hreadable⟩
            obtain rfl := Except.ok.inj heq
            obtain rfl := Option.some.inj (hfound.symm.trans hother)
            rw [if_pos hreadable]
            rfl

/-- All directories on the way to an object may be searched, and the object may be read. -/
def Readable (fs : FileSystem) (path : List Char) : Prop :=
  ∃ loc object, fs.resolve path = .ok loc ∧ fs.get loc = some object ∧ object.readable = true

/-- An object that is there is opened if it is readable, and denied if it is not. -/
theorem openRead_iff_readable {object : Object} (hlocate : fs.locate path = .ok loc)
    (hobject : fs.get loc = some object) :
    (fs.Readable path → fs.openRead path = .ok loc) ∧
      (¬ fs.Readable path → fs.openRead path = .error .acces) := by
  have hlocks := fs.held.locks
  simp only [view_held] at hlocks
  rcases walk_locks hlocks linkLimit [] (path.splitOn '/') with hwalk | hwalk
  · have hresolve : fs.resolve path = .ok loc := hwalk.trans hlocate
    have hopen : fs.openRead path = if object.readable then .ok loc else .error .acces := by
      simp only [openRead, hresolve, found, hobject, bind, Except.bind]
      rfl
    refine ⟨?_, fun hnot => ?_⟩
    · rintro ⟨loc', object', hloc', hobject', hreadable⟩
      obtain rfl := Except.ok.inj (hresolve.symm.trans hloc')
      obtain rfl := Option.some.inj (hobject.symm.trans hobject')
      rw [hopen, if_pos hreadable]
    · rw [hopen, if_neg fun hreadable => hnot ⟨loc, object, hresolve, hobject, hreadable⟩]
  · have hdenied : fs.resolve path = .error .acces := hwalk
    refine ⟨?_, fun _ => by simp only [openRead, hdenied, bind, Except.bind]⟩
    rintro ⟨loc', object', hloc', -⟩
    simp [hdenied] at hloc'

theorem openRead_eq_ok (h : Enters (fs.view false) path dir name)
    (hdir : fs.isDirectory (name :: dir) = true) (hcall : fs.openRead path = .ok loc) :
    loc = name :: dir := by
  have hloc := (openRead_eq_ok_iff.mp hcall).1
  rcases resolve_cases h hdir with hresolve | hdenied
  · exact Except.ok.inj (hloc.symm.trans hresolve)
  · simp [hdenied] at hloc

/-- A file renamed within its directory takes the place of the other one. -/
theorem rename_eq_ok {source target : List Char} {name' : Name} {now : ℤ}
    (h : Enters (fs.view false) source dir name) (h' : Enters (fs.view false) target dir name')
    (hne : name ≠ name') (hcall : fs.rename source target now = .ok next) :
    next.get (name' :: dir) = fs.get (name :: dir) ∧ next.get (name :: dir) = none ∧
      (∀ {other : Loc}, other ≠ name :: dir → other ≠ name' :: dir →
        next.held other = fs.held other) ∧
      ∀ {other : Loc}, other ≠ name :: dir → other ≠ name' :: dir → other ≠ dir →
        next.get other = fs.get other := by
  unfold rename at hcall
  cases hlookup : fs.lookupEntry source with
  | error errno => simp [hlookup, bind, Except.bind] at hcall
  | ok found =>
  obtain ⟨-, -, object, hget, rfl⟩ := lookupEntry_eq_ok h hlookup
  rcases lookupParent_cases h' with henters | hdenied
  swap
  · simp [hlookup, hdenied, bind, Except.bind] at hcall
  simp only [hlookup, lookupParent_of_enters henters, bind, Except.bind] at hcall
  split at hcall
  · simp at hcall
  split at hcall
  · simp at hcall
  split at hcall
  swap
  · simp at hcall
  rename_i hempty
  split at hcall
  swap
  · simp at hcall
  rename_i hplace
  obtain rfl := Except.ok.inj hcall
  -- `take` and then `put`, at two different places of one directory
  have hcons : name :: dir ≠ name' :: dir := fun heq => hne (List.cons.inj heq).1
  refine ⟨?_, ?_, fun {other} hother hother' => ?_, fun {other} hother hother' hparent => ?_⟩
  · rw [get_touch_of_ne (List.cons_ne_self _ _), get_touch_of_ne (List.cons_ne_self _ _), get_put,
      if_pos rfl, hget]
  · rw [get_touch_of_ne (List.cons_ne_self _ _), get_touch_of_ne (List.cons_ne_self _ _), get_put,
      if_neg hcons.symm, get_take, if_pos rfl]
  · rw [held_touch, held_touch, held, held, get_put, if_neg hother'.symm, get_take,
      if_neg hother.symm]
  · rw [get_touch_of_ne hparent, get_touch_of_ne hparent, get_put, if_neg hother'.symm, get_take,
      if_neg hother.symm]

/-! ## Reading -/

theorem readAt_file {object : Object} {bytes : List UInt8} (hobject : fs.get loc = some object)
    (hbody : object.body = .file bytes) (offset length : ℕ) :
    fs.readAt loc offset length = .ok ((bytes.drop offset).take length) := by
  simp only [readAt, found_eq_ok.mpr hobject, bind, Except.bind, hbody]

/-! ## What lasts -/

/-- Every object is there later as it was, dates of directories apart. -/
def Lasts (fs later : FileSystem) : Prop :=
  ∀ loc object, fs.get loc = some object → later.get loc = some object ∨
    object.body = .directory ∧ ∃ mtime, later.get loc = some (object.setMtime mtime)

/-- Something is at the end of a path. -/
def Taken (fs : FileSystem) (path : List Char) : Prop :=
  ∃ dir name, Enters (fs.view false) path dir name ∧ fs.get (name :: dir) ≠ none

theorem Lasts.refl (fs : FileSystem) : Lasts fs fs :=
  fun _ _ h => Or.inl h

theorem Lasts.trans {later last : FileSystem} (h : Lasts fs later) (h' : Lasts later last) :
    Lasts fs last := by
  intro loc object hobject
  rcases h loc object hobject with hsame | ⟨hdir, mtime, hdated⟩
  · exact h' loc object hsame
  · rcases h' loc _ hdated with hsame | ⟨-, mtime', hdated'⟩
    · exact Or.inr ⟨hdir, mtime, hsame⟩
    · exact Or.inr ⟨hdir, mtime', hdated'⟩

/-- What keeps everything but the date of one directory. -/
theorem Lasts.of_dated {later : FileSystem} {top : Loc} (htop : fs.isDirectory top = true)
    (hheld : later.held top = fs.held top)
    (hget : ∀ loc, loc ≠ top → fs.get loc ≠ none → later.get loc = fs.get loc) :
    Lasts fs later := by
  intro loc object hobject
  by_cases hloc : loc = top
  · subst hloc
    obtain ⟨found, hfound, hbody⟩ := isDirectory_iff.mp htop
    obtain rfl := Option.some.inj (hobject.symm.trans hfound)
    rw [held_of_get hobject] at hheld
    obtain ⟨now, hnow, hsame⟩ := get_of_held hheld
    have hdated : now = object.setMtime now.mtime :=
      (congrArg (Object.setMtime now.mtime) hsame).symm
    exact Or.inr ⟨hbody, now.mtime, hdated ▸ hnow⟩
  · exact Or.inl ((hget loc hloc (by rw [hobject]; simp)).trans hobject)

theorem Lasts.extends (h : Lasts fs next) : Extends (fs.view false) (next.view false) := by
  intro loc v hv
  obtain ⟨object, hobject, rfl⟩ := Option.map_eq_some_iff.mp hv
  refine Or.inl ?_
  rcases h loc object hobject with hsame | ⟨-, mtime, hdated⟩
  · rw [view, hsame, Option.map_some]
  · rw [view, hdated, Option.map_some]
    rfl

theorem Taken.mono (h : fs.Taken path) (hlasts : Lasts fs next) : next.Taken path := by
  obtain ⟨dir, name, henters, hsome⟩ := h
  refine ⟨dir, name, henters.mono hlasts.extends, ?_⟩
  obtain ⟨object, hobject⟩ := Option.ne_none_iff_exists'.mp hsome
  rcases hlasts _ _ hobject with hsame | ⟨-, mtime, hdated⟩
  · rw [hsame]
    simp
  · rw [hdated]
    simp

end FileSystem

end Unix
