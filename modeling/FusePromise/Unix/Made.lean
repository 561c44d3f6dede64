import FusePromise.Unix.Access

/-!
# Objects made and removed again

A program that may have to undo its work keeps a stack of the objects it has made,
the last one on top.  `Stands` describes a filesystem as what was there before and
the objects of the stack: each lies in a directory further down the stack or in one
that was there before.

The undoing opens the directories of the stack from the bottom up and then removes
the objects from the top down, each time only if the object is still the one that
was made.  It never touches anything else.  It removes everything if the old
directories in which objects were made can still be entered and written
(`Accessible`).
-/

namespace Unix

/-- An object that was made, with the path it was made under. -/
structure Made where
  path : List Char
  dir : Loc
  name : Name
  identity : ℕ
  directory : Bool

namespace Made

def loc (made : Made) : Loc :=
  made.name :: made.dir

/-- An object in a directory that was made too. -/
structure Under (made parent : Made) : Prop where
  directory : parent.directory = true
  dir : made.dir = parent.loc
  path : made.path.splitOn '/' = parent.path.splitOn '/' ++ [made.name]
  plain : Plain made.name

/-- The object that was made, as it is now. -/
def Is (made : Made) (object : Object) : Prop :=
  object.identity = made.identity ∧ (made.directory = true ↔ object.body = .directory)

end Made

/-- Each object of the stack was made where nothing was before, in a directory further down
or in an old one. -/
def Stacked (old : Holdings) : List Made → Prop
  | [] => True
  | made :: below =>
      old made.loc = none ∧ (∀ other ∈ below, other.loc ≠ made.loc) ∧
        ((∃ parent ∈ below, made.Under parent) ∨
          Enters (old.view false) made.path made.dir made.name) ∧
        Stacked old below

namespace Stacked

variable {old now : Holdings} {stack below : List Made} {made : Made}

theorem old_eq_none (h : Stacked old stack) (hmem : made ∈ stack) : old made.loc = none := by
  induction stack with
  | nil => simp at hmem
  | cons first rest ih =>
      rcases List.mem_cons.mp hmem with rfl | hmem
      · exact h.1
      · exact ih h.2.2.2 hmem

theorem of_append {above : List Made} (h : Stacked old (above ++ stack)) : Stacked old stack := by
  induction above with
  | nil => exact h
  | cons first rest ih => exact ih h.2.2.2

theorem unique {other : Made} (h : Stacked old stack) (hmem : made ∈ stack)
    (hother : other ∈ stack) (hloc : other.loc = made.loc) : other = made := by
  induction stack with
  | nil => simp at hmem
  | cons first rest ih =>
      obtain ⟨-, hfresh, -, hrest⟩ := h
      rcases List.mem_cons.mp hother with rfl | hother'
      · rcases List.mem_cons.mp hmem with rfl | hmem
        · rfl
        · exact absurd hloc.symm (hfresh made hmem)
      · rcases List.mem_cons.mp hmem with rfl | hmem
        · exact absurd hloc (hfresh other hother')
        · exact ih hrest hmem hother'

/-- The old directories stay where they are. -/
theorem congr {old' : Holdings} (h : Stacked old stack)
    (hnone : ∀ loc, old loc = none → old' loc = none)
    (hextends : Extends (old.view false) (old'.view false)) : Stacked old' stack := by
  induction stack with
  | nil => exact h
  | cons first rest ih =>
      obtain ⟨hfree, hfresh, hplace, hrest⟩ := h
      exact ⟨hnone _ hfree, hfresh, hplace.imp id fun henters => henters.mono hextends, ih hrest⟩

/-- An object that is not in a directory of the stack is in an old one. -/
theorem isDirectory_or (h : Stacked old stack) (hmem : made ∈ stack) :
    (∃ parent ∈ stack, made.Under parent) ∨ old.IsDirectory made.dir := by
  induction stack with
  | nil => simp at hmem
  | cons first rest ih =>
      obtain ⟨-, -, hplace, hrest⟩ := h
      have hlift : ∀ {parent : Made}, parent ∈ rest → parent ∈ first :: rest :=
        List.mem_cons_of_mem _
      rcases List.mem_cons.mp hmem with rfl | hmem
      · refine hplace.imp ?_ fun henters => Holdings.view_false_eq_directory.mp henters.dir
        rintro ⟨parent, hparent, hunder⟩
        exact ⟨parent, hlift hparent, hunder⟩
      · refine (ih hrest hmem).imp ?_ id
        rintro ⟨parent, hparent, hunder⟩
        exact ⟨parent, hlift hparent, hunder⟩

section Enters

variable {checked : Bool} (hextends : Extends (old.view checked) (now.view checked))

include hextends

/-- The way to an object leads through old directories and then through directories of the
stack, so it is open if these are. -/
theorem enters_of_mem (h : Stacked old stack) (hmem : made ∈ stack)
    (hopen : ∀ parent ∈ stack, parent.directory = true → parent.loc <:+ made.dir →
      now.view checked parent.loc = some .directory)
    (hold : ∀ other ∈ stack, old.IsDirectory other.dir →
      Enters (old.view checked) other.path other.dir other.name) :
    Enters (now.view checked) made.path made.dir made.name := by
  induction stack generalizing made with
  | nil => simp at hmem
  | cons first rest ih =>
      obtain ⟨-, -, hplace, hrest⟩ := h
      have hlift : ∀ {other : Made}, other ∈ rest → other ∈ first :: rest :=
        List.mem_cons_of_mem _
      have hbelow : ∀ other ∈ rest, other.dir <:+ made.dir →
          Enters (now.view checked) other.path other.dir other.name := by
        intro other hother hway
        refine ih hrest hother (fun parent hparent hdir hloc => ?_) fun mid hmid =>
          hold mid (hlift hmid)
        exact hopen parent (hlift hparent) hdir (hloc.trans hway)
      rcases List.mem_cons.mp hmem with rfl | hmem
      · rcases hplace with ⟨parent, hparent, hunder⟩ | henters
        · have hdir : made.dir = parent.loc := hunder.dir
          have hparents := hbelow parent hparent (hdir ▸ List.suffix_cons _ _)
          rw [hdir]
          refine hparents.child (hopen parent (hlift hparent) hunder.directory ?_) hunder.path
            hunder.plain
          rw [hdir]
        · exact (hold made List.mem_cons_self
            (Holdings.view_false_eq_directory.mp henters.dir)).mono hextends
      · exact hbelow made hmem List.suffix_rfl

/-- The directories below the object are enough. -/
theorem enters (h : Stacked old (made :: below))
    (hopen : ∀ parent ∈ below, parent.directory = true →
      now.view checked parent.loc = some .directory)
    (hold : ∀ other ∈ made :: below, old.IsDirectory other.dir →
      Enters (old.view checked) other.path other.dir other.name) :
    Enters (now.view checked) made.path made.dir made.name := by
  refine h.enters_of_mem hextends List.mem_cons_self (fun parent hparent hdir hway => ?_) hold
  rcases List.mem_cons.mp hparent with rfl | hparent
  · -- the object does not lie in itself
    have hlength := hway.length_le
    rw [Made.loc, List.length_cons] at hlength
    omega
  · exact hopen parent hparent hdir

end Enters

/-- Where the path of an object leads, permissions apart. -/
theorem enters_old (h : Stacked old stack) (hmem : made ∈ stack)
    (hdir : old.IsDirectory made.dir) :
    Enters (old.view false) made.path made.dir made.name := by
  induction stack with
  | nil => simp at hmem
  | cons first rest ih =>
      obtain ⟨-, -, hplace, hrest⟩ := h
      rcases List.mem_cons.mp hmem with rfl | hmem
      · rcases hplace with ⟨parent, hparent, hunder⟩ | henters
        · rw [hunder.dir] at hdir
          obtain ⟨object, hobject, -⟩ := hdir
          rw [hrest.old_eq_none hparent] at hobject
          simp at hobject
        · exact henters
      · exact ih hrest hmem

end Stacked

/-- The filesystem is what was there before with the objects of the stack. -/
structure Stands (old now : Holdings) (stack : List Made) : Prop where
  stacked : Stacked old stack
  closed : ∀ {name : Name} {loc : Loc}, old (name :: loc) ≠ none → old.IsDirectory loc
  object : ∀ {made : Made}, made ∈ stack → ∃ object, now made.loc = some object ∧ made.Is object
  other : ∀ {loc : Loc}, (∀ made ∈ stack, made.loc ≠ loc) → now loc = old loc

/-- The old directories of the stack let the program in. -/
def Accessible (old : Holdings) (stack : List Made) : Prop :=
  ∀ made ∈ stack, old.IsDirectory made.dir →
    Enters (old.view true) made.path made.dir made.name ∧ old.Writable made.dir

/-- A directory that its owner may search and change. -/
def Holdings.Opened (holdings : Holdings) (loc : Loc) : Prop :=
  ∃ object, holdings loc = some object ∧ object.body = .directory ∧
    object.searchable = true ∧ object.writable = true

theorem Holdings.Opened.view {holdings : Holdings} {loc : Loc} (h : holdings.Opened loc) :
    holdings.view true loc = some .directory := by
  obtain ⟨object, hobject, hbody, hsearch, -⟩ := h
  exact view_true_eq_directory.mpr ⟨object, hobject, hbody, hsearch⟩

/-- Do something to an object if it is still the one that was made; a failure is ignored. -/
def FileSystem.ifSame (fs : FileSystem) (made : Made)
    (op : FileSystem → Except Errno FileSystem) : FileSystem :=
  match fs.lstat made.path with
  | .ok object =>
      if object.identity = made.identity then
        match op fs with
        | .ok next => next
        | .error _ => fs
      else fs
  | .error _ => fs

namespace Stands

variable {old now : Holdings} {stack : List Made} {made : Made}

theorem start (hclosed : ∀ {name : Name} {loc : Loc}, old (name :: loc) ≠ none →
    old.IsDirectory loc) : Stands old old [] :=
  ⟨trivial, hclosed, by simp, fun _ => rfl⟩

theorem of_old {loc : Loc} {object : Object} (h : Stands old now stack)
    (hold : old loc = some object) : now loc = some object := by
  rw [h.other, hold]
  rintro made hmem rfl
  rw [h.stacked.old_eq_none hmem] at hold
  simp at hold

theorem extends_old (h : Stands old now stack) (checked : Bool) :
    Extends (old.view checked) (now.view checked) := by
  intro loc v hv
  obtain ⟨object, hobject, rfl⟩ := Option.map_eq_some_iff.mp hv
  exact Or.inl (by rw [Holdings.view, h.of_old hobject, Option.map_some])

theorem view_directory (h : Stands old now stack) (hmem : made ∈ stack)
    (hdir : made.directory = true) : now.view false made.loc = some .directory := by
  obtain ⟨object, hobject, -, hkind⟩ := h.object hmem
  exact Holdings.view_false_eq_directory.mpr ⟨object, hobject, hkind.mp hdir⟩

theorem enters (h : Stands old now stack) (hmem : made ∈ stack) :
    Enters (now.view false) made.path made.dir made.name :=
  h.stacked.enters_of_mem (h.extends_old false) hmem
    (fun _ hparent hdir _ => h.view_directory hparent hdir)
    fun _ hother => h.stacked.enters_old hother

/-- A new object goes on top. -/
theorem push (h : Stands old now stack) {object : Object} (hfree : now made.loc = none)
    (hplace : (∃ parent ∈ stack, made.Under parent) ∨
      Enters (old.view false) made.path made.dir made.name) (his : made.Is object) :
    Stands old (Function.update now made.loc (some object)) (made :: stack) := by
  have hfresh : ∀ other ∈ stack, other.loc ≠ made.loc := by
    intro other hother heq
    obtain ⟨found, hfound, -⟩ := h.object hother
    rw [heq, hfree] at hfound
    simp at hfound
  have hold : old made.loc = none := by
    rw [← h.other hfresh]
    exact hfree
  refine ⟨⟨hold, hfresh, hplace, h.stacked⟩, h.closed, ?_, ?_⟩
  · intro other hother
    rcases List.mem_cons.mp hother with rfl | hother
    · exact ⟨object, Function.update_self .., his⟩
    · rw [Function.update_of_ne (hfresh other hother)]
      exact h.object hother
  · intro loc hloc
    rw [Function.update_of_ne (hloc made List.mem_cons_self).symm]
    exact h.other fun other hother => hloc other (List.mem_cons_of_mem _ hother)

/-- The top object is taken away. -/
theorem pop (h : Stands old now (made :: stack)) :
    Stands old (Function.update now made.loc none) stack := by
  obtain ⟨hfree, hfresh, -, hrest⟩ := h.stacked
  refine ⟨hrest, h.closed, ?_, ?_⟩
  · intro other hother
    rw [Function.update_of_ne (hfresh other hother)]
    exact h.object (List.mem_cons_of_mem _ hother)
  · intro loc hloc
    by_cases heq : loc = made.loc
    · subst heq
      rw [Function.update_self, hfree]
    · rw [Function.update_of_ne heq]
      refine h.other fun other hother => ?_
      rcases List.mem_cons.mp hother with rfl | hother
      · exact fun hsame => heq hsame.symm
      · exact hloc other hother

/-- An old object becomes another one of its kind. -/
theorem replace (h : Stands old now stack) {loc : Loc} {object later : Object}
    (hold : old loc = some object) (hview : later.view false = object.view false) :
    Stands (Function.update old loc (some later)) (Function.update now loc (some later)) stack := by
  have hdir : ∀ {other : Loc}, old.IsDirectory other →
      Holdings.IsDirectory (Function.update old loc (some later)) other := by
    intro other hother
    rw [← Holdings.view_false_eq_directory] at hother ⊢
    by_cases heq : other = loc
    · subst heq
      rw [Holdings.view, hold, Option.map_some] at hother
      rw [Holdings.view, Function.update_self, Option.map_some, hview, hother]
    · rw [Holdings.view, Function.update_of_ne heq]
      exact hother
  -- the object is an old one, so it is none of the stack
  have hne : ∀ made ∈ stack, made.loc ≠ loc := by
    rintro made hmem rfl
    rw [h.stacked.old_eq_none hmem] at hold
    simp at hold
  refine ⟨h.stacked.congr ?_ ?_, ?_, ?_, ?_⟩
  · intro other hnone
    rw [Function.update_of_ne, hnone]
    rintro rfl
    rw [hold] at hnone
    simp at hnone
  · intro other v hv
    refine Or.inl ?_
    by_cases heq : other = loc
    · subst heq
      rw [Holdings.view, hold, Option.map_some] at hv
      rw [Holdings.view, Function.update_self, Option.map_some, hview, hv]
    · rw [Holdings.view, Function.update_of_ne heq]
      exact hv
  · intro name above hsome
    have habove : old (name :: above) ≠ none := by
      by_cases heq : name :: above = loc
      · rw [heq, hold]
        simp
      · rwa [Function.update_of_ne heq] at hsome
    exact hdir (h.closed habove)
  · intro made hmem
    rw [Function.update_of_ne (hne made hmem)]
    exact h.object hmem
  · intro other hother
    by_cases heq : other = loc
    · rw [heq, Function.update_self, Function.update_self]
    · rw [Function.update_of_ne heq, Function.update_of_ne heq]
      exact h.other hother

/-- An object of the stack changes and stays what it is. -/
theorem update (h : Stands old now stack) (hmem : made ∈ stack) {object : Object}
    (his : made.Is object) : Stands old (Function.update now made.loc (some object)) stack := by
  refine ⟨h.stacked, h.closed, ?_, ?_⟩
  · intro other hother
    by_cases hsame : other.loc = made.loc
    · rw [hsame, Function.update_self]
      refine ⟨object, rfl, ?_⟩
      exact h.stacked.unique hmem hother hsame ▸ his
    · rw [Function.update_of_ne hsame]
      exact h.object hother
  · intro loc hloc
    rw [Function.update_of_ne (hloc made hmem).symm]
    exact h.other hloc

end Stands

/-! ## Opening the directories -/

/-- Opening a directory of the stack keeps the stack, opens the directory if it can be
entered, and closes none. -/
theorem Stands.reopen {fs : FileSystem} {old : Holdings} {stack : List Made} {made : Made}
    (h : Stands old fs.held stack) (hmem : made ∈ stack) (hdir : made.directory = true) :
    let next := fs.ifSame made fun fs => fs.chmod made.path 0o700
    Stands old next.held stack ∧
      (Enters (fs.view true) made.path made.dir made.name → next.held.Opened made.loc) ∧
      (∀ loc, fs.held.Opened loc → next.held.Opened loc) ∧
      ∀ loc, loc ≠ made.loc → loc ≠ made.dir → next.get loc = fs.get loc := by
  intro next
  have henters : Enters (fs.view false) made.path made.dir made.name := by
    simpa only [FileSystem.view_held] using h.enters hmem
  have hisDir : fs.isDirectory made.loc = true := by
    rw [← FileSystem.isDirectory_held, ← Holdings.view_false_eq_directory]
    exact h.view_directory hmem hdir
  obtain ⟨object, hobject, his⟩ := h.object hmem
  obtain ⟨found, hfound, rfl⟩ := FileSystem.get_of_held hobject
  -- every way to fail leaves the filesystem as it is
  have hnext : next = fs ∨ next = fs.chmodAt made.loc 0o700 := by
    simp only [next, FileSystem.ifSame]
    split
    · split
      · split
        · rename_i changed hchmod
          exact Or.inr (FileSystem.chmod_eq_ok henters hisDir hchmod)
        · exact Or.inl rfl
      · exact Or.inl rfl
    · exact Or.inl rfl
  have hheld : (fs.chmodAt made.loc 0o700).held =
      Function.update fs.held made.loc (some ((found.setMtime 0).setMode 0o700)) := by
    rw [(fs.changes_chmodAt made.loc 0o700).held_eq, hfound]
    rfl
  have hopened : (fs.chmodAt made.loc 0o700).held.Opened made.loc := by
    rw [hheld]
    exact ⟨_, Function.update_self .., his.2.mp hdir,
      (by decide : decide ((0o700 : UInt32) &&& 0o100 ≠ 0) = true),
      (by decide : decide ((0o700 : UInt32) &&& 0o200 ≠ 0) = true)⟩
  refine ⟨?_, fun hchecked => ?_, fun loc hloc => ?_, fun loc hloc hdir => ?_⟩
  · rcases hnext with hnext | hnext
    · rw [hnext]
      exact h
    · rw [hnext, hheld]
      exact h.update hmem his
  · have hsame : next = fs.chmodAt made.loc 0o700 := by
      have hlstat : fs.lstat made.path = .ok found := by
        rw [FileSystem.lstat_of_enters hchecked]
        exact FileSystem.found_eq_ok.mpr hfound
      have hid : found.identity = made.identity := his.1
      simp only [next, FileSystem.ifSame, hlstat, hid, if_true,
        FileSystem.chmod_of_enters hchecked hisDir]
      rfl
    rw [hsame]
    exact hopened
  · rcases hnext with hnext | hnext
    · rw [hnext]
      exact hloc
    · rw [hnext]
      by_cases heq : loc = made.loc
      · rw [heq]
        exact hopened
      · rw [Holdings.Opened, hheld, Function.update_of_ne heq]
        exact hloc
  · rcases hnext with hnext | hnext
    · rw [hnext]
    · rw [hnext, (fs.changes_chmodAt made.loc 0o700).get hloc hdir]

/-! ## Removing the objects -/

/-- The objects of `rest` stand, those of `gone` were taken from the stack.  If the old
directories are accessible, the directories of `rest` are open and nothing of `gone` is
left.  What is in an old directory that is not accessible is left in any case. -/
structure Undoing (old now : Holdings) (gone rest : List Made) : Prop where
  stacked : Stacked old rest
  fresh : ∀ {made other : Made}, made ∈ gone → other ∈ rest → made.loc ≠ other.loc
  closed : ∀ {name : Name} {loc : Loc}, old (name :: loc) ≠ none → old.IsDirectory loc
  object : ∀ {made : Made}, made ∈ rest → ∃ object, now made.loc = some object ∧ made.Is object
  free : ∀ {made : Made}, made ∈ gone → old made.loc = none
  other : ∀ {loc : Loc}, (∀ made ∈ gone, made.loc ≠ loc) → (∀ made ∈ rest, made.loc ≠ loc) →
    now loc = old loc
  clean : Accessible old (gone ++ rest) →
    (∀ made ∈ gone, now made.loc = none) ∧
      ∀ made ∈ rest, made.directory = true → now.Opened made.loc
  left : ∀ {made : Made}, made ∈ gone ++ rest → old.IsDirectory made.dir →
    ¬ (Enters (old.view true) made.path made.dir made.name ∧ old.Writable made.dir) →
    now made.loc ≠ none

namespace Undoing

variable {old now : Holdings} {gone rest : List Made} {made : Made}

theorem start {stack : List Made} (h : Stands old now stack)
    (hopen : Accessible old stack → ∀ made ∈ stack, made.directory = true →
      now.Opened made.loc) : Undoing old now [] stack := by
  refine ⟨h.stacked, by simp, h.closed, h.object, by simp, fun _ => h.other,
    fun haccess => ⟨by simp, hopen haccess⟩, fun hmem _ _ => ?_⟩
  obtain ⟨object, hobject, -⟩ := h.object hmem
  simp [hobject]

theorem of_old (h : Undoing old now gone rest) {loc : Loc} {object : Object}
    (hold : old loc = some object) : now loc = some object := by
  rw [h.other, hold]
  · rintro made hmem rfl
    rw [h.free hmem] at hold
    simp at hold
  · rintro made hmem rfl
    rw [h.stacked.old_eq_none hmem] at hold
    simp at hold

theorem extends_old (h : Undoing old now gone rest) (checked : Bool) :
    Extends (old.view checked) (now.view checked) := by
  intro loc v hv
  obtain ⟨object, hobject, rfl⟩ := Option.map_eq_some_iff.mp hv
  exact Or.inl (by rw [Holdings.view, h.of_old hobject, Option.map_some])

/-- In the end what was there before is there. -/
theorem finish (h : Undoing old now gone []) (haccess : Accessible old gone) : now = old := by
  funext loc
  by_cases hloc : ∃ made ∈ gone, made.loc = loc
  · obtain ⟨made, hmem, rfl⟩ := hloc
    rw [h.free hmem]
    exact (h.clean (by simpa using haccess)).1 made hmem
  · push Not at hloc
    exact h.other hloc (by simp)

/-- Nothing is below the top object once what was above it in the stack is gone. -/
theorem empty (h : Undoing old now gone (made :: rest))
    (hgone : ∀ other ∈ gone, now other.loc = none) (name : Name) :
    now (name :: made.loc) = none := by
  by_contra hsome
  have hnone : old made.loc = none := h.stacked.1
  have hnot : ¬ old.IsDirectory made.loc := by
    rintro ⟨object, hobject, -⟩
    rw [hnone] at hobject
    simp at hobject
  have hloc : ∀ other ∈ made :: rest, other.loc ≠ name :: made.loc := by
    intro other hother heq
    have hdir : other.dir = made.loc := (List.cons.inj heq).2
    rcases List.mem_cons.mp hother with rfl | hother
    · exact List.cons_ne_self _ _ heq.symm
    · rcases h.stacked.2.2.2.isDirectory_or hother with ⟨parent, hparent, hunder⟩ | hold
      · exact h.stacked.2.1 parent hparent (by rw [← hunder.dir, hdir])
      · exact hnot (hdir ▸ hold)
  have hgoneLoc : ∀ other ∈ gone, other.loc ≠ name :: made.loc := by
    intro other hother heq
    exact hsome (heq ▸ hgone other hother)
  rw [h.other hgoneLoc hloc] at hsome
  exact hnot (h.closed hsome)

theorem enters_top {fs : FileSystem} (h : Undoing old fs.held gone (made :: rest)) :
    Enters (fs.view false) made.path made.dir made.name := by
  have hopen : ∀ parent ∈ rest, parent.directory = true →
      fs.held.view false parent.loc = some .directory := by
    intro parent hparent hdir
    obtain ⟨object, hobject, -, hkind⟩ := h.object (List.mem_cons_of_mem _ hparent)
    exact Holdings.view_false_eq_directory.mpr ⟨object, hobject, hkind.mp hdir⟩
  have henters := h.stacked.enters (h.extends_old false) hopen
    fun other hother => h.stacked.enters_old hother
  simpa only [FileSystem.view_held] using henters

/-- What can be entered and changed now could be before. -/
theorem access_of_now {fs : FileSystem} (h : Undoing old fs.held gone (made :: rest))
    (hdir : old.IsDirectory made.dir) (henters : Enters (fs.view true) made.path made.dir made.name)
    (hmay : fs.mayChange made.dir = true) :
    Enters (old.view true) made.path made.dir made.name ∧ old.Writable made.dir := by
  have hsame : ∀ loc, old loc = none ∨ fs.held.view true loc = old.view true loc := by
    intro loc
    cases hloc : old loc with
    | none => exact Or.inl rfl
    | some object => exact Or.inr (by rw [Holdings.view, Holdings.view, h.of_old hloc, hloc])
  rw [← FileSystem.view_held] at henters
  refine ⟨.of_later (h.extends_old false) hsame (h.stacked.enters_old List.mem_cons_self hdir)
    henters, ?_⟩
  obtain ⟨found, hfound, hwrite⟩ := FileSystem.writable_held.mpr hmay
  obtain ⟨object, hobject, -⟩ := hdir
  rw [h.of_old hobject] at hfound
  exact ⟨object, hobject, Option.some.inj hfound ▸ hwrite⟩

/-- The top object is removed, which takes access to its directory, or everything stays. -/
theorem remove_cases {fs : FileSystem} {now : ℤ} (h : Undoing old fs.held gone (made :: rest)) :
    let next := fs.ifSame made fun fs => fs.remove made.directory made.path now
    next = fs ∨ FileSystem.Changes fs next made.loc none ∧
      (old.IsDirectory made.dir →
        Enters (old.view true) made.path made.dir made.name ∧ old.Writable made.dir) := by
  dsimp only
  unfold FileSystem.ifSame
  split
  · split
    · split
      · rename_i changed hremove
        obtain ⟨henters, hmay, hchanges⟩ := FileSystem.remove_eq_ok h.enters_top hremove
        exact Or.inr ⟨hchanges, fun hdir => h.access_of_now hdir henters hmay⟩
      · exact Or.inl rfl
    · exact Or.inl rfl
  · exact Or.inl rfl

/-- Removing the top object, or failing to. -/
theorem step {fs : FileSystem} {now : ℤ} (h : Undoing old fs.held gone (made :: rest)) :
    Undoing old (fs.ifSame made fun fs => fs.remove made.directory made.path now).held
      (made :: gone) rest := by
  obtain ⟨hfree, hfresh, hplace, hrest⟩ := h.stacked
  obtain ⟨object, hobject, his⟩ := h.object List.mem_cons_self
  obtain ⟨found, hfound, rfl⟩ := FileSystem.get_of_held hobject
  have hcases := @remove_cases old gone rest made fs now h
  generalize hnext : fs.ifSame made (fun fs => fs.remove made.directory made.path now) = next
    at hcases ⊢
  -- whether or not the object is removed, every other place keeps what it holds
  have hheld : ∀ {loc : Loc}, loc ≠ made.loc → next.held loc = fs.held loc := by
    intro loc hloc
    rcases hcases with rfl | ⟨hchanges, -⟩
    · rfl
    · exact hchanges.held hloc
  refine ⟨hrest, ?_, h.closed, ?_, ?_, ?_, ?_, ?_⟩
  · intro other below hother hbelow
    rcases List.mem_cons.mp hother with rfl | hother
    · exact (hfresh below hbelow).symm
    · exact h.fresh hother (List.mem_cons_of_mem _ hbelow)
  · intro other hother
    rw [hheld (hfresh other hother)]
    exact h.object (List.mem_cons_of_mem _ hother)
  · intro other hother
    rcases List.mem_cons.mp hother with rfl | hother
    · exact hfree
    · exact h.free hother
  · intro loc hgone hloc
    have hne := hgone made List.mem_cons_self
    rw [hheld hne.symm]
    refine h.other (fun other hother => hgone other (List.mem_cons_of_mem _ hother)) ?_
    intro other hother
    rcases List.mem_cons.mp hother with rfl | hother
    · exact hne
    · exact hloc other hother
  -- with access to the old directories the removal succeeds: the path can still be entered, the
  -- directory can be written, and what lay in the object is gone already
  · intro haccess
    have haccess' : Accessible old (gone ++ made :: rest) := fun other hother =>
      haccess other (by simp only [List.mem_append, List.mem_cons] at hother ⊢; tauto)
    obtain ⟨hgone, hopened⟩ := h.clean haccess'
    have hchecked : Enters (fs.view true) made.path made.dir made.name := by
      have hchecked := h.stacked.enters (h.extends_old true)
        (fun parent hparent hdir => (hopened parent (List.mem_cons_of_mem _ hparent) hdir).view)
        fun other hother hdir => (haccess' other (List.mem_append_right _ hother) hdir).1
      simpa only [FileSystem.view_held] using hchecked
    have hmay : fs.mayChange made.dir = true := by
      rw [← FileSystem.writable_held]
      rcases hplace with ⟨parent, hparent, hunder⟩ | hold
      · rw [hunder.dir]
        obtain ⟨object, hobject, -, -, hwrite⟩ :=
          hopened parent (List.mem_cons_of_mem _ hparent) hunder.directory
        exact ⟨object, hobject, hwrite⟩
      · have hdir := Holdings.view_false_eq_directory.mp hold.dir
        obtain ⟨object, hobject, hwrite⟩ :=
          (haccess' made (List.mem_append_right _ List.mem_cons_self) hdir).2
        exact ⟨object, h.of_old hobject, hwrite⟩
    have hremove : ∃ after, fs.remove made.directory made.path now = .ok after :=
      FileSystem.remove_of_enters hchecked hfound his.2 hmay fun below =>
        FileSystem.held_eq_none.mp (h.empty hgone below)
    have hchanges : FileSystem.Changes fs next made.loc none := by
      obtain ⟨after, hafter⟩ := hremove
      have hlstat : fs.lstat made.path = .ok found := by
        rw [FileSystem.lstat_of_enters hchecked]
        exact FileSystem.found_eq_ok.mpr hfound
      have hid : found.identity = made.identity := his.1
      have hsame : next = after := by
        rw [← hnext]
        simp only [FileSystem.ifSame, hlstat, hid, if_true, hafter]
      rw [hsame]
      exact (FileSystem.remove_eq_ok h.enters_top hafter).2.2
    refine ⟨?_, ?_⟩
    · intro other hother
      rcases List.mem_cons.mp hother with rfl | hother
      · exact FileSystem.held_eq_none.mpr hchanges.here
      · by_cases heq : other.loc = made.loc
        · rw [heq]
          exact FileSystem.held_eq_none.mpr hchanges.here
        · rw [hheld heq]
          exact hgone other hother
    · intro other hother hdir
      rw [Holdings.Opened, hheld (hfresh other hother)]
      exact hopened other (List.mem_cons_of_mem _ hother) hdir
  -- an object whose directory is closed is not removed, so it is left
  · intro other hother hdir hclosed
    have hin : other ∈ gone ++ made :: rest := by
      simp only [List.mem_append, List.mem_cons] at hother ⊢
      tauto
    by_cases heq : other = made
    · subst heq
      rcases hcases with rfl | ⟨-, haccess⟩
      · exact h.left hin hdir hclosed
      · exact absurd (haccess hdir) hclosed
    · rw [hheld]
      · exact h.left hin hdir hclosed
      · rcases List.mem_append.mp hother with hother | hother
        · exact h.fresh ((List.mem_cons.mp hother).resolve_left heq) List.mem_cons_self
        · exact hfresh other hother

end Undoing

end Unix
