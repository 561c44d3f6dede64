import Mathlib

/-!
# Path resolution

How a Unix kernel follows a path: the text is split at the slashes, `.` and `..`
are steps of their own, empty segments are skipped, and a symbolic link is
replaced by its target, a bounded number of times.  The walk reads nothing of
the filesystem but a *view*, which says for each location whether something is
there and what it is to a walk.  `Extends` compares two views, and a walk that
succeeds in one succeeds in the other with the same result.

A location is the list of names from the object up to the root, so that the
parent of a location is its tail.
-/

namespace Unix

abbrev Name := List Char
abbrev Loc := List Name

/-- The error numbers of the calls. -/
inductive Errno
  | noent
  | exist
  | acces
  | perm
  | notdir
  | isdir
  | loop
  | notempty
  | inval
  | nospc
  | intr
  | io
  deriving DecidableEq

/-- What an object is to a walk: `locked` is a directory that cannot be searched. -/
inductive View
  | directory
  | locked
  | link (target : List Char)
  | leaf
  deriving DecidableEq

/-- A name that is the name of a directory entry and not a step of its own. -/
def Plain (name : Name) : Prop :=
  name ≠ [] ∧ name ≠ ['.'] ∧ name ≠ ['.', '.']

instance (name : Name) : Decidable (Plain name) :=
  inferInstanceAs (Decidable (_ ∧ _ ∧ _))

/-- What one segment leads to. -/
inductive Turn
  | move (loc : Loc)
  | link (target : List Char)
  | leaf (loc : Loc)
  | fail (errno : Errno)
  deriving DecidableEq

/-- The entry with this name. -/
def turnEntry (view : Loc → Option View) (loc : Loc) : Turn :=
  match view loc with
  | none => .fail .noent
  | some .directory | some .locked => .move loc
  | some (.link target) => .link target
  | some .leaf => .leaf loc

/-- Only the empty segment needs no permission to search. -/
def turn (view : Loc → Option View) (loc : Loc) (segment : Name) : Turn :=
  if segment = [] then .move loc
  else
    match view loc with
    | none => .fail .noent
    | some .locked => .fail .acces
    | some (.link _) | some .leaf => .fail .notdir
    | some .directory =>
        if segment = ['.'] then .move loc
        else if segment = ['.', '.'] then .move loc.tail
        else turnEntry view (segment :: loc)

/-- Where a walk without links ends: at a location, at a link with the segments
after it, or with an error. -/
inductive Stop
  | done (loc : Loc)
  | link (dir : Loc) (target : List Char) (rest : List Name)
  | fail (errno : Errno)
  deriving DecidableEq

/-- Follow the segments up to the first link. -/
def walkPlain (view : Loc → Option View) : Loc → List Name → Stop
  | loc, [] => .done loc
  | loc, segment :: rest =>
      match turn view loc segment with
      | .move next => walkPlain view next rest
      | .link target => .link loc target rest
      | .leaf next => if rest = [] then .done next else .fail .notdir
      | .fail errno => .fail errno

/-- Where the target of a link starts. -/
def linkStart (dir : Loc) (target : List Char) : Loc :=
  if target.head? = some '/' then [] else dir

/-- Follow the segments, through at most `budget` links. -/
def walk (view : Loc → Option View) : ℕ → Loc → List Name → Except Errno Loc
  | 0, loc, segments =>
      match walkPlain view loc segments with
      | .done stop => .ok stop
      | .link _ _ _ => .error .loop
      | .fail errno => .error errno
  | budget + 1, loc, segments =>
      match walkPlain view loc segments with
      | .done stop => .ok stop
      | .link dir target rest =>
          walk view budget (linkStart dir target) (target.splitOn '/' ++ rest)
      | .fail errno => .error errno

variable {view view' : Loc → Option View} {loc : Loc}

theorem turn_plain {name : Name} (hname : Plain name) (hdir : view loc = some .directory) :
    turn view loc name = turnEntry view (name :: loc) := by
  obtain ⟨hne, hdot, hdots⟩ := hname
  simp only [turn, if_neg hne, hdir, if_neg hdot, if_neg hdots]

/-- A leaf is found under the location it is at. -/
theorem turn_eq_leaf {segment : Name} {next : Loc} (h : turn view loc segment = .leaf next) :
    view next = some .leaf := by
  simp only [turn, turnEntry] at h
  repeat' split at h
  all_goals simp_all

/-! ## Comparing views -/

/-- Whatever a walk finds in one view it finds in the other, where a locked directory
may be open. -/
def Extends (view view' : Loc → Option View) : Prop :=
  ∀ loc v, view loc = some v →
    view' loc = some v ∨ v = .locked ∧ view' loc = some .directory

theorem turn_mono (h : Extends view view') {segment : Name}
    (hok : ∀ errno, turn view loc segment ≠ .fail errno) :
    turn view' loc segment = turn view loc segment := by
  have hentry : ∀ {loc : Loc}, (∀ errno, turnEntry view loc ≠ .fail errno) →
      turnEntry view' loc = turnEntry view loc := by
    intro loc hok
    simp only [turnEntry] at hok ⊢
    cases hview : view loc with
    | none => simp [hview] at hok
    | some v => rcases h loc v hview with hsame | ⟨rfl, hopen⟩ <;> simp [*]
  simp only [turn] at hok ⊢
  by_cases hempty : segment = []
  · simp only [hempty, if_true]
  simp only [hempty, if_false] at hok ⊢
  cases hview : view loc with
  | none => simp [hview] at hok
  | some v =>
      cases v with
      | directory =>
          have hsame : view' loc = some .directory := by simpa using h loc _ hview
          simp only [hview, hsame] at hok ⊢
          by_cases hdot : segment = ['.']
          · simp only [hdot, if_true]
          by_cases hdots : segment = ['.', '.']
          · simp only [hdots, if_true]
          simp only [hdot, hdots, if_false] at hok ⊢
          exact hentry hok
      | _ => simp [hview] at hok

theorem walkPlain_mono (h : Extends view view') {segments : List Name}
    (hok : ∀ errno, walkPlain view loc segments ≠ .fail errno) :
    walkPlain view' loc segments = walkPlain view loc segments := by
  induction segments generalizing loc with
  | nil => rfl
  | cons segment rest ih =>
      have hturn : turn view' loc segment = turn view loc segment := by
        refine turn_mono h fun errno hfail => ?_
        simp [walkPlain, hfail] at hok
      simp only [walkPlain, hturn] at hok ⊢
      cases hcase : turn view loc segment with
      | move next =>
          simp only [hcase] at hok ⊢
          exact ih hok
      | _ => rfl

theorem walk_mono (h : Extends view view') {budget : ℕ} {stop : Loc} {segments : List Name}
    (hok : walk view budget loc segments = .ok stop) :
    walk view' budget loc segments = .ok stop := by
  have hplain : walkPlain view' loc segments = walkPlain view loc segments := by
    refine walkPlain_mono h fun errno hfail => ?_
    cases budget <;> simp [walk, hfail] at hok
  induction budget generalizing loc segments with
  | zero =>
      simp only [walk, hplain] at hok ⊢
      exact hok
  | succ budget ih =>
      simp only [walk, hplain] at hok ⊢
      cases hcase : walkPlain view loc segments with
      | link dir target rest =>
          simp only [hcase] at hok ⊢
          refine ih hok (walkPlain_mono h fun errno hfail => ?_)
          cases budget <;> simp [walk, hfail] at hok
      | done stop' => simpa only [hcase] using hok
      | fail errno => simp [hcase] at hok

/-- The second view is the first one with some directories locked. -/
def Locks (view view' : Loc → Option View) : Prop :=
  ∀ loc, view' loc = view loc ∨ view loc = some .directory ∧ view' loc = some .locked

theorem Locks.extends (h : Locks view view') : Extends view' view := by
  intro loc v hv
  rcases h loc with hsame | ⟨hdir, hlocked⟩
  · exact Or.inl (hsame ▸ hv)
  · rw [hlocked] at hv
    exact Or.inr ⟨(Option.some.inj hv).symm, hdir⟩

theorem turn_locks (h : Locks view view') (loc : Loc) (segment : Name) :
    turn view' loc segment = turn view loc segment ∨ turn view' loc segment = .fail .acces := by
  have hentry : ∀ loc : Loc, turnEntry view' loc = turnEntry view loc := by
    intro loc
    rcases h loc with hsame | ⟨hdir, hlocked⟩
    · simp only [turnEntry, hsame]
    · simp only [turnEntry, hdir, hlocked]
  by_cases hempty : segment = []
  · simp [turn, hempty]
  rcases h loc with hsame | ⟨-, hlocked⟩
  · simp only [turn, hsame, hentry, true_or]
  · simp [turn, hempty, hlocked]

/-- Locks on directories stop a walk or do not change it. -/
theorem walkPlain_locks (h : Locks view view') (loc : Loc) (segments : List Name) :
    walkPlain view' loc segments = walkPlain view loc segments ∨
      walkPlain view' loc segments = .fail .acces := by
  induction segments generalizing loc with
  | nil => exact Or.inl rfl
  | cons segment rest ih =>
      simp only [walkPlain]
      rcases turn_locks h loc segment with hturn | hturn <;> simp only [hturn]
      · cases turn view loc segment with
        | move next => exact ih next
        | _ => exact Or.inl rfl
      · exact Or.inr trivial

theorem walk_locks (h : Locks view view') (budget : ℕ) (loc : Loc) (segments : List Name) :
    walk view' budget loc segments = walk view budget loc segments ∨
      walk view' budget loc segments = .error .acces := by
  induction budget generalizing loc segments with
  | zero =>
      simp only [walk]
      rcases walkPlain_locks h loc segments with hplain | hplain <;> simp [hplain]
  | succ budget ih =>
      simp only [walk]
      rcases walkPlain_locks h loc segments with hplain | hplain <;> simp only [hplain]
      · cases walkPlain view loc segments with
        | link dir target rest => exact ih _ _
        | _ => exact Or.inl rfl
      · exact Or.inr trivial

section Mix

variable {first second mixed : Loc → Option View} (hfirst : Extends first view)
  (hsecond : Extends second view) (hmixed : ∀ loc, mixed loc = first loc ∨ mixed loc = second loc)

include hfirst hsecond hmixed

theorem turn_mix {segment : Name} (hok : ∀ errno, turn first loc segment ≠ .fail errno)
    (hok' : ∀ errno, turn second loc segment ≠ .fail errno) :
    turn mixed loc segment = turn view loc segment := by
  have hturn := turn_mono hfirst hok
  have hturn' := turn_mono hsecond hok'
  by_cases hempty : segment = []
  · simp [turn, hempty]
  have hopen : ∀ {other : Loc → Option View}, (∀ errno, turn other loc segment ≠ .fail errno) →
      other loc = some .directory := by
    intro other hok
    simp only [turn, if_neg hempty] at hok
    cases hview : other loc with
    | none => simp [hview] at hok
    | some v => cases v <;> simp [hview] at hok ⊢
  have hentry : ∀ {other : Loc → Option View}, other loc = some .directory →
      turn view loc segment = turn other loc segment →
      segment ≠ ['.'] → segment ≠ ['.', '.'] →
      turnEntry other (segment :: loc) = turn view loc segment := by
    intro other hother hsame hdot hdots
    rw [hsame, turn_plain ⟨hempty, hdot, hdots⟩ hother]
  have hdir : mixed loc = some .directory := by
    rcases hmixed loc with h | h <;> rw [h]
    · exact hopen hok
    · exact hopen hok'
  by_cases hdot : segment = ['.']
  · rw [hturn]
    simp [turn, hdot, hdir, hopen hok]
  by_cases hdots : segment = ['.', '.']
  · rw [hturn]
    simp [turn, hdots, hdir, hopen hok]
  rw [turn_plain ⟨hempty, hdot, hdots⟩ hdir]
  rcases hmixed (segment :: loc) with h | h
  · rw [← hentry (hopen hok) hturn hdot hdots]
    simp only [turnEntry, h]
  · rw [← hentry (hopen hok') hturn' hdot hdots]
    simp only [turnEntry, h]

/-- A walk that both views allow is allowed when each location is seen as in one of them. -/
theorem walk_mix {budget : ℕ} {stop stop' : Loc} {segments : List Name}
    (hok : walk first budget loc segments = .ok stop)
    (hok' : walk second budget loc segments = .ok stop') :
    walk mixed budget loc segments = .ok stop := by
  -- without links: both walks take the turns of the common view, so the mixed one does
  have hplain : ∀ {loc : Loc} {segments : List Name},
      (∀ errno, walkPlain first loc segments ≠ .fail errno) →
      (∀ errno, walkPlain second loc segments ≠ .fail errno) →
      walkPlain mixed loc segments = walkPlain view loc segments := by
    intro loc segments hok hok'
    induction segments generalizing loc with
    | nil => rfl
    | cons segment rest ih =>
        have hstep : ∀ {other : Loc → Option View},
            (∀ errno, walkPlain other loc (segment :: rest) ≠ .fail errno) →
            ∀ errno, turn other loc segment ≠ .fail errno := by
          intro other hok errno hfail
          simp [walkPlain, hfail] at hok
        have hturn := turn_mono hfirst (hstep hok)
        have hturn' := turn_mono hsecond (hstep hok')
        have hturnMixed := turn_mix hfirst hsecond hmixed (hstep hok) (hstep hok')
        simp only [walkPlain, ← hturn] at hok
        simp only [walkPlain, ← hturn'] at hok'
        simp only [walkPlain, hturnMixed]
        cases hcase : turn view loc segment with
        | move next =>
            simp only [hcase] at hok hok'
            exact ih hok hok'
        | _ => rfl
  have hfails : ∀ {other : Loc → Option View} {budget : ℕ} {loc stop : Loc}
      {segments : List Name}, walk other budget loc segments = .ok stop →
      ∀ errno, walkPlain other loc segments ≠ .fail errno := by
    intro other budget loc stop segments hok errno hfail
    cases budget <;> simp [walk, hfail] at hok
  induction budget generalizing loc segments with
  | zero =>
      have hsame := hplain (hfails hok) (hfails hok')
      have hview := walkPlain_mono hfirst (hfails hok)
      simp only [walk, hsame, hview] at hok ⊢
      exact hok
  | succ budget ih =>
      have hsame := hplain (hfails hok) (hfails hok')
      have hview := walkPlain_mono hfirst (hfails hok)
      have hview' := walkPlain_mono hsecond (hfails hok')
      simp only [walk, hsame] at hok hok' ⊢
      rw [← hview] at hok
      rw [← hview'] at hok'
      cases hcase : walkPlain view loc segments with
      | link dir target rest =>
          simp only [hcase] at hok hok' ⊢
          exact ih hok hok'
      | done stop'' => simpa only [hcase] using hok
      | fail errno => simp [hcase] at hok

end Mix

/-! ## Longer paths -/

/-- After a walk that does not end at a leaf the rest is walked from there. -/
theorem walkPlain_append_done {stop : Loc} {segments : List Name} (more : List Name)
    (h : walkPlain view loc segments = .done stop) (hleaf : view stop ≠ some .leaf) :
    walkPlain view loc (segments ++ more) = walkPlain view stop more := by
  induction segments generalizing loc with
  | nil =>
      obtain rfl : loc = stop := by simpa [walkPlain] using h
      rfl
  | cons segment rest ih =>
      simp only [List.cons_append, walkPlain] at h ⊢
      cases hcase : turn view loc segment with
      | move next =>
          simp only [hcase] at h ⊢
          exact ih h
      | leaf next =>
          simp only [hcase] at h
          split at h
          · obtain rfl := Stop.done.inj h
            exact absurd (turn_eq_leaf hcase) hleaf
          · simp at h
      | link target => simp [hcase] at h
      | fail errno => simp [hcase] at h

theorem walkPlain_append_link {dir : Loc} {segments rest : List Name} {target : List Char}
    (more : List Name) (h : walkPlain view loc segments = .link dir target rest) :
    walkPlain view loc (segments ++ more) = .link dir target (rest ++ more) := by
  induction segments generalizing loc with
  | nil => simp [walkPlain] at h
  | cons segment after ih =>
      simp only [List.cons_append, walkPlain] at h ⊢
      cases hcase : turn view loc segment with
      | move next =>
          simp only [hcase] at h ⊢
          exact ih h
      | leaf next =>
          simp only [hcase] at h
          split at h <;> simp at h
      | link target =>
          simp only [hcase] at h ⊢
          obtain ⟨rfl, rfl, rfl⟩ := Stop.link.inj h
          rfl
      | fail errno => simp [hcase] at h

/-- A path that goes on from a directory without meeting a link needs no more links. -/
theorem walk_append {budget : ℕ} {stop : Loc} {segments more : List Name}
    (h : walk view budget loc segments = .ok stop) (hleaf : view stop ≠ some .leaf)
    (hplain : ∀ dir target rest, walkPlain view stop more ≠ .link dir target rest) :
    walk view budget loc (segments ++ more) = walk view 0 stop more := by
  have hdone : ∀ {budget : ℕ} {loc stop' : Loc} {segments : List Name},
      walkPlain view loc segments = .done stop' → walk view budget loc segments = .ok stop →
      walk view budget loc (segments ++ more) = walk view 0 stop more := by
    intro budget loc stop' segments hdone h
    obtain rfl : stop' = stop := by cases budget <;> simpa [walk, hdone] using h
    have happend := walkPlain_append_done more hdone hleaf
    cases budget with
    | zero => simp only [walk, happend]
    | succ budget =>
        simp only [walk, happend]
        cases hmore : walkPlain view stop' more with
        | link dir target rest => exact absurd hmore (hplain _ _ _)
        | _ => rfl
  induction budget generalizing loc segments with
  | zero =>
      cases hcase : walkPlain view loc segments with
      | done stop' => exact hdone hcase h
      | _ => simp [walk, hcase] at h
  | succ budget ih =>
      cases hcase : walkPlain view loc segments with
      | done stop' => exact hdone hcase h
      | link dir target rest =>
          simp only [walk, hcase] at h
          simp only [walk, walkPlain_append_link more hcase]
          rw [← List.append_assoc]
          exact ih h
      | fail errno => simp [walk, hcase] at h

/-- A walk that succeeds has passed through every shorter path. -/
theorem walk_of_append {budget : ℕ} {stop : Loc} {segments more : List Name}
    (h : walk view budget loc (segments ++ more) = .ok stop) :
    ∃ middle, walk view budget loc segments = .ok middle := by
  -- a walk that fails early fails however it goes on
  have hfail : ∀ {loc : Loc} {segments : List Name} {errno : Errno},
      walkPlain view loc segments = .fail errno →
      ∃ errno, walkPlain view loc (segments ++ more) = .fail errno := by
    intro loc segments errno h
    induction segments generalizing loc with
    | nil => simp [walkPlain] at h
    | cons segment rest ih =>
        simp only [List.cons_append, walkPlain] at h ⊢
        cases hcase : turn view loc segment with
        | move next =>
            simp only [hcase] at h ⊢
            exact ih h
        | leaf next =>
            simp only [hcase] at h ⊢
            split at h
            · simp at h
            · rename_i hne
              exact ⟨.notdir, by simp [hne]⟩
        | link target => simp [hcase] at h
        | fail errno' => exact ⟨errno', rfl⟩
  induction budget generalizing loc segments with
  | zero =>
      cases hcase : walkPlain view loc segments with
      | done middle => exact ⟨middle, by simp [walk, hcase]⟩
      | link dir target rest => simp [walk, walkPlain_append_link more hcase] at h
      | fail errno =>
          obtain ⟨errno', hcase'⟩ := hfail hcase
          simp [walk, hcase'] at h
  | succ budget ih =>
      cases hcase : walkPlain view loc segments with
      | done middle => exact ⟨middle, by simp [walk, hcase]⟩
      | link dir target rest =>
          simp only [walk, walkPlain_append_link more hcase] at h
          rw [← List.append_assoc] at h
          simp only [walk, hcase]
          exact ih h
      | fail errno =>
          obtain ⟨errno', hcase'⟩ := hfail hcase
          simp [walk, hcase'] at h

/-- An empty segment or `.` at the end of a path leads nowhere else. -/
theorem walk_of_append_skip {budget : ℕ} {stop : Loc} {segments : List Name} {segment : Name}
    (hskip : segment = [] ∨ segment = ['.'])
    (h : walk view budget loc (segments ++ [segment]) = .ok stop) :
    walk view budget loc segments = .ok stop := by
  -- without links: the last segment stays where it is, or there is no directory to stay in
  have hdone : ∀ {loc middle : Loc} {segments : List Name},
      walkPlain view loc segments = .done middle →
      walkPlain view loc (segments ++ [segment]) = .done middle ∨
        ∃ errno, walkPlain view loc (segments ++ [segment]) = .fail errno := by
    intro loc middle segments h
    induction segments generalizing loc with
    | nil =>
        obtain rfl : loc = middle := by simpa [walkPlain] using h
        rcases hskip with rfl | rfl
        · exact Or.inl (by simp [walkPlain, turn])
        · cases hview : view loc with
          | none => exact Or.inr ⟨.noent, by simp [walkPlain, turn, hview]⟩
          | some v =>
              cases v with
              | directory => exact Or.inl (by simp [walkPlain, turn, hview])
              | locked => exact Or.inr ⟨.acces, by simp [walkPlain, turn, hview]⟩
              | _ => exact Or.inr ⟨.notdir, by simp [walkPlain, turn, hview]⟩
    | cons first rest ih =>
        simp only [List.cons_append, walkPlain] at h ⊢
        cases hcase : turn view loc first with
        | move next =>
            simp only [hcase] at h ⊢
            exact ih h
        | leaf next => exact Or.inr ⟨.notdir, by simp⟩
        | link target => simp [hcase] at h
        | fail errno => simp [hcase] at h
  have hsame : ∀ {budget : ℕ} {loc middle : Loc} {segments : List Name},
      walkPlain view loc segments = .done middle →
      walk view budget loc (segments ++ [segment]) = .ok stop →
      walk view budget loc segments = .ok stop := by
    intro budget loc middle segments hmiddle h
    rcases hdone hmiddle with hcase | ⟨errno, hcase⟩
    · cases budget <;> simpa [walk, hcase, hmiddle] using h
    · cases budget <;> simp [walk, hcase] at h
  obtain ⟨middle, hmiddle⟩ := walk_of_append h
  induction budget generalizing loc segments with
  | zero =>
      cases hcase : walkPlain view loc segments with
      | done middle => exact hsame hcase h
      | _ => simp [walk, hcase] at hmiddle
  | succ budget ih =>
      cases hcase : walkPlain view loc segments with
      | done middle => exact hsame hcase h
      | link dir target rest =>
          simp only [walk, walkPlain_append_link [segment] hcase] at h
          -- a link comes before the last segment, and its target is walked instead
          rw [← List.append_assoc] at h
          simp only [walk, hcase] at hmiddle ⊢
          exact ih h hmiddle
      | fail errno => simp [walk, hcase] at hmiddle

/-! ## Going down -/

/-- The directories from a location down these names can all be searched. -/
def Open (view : Loc → Option View) : Loc → List Name → Prop
  | loc, [] => view loc = some .directory
  | loc, name :: rest => view loc = some .directory ∧ Open view (name :: loc) rest

theorem Open.start {names : List Name} (h : Open view loc names) :
    view loc = some .directory := by
  cases names with
  | nil => exact h
  | cons name rest => exact h.1

theorem walkPlain_open {names : List Name} (hplain : ∀ name ∈ names, Plain name)
    (h : Open view loc names) : walkPlain view loc names = .done (names.reverse ++ loc) := by
  induction names generalizing loc with
  | nil => rfl
  | cons name rest ih =>
      obtain ⟨hdir, hrest⟩ := h
      have hturn : turn view loc name = .move (name :: loc) := by
        rw [turn_plain (hplain name List.mem_cons_self) hdir, turnEntry, hrest.start]
      simp only [walkPlain, hturn]
      rw [ih (fun name hmem => hplain name (List.mem_cons_of_mem _ hmem)) hrest]
      simp

/-- The walk from a directory down to one below it. -/
theorem walk_open {budget : ℕ} {stop : Loc} {segments names : List Name}
    (h : walk view budget loc segments = .ok stop) (hplain : ∀ name ∈ names, Plain name)
    (hopen : Open view stop names) :
    walk view budget loc (segments ++ names) = .ok (names.reverse ++ stop) := by
  have hdown := walkPlain_open hplain hopen
  rw [walk_append h (by simp [hopen.start]) (by simp [hdown])]
  simp [walk, hdown]

end Unix
