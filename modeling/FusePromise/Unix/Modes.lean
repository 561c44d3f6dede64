import FusePromise.Unix.Access

/-!
# Directories that get new modes

A program gives some directories new modes, one after another, and opens each of them
by its path before it changes it.  A new mode can close the way to what the program
has to get at later.

The items have a place and a path each.  `LetsIn` says that the modes as they are now
do not stand in the way: where an item is missing in a directory that is there, and
could be made, it still could.  `StaysAccessible` says that this is so after each
change the program can get to.
-/

namespace Unix

section

variable {ι : Type} (fs : FileSystem) (path : ι → List Char) (place : ι → Loc) (mode : ι → UInt32)
  (items : List ι)

/-- What could be made in a directory that was there could be made with the modes of now. -/
def LetsIn (now : FileSystem) : Prop :=
  ∀ item ∈ items, ∀ dir name, place item = name :: dir → fs.get (name :: dir) = none →
    fs.isDirectory dir = true → Enters (fs.view true) (path item) dir name →
    fs.mayChange dir = true → Enters (now.view true) (path item) dir name ∧ now.mayChange dir = true

/-- The directories get their modes in turn, each if it can be opened or was not there before. -/
def StaysAccessible : FileSystem → List ι → Prop
  | _, [] => True
  | now, item :: rest =>
      (fs.get (place item) ≠ none → now.openRead (path item) = .ok (place item)) →
        LetsIn fs path place items (now.chmodAt (place item) (mode item)) ∧
          StaysAccessible (now.chmodAt (place item) (mode item)) rest

end

/-- The modes of some directories, of which the first was set last. -/
def FileSystem.chmodAll {ι : Type} (fs : FileSystem) (place : ι → Loc) (mode : ι → UInt32)
    (items : List ι) : FileSystem :=
  items.foldr (fun item fs => fs.chmodAt (place item) (mode item)) fs

section

variable {ι κ : Type} {fs now : FileSystem} {path : ι → List Char} {place : ι → Loc}
  {mode : ι → UInt32} {items : List ι}

theorem letsIn_map {f : κ → ι} {items : List κ} :
    LetsIn fs path place (items.map f) now ↔ LetsIn fs (path ∘ f) (place ∘ f) items now := by
  simp [LetsIn]

theorem staysAccessible_map {f : κ → ι} {items rest : List κ} :
    StaysAccessible fs path place mode (items.map f) now (rest.map f) ↔
      StaysAccessible fs (path ∘ f) (place ∘ f) (mode ∘ f) items now rest := by
  induction rest generalizing now with
  | nil => exact Iff.rfl
  | cons item rest ih => simp only [List.map_cons, StaysAccessible, letsIn_map, ih,
      Function.comp_apply]

theorem LetsIn.refl : LetsIn fs path place items fs :=
  fun _ _ _ _ _ _ _ henters hmay => ⟨henters, hmay⟩

theorem LetsIn.congr {next : FileSystem} (h : LetsIn fs path place items now)
    (hget : ∀ loc, next.get loc = now.get loc) : LetsIn fs path place items next := by
  intro item hitem dir name hplace hfree hdir henters hmay
  have hview : next.view true = now.view true := by
    funext loc
    rw [FileSystem.view, FileSystem.view, hget]
  rw [hview, FileSystem.mayChange, hget]
  exact h item hitem dir name hplace hfree hdir henters hmay

/-- The modes of what is not there change nothing. -/
theorem staysAccessible_of_absent {rest : List ι} (hlets : LetsIn fs path place items now)
    (habsent : ∀ item ∈ rest, now.get (place item) = none) :
    StaysAccessible fs path place mode items now rest := by
  induction rest generalizing now with
  | nil => trivial
  | cons item rest ih =>
      have hget : ∀ loc, (now.chmodAt (place item) (mode item)).get loc = now.get loc := by
        intro loc
        rw [FileSystem.get_chmodAt]
        split
        · rename_i heq
          rw [← heq, habsent item List.mem_cons_self]
          rfl
        · rfl
      intro _
      refine ⟨hlets.congr hget, ih (hlets.congr hget) fun other hother => ?_⟩
      rw [hget]
      exact habsent other (List.mem_cons_of_mem _ hother)

namespace FileSystem

theorem get_chmodAll_of_ne {loc : Loc} (h : ∀ item ∈ items, place item ≠ loc) :
    (fs.chmodAll place mode items).get loc = fs.get loc := by
  induction items with
  | nil => rfl
  | cons item rest ih =>
      rw [chmodAll, List.foldr_cons, get_chmodAt, if_neg (h item List.mem_cons_self)]
      exact ih fun other hother => h other (List.mem_cons_of_mem _ hother)

/-- Nothing but modes is changed. -/
theorem get_chmodAll_cases (loc : Loc) :
    (fs.chmodAll place mode items).get loc = fs.get loc ∨
      ∃ given, (fs.chmodAll place mode items).get loc =
        (fs.get loc).map (Object.setMode given) := by
  induction items with
  | nil => exact Or.inl rfl
  | cons item rest ih =>
      rw [chmodAll, List.foldr_cons, get_chmodAt]
      split
      · rename_i heq
        subst heq
        refine Or.inr ⟨mode item, ?_⟩
        rcases ih with heq | ⟨given, heq⟩
        · exact congrArg (Option.map (Object.setMode (mode item))) heq
        · rw [← chmodAll, heq, Option.map_map]
          rfl
      · exact ih

/-- The mode of a directory is the one it was given, if all places are different. -/
theorem get_chmodAll_of_mem {item : ι} (hitem : item ∈ items)
    (hplace : ∀ other ∈ items, place other = place item → other = item) :
    (fs.chmodAll place mode items).get (place item) =
      (fs.get (place item)).map (Object.setMode (mode item)) := by
  induction items with
  | nil => simp at hitem
  | cons first rest ih =>
      rw [chmodAll, List.foldr_cons, get_chmodAt]
      split
      · rename_i heq
        obtain rfl := hplace first List.mem_cons_self heq
        by_cases hin : first ∈ rest
        · rw [← chmodAll, ih hin fun other hother => hplace other (List.mem_cons_of_mem _ hother),
            Option.map_map]
          rfl
        · rw [← chmodAll, get_chmodAll_of_ne]
          intro other hother hsame
          exact hin (hplace other (List.mem_cons_of_mem _ hother) hsame ▸ hother)
      · rename_i hne
        refine ih ((List.mem_cons.mp hitem).resolve_left ?_)
          fun other hother => hplace other (List.mem_cons_of_mem _ hother)
        rintro rfl
        exact hne rfl

end FileSystem

end

end Unix
