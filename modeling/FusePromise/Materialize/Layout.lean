import FusePromise.Materialize.Target
import FusePromise.Unix.Access

/-!
# Where the targets of a plan lie

A `Layout` gives each entry of a plan its place: the directory it lies in and its
name there.  The root of the copy lies in the target directory, and every other
entry in the directory of an entry before it.  All that a run does happens at these
places and, while a file is replaced, at one temporary name beside it.
-/

namespace FusePromise

open Unix

/-- The places of the entries, each in the target directory or in the directory of another entry. -/
structure Layout (start : Holdings) (entries : List MaterializeEntryPlan) where
  targetDir : Loc
  dir : MaterializeEntryPlan → Loc
  name : MaterializeEntryPlan → Name
  isDirectory : start.IsDirectory targetDir
  place : ∀ {entry : MaterializeEntryPlan}, entry ∈ entries →
    (dir entry = targetDir ∧
      Enters (start.view false) entry.targetPath targetDir (name entry)) ∨
    ∃ parent ∈ entries, parent.kind = .directory ∧ dir entry = name parent :: dir parent ∧
      entry.targetPath.splitOn '/' = parent.targetPath.splitOn '/' ++ [name entry] ∧
      Plain (name entry)
  ordered : entries.Pairwise fun entry later =>
    name entry :: dir entry ≠ name later :: dir later ∧ dir entry ≠ name later :: dir later

namespace Layout

variable {start : Holdings} {entries : List MaterializeEntryPlan} (layout : Layout start entries)
  {entry other parent : MaterializeEntryPlan}

def loc (entry : MaterializeEntryPlan) : Loc :=
  layout.name entry :: layout.dir entry

theorem eq_of_loc_eq (hmem : entry ∈ entries) (hother : other ∈ entries)
    (hloc : layout.loc entry = layout.loc other) : entry = other := by
  have hnodup : (entries.map layout.loc).Nodup :=
    List.pairwise_map.mpr (layout.ordered.imp And.left)
  exact List.inj_on_of_nodup_map hnodup hmem hother hloc

/-- Where the path of an entry leads once the directory it lies in is there. -/
theorem enters {now : Holdings} (hextends : Unix.Extends (start.view false) (now.view false))
    (hclosed : ∀ {name : Name} {loc : Loc}, now (name :: loc) ≠ none → now.IsDirectory loc)
    (hmem : entry ∈ entries) (hdir : now.IsDirectory (layout.dir entry)) :
    Enters (now.view false) entry.targetPath (layout.dir entry) (layout.name entry) := by
  induction hlength : (layout.dir entry).length using Nat.strong_induction_on
    generalizing entry with
  | _ length ih =>
      rcases layout.place hmem with ⟨htop, henters⟩ | ⟨parent, hparent, -, hloc, hpath, hplain⟩
      · rw [htop]
        exact henters.mono hextends
      · rw [hloc] at hdir ⊢
        have habove : now.IsDirectory (layout.dir parent) := by
          obtain ⟨object, hobject, -⟩ := hdir
          exact hclosed (by rw [hobject]; simp)
        have hshorter : (layout.dir parent).length < length := by
          rw [← hlength, hloc, List.length_cons]
          exact Nat.lt_succ_self _
        exact (ih _ hshorter hparent habove rfl).child
          (Holdings.view_false_eq_directory.mpr hdir) hpath hplain

/-- The directory an entry lies in comes before it in every part of the plan. -/
theorem mem_before {part before after : List MaterializeEntryPlan} (hpart : part.Sublist entries)
    (heq : part = before ++ entry :: after) (hparent : parent ∈ part)
    (hdir : layout.dir entry = layout.loc parent) : parent ∈ before := by
  have hordered := layout.ordered.sublist hpart
  rw [heq, List.pairwise_append, List.pairwise_cons] at hordered
  rw [heq, List.mem_append, List.mem_cons] at hparent
  rcases hparent with hparent | rfl | hparent
  · exact hparent
  · exact absurd hdir (List.cons_ne_self _ _).symm
  · exact absurd hdir (hordered.2.1.1 parent hparent).2

/-- Everything lies in the target directory. -/
theorem targetDir_suffix (hmem : entry ∈ entries) : layout.targetDir <:+ layout.dir entry := by
  induction hlength : (layout.dir entry).length using Nat.strong_induction_on
    generalizing entry with
  | _ length ih =>
      rcases layout.place hmem with ⟨htop, -⟩ | ⟨parent, hparent, -, hloc, -⟩
      · rw [htop]
      · have hshorter : (layout.dir parent).length < length := by
          rw [← hlength, hloc, List.length_cons]
          exact Nat.lt_succ_self _
        rw [hloc]
        exact (ih _ hshorter hparent rfl).trans (List.suffix_cons _ _)

/-- No entry lies below a later one. -/
theorem pairwise_not_suffix :
    entries.Pairwise fun entry later => ¬ layout.loc later <:+ layout.dir entry := by
  rw [List.pairwise_iff_forall_sublist]
  intro entry later hpair
  induction hlength : (layout.dir entry).length using Nat.strong_induction_on
    generalizing entry with
  | _ length ih =>
      have hmem : entry ∈ entries := hpair.subset List.mem_cons_self
      have hlater : later ∈ entries := hpair.subset (by simp)
      intro hbelow
      rcases layout.place hmem with ⟨htop, -⟩ | ⟨parent, hparent, -, hloc, -⟩
      · -- the target directory is too short to lie below an entry
        have hlong := (layout.targetDir_suffix hlater).length_le
        have hshort := hbelow.length_le
        rw [htop, loc, List.length_cons] at hshort
        omega
      · obtain ⟨before, after, heq, hbefore, hafter⟩ := List.cons_sublist_iff.mp hpair
        obtain ⟨init, tail, rfl⟩ := List.append_of_mem hbefore
        have hsplit : entries = init ++ entry :: (tail ++ after) := by
          rw [heq, List.append_assoc, List.cons_append]
        have hfirst : [parent].Sublist (init ++ entry :: tail) :=
          List.singleton_sublist.mpr (List.mem_append_left _
            (layout.mem_before (List.Sublist.refl entries) hsplit hparent hloc))
        have hnext : [parent, later].Sublist entries := by
          rw [heq]
          exact hfirst.append hafter
        have hshorter : (layout.dir parent).length < length := by
          rw [← hlength, hloc, List.length_cons]
          exact Nat.lt_succ_self _
        rw [hloc] at hbelow
        rcases List.suffix_cons_iff.mp hbelow with hsame | hbelow
        · obtain rfl := layout.eq_of_loc_eq hlater hparent hsame
          have hordered := (List.pairwise_iff_forall_sublist.mp layout.ordered) hnext
          exact hordered.1 rfl
        · exact ih _ hshorter hnext rfl hbelow

end Layout

/-! ## Temporary names -/

/-- Skipped segments at the end of a path can be left out. -/
theorem walk_rdropWhile_skipped {view : Loc → Option View} {budget : ℕ} {loc stop : Loc}
    {segments : List Name} (h : walk view budget loc segments.reverse = .ok stop) :
    walk view budget loc (segments.dropWhile skipped).reverse = .ok stop := by
  induction segments with
  | nil => exact h
  | cons segment rest ih =>
      by_cases hskipped : skipped segment = true
      · rw [List.dropWhile_cons_of_pos hskipped]
        rw [List.reverse_cons] at h
        exact ih (walk_of_append_skip (by simpa [skipped] using hskipped) h)
      · rw [List.dropWhile_cons_of_neg hskipped]
        exact h

theorem not_mem_materializeTempName (processId attempt : ℕ) {fileName : Text}
    (hname : '/' ∉ fileName) : '/' ∉ materializeTempName processId fileName attempt := by
  have hdigits : ∀ n : ℕ, '/' ∉ Nat.toDigits 10 n := by
    intro n hmem
    have hdigit := Nat.isDigit_of_mem_toDigits (by decide) (by decide) hmem
    exact absurd hdigit (by decide)
  simp [materializeTempName, hname, hdigits]

theorem plain_materializeTempName (processId : ℕ) (fileName : Text) (attempt : ℕ) :
    Plain (materializeTempName processId fileName attempt) := by
  have hlength : 2 < (materializeTempName processId fileName attempt).length := by
    simp [materializeTempName]
    omega
  refine ⟨?_, ?_, ?_⟩ <;> intro heq <;> rw [heq] at hlength <;> simp at hlength

/-- Joining a name to a path that does not end in a separator adds a segment. -/
theorem segments_pathJoin_joinNames {names : List Text} {last name : Text}
    (hslash : ∀ segment ∈ names ++ [last], '/' ∉ segment) (hlast : last ≠ [])
    (hname : '/' ∉ name) :
    segments (pathJoin (joinNames (names ++ [last])) name) = names ++ [last] ++ [name] := by
  have hbase : segments (joinNames (names ++ [last])) = names ++ [last] :=
    List.splitOn_intercalate '/' hslash (by simp)
  rw [pathJoin_of_segments hbase hlast (isAbsolute_of_not_mem hname), segments_append, hbase]
  exact congrArg _ (List.splitOn_eq_singleton hname)

theorem not_mem_pathFileName {path fileName : Text} (h : pathFileName path = some fileName) :
    '/' ∉ fileName := by
  unfold pathFileName at h
  split at h
  · rename_i name hlast
    obtain rfl := Option.some.inj h
    exact (mem_segments (mem_segments_of_normal (List.mem_of_getLast? hlast)).1).1
  · simp at h

/-- The temporary path of a target leads to the directory of the target. -/
theorem enters_materializeTempPath {view : Loc → Option View} {path tempPath : Text} {dir : Loc}
    {name : Name} {processId attempt : ℕ} (h : Enters view path dir name)
    (hpath : materializeTempPath processId path attempt = .ok tempPath) :
    ∃ tempName, Enters view tempPath dir tempName := by
  obtain ⟨parent, hparent, hpath⟩ := bind_eq_ok.mp hpath
  obtain ⟨fileName, hfile, hpath⟩ := bind_eq_ok.mp hpath
  rw [okOr_eq_ok] at hparent hfile
  obtain rfl := Except.ok.inj hpath
  have hslash := not_mem_materializeTempName processId attempt (not_mem_pathFileName hfile)
  have hplain := plain_materializeTempName processId fileName attempt
  generalize materializeTempName processId fileName attempt = tempName at hslash hplain ⊢
  refine ⟨tempName, ?_⟩
  have hsegments : segments path = (path.splitOn '/').dropLast ++ [name] := h.segments
  have hwalk := h.walk
  generalize hinit : (path.splitOn '/').dropLast = init at hsegments hwalk
  have hnot : skipped name = false := by simp [skipped, h.plain.1, h.plain.2.1]
  have hstrip : walk view linkLimit [] (init.reverse.dropWhile skipped).reverse = .ok dir :=
    walk_rdropWhile_skipped (by rwa [List.reverse_reverse])
  have hfinish : ∀ front : List Name, segments (pathJoin parent tempName) = front ++ [tempName] →
      walk view linkLimit [] front = .ok dir →
      Enters view (pathJoin parent tempName) dir tempName := by
    intro front hfront hwalk
    have hsplit : (pathJoin parent tempName).splitOn '/' = front ++ [tempName] := hfront
    exact ⟨by simp [hsplit], hplain, by simpa [hsplit] using hwalk, h.dir⟩
  unfold pathParent at hparent
  rw [hsegments, List.reverse_append, List.reverse_singleton, List.singleton_append,
    List.dropWhile_cons_of_neg (by simp [hnot])] at hparent
  dsimp only at hparent
  cases hrest : init.reverse.dropWhile skipped with
  | nil =>
      -- the target lies in the root directory
      rw [hrest, List.reverse_nil] at hstrip
      obtain rfl : [] = dir := by simpa [walk, walkPlain, linkLimit] using hstrip
      simp only [hrest, Option.some.injEq] at hparent
      cases habsolute : isAbsolute path with
      | true =>
          obtain rfl : ['/'] = parent := by simpa [habsolute] using hparent
          refine hfinish [[]] ?_ (by simp [walk, walkPlain, turn, linkLimit])
          simp [segments, pathJoin, isAbsolute_of_not_mem hslash,
            List.splitOn_cons_eq_if_modifyHead, List.splitOn_eq_singleton hslash]
      | false =>
          simp only [habsolute, Bool.false_eq_true, if_false] at hparent
          split at hparent
          · subst hparent
            refine hfinish [['.']] ?_ (by simp [walk, walkPlain, turn, linkLimit, h.dir])
            exact @segments_pathJoin_joinNames [] ['.'] tempName (by decide) (by decide) hslash
          · subst hparent
            refine hfinish [] ?_ hstrip
            simp [segments, pathJoin, isAbsolute_of_not_mem hslash,
              List.splitOn_eq_singleton hslash]
  | cons last before =>
      simp only [hrest, Option.some.injEq] at hparent
      rw [hrest, List.reverse_cons] at hstrip
      rw [List.reverse_cons] at hparent
      refine hfinish _ ?_ hstrip
      have hlast : skipped last = false := by
        have := List.head?_dropWhile_not skipped init.reverse
        simpa [hrest] using this
      subst hparent
      refine segments_pathJoin_joinNames (fun segment hmem => ?_) ?_ hslash
      · have hin : segment ∈ segments path := by
          rw [hsegments]
          refine List.mem_append_left _ ?_
          rw [← List.reverse_cons, List.mem_reverse, ← hrest] at hmem
          exact List.mem_reverse.mp ((List.dropWhile_sublist _).subset hmem)
        exact (mem_segments hin).1
      · rintro rfl
        simp [skipped] at hlast

end FusePromise
