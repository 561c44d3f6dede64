import FusePromise.Materialize.Layout
import FusePromise.Materialize.Marks
import FusePromise.Materialize.Plan

/-!
# The layout of a plan

Planning looks at the target directory and at every target.  The path of the target
directory leads to a directory, and the names of the entries lead down from there;
so a plan has a layout in the filesystem it was made for.
-/

namespace FusePromise

open Machine Program Unix

/-- A name joined to the path of a directory leads into the directory. -/
theorem enters_pathJoin_name {view : Loc → Option View} {base name : Text} {loc : Loc}
    (hname : NormalName name) (hwalk : walk view linkLimit [] (base.splitOn '/') = .ok loc)
    (hdir : view loc = some .directory) : Enters view (pathJoin base name) loc name := by
  have hplain : Plain name := ⟨hname.ne_nil, hname.ne_dot, hname.ne_dotdot⟩
  have hself : segments name = [name] := List.splitOn_eq_singleton hname.no_slash
  have hfinish : ∀ front, segments (pathJoin base name) = front ++ [name] →
      walk view linkLimit [] front = .ok loc → Enters view (pathJoin base name) loc name := by
    intro front hfront hwalk
    have hsplit : (pathJoin base name).splitOn '/' = front ++ [name] := hfront
    exact ⟨by simp [hsplit], hplain, by simpa [hsplit] using hwalk, hdir⟩
  have hjoin : pathJoin base name =
      if base = [] ∨ base.getLast? = some '/' then base ++ name else base ++ '/' :: name := by
    rw [pathJoin, if_neg (by simp [isAbsolute_of_not_mem hname.no_slash])]
  by_cases hnil : base = []
  · subst hnil
    refine hfinish [] (by rw [hjoin]; simpa using hself) ?_
    exact walk_of_append_skip (Or.inl rfl) (by simpa using hwalk)
  by_cases hslash : base.getLast? = some '/'
  · -- the path ends in a separator: the empty segment behind it is skipped
    obtain ⟨init, rfl⟩ : ∃ init, base = init ++ ['/'] :=
      ⟨_, (List.dropLast_append_getLast? _ hslash).symm⟩
    have hbase : (init ++ ['/']).splitOn '/' = segments init ++ [[]] := by
      have := segments_append init []
      simpa [segments] using this
    refine hfinish (segments init) ?_ (walk_of_append_skip (Or.inl rfl) (hbase ▸ hwalk))
    rw [hjoin, if_pos (Or.inr hslash), List.append_assoc, List.singleton_append, segments_append,
      hself]
  · refine hfinish (segments base) ?_ hwalk
    rw [hjoin, if_neg (by simp [hnil, hslash]), segments_append, hself]

section

variable {request : MaterializeBody} {plan : MaterializePlan} {tree : PromiseTree}
  {names : List Text} {rootName : Text} {nodes : List PromiseNode}

/-- The place of an entry: below the root of the copy, where the names of its node lead. -/
def placeBelow (targetDir : Loc) (rootName : Text) (below : List Text) : Loc :=
  below.reverse ++ rootName :: targetDir

/-- The names of an entry below the root of the copy. -/
def namesBelow (names : List Text) (entry : MaterializeEntryPlan) : List Text :=
  (splitNames entry.relativePath).drop names.length

theorem Planned.namesBelow_entryAt (h : Planned request plan tree names rootName nodes)
    {below : List Text} {node : PromiseNode} (hnormal : NormalNames (names ++ below))
    (hstored : tree.nodes[joinNames (names ++ below)]? = some node) (targetPath : Text) :
    namesBelow names (node.entryAt targetPath) = below := by
  rw [namesBelow, PromiseNode.entryAt, (h.shape.path hstored).1, splitNames_joinNames hnormal,
    List.drop_left]

theorem placeBelow_injective {targetDir : Loc} {below below' : List Text}
    (h : placeBelow targetDir rootName below = placeBelow targetDir rootName below') :
    below = below' :=
  List.reverse_injective (List.append_cancel_right h)

/-- The target directory a path leads to gives every entry its place. -/
theorem Planned.exists_layout (h : Planned request plan tree names rootName nodes)
    {fs : FileSystem} {targetDir : Loc} {object : Object}
    (hresolve : fs.resolve request.targetDir = .ok targetDir)
    (hobject : fs.get targetDir = some object) (hbody : object.body = .directory) :
    ∃ layout : Layout fs.held plan.entries, layout.targetDir = targetDir ∧
      ∀ entry, layout.loc entry = placeBelow targetDir rootName (namesBelow names entry) := by
  have hisDir : fs.held.IsDirectory targetDir := ⟨_, FileSystem.held_of_get hobject, hbody⟩
  have hplace : ∀ below : List Text,
      ∃ name dir, placeBelow targetDir rootName below = name :: dir :=
    fun below => List.exists_cons_of_ne_nil (by simp [placeBelow])
  have hloc : ∀ entry, (placeBelow targetDir rootName (namesBelow names entry)).headD [] ::
      (placeBelow targetDir rootName (namesBelow names entry)).tail =
        placeBelow targetDir rootName (namesBelow names entry) := by
    intro entry
    obtain ⟨name, dir, heq⟩ := hplace (namesBelow names entry)
    rw [heq]
    rfl
  refine ⟨{
    targetDir
    dir := fun entry => (placeBelow targetDir rootName (namesBelow names entry)).tail
    name := fun entry => (placeBelow targetDir rootName (namesBelow names entry)).headD []
    isDirectory := hisDir
    place := ?_
    ordered := ?_ }, rfl, hloc⟩
  · intro entry hentry
    obtain ⟨node, below, hbelow, hstored, rfl⟩ := h.mem_entries.mp hentry
    rw [h.namesBelow_entryAt hbelow hstored]
    rcases below.eq_nil_or_concat with rfl | ⟨init, last, hconcat⟩
    · refine Or.inl ⟨rfl, ?_⟩
      have hview : fs.held.view false targetDir = some .directory :=
        Holdings.view_false_eq_directory.mpr hisDir
      rw [FileSystem.view_held] at hview ⊢
      have htarget : (node.entryAt (targetBelow plan.targetPath [])).targetPath =
          pathJoin request.targetDir rootName := h.target
      rw [htarget]
      exact enters_pathJoin_name h.rootNormal (FileSystem.locate_of_resolve hresolve) hview
    · rw [List.concat_eq_append] at hconcat
      subst hconcat
      have hsplit : NormalNames (names ++ init ++ [last]) := by rwa [List.append_assoc]
      obtain ⟨-, -, parent, hparent, hkind⟩ :=
        h.shape.parent hsplit (List.append_assoc .. ▸ hstored)
      have hlast : NormalName last := hbelow last (by simp)
      have hname : (placeBelow targetDir rootName (init ++ [last])).headD [] = last := by
        simp [placeBelow]
      obtain ⟨front, hfront⟩ := segments_pathJoin_name request.targetDir h.rootNormal.no_slash
      rw [← h.target] at hfront
      refine Or.inr ⟨parent.entryAt (targetBelow plan.targetPath init),
        h.mem_entries.mpr ⟨parent, init, hsplit.of_append_left, hparent, rfl⟩, hkind, ?_, ?_, ?_⟩
      · rw [hloc, h.namesBelow_entryAt hsplit.of_append_left hparent]
        simp [placeBelow]
      · rw [hname]
        have htarget := segments_targetBelow h.rootNormal hfront hbelow.of_append_right
        have hbefore := segments_targetBelow h.rootNormal hfront
          hbelow.of_append_right.of_append_left
        rw [← List.append_assoc, ← hbefore] at htarget
        exact htarget
      · rw [hname]
        exact ⟨hlast.ne_nil, hlast.ne_dot, hlast.ne_dotdot⟩
  · refine h.ordered.imp_of_mem fun {first second} hfirst hsecond hnot => ?_
    obtain ⟨node, below, hbelow, hstored, rfl⟩ := h.mem_entries.mp hfirst
    obtain ⟨node', below', hbelow', hstored', rfl⟩ := h.mem_entries.mp hsecond
    -- the names of the later entry are not a beginning of those of the earlier one
    have hbegins : ¬ below' <+: below := by
      simpa only [PromiseNode.entryAt, (h.shape.path hstored).1, (h.shape.path hstored').1,
        splitNames_joinNames hbelow, splitNames_joinNames hbelow', List.prefix_append_right_inj]
        using hnot
    rw [hloc, hloc, h.namesBelow_entryAt hbelow hstored, h.namesBelow_entryAt hbelow' hstored']
    refine ⟨fun heq => hbegins (placeBelow_injective heq ▸ List.prefix_rfl), fun heq => ?_⟩
    rcases below.eq_nil_or_concat with rfl | ⟨init, last, hconcat⟩
    · have hlength := congrArg List.length heq
      simp [placeBelow] at hlength
      omega
    · rw [List.concat_eq_append] at hconcat
      subst hconcat
      have hinit : placeBelow targetDir rootName init = placeBelow targetDir rootName below' := by
        simpa [placeBelow] using heq
      exact hbegins (placeBelow_injective hinit ▸ List.prefix_append _ _)

end

end FusePromise
