import FusePromise.Materialize.Frame
import FusePromise.Runtime.Directory
import FusePromise.Runtime.Subtree

/-!
# What a plan consists of

A plan is made from the listing of a subtree.  The root of the copy is called after
the root of the subtree, with a mark when the name is taken, and every other node
goes where its names lead from there.  So the targets lie below the target
directory, they are as many as the nodes, and the listing puts the target of a
directory before the targets in it.
-/

namespace FusePromise

open Machine Program

/-! ## Names of targets -/

theorem splitExtension_eq_some {name stem extension : Text}
    (h : splitExtension name = some (stem, extension)) : name = stem ++ '.' :: extension := by
  unfold splitExtension at h
  split at h
  · simp at h
  split at h
  · rename_i last before hsplit
    dsimp only at h
    split at h
    · simp at h
    · obtain ⟨rfl, rfl⟩ := Prod.mk.inj (Option.some.inj h)
      calc name = ['.'].intercalate (name.splitOn '.') := (List.intercalate_splitOn '.').symm
        _ = ['.'].intercalate ((last :: before).reverse ++ [_]) := by
            rw [List.reverse_eq_iff.mp hsplit, List.reverse_cons]
        _ = _ := by
            rw [intercalate_append _ (by simp) (by simp)]
            simp
  · simp at h

/-- Whatever stands around a mark, the name is longer than the names that mean
something else. -/
theorem normalName_attemptMark {before after : Text} (attempt : ℕ)
    (hslash : '/' ∉ before ++ after) (hnul : Char.ofNat 0 ∉ before ++ after) :
    NormalName (before ++ attemptMark attempt ++ after) := by
  have hdigits : ∀ c : Char, c.isDigit = false → c ∉ Nat.toDigits 10 attempt := by
    intro c hc hmem
    have hdigit := Nat.isDigit_of_mem_toDigits (by decide) (by decide) hmem
    simp [hc] at hdigit
  have hlength : 2 < (before ++ attemptMark attempt ++ after).length := by
    simp [attemptMark]
    omega
  simp only [List.mem_append, not_or] at hslash hnul
  refine ⟨?_, ?_, ?_, ?_, ?_⟩
  · rintro heq
    simp [heq] at hlength
  · rintro heq
    simp [heq] at hlength
  · rintro heq
    simp [heq] at hlength
  · simp [attemptMark, hslash, hdigits '/' rfl]
  · simp [attemptMark, hnul, hdigits (Char.ofNat 0) rfl]

/-- A marked name is a name like the one it is made from. -/
theorem NormalName.renameCandidateName {name : Text} (h : NormalName name) (kind : NodeKind)
    (attempt : ℕ) : NormalName (renameCandidateName name kind attempt) := by
  have hwhole : NormalName (name ++ attemptMark attempt) := by
    have hmark : NormalName (name ++ attemptMark attempt ++ []) :=
      normalName_attemptMark attempt (by simpa using h.no_slash) (by simpa using h.no_nul)
    simpa using hmark
  unfold FusePromise.renameCandidateName
  split
  · exact hwhole
  · split
    · exact hwhole
    · rename_i stem extension hsplit
      have hname := splitExtension_eq_some hsplit
      refine normalName_attemptMark attempt ?_ ?_
      · exact hname ▸ h.no_slash
      · exact hname ▸ h.no_nul

/-! ## Where a node goes -/

/-- The target of the node with the given names below the root. -/
def targetBelow (targetPath : Text) (below : List Text) : Text :=
  if below = [] then targetPath else pathJoin targetPath (joinNames below)

theorem subtreeTargetSuffix_joinNames {names below : List Text}
    (hnormal : NormalNames (names ++ below)) :
    subtreeTargetSuffix (joinNames names) (joinNames (names ++ below)) =
      .ok (joinNames below) := by
  unfold subtreeTargetSuffix
  by_cases hbelow : below = []
  · simp [hbelow]
  have hne : joinNames (names ++ below) ≠ joinNames names := by
    intro heq
    have := joinNames_injective hnormal hnormal.of_append_left heq
    exact hbelow (List.append_right_eq_self.mp this)
  rw [if_neg hne]
  by_cases hnames : names = []
  · simp [hnames]
  · rw [if_neg (joinNames_ne_nil hnormal.of_append_left hnames), okOr_eq_ok,
      List.isPrefixOf?_eq_some_iff_append_eq, joinNames_append hnames hbelow]
    simp

/-- The entry of a node that goes to the given path. -/
def PromiseNode.entryAt (node : PromiseNode) (targetPath : Text) : MaterializeEntryPlan where
  relativePath := node.relativePath
  targetPath := targetPath
  kind := node.kind
  size := node.attr.size
  mode := node.attr.mode
  mtimeNsec := node.attr.mtimeNsec

theorem entryPlan_below {names below : List Text} (hnormal : NormalNames (names ++ below))
    {node : PromiseNode} (hpath : node.relativePath = joinNames (names ++ below))
    (targetPath : Text) :
    entryPlan (joinNames names) targetPath node =
      .ok (node.entryAt (targetBelow targetPath below)) := by
  have hnil : joinNames below = [] ↔ below = [] := by
    refine ⟨fun h => ?_, fun h => by simp [h]⟩
    exact by_contra fun hne => joinNames_ne_nil hnormal.of_append_right hne h
  refine bind_eq_ok.mpr ⟨joinNames below, ?_, ?_⟩
  · rw [hpath, subtreeTargetSuffix_joinNames hnormal]
  · simp only [hnil, targetBelow]
    rfl

/-- The names of a target lead down from the root of the copy. -/
theorem components_targetBelow {targetPath : Text} (habsolute : isAbsolute targetPath = true)
    {below : List Text} (hnormal : NormalNames below) :
    components (targetBelow targetPath below) = components targetPath ++ below.map .normal := by
  unfold targetBelow
  split
  · rename_i hnil
    simp [hnil]
  · exact components_pathJoin_joinNames habsolute hnormal

/-- The segments of a target are those of the root of the copy and its own names. -/
theorem segments_targetBelow {targetPath rootName : Text} {front : List Text}
    (hroot : NormalName rootName) (hsegments : segments targetPath = front ++ [rootName])
    {below : List Text} (hnormal : NormalNames below) :
    segments (targetBelow targetPath below) = segments targetPath ++ below := by
  unfold targetBelow
  split
  · rename_i hnil
    simp [hnil]
  · rename_i hne
    rw [pathJoin_of_segments hsegments hroot.ne_nil (isAbsolute_joinNames hnormal),
      segments_append, segments_joinNames hnormal hne]

theorem pathParent_of_segments {path last name : Text} {front : List Text}
    (hsegments : segments path = front ++ [last] ++ [name]) (hlast : NormalName last)
    (hname : NormalName name) : pathParent path = some (joinNames (front ++ [last])) := by
  have hkept : ∀ {name : Text}, NormalName name → ¬ skipped name = true := by
    intro name hname
    simp [skipped, hname.ne_nil, hname.ne_dot]
  unfold pathParent
  rw [hsegments, List.reverse_append, List.reverse_append, List.reverse_singleton,
    List.reverse_singleton, List.singleton_append, List.dropWhile_cons_of_neg (hkept hname)]
  dsimp only
  rw [List.singleton_append, List.dropWhile_cons_of_neg (hkept hlast)]
  simp

/-- The target of a node lies in the target of its parent. -/
theorem pathParent_targetBelow {targetPath rootName : Text} {front : List Text}
    (hroot : NormalName rootName) (hsegments : segments targetPath = front ++ [rootName])
    {below : List Text} {name : Text} (hnormal : NormalNames (below ++ [name])) :
    pathParent (targetBelow targetPath (below ++ [name])) =
      some (targetBelow targetPath below) := by
  have hname := hnormal name (by simp)
  have hparent := segments_targetBelow hroot hsegments hnormal.of_append_left
  have hpath := segments_targetBelow hroot hsegments hnormal
  rw [← List.append_assoc, ← hparent] at hpath
  rw [← joinNames_segments (targetBelow targetPath below)]
  rcases below.eq_nil_or_concat with rfl | ⟨init, last, hconcat⟩
  · rw [hparent, List.append_nil, hsegments] at hpath ⊢
    exact pathParent_of_segments hpath hroot hname
  · rw [List.concat_eq_append] at hconcat
    subst hconcat
    rw [hparent, ← List.append_assoc] at hpath ⊢
    exact pathParent_of_segments hpath (hnormal last (by simp)) hname

/-! ## Plans -/

/-- An environment in which no call fails and no other thread does anything. -/
def Environment.undisturbed : Environment where
  processId := 1
  now := fun _ => 0
  fault := fun _ => none
  written := fun _ => 0
  gap := fun _ => ⟨[], 0⟩
  answer := fun _ _ => .error ⟨.other, ""⟩

/-- The runtime when its lock is taken to make a plan: by then the target directory was looked
at, which is one question to the environment. -/
def Environment.planningRuntime (env : Environment) (world : World) : Runtime :=
  world.runtime.run ((env.gap (world.tick + 1)).ops.map Subtype.val)

/-- The state in which nothing has been recorded. -/
def World.fresh (runtime : Runtime) (mount : IpcMountStatus) (fs : Unix.FileSystem) : World where
  runtime
  mount
  nextReadRequestId := 1
  tempCounter := 0
  fs
  tick := 0
  plan := none
  marked := []
  copied := []
  failures := 0

/-- A plan to copy the subtree at the given names, listed as `nodes`, to a child of the
target directory. -/
structure Planned (request : MaterializeBody) (plan : MaterializePlan) (tree : PromiseTree)
    (names : List Text) (rootName : Text) (nodes : List PromiseNode) : Prop where
  shape : TreeShape tree.nodes tree.children
  absolute : isAbsolute request.targetDir = true
  normal : NormalNames names
  stored : joinNames names ∈ tree.nodes
  listed : tree.subtreeNodes (joinNames names) = .ok nodes
  preorder : tree.Preorder names nodes
  rootNormal : NormalName rootName
  target : plan.targetPath = pathJoin request.targetDir rootName
  policy : plan.conflictPolicy = request.conflictPolicy
  entries : nodes.mapM (entryPlan (joinNames names) plan.targetPath) = .ok plan.entries

namespace Planned

variable {request : MaterializeBody} {plan : MaterializePlan} {tree : PromiseTree}
  {names : List Text} {rootName : Text} {nodes : List PromiseNode} {entry : MaterializeEntryPlan}

/-- There is an entry for each node at or below the source, and no other. -/
theorem mem_entries (h : Planned request plan tree names rootName nodes) :
    entry ∈ plan.entries ↔ ∃ node below, NormalNames (names ++ below) ∧
      tree.nodes[joinNames (names ++ below)]? = some node ∧
      entry = node.entryAt (targetBelow plan.targetPath below) := by
  rw [mem_of_mapM_eq_ok h.entries]
  constructor
  · rintro ⟨node, hnode, hentry⟩
    obtain ⟨below, hbelow, hstored⟩ := h.preorder.mem_iff.mp hnode
    rw [entryPlan_below hbelow (h.shape.path hstored).1] at hentry
    exact ⟨node, below, hbelow, hstored, (Except.ok.inj hentry).symm⟩
  · rintro ⟨node, below, hbelow, hstored, rfl⟩
    exact ⟨node, h.preorder.mem_iff.mpr ⟨below, hbelow, hstored⟩,
      entryPlan_below hbelow (h.shape.path hstored).1 _⟩

/-- The entries come in the order of the listing. -/
theorem map_relativePath (h : Planned request plan tree names rootName nodes) :
    plan.entries.map MaterializeEntryPlan.relativePath = nodes.map PromiseNode.relativePath := by
  refine map_of_mapM_eq_ok h.entries fun node _ entry hentry => ?_
  obtain ⟨suffix, -, hentry⟩ := bind_eq_ok.mp hentry
  rw [← Except.ok.inj hentry]

theorem ordered (h : Planned request plan tree names rootName nodes) :
    plan.entries.Pairwise fun first second =>
      ¬ splitNames second.relativePath <+: splitNames first.relativePath := by
  have hpaths : (nodes.map PromiseNode.relativePath).Pairwise fun first second =>
      ¬ splitNames second <+: splitNames first := List.pairwise_map.mpr h.preorder.ordered
  rw [← h.map_relativePath] at hpaths
  exact List.pairwise_map.mp hpaths

/-- The targets lie below the target directory, where the names of the nodes lead. -/
theorem components_target (h : Planned request plan tree names rootName nodes)
    {below : List Text} (hnormal : NormalNames below) :
    components (targetBelow plan.targetPath below) =
      components request.targetDir ++ (rootName :: below).map .normal := by
  have habsolute : isAbsolute plan.targetPath = true := h.target ▸ isAbsolute_pathJoin h.absolute
  rw [components_targetBelow habsolute hnormal, h.target,
    components_pathJoin_name h.absolute h.rootNormal]
  simp

/-- Two entries with the same target are entries of one node. -/
theorem nodup_targets (h : Planned request plan tree names rootName nodes) :
    (plan.entries.map fun entry => components entry.targetPath).Nodup := by
  refine List.pairwise_map.mpr (h.ordered.imp_of_mem fun {first second} hfirst hsecond hnot => ?_)
  obtain ⟨node, below, hbelow, hstored, rfl⟩ := h.mem_entries.mp hfirst
  obtain ⟨node', below', hbelow', hstored', rfl⟩ := h.mem_entries.mp hsecond
  intro heq
  simp only [PromiseNode.entryAt, h.components_target hbelow.of_append_right,
    h.components_target hbelow'.of_append_right] at heq
  obtain rfl : below = below' := by
    have hmap := List.append_cancel_left heq
    exact (List.cons.inj (List.map_injective_iff.mpr (fun _ _ => PathComponent.normal.inj) hmap)).2
  refine hnot ?_
  simp only [PromiseNode.entryAt, (h.shape.path hstored).1, (h.shape.path hstored').1]
  exact List.prefix_rfl

/-- The directory a target lies in is the target of an earlier entry. -/
theorem parent_before (h : Planned request plan tree names rootName nodes)
    {before after : List MaterializeEntryPlan} (hentries : plan.entries = before ++ entry :: after)
    (hroot : entry.relativePath ≠ joinNames names) :
    ∃ parent ∈ before, parent.kind = .directory ∧
      pathParent entry.targetPath = some parent.targetPath := by
  obtain ⟨node, below, hbelow, hstored, rfl⟩ :=
    h.mem_entries.mp (hentries ▸ List.mem_append_right before List.mem_cons_self)
  have hpath := (h.shape.path hstored).1
  rcases below.eq_nil_or_concat with rfl | ⟨init, last, hconcat⟩
  · rw [List.append_nil] at hpath
    exact absurd hpath hroot
  rw [List.concat_eq_append] at hconcat
  subst hconcat
  obtain ⟨front, hfront⟩ := segments_pathJoin_name request.targetDir h.rootNormal.no_slash
  rw [← h.target] at hfront
  have hsplit : NormalNames (names ++ init ++ [last]) := by rwa [List.append_assoc]
  obtain ⟨-, -, parent, hparent, hkind⟩ := h.shape.parent hsplit (List.append_assoc .. ▸ hstored)
  have hmem := h.mem_entries.mpr ⟨parent, init, hsplit.of_append_left, hparent, rfl⟩
  refine ⟨parent.entryAt (targetBelow plan.targetPath init), ?_, hkind,
    pathParent_targetBelow h.rootNormal hfront hbelow.of_append_right⟩
  -- the names of the parent are a prefix, so its entry is neither this one nor a later one
  have hbegins : splitNames parent.relativePath <+: splitNames node.relativePath := by
    rw [(h.shape.path hparent).1, hpath, splitNames_joinNames hsplit.of_append_left,
      splitNames_joinNames hbelow, ← List.append_assoc]
    exact List.prefix_append _ _
  have hordered := h.ordered
  rw [hentries, List.pairwise_append, List.pairwise_cons] at hordered
  rw [hentries, List.mem_append, List.mem_cons] at hmem
  rcases hmem with hmem | hmem | hmem
  · exact hmem
  · have hsame : parent.relativePath = node.relativePath :=
      congrArg MaterializeEntryPlan.relativePath hmem
    rw [(h.shape.path hparent).1, hpath] at hsame
    have := joinNames_injective hsplit.of_append_left hbelow hsame
    simp at this
  · exact absurd hbegins (hordered.2.1.1 _ hmem)

end Planned

namespace Daemon

theorem inspect_ok {α : Type} {env : Environment} {op : Unix.FileSystem → Except Unix.Errno α}
    {value : α} {world last : World} (h : inspect env op world = (.ok value, last)) :
    op world.fs = .ok value ∧ last = { world with tick := world.tick + 1 } := by
  obtain ⟨tick, next, htick, h⟩ := Prog.bind_eq_ok.mp h
  obtain ⟨rfl, rfl⟩ : world.tick = tick ∧ { world with tick := world.tick + 1 } = next := by
    simpa [nextTick] using htick
  cases hfault : env.fault world.tick with
  | some errno =>
      simp only [hfault] at h
      obtain ⟨_, _, -, h⟩ := Prog.bind_eq_ok.mp h
      simp [Prog.fail] at h
  | none =>
      simp only [hfault] at h
      cases hvalue : op world.fs with
      | error errno => simp [Bind.bind, Except.bind, Prog.get, Prog.fail, hvalue] at h
      | ok found =>
          simp only [Bind.bind, Except.bind, Prog.get, Prog.set, Pure.pure, Except.pure,
            hvalue] at h
          obtain ⟨hfound, rfl⟩ := Prod.mk.inj h
          exact ⟨congrArg Except.ok (Except.ok.inj hfound), rfl⟩

theorem validateTargetDir_ok {env : Environment} {targetDir : Text} {u : Unit}
    {world last : World} (h : validateTargetDir env targetDir world = (.ok u, last)) :
    isAbsolute targetDir = true ∧
      (∃ object, world.fs.lstat targetDir = .ok object ∧ object.body = .directory) ∧
      last = { world with tick := world.tick + 1 } := by
  unfold validateTargetDir at h
  split at h
  · simp [Prog.fail] at h
  rename_i habsolute
  obtain ⟨metadata, next, hmetadata, h⟩ := Prog.bind_eq_ok.mp h
  obtain ⟨hlstat, rfl⟩ := inspect_ok (Prog.mapError_eq_ok.mp hmetadata)
  split at h
  · rename_i hbody
    exact ⟨by simpa using habsolute, ⟨metadata, hlstat, hbody⟩, (Prog.pure_eq_ok.mp h).2.symm⟩
  · simp [Prog.fail] at h

/-- A candidate is the name or the name with a mark, in the target directory. -/
theorem uniqueFrom_ok {env : Environment} {targetDir targetName : Text} {targetKind : NodeKind}
    {left attempt : ℕ} {path : Text} {world last : World}
    (h : uniqueFrom env targetDir targetName targetKind left attempt world = (.ok path, last)) :
    ∃ attempt, path = pathJoin targetDir
      (if attempt = 0 then targetName else renameCandidateName targetName targetKind attempt) := by
  induction left generalizing attempt world with
  | zero => simp [uniqueFrom, Prog.fail] at h
  | succ left ih =>
      obtain ⟨metadata, next, -, h⟩ := Prog.bind_eq_ok.mp h
      split at h
      · exact ih h
      · split at h
        · exact ⟨attempt, (Prog.pure_eq_ok.mp h).1.symm⟩
        · simp [Prog.fail] at h

theorem materializeTargetPath_ok {env : Environment} {targetDir targetName : Text}
    {targetKind : NodeKind} {conflictPolicy : MaterializeConflictPolicy} {path : Text}
    {world last : World} (hname : NormalName targetName)
    (h : materializeTargetPath env targetDir targetName targetKind conflictPolicy world =
      (.ok path, last)) :
    ∃ rootName, NormalName rootName ∧ path = pathJoin targetDir rootName ∧
      (conflictPolicy ≠ .rename → rootName = targetName) := by
  unfold materializeTargetPath at h
  split at h
  · exact ⟨targetName, hname, (Prog.pure_eq_ok.mp h).1.symm, fun _ => rfl⟩
  · rename_i hpolicy
    obtain ⟨attempt, rfl⟩ := uniqueFrom_ok h
    refine ⟨_, ?_, rfl, fun hne => absurd hne hpolicy⟩
    split
    · exact hname
    · exact hname.renameCandidateName _ _

/-- The root of the copy is called like the promise or like the node. -/
theorem normalName_of_materializeTargetName {tree : PromiseTree}
    (hshape : TreeShape tree.nodes tree.children) {promiseId name : Text} {node : PromiseNode}
    {names : List Text} (hpromise : NormalName promiseId) (hnormal : NormalNames names)
    (hnode : tree.nodes[joinNames names]? = some node)
    (h : materializeTargetName promiseId node = .ok name) : NormalName name := by
  unfold materializeTargetName at h
  split at h
  · exact Except.ok.inj h ▸ hpromise
  · rename_i hpath
    split at h
    · simp at h
    · obtain rfl := Except.ok.inj h
      rcases names.eq_nil_or_concat with rfl | ⟨init, last, hconcat⟩
      · exact absurd (hshape.path hnode).1 hpath
      · rw [List.concat_eq_append] at hconcat
        subst hconcat
        exact (hshape.parent hnormal hnode).1 ▸ hnormal last (by simp)

/-- Everything that was looked at when a plan was made.  The runtime is read once, and the
filesystem at every target. -/
structure Looked (env : Environment) (request : MaterializeBody) (world : World)
    (plan : MaterializePlan) (last : World) (relativePath : Text) (tree : PromiseTree)
    (nodes : List PromiseNode) (root : PromiseNode) (name : Text) (before middle : World) :
    Prop where
  absolute : isAbsolute request.targetDir = true
  targetDir : ∃ object, world.fs.lstat request.targetDir = .ok object ∧ object.body = .directory
  resolved : world.mount.resolveVisiblePath request.sourcePath =
    .ok (plan.promiseId, relativePath)
  committed : (env.planningRuntime world).promises[plan.promiseId]? = some tree
  listed : tree.subtreeNodes relativePath = .ok nodes
  top : nodes.head? = some root
  called : materializeTargetName plan.promiseId root = .ok name
  policy : plan.conflictPolicy = request.conflictPolicy
  runtime : before.runtime = env.planningRuntime world
  fs : before.fs = world.fs
  target : materializeTargetPath env request.targetDir name root.kind request.conflictPolicy
    before = (.ok plan.targetPath, middle)
  preflight : preflightMaterializeTargets env request.conflictPolicy plan.entries middle =
    (.ok (), last)
  entries : nodes.mapM (entryPlan relativePath plan.targetPath) = .ok plan.entries

theorem planMaterialize_looked {env : Environment} {request : MaterializeBody}
    {world last : World} {plan : MaterializePlan}
    (h : planMaterialize env request world = (.ok plan, last)) :
    ∃ relativePath tree nodes root name before middle,
      Looked env request world plan last relativePath tree nodes root name before middle := by
  obtain ⟨_, _, hdir, h⟩ := Prog.bind_eq_ok.mp h
  obtain ⟨habsolute, htargetDir, rfl⟩ := validateTargetDir_ok hdir
  obtain ⟨⟨promiseId, relativePath⟩, hresolve, h⟩ := Prog.ofExcept_bind_eq_ok.mp h
  obtain ⟨runtime, before, hlock, h⟩ := Prog.bind_eq_ok.mp h
  obtain ⟨hruntime, hbefore⟩ := Prod.mk.inj hlock
  obtain rfl : env.planningRuntime world = runtime := Except.ok.inj hruntime
  obtain ⟨tree, htree, h⟩ := Prog.ofExcept_bind_eq_ok.mp h
  rw [okOr_eq_ok] at htree
  split at h
  · simp [Prog.fail] at h
  obtain ⟨nodes, hnodes, h⟩ := Prog.ofExcept_bind_eq_ok.mp h
  obtain ⟨root, hroot, h⟩ := Prog.ofExcept_bind_eq_ok.mp h
  rw [okOr_eq_ok] at hroot
  obtain ⟨name, hname, h⟩ := Prog.ofExcept_bind_eq_ok.mp h
  obtain ⟨targetPath, middle, htarget, h⟩ := Prog.bind_eq_ok.mp h
  obtain ⟨entries, hentries, h⟩ := Prog.ofExcept_bind_eq_ok.mp h
  obtain ⟨_, _, hpreflight, h⟩ := Prog.bind_eq_ok.mp h
  obtain ⟨rfl, rfl⟩ := Prog.pure_eq_ok.mp h
  exact ⟨relativePath, tree, nodes, root, name, before, middle, habsolute, htargetDir, hresolve,
    htree, hnodes, hroot, hname, rfl, by rw [← hbefore]; rfl, by rw [← hbefore], htarget,
    hpreflight, hentries⟩

/-- The plan of a request is a plan for the subtree its source path resolves to. -/
theorem Looked.planned {env : Environment} {request : MaterializeBody} {world last : World}
    {plan : MaterializePlan} {relativePath : Text} {tree : PromiseTree} {nodes : List PromiseNode}
    {root : PromiseNode} {name : Text} {before middle : World} (hwf : world.runtime.WellFormed)
    (h : Looked env request world plan last relativePath tree nodes root name before middle) :
    ∃ names rootName, relativePath = joinNames names ∧
      (request.conflictPolicy ≠ .rename → rootName = name) ∧
      Planned request plan tree names rootName nodes := by
  have hwf' : (env.planningRuntime world).WellFormed := hwf.run _
  have hshape := (hwf'.shape h.committed).2
  obtain ⟨names, hnormal, hpath, hstored, hpreorder⟩ := hshape.preorder_subtreeNodes h.listed
  obtain ⟨_, _, -, -, -, hrelative, hjoined⟩ :=
    IpcMountStatus.names_of_resolveVisiblePath h.resolved hpath
  obtain rfl := hrelative.trans hjoined.symm
  obtain ⟨top, htop⟩ := Option.isSome_iff_exists.mp
    (Std.ExtTreeMap.mem_iff_isSome_getElem?.mp hstored)
  have hrootName : NormalName name := by
    have hroot := h.top
    rw [hshape.head_preorder hnormal hpreorder htop] at hroot
    obtain rfl := Option.some.inj hroot
    obtain ⟨raw, -, hraw⟩ := hwf'.named (BTreeMap.mem_of_getElem? h.committed)
    exact normalName_of_materializeTargetName hshape
      (hraw ▸ Runtime.normalName_promiseName raw) hnormal htop h.called
  obtain ⟨rootName, hrootNormal, htarget, hcalled⟩ := materializeTargetPath_ok hrootName h.target
  exact ⟨names, rootName, rfl, hcalled, hshape, h.absolute, hnormal, hstored, h.listed, hpreorder,
    hrootNormal, htarget, h.policy, h.entries⟩

theorem planMaterialize_planned {env : Environment} {request : MaterializeBody}
    {world last : World} {plan : MaterializePlan} (hwf : world.runtime.WellFormed)
    (h : planMaterialize env request world = (.ok plan, last)) :
    ∃ tree names rootName nodes,
      (env.planningRuntime world).promises[plan.promiseId]? = some tree ∧
        world.mount.resolveVisiblePath request.sourcePath =
          .ok (plan.promiseId, joinNames names) ∧
        Planned request plan tree names rootName nodes := by
  obtain ⟨_, tree, nodes, _, _, _, _, hlooked⟩ := planMaterialize_looked h
  obtain ⟨names, rootName, rfl, -, hplanned⟩ := hlooked.planned hwf
  exact ⟨tree, names, rootName, nodes, hlooked.committed, hlooked.resolved, hplanned⟩

/-- The entries of a plan are those of the subtree the source path resolves to, one for each
node.  Their targets are distinct and lie strictly below the target directory: the root of the
copy is a child of it, the others have the names of their nodes below the root.  The directory
of every other target is the target of an earlier entry. -/
theorem planMaterialize_confined (calls : List RuntimeCall) (env : Environment)
    (request : MaterializeBody) {world last : World} {plan : MaterializePlan}
    (hruntime : world.runtime = Runtime.new.performAll calls)
    (hplan : planMaterialize env request world = (.ok plan, last)) :
    ∃ tree names rootName,
      (env.planningRuntime world).promises[plan.promiseId]? = some tree ∧
      world.mount.resolveVisiblePath request.sourcePath = .ok (plan.promiseId, joinNames names) ∧
      NormalName rootName ∧ plan.targetPath = pathJoin request.targetDir rootName ∧
      (∀ entry ∈ plan.entries, ∃ node below, NormalNames (names ++ below) ∧
        tree.nodes[joinNames (names ++ below)]? = some node ∧
        entry = node.entryAt (targetBelow plan.targetPath below) ∧
        components entry.targetPath =
          components request.targetDir ++ (rootName :: below).map .normal) ∧
      (plan.entries.map fun entry => components entry.targetPath).Nodup ∧
      (plan.entries.map MaterializeEntryPlan.relativePath).Nodup ∧
      (∀ path : Text, path ∈ plan.entries.map MaterializeEntryPlan.relativePath ↔
        path ∈ tree.nodes ∧ names <+: splitNames path) ∧
      ∀ before entry after, plan.entries = before ++ entry :: after →
        entry.targetPath ≠ plan.targetPath →
        ∃ parent ∈ before, parent.kind = .directory ∧
          pathParent entry.targetPath = some parent.targetPath := by
  have hwf : world.runtime.WellFormed := hruntime ▸ (Runtime.reachable_spec calls).1
  obtain ⟨tree, names, rootName, nodes, htree, hresolve, h⟩ :=
    planMaterialize_planned hwf hplan
  refine ⟨tree, names, rootName, htree, hresolve, h.rootNormal, h.target, ?_,
    h.nodup_targets, ?_, ?_, ?_⟩
  · intro entry hentry
    obtain ⟨node, below, hbelow, hstored, rfl⟩ := h.mem_entries.mp hentry
    exact ⟨node, below, hbelow, hstored, rfl, h.components_target hbelow.of_append_right⟩
  · refine List.pairwise_map.mpr (h.ordered.imp fun hnot heq => hnot ?_)
    rw [heq]
  · intro path
    rw [List.mem_map]
    constructor
    · rintro ⟨entry, hentry, rfl⟩
      obtain ⟨node, below, hbelow, hstored, rfl⟩ := h.mem_entries.mp hentry
      have hpath := (h.shape.path hstored).1
      refine ⟨?_, ?_⟩
      · rw [PromiseNode.entryAt, hpath]
        exact Std.ExtTreeMap.mem_iff_isSome_getElem?.mpr (by simp [hstored])
      · exact h.shape.isPrefix_of_atOrBelow ⟨below, hbelow, hstored⟩
    · rintro ⟨hmem, hbegins⟩
      obtain ⟨node, hnode⟩ := Option.isSome_iff_exists.mp
        (Std.ExtTreeMap.mem_iff_isSome_getElem?.mp hmem)
      obtain ⟨hpath, whole, hwhole, rfl⟩ := h.shape.path hnode
      -- a path that begins with the names of the source is one of the subtree
      obtain ⟨below, rfl⟩ : names <+: whole := by rwa [splitNames_joinNames hwhole] at hbegins
      exact ⟨_, h.mem_entries.mpr ⟨node, below, hwhole, hnode, rfl⟩, hpath⟩
  · intro before entry after hentries htarget
    refine h.parent_before hentries fun hpath => htarget ?_
    obtain ⟨node, below, hbelow, hstored, rfl⟩ :=
      h.mem_entries.mp (hentries ▸ List.mem_append_right before List.mem_cons_self)
    have hnames := joinNames_injective hbelow h.normal ((h.shape.path hstored).1.symm.trans hpath)
    rw [List.append_right_eq_self] at hnames
    simp [PromiseNode.entryAt, targetBelow, hnames]

/-- A request to copy a directory with a file to the root of an empty filesystem. -/
theorem planMaterialize_confined_directory :
    ∃ plan last, planMaterialize .undisturbed ⟨"/m/promise-1/d".toList, "/".toList, .fail⟩
        (.fresh (Runtime.new.performAll [.op .registerProvider, .commitBuilder 1
          [⟨"d".toList, "n1".toList, .directory, ⟨0o755, 0, 0⟩⟩,
            ⟨"d/f".toList, "n2".toList, .file, ⟨0o644, 3, 0⟩⟩]])
          ⟨some "/m".toList, true⟩ .empty) = (.ok plan, last) ∧
      plan.entries.map MaterializeEntryPlan.targetPath = ["/d".toList, "/d/f".toList] ∧
      (plan.entries.map fun entry => components entry.targetPath).Nodup := by
  have hplan : (planMaterialize .undisturbed ⟨"/m/promise-1/d".toList, "/".toList, .fail⟩
      (.fresh (Runtime.new.performAll [.op .registerProvider, .commitBuilder 1
        [⟨"d".toList, "n1".toList, .directory, ⟨0o755, 0, 0⟩⟩,
          ⟨"d/f".toList, "n2".toList, .file, ⟨0o644, 3, 0⟩⟩]])
        ⟨some "/m".toList, true⟩ .empty)).1 =
      .ok ⟨"promise-1".toList, "/d".toList, .fail,
        [⟨"d".toList, "/d".toList, .directory, 0, 0o755, 0⟩,
          ⟨"d/f".toList, "/d/f".toList, .file, 3, 0o644, 0⟩]⟩ := by
    decide +kernel
  have hrun := Prog.eq_ok_of_fst hplan
  obtain ⟨_, _, _, -, -, -, -, -, hnodup, -⟩ := planMaterialize_confined _ _ _ rfl hrun
  exact ⟨_, _, hrun, rfl, hnodup⟩

end Daemon

end FusePromise
