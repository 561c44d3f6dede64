import FusePromise.Ipc.Mount
import FusePromise.Runtime.Directory
import FusePromise.Runtime.Subtree

/-!
# Two ways to a node

A materialize request names its source by a path below the mount, which is taken
apart as text and looked up in the tree of a promise.  A client of the mount gets
to the same node by lookups, one for each component, from the root directory.
Both ways lead to the node that is stored under the components.
-/

namespace FusePromise

/-- `Component::as_os_str`. -/
def PathComponent.text : PathComponent → Text
  | .rootDir => ['/']
  | .curDir => ['.']
  | .parentDir => ['.', '.']
  | .normal name => name

/-- Only a normal component can be the name of an entry. -/
theorem PathComponent.eq_normal_of_normalName {component : PathComponent}
    (h : NormalName component.text) : component = .normal component.text := by
  cases component with
  | rootDir => exact absurd h.no_slash (by simp [text])
  | curDir => exact absurd rfl h.ne_dot
  | parentDir => exact absurd rfl h.ne_dotdot
  | normal name => rfl

namespace Runtime

variable {runtime : Runtime}

/-- The lookups of the components of a path, each in the entry the one before has found. -/
def lookupComponents (runtime : Runtime) (entry : RuntimeEntry) (path : List PathComponent) :
    Result RuntimeEntry :=
  path.foldlM (fun entry component => runtime.lookupChild entry.inode component.text) entry

/-- A lookup below a stored node finds what is stored under its names and the next one. -/
theorem Stores.lookupChild_eq_ok (hwf : runtime.WellFormed) (hids : runtime.Identified)
    {promiseId : Text} {names : List Text} (hnormal : NormalNames names) {parent : PromiseNode}
    (h : runtime.Stores promiseId (joinNames names) parent) {name : Text} {entry : RuntimeEntry} :
    runtime.lookupChild parent.inode name = .ok entry ↔
      ∃ node, entry = .promiseNode promiseId node ∧ NormalName name ∧
        runtime.Stores promiseId (joinNames (names ++ [name])) node := by
  have hfound := h.lookupInode hwf hids
  obtain ⟨tree, htree, hparent⟩ := h
  have hshape := (hwf.shape htree).2
  by_cases hkind : parent.kind = .directory
  · have hnode : runtime.DirectoryNode parent.inode promiseId tree names parent :=
      ⟨(hids.notRoot _ _ _ ⟨tree, htree, hparent⟩).ne', hfound, htree, hparent, hnormal,
        (hshape.path hparent).1, hkind, rfl⟩
    rw [Runtime.lookupChild_eq_ok hwf hids hfound hkind]
    simp only [hnode.child_iff hwf hids]
    constructor
    · rintro ⟨_, node, rfl, rfl, hname, hstored⟩
      exact ⟨node, rfl, hname, tree, htree, hstored⟩
    · rintro ⟨node, rfl, hname, tree', htree', hstored⟩
      obtain rfl : tree' = tree := Option.some.inj (htree'.symm.trans htree)
      exact ⟨promiseId, node, rfl, rfl, hname, hstored⟩
  · -- a file has no entries, and the lookup says so
    constructor
    · intro hlookup
      obtain ⟨_, -, hlookup⟩ := bind_eq_ok.mp hlookup
      rw [if_neg (hids.notRoot _ _ _ ⟨tree, htree, hparent⟩).ne'] at hlookup
      obtain ⟨found, hfound', hlookup⟩ := bind_eq_ok.mp hlookup
      obtain rfl := Except.ok.inj (hfound.symm.trans hfound')
      simp [hkind] at hlookup
    · rintro ⟨node, -, hname, tree', htree', hstored⟩
      obtain rfl : tree' = tree := Option.some.inj (htree'.symm.trans htree)
      obtain ⟨-, -, parent', hparent', hdirectory⟩ := hshape.parent (hnormal.concat hname) hstored
      obtain rfl : parent' = parent := Option.some.inj (hparent'.symm.trans hparent)
      exact absurd hdirectory hkind

/-- The lookups from a stored node find what is stored under the components. -/
theorem Stores.lookupComponents_eq_ok (hwf : runtime.WellFormed) (hids : runtime.Identified)
    {promiseId : Text} {names : List Text} (hnormal : NormalNames names) {parent : PromiseNode}
    (h : runtime.Stores promiseId (joinNames names) parent) {path : List PathComponent}
    {entry : RuntimeEntry} :
    runtime.lookupComponents (.promiseNode promiseId parent) path = .ok entry ↔
      ∃ below node, path = below.map .normal ∧ NormalNames (names ++ below) ∧
        entry = .promiseNode promiseId node ∧
        runtime.Stores promiseId (joinNames (names ++ below)) node := by
  induction path generalizing names parent with
  | nil =>
      constructor
      · intro hlookup
        exact ⟨[], parent, rfl, by simpa using hnormal, (Except.ok.inj hlookup).symm,
          by simpa using h⟩
      · rintro ⟨below, node, hpath, -, rfl, hnode⟩
        obtain rfl : below = [] := by simpa using hpath.symm
        rw [List.append_nil] at hnode
        exact h.unique hnode ▸ rfl
  | cons component path ih =>
      rw [lookupComponents, List.foldlM_cons, bind_eq_ok]
      constructor
      · rintro ⟨middle, hmiddle, hlookup⟩
        obtain ⟨child, rfl, hname, hchild⟩ := (h.lookupChild_eq_ok hwf hids hnormal).mp hmiddle
        obtain ⟨below, node, rfl, hbelow, rfl, hnode⟩ :=
          (ih (hnormal.concat hname) hchild).mp hlookup
        rw [← List.append_cons] at hbelow hnode
        refine ⟨component.text :: below, node, ?_, hbelow, rfl, hnode⟩
        rw [List.map_cons, ← PathComponent.eq_normal_of_normalName hname]
      · rintro ⟨below, node, hpath, hbelow, rfl, hnode⟩
        obtain ⟨name, rest, rfl, rfl, rfl⟩ := List.map_eq_cons_iff.mp hpath.symm
        rw [List.append_cons] at hbelow hnode
        obtain ⟨tree, htree, hstored⟩ := hnode
        obtain ⟨child, hchild, -⟩ := (hwf.shape htree).2.ancestor hbelow hstored
        have hstores : runtime.Stores promiseId (joinNames (names ++ [name])) child :=
          ⟨tree, htree, hchild⟩
        have hname := hbelow.of_append_left
        refine ⟨.promiseNode promiseId child, (h.lookupChild_eq_ok hwf hids hnormal).mpr
          ⟨child, rfl, hname name (by simp), hstores⟩, ?_⟩
        exact (ih hname hstores).mpr ⟨rest, node, rfl, hbelow, rfl, tree, htree, hstored⟩

/-- The lookups from the root directory: the first component is the id of a promise. -/
theorem lookupComponents_mountRoot_eq_ok (hwf : runtime.WellFormed) (hids : runtime.Identified)
    {path : List PathComponent} {promiseId : Text} {node : PromiseNode} :
    runtime.lookupComponents .mountRoot path = .ok (.promiseNode promiseId node) ↔
      ∃ names, path = (promiseId :: names).map .normal ∧ NormalNames names ∧
        runtime.Stores promiseId (joinNames names) node := by
  cases path with
  | nil => simp [lookupComponents, pure, Except.pure]
  | cons component path =>
      rw [lookupComponents, List.foldlM_cons, bind_eq_ok]
      have hroot : runtime.lookupInode fuseRootInode = .ok .mountRoot := by simp [lookupInode]
      constructor
      · rintro ⟨middle, hmiddle, hlookup⟩
        obtain ⟨firstId, first, rfl, hchild⟩ :=
          (Runtime.lookupChild_eq_ok hwf hids hroot rfl).mp hmiddle
        cases hchild with
        | node hd hparent => exact absurd hd (hids.notRoot _ _ _ hparent).ne'
        | promise _ hname hstores =>
            have htop : runtime.Stores firstId (joinNames []) first := hstores
            obtain ⟨below, last, rfl, hbelow, heq, hnode⟩ :=
              (htop.lookupComponents_eq_ok hwf hids .nil).mp hlookup
            obtain ⟨rfl, rfl⟩ := RuntimeEntry.promiseNode.inj heq
            refine ⟨below, ?_, hbelow, hnode⟩
            obtain ⟨tree, htree, -⟩ := hstores
            obtain ⟨raw, -, hraw⟩ := hwf.named (BTreeMap.mem_of_getElem? htree)
            have hnormal : NormalName component.text :=
              hname ▸ hraw ▸ normalName_promiseName raw
            rw [List.map_cons, ← hname, ← PathComponent.eq_normal_of_normalName hnormal]
      · rintro ⟨names, hpath, hnormal, hnode⟩
        obtain ⟨rfl, rfl⟩ := List.cons.inj hpath
        obtain ⟨tree, htree, hstored⟩ := hnode
        obtain ⟨top, htop, -⟩ := (hwf.shape htree).2.root
        have hstores : runtime.Stores promiseId (joinNames []) top := ⟨tree, htree, htop⟩
        refine ⟨.promiseNode promiseId top, (Runtime.lookupChild_eq_ok hwf hids hroot rfl).mpr
          ⟨promiseId, top, rfl, .promise rfl rfl hstores⟩, ?_⟩
        exact (hstores.lookupComponents_eq_ok hwf hids .nil).mpr
          ⟨names, node, rfl, hnormal, rfl, tree, htree, hstored⟩

end Runtime

/-- A path whose components start like those of an absolute path is absolute. -/
theorem isAbsolute_of_components {path base : Text} {rest : List PathComponent}
    (hbase : isAbsolute base = true) (h : components path = components base ++ rest) :
    isAbsolute path = true := by
  rw [components_of_isAbsolute hbase, List.cons_append] at h
  by_contra hrelative
  have hroot : PathComponent.rootDir ∉ (segments path).filterMap segmentComponent := by
    intro hmem
    obtain ⟨segment, -, hsegment⟩ := List.mem_filterMap.mp hmem
    unfold segmentComponent at hsegment
    split_ifs at hsegment <;> simp at hsegment
  unfold components at h
  simp only [hrelative, if_false] at h
  split_ifs at h
  · simp at h
  · exact hroot (h ▸ List.mem_cons_self)

/-- The source path of a request leads to a node just when the lookups of its components below
the mount do, to the same node.  The path of a node below the path of its promise leads back to
it. -/
theorem resolveVisiblePath_lookupComponents (calls : List RuntimeCall) {mount : IpcMountStatus}
    {mountPath : Text} (hready : mount.readyForCommits = true)
    (hmount : mount.mountPath = some mountPath) (habsolute : isAbsolute mountPath = true) :
    let runtime := Runtime.new.performAll calls
    (∀ (sourcePath promiseId : Text) (node : PromiseNode),
      (∃ relativePath tree nodes,
        mount.resolveVisiblePath sourcePath = .ok (promiseId, relativePath) ∧
        runtime.promise promiseId = some tree ∧
        tree.subtreeNodes relativePath = .ok nodes ∧ nodes.head? = some node) ↔
      ∃ rest, rest ≠ [] ∧ components sourcePath = components mountPath ++ rest ∧
        runtime.lookupComponents .mountRoot rest = .ok (.promiseNode promiseId node)) ∧
    ∀ (promiseId path : Text) (node : PromiseNode), runtime.Stores promiseId path node →
      ∃ visiblePath, mount.visiblePromisePath promiseId = .ok visiblePath ∧
        mount.resolveVisiblePath (pathJoin visiblePath node.relativePath) =
          .ok (promiseId, node.relativePath) := by
  intro runtime
  obtain ⟨hwf, hids⟩ : runtime.WellFormed ∧ runtime.Identified := Runtime.reachable_spec calls
  refine ⟨fun sourcePath promiseId node => ⟨?_, ?_⟩, ?_⟩
  -- a path that resolves has the components of the mount path, the promise and normal names
  · rintro ⟨relativePath, tree, nodes, hresolve, htree, hnodes, hhead⟩
    have hshape := (hwf.shape htree).2
    obtain ⟨names, hnormal, hpath, hstored, hpreorder⟩ := hshape.preorder_subtreeNodes hnodes
    obtain ⟨mountPath', names', hmount', hcomponents, hnormal', rfl, hjoined⟩ :=
      IpcMountStatus.names_of_resolveVisiblePath hresolve hpath
    obtain rfl := Option.some.inj (hmount.symm.trans hmount')
    obtain rfl := joinNames_injective hnormal hnormal' hjoined
    obtain ⟨top, htop⟩ := Option.isSome_iff_exists.mp
      (Std.ExtTreeMap.mem_iff_isSome_getElem?.mp hstored)
    rw [hshape.head_preorder hnormal hpreorder htop] at hhead
    obtain rfl := Option.some.inj hhead
    exact ⟨_, by simp, hcomponents, (Runtime.lookupComponents_mountRoot_eq_ok hwf hids).mpr
      ⟨names, rfl, hnormal, tree, htree, htop⟩⟩
  · rintro ⟨rest, -, hcomponents, hlookup⟩
    obtain ⟨names, rfl, hnormal, tree, htree, hstored⟩ :=
      (Runtime.lookupComponents_mountRoot_eq_ok hwf hids).mp hlookup
    have hshape := (hwf.shape htree).2
    obtain ⟨nodes, hnodes⟩ := (hshape.exists_subtreeNodes_iff hnormal).mpr
      (BTreeMap.mem_of_getElem? hstored)
    obtain ⟨names', hnormal', hpath, -, hpreorder⟩ := hshape.preorder_subtreeNodes hnodes
    rw [normalizeRelativePath_joinNames hnormal] at hpath
    obtain rfl := joinNames_injective hnormal hnormal' (Except.ok.inj hpath)
    exact ⟨joinNames names, tree, nodes, IpcMountStatus.resolveVisiblePath_eq_ok.mpr
      ⟨hready, isAbsolute_of_components habsolute hcomponents, mountPath, names, hmount,
        hcomponents, rfl⟩, htree, hnodes, hshape.head_preorder hnormal hpreorder hstored⟩
  -- the visible path of a promise is its name below the mount path
  · rintro promiseId path node ⟨tree, htree, hstored⟩
    obtain ⟨hpath, names, hnormal, rfl⟩ := (hwf.shape htree).2.path hstored
    obtain ⟨raw, -, hraw⟩ := hwf.named (BTreeMap.mem_of_getElem? htree)
    have hpromise : NormalName promiseId := hraw ▸ Runtime.normalName_promiseName raw
    have hvisible : isAbsolute (pathJoin mountPath promiseId) = true :=
      isAbsolute_pathJoin habsolute
    refine ⟨pathJoin mountPath promiseId, ?_, ?_⟩
    · simp [IpcMountStatus.visiblePromisePath, hready, hmount, okOr]
    · rw [hpath]
      refine IpcMountStatus.resolveVisiblePath_eq_ok.mpr
        ⟨hready, isAbsolute_pathJoin hvisible, mountPath, names, hmount, ?_, rfl⟩
      rw [components_pathJoin_joinNames hvisible hnormal,
        components_pathJoin_name habsolute hpromise]
      simp

/-- The way to a file of a promise, with a spelling that is not the shortest. -/
theorem resolveVisiblePath_lookupComponents_file :
    ∃ node : PromiseNode, node.relativePath = "d/f".toList ∧
      ∃ relativePath tree nodes, IpcMountStatus.resolveVisiblePath ⟨some "/m".toList, true⟩
          "//m/./promise-1/d//f/".toList = .ok ("promise-1".toList, relativePath) ∧
        (Runtime.new.performAll [.op .registerProvider, .commitBuilder 1
          [⟨"d".toList, "n1".toList, .directory, ⟨0o755, 0, 0⟩⟩,
            ⟨"d/f".toList, "n2".toList, .file, ⟨0o644, 3, 0⟩⟩]]).promise "promise-1".toList =
          some tree ∧
        tree.subtreeNodes relativePath = .ok nodes ∧ nodes.head? = some node := by
  have hlookup : (Runtime.new.performAll [.op .registerProvider, .commitBuilder 1
      [⟨"d".toList, "n1".toList, .directory, ⟨0o755, 0, 0⟩⟩,
        ⟨"d/f".toList, "n2".toList, .file, ⟨0o644, 3, 0⟩⟩]]).lookupComponents .mountRoot
      [.normal "promise-1".toList, .normal "d".toList, .normal "f".toList] =
      .ok (.promiseNode "promise-1".toList ⟨3, 4, "d/f".toList, some "d".toList, "f".toList,
        "n2".toList, none, .file, ⟨0o644, 3, 0⟩⟩) := by
    decide +kernel
  exact ⟨_, rfl, ((resolveVisiblePath_lookupComponents _ rfl rfl rfl).1 _ _ _).mpr
    ⟨_, by simp, by decide +kernel, hlookup⟩⟩

end FusePromise
