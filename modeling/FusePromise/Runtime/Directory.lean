import FusePromise.Runtime.Identity

/-!
# Directories

The mount shows a directory with one entry per promise, and below it the trees of
the promises.  `lookupChild` and `readDir` both read the maps of the trees, the
one by path and the other by the children index.  They are compared through
`Child`, which says in terms of names which node is the entry of a directory.
-/

namespace FusePromise

/-- An entry of a listing. -/
structure DirectoryEntry where
  name : Text
  inode : ℕ
  kind : NodeKind
  deriving DecidableEq

/-- The order of a listing. -/
def DirectoryEntry.Before (first second : DirectoryEntry) : Prop :=
  compare first.name second.name = .lt

theorem DirectoryEntry.Before.asymm {first second : DirectoryEntry} (h : first.Before second) :
    ¬ second.Before first :=
  Std.OrientedCmp.not_lt_of_lt h

theorem DirectoryEntry.nodup_names {entries : List DirectoryEntry}
    (h : entries.Pairwise DirectoryEntry.Before) : (entries.map DirectoryEntry.name).Nodup := by
  rw [List.Nodup, List.pairwise_map]
  refine h.imp fun hlt heq => ?_
  rw [DirectoryEntry.Before, heq, Std.ReflOrd.compare_self] at hlt
  simp at hlt

namespace RuntimeEntry

def inode : RuntimeEntry → ℕ
  | .mountRoot => fuseRootInode
  | .promiseNode _ node => node.inode

def kind : RuntimeEntry → NodeKind
  | .mountRoot => .directory
  | .promiseNode _ node => node.kind

end RuntimeEntry

namespace Runtime

/-- Below the mount point the names are those of the promises. -/
def lookupChild (runtime : Runtime) (parentInode : ℕ) (name : Text) : Result RuntimeEntry := do
  validateChildName name
  if parentInode = fuseRootInode then
    let tree ← okOr (runtime.promise name) .notFound
    let node ← okOr tree.nodes[([] : Text)]? .notFound
    return .promiseNode tree.promiseId node
  else
    match ← runtime.lookupInode parentInode with
    | .mountRoot => .error .io -- the source panics here, on an inode that was ruled out above
    | .promiseNode promiseId parent =>
        if parent.kind ≠ .directory then .error .invalidArgument
        else
          let tree ← okOr (runtime.promise promiseId) .notFound
          let childRelativePath := childPath parent.relativePath name
          if (tree.children[parent.relativePath]?).any fun children =>
              childRelativePath ∈ children then
            let child ← okOr tree.nodes[childRelativePath]? .notFound
            return .promiseNode promiseId child
          else .error .notFound

/-- The entry of a promise in the mount root. -/
def promiseEntry (tree : PromiseTree) : Result DirectoryEntry := do
  let root ← okOr tree.nodes[([] : Text)]? .notFound
  return ⟨tree.promiseId, root.inode, .directory⟩

/-- The entry of a node in its directory. -/
def childEntry (tree : PromiseTree) (childPath : Text) : Result DirectoryEntry := do
  let child ← okOr tree.nodes[childPath]? .notFound
  return ⟨child.name, child.inode, child.kind⟩

/-- The entries of a directory, in the order of the promises or of the paths of the children. -/
def readDir (runtime : Runtime) (inode : ℕ) : Result (List DirectoryEntry) :=
  if inode = fuseRootInode then runtime.promises.valueList.mapM promiseEntry
  else do
    match ← runtime.lookupInode inode with
    | .mountRoot => .error .io -- as in `lookupChild`
    | .promiseNode promiseId node =>
        if node.kind ≠ .directory then .error .invalidArgument
        else
          let tree ← okOr (runtime.promise promiseId) .notFound
          let children ← okOr tree.children[node.relativePath]? .notFound
          children.toList.mapM (childEntry tree)

/-! ## Entries of a directory -/

/-- `node` is the entry called `name` of the directory with inode `d`. -/
inductive Child (runtime : Runtime) (d : ℕ) (name promiseId : Text) (node : PromiseNode) : Prop
  | promise (hd : d = fuseRootInode) (hname : name = promiseId)
      (hnode : runtime.Stores promiseId [] node)
  | node {names : List Text} {parent : PromiseNode} (hd : parent.inode = d)
      (hparent : runtime.Stores promiseId (joinNames names) parent)
      (hkind : parent.kind = .directory) (hnormal : NormalNames (names ++ [name]))
      (hnode : runtime.Stores promiseId (joinNames (names ++ [name])) node)

/-- The id of a promise can be the name of an entry. -/
theorem normalName_promiseName (raw : ℕ) : NormalName (promiseName raw) := by
  have hchar : ∀ c ∈ promiseName raw, c ∈ "promise-".toList ∨ c.isDigit = true := by
    intro c hc
    rcases List.mem_append.mp hc with hc | hc
    · exact Or.inl hc
    · exact Or.inr (Nat.isDigit_of_mem_toDigits (by decide) (by decide) hc)
  obtain ⟨rest, hrest⟩ : ∃ rest, promiseName raw = 'p' :: rest := ⟨_, rfl⟩
  refine ⟨by simp [hrest], by simp [hrest], by simp [hrest], ?_, ?_⟩
  · intro hslash
    rcases hchar _ hslash with h | h
    · exact absurd h (by decide)
    · exact absurd h (by decide)
  · intro hnul
    rcases hchar _ hnul with h | h
    · exact absurd h (by decide)
    · exact absurd h (by decide)

end Runtime

theorem validateChildName_eq_ok {name : Text} {u : Unit} :
    validateChildName name = .ok u ↔ NormalName name := by
  unfold validateChildName
  constructor
  · intro h
    split at h
    · simp at h
    · rename_i hdots
      split at h
      · simp at h
      · rename_i hchars
        push Not at hdots hchars
        exact ⟨hdots.1, hdots.2.1, hdots.2.2, hchars.2, hchars.1⟩
  · rintro ⟨hnil, hdot, hdotdot, hslash, hnul⟩
    rw [if_neg (by simp [hnil, hdot, hdotdot]), if_neg (by simp [hslash, hnul])]

namespace Runtime

variable {runtime : Runtime}

/-- A stored node is found again by its inode. -/
theorem Stores.lookupInode (hwf : runtime.WellFormed) (hids : runtime.Identified)
    {promiseId path : Text} {node : PromiseNode} (h : runtime.Stores promiseId path node) :
    runtime.lookupInode node.inode = .ok (.promiseNode promiseId node) := by
  rw [lookupInode_eq_ok hwf hids]
  obtain ⟨tree, htree, hnode⟩ := h
  exact ⟨⟨tree, htree, ((hwf.shape htree).2.path hnode).1.symm ▸ hnode⟩, rfl⟩

theorem Child.stores {d : ℕ} {name promiseId : Text} {node : PromiseNode}
    (h : runtime.Child d name promiseId node) : ∃ path, runtime.Stores promiseId path node := by
  cases h with
  | promise _ _ hnode => exact ⟨_, hnode⟩
  | node _ _ _ _ hnode => exact ⟨_, hnode⟩

/-- A directory below the mount root: the node its inode leads to. -/
structure DirectoryNode (runtime : Runtime) (d : ℕ) (promiseId : Text) (tree : PromiseTree)
    (names : List Text) (node : PromiseNode) : Prop where
  notRoot : d ≠ fuseRootInode
  found : runtime.lookupInode d = .ok (.promiseNode promiseId node)
  promise : runtime.promises[promiseId]? = some tree
  stored : tree.nodes[joinNames names]? = some node
  normal : NormalNames names
  path : node.relativePath = joinNames names
  kind : node.kind = .directory
  inode : node.inode = d

/-- A directory is the mount root or a node. -/
theorem directory_cases (hwf : runtime.WellFormed) (hids : runtime.Identified) {d : ℕ}
    {directory : RuntimeEntry} (h : runtime.lookupInode d = .ok directory)
    (hkind : directory.kind = .directory) :
    d = fuseRootInode ∨ ∃ promiseId tree names node,
      runtime.DirectoryNode d promiseId tree names node := by
  cases directory with
  | mountRoot =>
      refine Or.inl ?_
      by_contra hne
      unfold Runtime.lookupInode at h
      rw [if_neg hne, okOr_eq_ok] at h
      obtain ⟨_, -, h⟩ := List.exists_of_findSome?_eq_some h
      obtain ⟨_, -, h⟩ := List.exists_of_findSome?_eq_some h
      split at h <;> simp at h
  | promiseNode promiseId node =>
      obtain ⟨⟨tree, htree, hnode⟩, hinode⟩ := (lookupInode_eq_ok hwf hids).mp h
      have hroot := hids.notRoot _ _ _ ⟨tree, htree, hnode⟩
      obtain ⟨-, names, hnormal, hpath⟩ := (hwf.shape htree).2.path hnode
      exact Or.inr ⟨promiseId, tree, names, node, by omega, h, htree, hpath ▸ hnode, hnormal,
        hpath, hkind, hinode⟩

/-- The entries of a directory below the mount root, by name. -/
theorem DirectoryNode.child_iff (hwf : runtime.WellFormed) (hids : runtime.Identified) {d : ℕ}
    {promiseId : Text} {tree : PromiseTree} {names : List Text} {parent : PromiseNode}
    (h : runtime.DirectoryNode d promiseId tree names parent) {name childId : Text}
    {node : PromiseNode} :
    runtime.Child d name childId node ↔ childId = promiseId ∧ NormalName name ∧
      tree.nodes[joinNames (names ++ [name])]? = some node := by
  constructor
  · intro hchild
    cases hchild with
    | promise hd => exact absurd hd h.notRoot
    | @node names' parent' hd hparent hkind hnormal hnode =>
        -- the inode of a directory determines its promise and its names
        have hsame := hparent.lookupInode hwf hids
        rw [hd, h.found] at hsame
        obtain ⟨rfl, rfl⟩ := RuntimeEntry.promiseNode.inj (Except.ok.inj hsame)
        obtain ⟨tree', htree', hparent⟩ := hparent
        obtain rfl : tree' = tree := Option.some.inj (htree'.symm.trans h.promise)
        have hpath : joinNames names' = joinNames names :=
          ((hwf.shape h.promise).2.path hparent).1.symm.trans h.path
        obtain rfl := joinNames_injective hnormal.of_append_left h.normal hpath
        obtain ⟨tree'', htree'', hnode⟩ := hnode
        obtain rfl : tree'' = tree' := Option.some.inj (htree''.symm.trans h.promise)
        exact ⟨rfl, hnormal name (by simp), hnode⟩
  · rintro ⟨rfl, hname, hnode⟩
    exact .node h.inode ⟨tree, h.promise, h.stored⟩ h.kind (h.normal.concat hname)
      ⟨tree, h.promise, hnode⟩

/-- The children index of a directory has the paths of its entries. -/
theorem DirectoryNode.children (hwf : runtime.WellFormed) {d : ℕ} {promiseId : Text}
    {tree : PromiseTree} {names : List Text} {parent : PromiseNode}
    (h : runtime.DirectoryNode d promiseId tree names parent) :
    ∃ children, tree.children[parent.relativePath]? = some children ∧
      ∀ path : Text, path ∈ children ↔ ∃ name node, NormalName name ∧
        path = joinNames (names ++ [name]) ∧ tree.nodes[path]? = some node := by
  have hshape := (hwf.shape h.promise).2
  obtain ⟨children, hchildren⟩ := Option.isSome_iff_exists.mp
    (Std.ExtTreeMap.mem_iff_isSome_getElem?.mp (hshape.listed.mpr ⟨parent, h.stored, h.kind⟩))
  refine ⟨children, h.path ▸ hchildren, fun path => ?_⟩
  rw [hshape.child hchildren]
  constructor
  · rintro ⟨⟨names', name, hnormal, hparent, rfl⟩, hmem⟩
    obtain rfl := joinNames_injective h.normal hnormal.of_append_left hparent
    obtain ⟨node, hnode⟩ := Option.isSome_iff_exists.mp
      (Std.ExtTreeMap.mem_iff_isSome_getElem?.mp hmem)
    exact ⟨name, node, hnormal name (by simp), rfl, hnode⟩
  · rintro ⟨name, node, hname, rfl, hnode⟩
    exact ⟨⟨names, name, h.normal.concat hname, rfl, rfl⟩, BTreeMap.mem_of_getElem? hnode⟩

/-- A lookup by name finds the entries of the directory. -/
theorem lookupChild_eq_ok (hwf : runtime.WellFormed) (hids : runtime.Identified) {d : ℕ}
    {directory : RuntimeEntry} (hdir : runtime.lookupInode d = .ok directory)
    (hkind : directory.kind = .directory) {name : Text} {entry : RuntimeEntry} :
    runtime.lookupChild d name = .ok entry ↔
      ∃ promiseId node, entry = .promiseNode promiseId node ∧
        runtime.Child d name promiseId node := by
  unfold lookupChild
  rw [bind_eq_ok]
  simp only [validateChildName_eq_ok, exists_and_left]
  -- the mount root has the promises, any other directory the nodes of its index
  rcases directory_cases hwf hids hdir hkind with rfl | ⟨promiseId, tree, names, parent, hnode⟩
  · rw [if_pos rfl, bind_eq_ok]
    constructor
    · rintro ⟨-, _, tree, htree, h⟩
      obtain ⟨node, hnode, h⟩ := bind_eq_ok.mp h
      rw [okOr_eq_ok] at htree hnode
      obtain rfl := Except.ok.inj h
      obtain rfl : tree.promiseId = name := (hwf.shape htree).1
      exact ⟨_, node, rfl, .promise rfl rfl ⟨tree, htree, hnode⟩⟩
    · rintro ⟨promiseId, node, rfl, hchild⟩
      cases hchild with
      | promise _ hname hnode =>
          subst hname
          obtain ⟨tree, htree, hnode⟩ := hnode
          obtain ⟨raw, -, rfl⟩ := hwf.named (BTreeMap.mem_of_getElem? htree)
          refine ⟨normalName_promiseName raw, (), tree, okOr_eq_ok.mpr htree, ?_⟩
          rw [(hwf.shape htree).1]
          exact bind_eq_ok.mpr ⟨node, okOr_eq_ok.mpr hnode, rfl⟩
      | node hd hparent =>
          have := hids.notRoot _ _ _ hparent
          omega
  · obtain ⟨children, hchildren, hmem⟩ := hnode.children hwf
    have hpath : childPath parent.relativePath name = joinNames (names ++ [name]) := by
      rw [hnode.path, joinNames_append_singleton hnode.normal]
    simp only [if_neg hnode.notRoot, hnode.found, hnode.kind, promise, hnode.promise, hchildren,
      hpath, okOr, bind, Except.bind, hnode.child_iff hwf hids]
    simp only [ne_eq, not_true_eq_false, if_false, Option.any_some, decide_eq_true_eq]
    constructor
    · rintro ⟨hname, -, h⟩
      split at h
      · cases hchild : tree.nodes[joinNames (names ++ [name])]? with
        | none => simp [hchild] at h
        | some node =>
            simp only [hchild] at h
            exact ⟨promiseId, node, (Except.ok.inj h).symm, rfl, hname, rfl⟩
      · simp at h
    · rintro ⟨_, node, rfl, rfl, hname, hchild⟩
      refine ⟨hname, (), ?_⟩
      rw [if_pos ((hmem _).mpr ⟨name, node, hname, rfl, hchild⟩), hchild]
      rfl

theorem promiseEntry_eq_ok {tree : PromiseTree} {entry : DirectoryEntry} :
    promiseEntry tree = .ok entry ↔ ∃ root, tree.nodes[([] : Text)]? = some root ∧
      entry = ⟨tree.promiseId, root.inode, .directory⟩ := by
  simp only [promiseEntry, bind_eq_ok, okOr_eq_ok]
  exact exists_congr fun root => and_congr_right fun _ =>
    ⟨fun h => (Except.ok.inj h).symm, fun h => h ▸ rfl⟩

theorem childEntry_eq_ok {tree : PromiseTree} {path : Text} {entry : DirectoryEntry} :
    childEntry tree path = .ok entry ↔ ∃ child, tree.nodes[path]? = some child ∧
      entry = ⟨child.name, child.inode, child.kind⟩ := by
  simp only [childEntry, bind_eq_ok, okOr_eq_ok]
  exact exists_congr fun child => and_congr_right fun _ =>
    ⟨fun h => (Except.ok.inj h).symm, fun h => h ▸ rfl⟩

/-- The listing of the mount root: the promises in the order of their ids. -/
theorem readDir_root (hwf : runtime.WellFormed) (hids : runtime.Identified) :
    ∃ entries, runtime.readDir fuseRootInode = .ok entries ∧
      entries.map DirectoryEntry.name = runtime.promises.keys ∧
      ∀ name inode kind, ⟨name, inode, kind⟩ ∈ entries ↔
        ∃ promiseId node, runtime.Child fuseRootInode name promiseId node ∧ node.inode = inode ∧
          node.kind = kind := by
  obtain ⟨entries, hentries⟩ : ∃ entries, runtime.promises.valueList.mapM promiseEntry =
      .ok entries := by
    refine exists_mapM_eq_ok fun tree htree => ?_
    obtain ⟨promiseId, htree⟩ := BTreeMap.mem_valueList.mp htree
    obtain ⟨root, hroot, -⟩ := (hwf.shape htree).2.root
    exact ⟨_, promiseEntry_eq_ok.mpr ⟨root, hroot, rfl⟩⟩
  refine ⟨entries, by rw [readDir, if_pos rfl, hentries], ?_, ?_⟩
  -- a promise is stored under its id
  · have hnames : entries.map DirectoryEntry.name =
        runtime.promises.valueList.map PromiseTree.promiseId := by
      refine map_of_mapM_eq_ok hentries fun tree _ entry h => ?_
      obtain ⟨root, -, rfl⟩ := promiseEntry_eq_ok.mp h
      rfl
    rw [hnames, BTreeMap.valueList, List.map_map, ← Std.ExtTreeMap.map_fst_toList_eq_keys]
    refine List.map_congr_left fun entry hmem => ?_
    exact (hwf.shape (Std.ExtTreeMap.mem_toList_iff_getElem?_eq_some.mp hmem)).1
  · intro name inode kind
    rw [mem_of_mapM_eq_ok hentries]
    constructor
    · rintro ⟨tree, htree, h⟩
      obtain ⟨promiseId, htree⟩ := BTreeMap.mem_valueList.mp htree
      obtain ⟨root, hroot, heq⟩ := promiseEntry_eq_ok.mp h
      obtain ⟨rfl, rfl, rfl⟩ := DirectoryEntry.mk.inj heq
      obtain ⟨hid, hshape⟩ := hwf.shape htree
      obtain ⟨root', hroot', hdirectory, -⟩ := hshape.root
      obtain rfl : root' = root := Option.some.inj (hroot'.symm.trans hroot)
      exact ⟨promiseId, root', .promise rfl hid ⟨tree, htree, hroot⟩, rfl, hdirectory⟩
    · rintro ⟨promiseId, node, hchild, rfl, rfl⟩
      cases hchild with
      | promise _ hname hnode =>
          subst hname
          obtain ⟨tree, htree, hnode⟩ := hnode
          obtain ⟨hid, hshape⟩ := hwf.shape htree
          obtain ⟨root, hroot, hdirectory, -⟩ := hshape.root
          obtain rfl : root = node := Option.some.inj (hroot.symm.trans hnode)
          exact ⟨tree, BTreeMap.mem_valueList.mpr ⟨_, htree⟩,
            promiseEntry_eq_ok.mpr ⟨root, hroot, by rw [hid, hdirectory]⟩⟩
      | node hd hparent =>
          have := hids.notRoot _ _ _ hparent
          omega

/-- The listing of any other directory: the paths of its children index, in their order. -/
theorem DirectoryNode.readDir (hwf : runtime.WellFormed) (hids : runtime.Identified) {d : ℕ}
    {promiseId : Text} {tree : PromiseTree} {names : List Text} {parent : PromiseNode}
    (h : runtime.DirectoryNode d promiseId tree names parent) :
    ∃ entries, runtime.readDir d = .ok entries ∧ entries.Pairwise DirectoryEntry.Before ∧
      ∀ name inode kind, ⟨name, inode, kind⟩ ∈ entries ↔
        ∃ promiseId node, runtime.Child d name promiseId node ∧ node.inode = inode ∧
          node.kind = kind := by
  obtain ⟨children, hchildren, hmem⟩ := h.children hwf
  -- the name of an entry is the last name of its path
  have hname : ∀ {name : Text} {child : PromiseNode}, NormalName name →
      tree.nodes[joinNames (names ++ [name])]? = some child → child.name = name :=
    fun hname hstored => ((hwf.shape h.promise).2.parent (h.normal.concat hname) hstored).1
  obtain ⟨entries, hentries⟩ : ∃ entries, children.toList.mapM (childEntry tree) =
      .ok entries := by
    refine exists_mapM_eq_ok fun path hpath => ?_
    obtain ⟨_, child, -, -, hstored⟩ := (hmem path).mp (Std.ExtTreeSet.mem_toList.mp hpath)
    exact ⟨_, childEntry_eq_ok.mpr ⟨child, hstored, rfl⟩⟩
  refine ⟨entries, ?_, ?_, ?_⟩
  · simp only [Runtime.readDir, if_neg h.notRoot, h.found, h.kind, Runtime.promise, h.promise,
      hchildren, okOr, bind, Except.bind]
    simpa using hentries
  · have hleaf : entries.map DirectoryEntry.name = children.toList.map leafName := by
      refine map_of_mapM_eq_ok hentries fun path hpath entry hentry => ?_
      obtain ⟨name, _, hnormal, rfl, hstored⟩ := (hmem path).mp (Std.ExtTreeSet.mem_toList.mp hpath)
      obtain ⟨child, hchild, rfl⟩ := childEntry_eq_ok.mp hentry
      rw [leafName_joinNames (h.normal.concat hnormal)]
      exact hname hnormal hchild
    have hsorted : (children.toList.map leafName).Pairwise fun a b => compare a b = .lt := by
      refine List.pairwise_map.mpr (Std.ExtTreeSet.ordered_toList.imp_of_mem ?_)
      intro path path' hpath hpath' hlt
      obtain ⟨name, _, hnormal, rfl, -⟩ := (hmem path).mp (Std.ExtTreeSet.mem_toList.mp hpath)
      obtain ⟨name', _, hnormal', rfl, -⟩ := (hmem path').mp (Std.ExtTreeSet.mem_toList.mp hpath')
      rw [leafName_joinNames (h.normal.concat hnormal),
        leafName_joinNames (h.normal.concat hnormal')]
      exact (compare_joinNames_concat names name name').symm.trans hlt
    rw [← hleaf, List.pairwise_map] at hsorted
    exact hsorted
  · intro name inode kind
    rw [mem_of_mapM_eq_ok hentries]
    constructor
    · rintro ⟨path, hpath, hentry⟩
      obtain ⟨name', _, hnormal, rfl, -⟩ := (hmem path).mp (Std.ExtTreeSet.mem_toList.mp hpath)
      obtain ⟨child, hchild, heq⟩ := childEntry_eq_ok.mp hentry
      obtain ⟨rfl, rfl, rfl⟩ := DirectoryEntry.mk.inj heq
      refine ⟨promiseId, child, (h.child_iff hwf hids).mpr ⟨rfl, ?_, ?_⟩, rfl, rfl⟩
      · rw [hname hnormal hchild]
        exact hnormal
      · rw [hname hnormal hchild]
        exact hchild
    · rintro ⟨_, child, hchild, rfl, rfl⟩
      obtain ⟨rfl, hnormal, hchild⟩ := (h.child_iff hwf hids).mp hchild
      refine ⟨_, Std.ExtTreeSet.mem_toList.mpr ((hmem _).mpr ⟨name, child, hnormal, rfl, hchild⟩),
        childEntry_eq_ok.mpr ⟨child, hchild, ?_⟩⟩
      rw [hname hnormal hchild]

/-- A listing has the entries of the directory, in the order of their names. -/
theorem readDir_spec (hwf : runtime.WellFormed) (hids : runtime.Identified) {d : ℕ}
    {directory : RuntimeEntry} (hdir : runtime.lookupInode d = .ok directory)
    (hkind : directory.kind = .directory) :
    ∃ entries, runtime.readDir d = .ok entries ∧ entries.Pairwise DirectoryEntry.Before ∧
      ∀ name inode kind, ⟨name, inode, kind⟩ ∈ entries ↔
        ∃ promiseId node, runtime.Child d name promiseId node ∧ node.inode = inode ∧
          node.kind = kind := by
  rcases directory_cases hwf hids hdir hkind with rfl | ⟨promiseId, tree, names, node, hnode⟩
  · obtain ⟨entries, hentries, hnames, hmem⟩ := readDir_root hwf hids
    have hsorted : (entries.map DirectoryEntry.name).Pairwise fun a b => compare a b = .lt :=
      hnames ▸ Std.ExtTreeMap.ordered_keys
    rw [List.pairwise_map] at hsorted
    exact ⟨entries, hentries, hsorted, hmem⟩
  · exact hnode.readDir hwf hids

end Runtime

end FusePromise
