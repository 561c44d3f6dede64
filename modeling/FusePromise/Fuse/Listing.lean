import FusePromise.Foundation.Paging
import FusePromise.Fuse.Adapter
import FusePromise.Runtime.Directory

/-!
# Listing directories through the mount

`directory_entries` puts `.` and `..` in front of a listing.  The first part shows
that listings, lookups and parents describe one tree.  The second part is about
what a call on the runtime does to a listing: a new promise is inserted into the
listing of the mount root, which is sorted by name, and no other listing ever
changes.
-/

namespace FusePromise

/-! ## Directory entries -/

/-- The root of a promise lies in the mount point. -/
def parentInode (runtime : Runtime) : RuntimeEntry → Except Errno ℕ
  | .mountRoot => .ok fuseRootInode
  | .promiseNode promiseId node =>
      match node.parentPath with
      | none => .ok fuseRootInode
      | some parentPath =>
          match (runtime.promise promiseId).bind fun tree => tree.nodes[parentPath]? with
          | some parent => .ok parent.inode
          | none => .error .enoent

/-- A listing begins with the directory itself and its parent. -/
def directoryEntries (runtime : Runtime) (inode : ℕ) : Except Errno (List DirectoryEntry) := do
  let entry ← (runtime.lookupInode inode).mapError statusToErrno
  let parentInode ← parentInode runtime entry
  let listed ← (runtime.readDir inode).mapError statusToErrno
  return ⟨['.'], entry.inode, .directory⟩ :: ⟨['.', '.'], parentInode, .directory⟩ :: listed

open FusePromise.Runtime

variable {runtime : Runtime}

/-- Every node is an entry of some directory. -/
theorem exists_child (hwf : runtime.WellFormed) {promiseId path : Text} {node : PromiseNode}
    (h : runtime.Stores promiseId path node) : ∃ d name, runtime.Child d name promiseId node := by
  obtain ⟨tree, htree, hnode⟩ := h
  obtain ⟨-, names, hnormal, rfl⟩ := (hwf.shape htree).2.path hnode
  rcases names.eq_nil_or_concat with rfl | ⟨init, name, rfl⟩
  · exact ⟨fuseRootInode, promiseId, .promise rfl rfl ⟨tree, htree, hnode⟩⟩
  · rw [List.concat_eq_append] at hnormal hnode
    obtain ⟨-, -, parent, hparent, hkind⟩ := (hwf.shape htree).2.parent hnormal hnode
    exact ⟨parent.inode, name,
      .node rfl ⟨tree, htree, hparent⟩ hkind hnormal ⟨tree, htree, hnode⟩⟩

/-- The parent of an entry is the directory it is an entry of. -/
theorem parentInode_child (hwf : runtime.WellFormed) {d : ℕ} {name promiseId : Text}
    {node : PromiseNode} (h : runtime.Child d name promiseId node) :
    parentInode runtime (.promiseNode promiseId node) = .ok d := by
  cases h with
  | promise hd _ hnode =>
      obtain ⟨tree, htree, hnode⟩ := hnode
      obtain ⟨root, hroot, -, htop⟩ := (hwf.shape htree).2.root
      obtain rfl : root = node := Option.some.inj (hroot.symm.trans hnode)
      simp only [parentInode, htop, hd]
  | node hd hparent _ hnormal hnode =>
      obtain ⟨tree, htree, hnode⟩ := hnode
      obtain ⟨tree', htree', hparent⟩ := hparent
      obtain rfl : tree' = tree := Option.some.inj (htree'.symm.trans htree)
      obtain ⟨-, hparentPath, -⟩ := (hwf.shape htree).2.parent hnormal hnode
      simp only [parentInode, hparentPath, promise, htree, Option.bind_some, hparent, hd]

/-- The entries of a directory: itself, its parent and its listing. -/
theorem directoryEntries_spec (hwf : runtime.WellFormed) (hids : runtime.Identified) {d : ℕ}
    {directory : RuntimeEntry} (hdir : runtime.lookupInode d = .ok directory)
    (hkind : directory.kind = .directory) :
    ∃ parent listed, parentInode runtime directory = .ok parent ∧ runtime.readDir d = .ok listed ∧
      directoryEntries runtime d =
        .ok (⟨['.'], d, .directory⟩ :: ⟨['.', '.'], parent, .directory⟩ :: listed) := by
  obtain ⟨listed, hlisted, -⟩ := readDir_spec hwf hids hdir hkind
  obtain ⟨hinode, parent, hparent⟩ :
      directory.inode = d ∧ ∃ parent, parentInode runtime directory = .ok parent := by
    cases directory with
    | mountRoot =>
        rcases directory_cases hwf hids hdir hkind with rfl | ⟨_, _, _, _, hnode⟩
        · exact ⟨rfl, _, rfl⟩
        · rw [hnode.found] at hdir
          simp at hdir
    | promiseNode promiseId node =>
        obtain ⟨hstores, hinode⟩ := (lookupInode_eq_ok hwf hids).mp hdir
        obtain ⟨_, _, hchild⟩ := exists_child hwf hstores
        exact ⟨hinode, _, parentInode_child hwf hchild⟩
  refine ⟨parent, listed, hparent, hlisted, ?_⟩
  simp only [directoryEntries, hdir, Except.mapError, hparent, hlisted, hinode, bind, Except.bind,
    pure, Except.pure]

/-- Lookups, listings and parents agree on every directory of a runtime. -/
theorem readDir_lookupChild_agree (calls : List RuntimeCall) {d : ℕ} {directory : RuntimeEntry}
    (hdir : (Runtime.new.performAll calls).lookupInode d = .ok directory)
    (hkind : directory.kind = .directory) :
    let runtime := Runtime.new.performAll calls
    ∃ entries, runtime.readDir d = .ok entries ∧ (entries.map DirectoryEntry.name).Nodup ∧
      (∀ (name : Text) (inode : ℕ) (kind : NodeKind),
        (∃ entry, runtime.lookupChild d name = .ok entry ∧ entry.inode = inode ∧
          entry.kind = kind) ↔ ⟨name, inode, kind⟩ ∈ entries) ∧
      (∀ (name : Text) (inode : ℕ) (kind : NodeKind), ⟨name, inode, kind⟩ ∈ entries →
        ∃ entry, runtime.lookupChild d name = .ok entry ∧
          runtime.lookupInode inode = .ok entry) ∧
      ∀ (name : Text) (inode : ℕ), ⟨name, inode, .directory⟩ ∈ entries →
        ∃ listed, directoryEntries runtime inode =
          .ok (⟨['.'], inode, .directory⟩ :: ⟨['.', '.'], d, .directory⟩ :: listed) := by
  intro runtime
  obtain ⟨hwf, hids⟩ : runtime.WellFormed ∧ runtime.Identified := reachable_spec calls
  obtain ⟨entries, hentries, hsorted, hmem⟩ := readDir_spec hwf hids hdir hkind
  refine ⟨entries, hentries, DirectoryEntry.nodup_names hsorted, ?_, ?_, ?_⟩
  · intro name inode kind
    rw [hmem]
    simp only [lookupChild_eq_ok hwf hids hdir hkind]
    constructor
    · rintro ⟨_, ⟨promiseId, node, rfl, hchild⟩, hinode, hnodeKind⟩
      exact ⟨promiseId, node, hchild, hinode, hnodeKind⟩
    · rintro ⟨promiseId, node, hchild, hinode, hnodeKind⟩
      exact ⟨_, ⟨promiseId, node, rfl, hchild⟩, hinode, hnodeKind⟩
  · intro name inode kind hentry
    obtain ⟨promiseId, node, hchild, rfl, -⟩ := (hmem name inode kind).mp hentry
    obtain ⟨_, hstores⟩ := hchild.stores
    exact ⟨_, (lookupChild_eq_ok hwf hids hdir hkind).mpr ⟨promiseId, node, rfl, hchild⟩,
      hstores.lookupInode hwf hids⟩
  · intro name inode hentry
    obtain ⟨promiseId, node, hchild, rfl, hnodeKind⟩ := (hmem name inode _).mp hentry
    obtain ⟨_, hstores⟩ := hchild.stores
    obtain ⟨parent, listed, hparent, -, hlisting⟩ :=
      directoryEntries_spec hwf hids (hstores.lookupInode hwf hids) hnodeKind
    obtain rfl := Except.ok.inj ((parentInode_child hwf hchild).symm.trans hparent)
    exact ⟨listed, hlisting⟩

/-- The mount root of a daemon with one promise of one directory. -/
theorem readDir_lookupChild_agree_root :
    let runtime := Runtime.new.performAll [.op .registerProvider,
      .commitBuilder 1 [⟨"d".toList, "n".toList, .directory, ⟨0o755, 0, 0⟩⟩]]
    runtime.lookupInode fuseRootInode = .ok .mountRoot ∧
      ∃ entries, runtime.readDir fuseRootInode = .ok entries ∧
        (entries.map DirectoryEntry.name).Nodup := by
  intro runtime
  obtain ⟨entries, hentries, hnodup, -⟩ := readDir_lookupChild_agree [.op .registerProvider,
    .commitBuilder 1 [⟨"d".toList, "n".toList, .directory, ⟨0o755, 0, 0⟩⟩]]
    (d := fuseRootInode) rfl rfl
  exact ⟨rfl, entries, hentries, hnodup⟩

/-! ## Calls between two pages -/

/-- The promise a call adds, under the next id. -/
def addsPromise (runtime : Runtime) (call : RuntimeCall) : Prop :=
  promiseName runtime.nextPromiseId ∈ (runtime.perform call).promises

instance (runtime : Runtime) (call : RuntimeCall) : Decidable (addsPromise runtime call) :=
  inferInstanceAs (Decidable (_ ∈ _))

/-- An entry of a directory stays one, and only its copy may change. -/
theorem child_perform (hwf : runtime.WellFormed) (hids : runtime.Identified) (call : RuntimeCall)
    {d : ℕ} {name promiseId : Text} {node : PromiseNode}
    (h : runtime.Child d name promiseId node) :
    ∃ later, (runtime.perform call).Child d name promiseId later ∧
      withoutCopy later = withoutCopy node := by
  cases h with
  | promise hd hname hnode =>
      obtain ⟨later, hlater, hsame⟩ := stores_performAll hwf hids [call] hnode
      exact ⟨later, .promise hd hname hlater, hsame⟩
  | node hd hparent hkind hnormal hnode =>
      obtain ⟨later, hlater, hsame⟩ := stores_performAll hwf hids [call] hnode
      obtain ⟨parent, hparent', hsame'⟩ := stores_performAll hwf hids [call] hparent
      obtain ⟨-, hinode', hkind'⟩ := withoutCopy_fields hsame'
      exact ⟨later, .node (hinode'.trans hd) hparent' (hkind'.trans hkind) hnormal hlater, hsame⟩

/-- A directory stays one. -/
theorem lookupInode_perform (hwf : runtime.WellFormed) (hids : runtime.Identified)
    (call : RuntimeCall) {d : ℕ} {directory : RuntimeEntry}
    (hdir : runtime.lookupInode d = .ok directory) (hkind : directory.kind = .directory) :
    ∃ later, (runtime.perform call).lookupInode d = .ok later ∧ later.kind = .directory := by
  obtain ⟨hwf', hids', -⟩ := perform_spec hwf hids call
  rcases directory_cases hwf hids hdir hkind with rfl | ⟨promiseId, tree, names, node, hnode⟩
  · exact ⟨.mountRoot, rfl, rfl⟩
  · obtain ⟨later, hlater, hsame⟩ :=
      stores_performAll hwf hids [call] ⟨tree, hnode.promise, hnode.stored⟩
    obtain ⟨-, hinode, hlaterKind⟩ := withoutCopy_fields hsame
    refine ⟨.promiseNode promiseId later, ?_, hlaterKind.trans hnode.kind⟩
    rw [← hnode.inode, ← hinode]
    exact hlater.lookupInode hwf' hids'

/-- A new entry of an existing directory is a new promise in the mount root. -/
theorem child_of_perform (hwf : runtime.WellFormed) (hids : runtime.Identified)
    (call : RuntimeCall) {d : ℕ} {directory : RuntimeEntry}
    (hdir : runtime.lookupInode d = .ok directory) (hkind : directory.kind = .directory)
    {name promiseId : Text} {later : PromiseNode}
    (h : (runtime.perform call).Child d name promiseId later) :
    d = fuseRootInode ∧ name = promiseName runtime.nextPromiseId ∨
      ∃ node, runtime.Child d name promiseId node ∧ node.inode = later.inode ∧
        node.kind = later.kind := by
  obtain ⟨-, hids', -⟩ := perform_spec hwf hids call
  cases h with
  | promise hd hname hlater =>
      rcases stores_of_perform call hlater with hnew | ⟨node, hnode, hsame⟩
      · exact Or.inl ⟨hd, hname.trans hnew⟩
      · obtain ⟨-, hinode, hnodeKind⟩ := withoutCopy_fields hsame
        exact Or.inr ⟨node, .promise hd hname hnode, hinode, hnodeKind⟩
  | node hd hparent hparentKind hnormal hlater =>
      -- the directory was there before, so its promise is not the new one
      have hold : promiseId ≠ promiseName runtime.nextPromiseId := by
        rcases directory_cases hwf hids hdir hkind with rfl | ⟨oldId, tree, names, node, hnode⟩
        · have := hids'.notRoot _ _ _ hparent
          omega
        · obtain ⟨node', hnode', hsame⟩ :=
            stores_performAll hwf hids [call] ⟨tree, hnode.promise, hnode.stored⟩
          obtain ⟨-, hinode, -⟩ := withoutCopy_fields hsame
          obtain ⟨rfl, -⟩ := hids'.inodes.injective _ _ _ _ _ _ hparent hnode'
            (by rw [hd, hinode, hnode.inode])
          rintro rfl
          exact hwf.fresh (BTreeMap.mem_of_getElem? hnode.promise)
      obtain ⟨parent, hparent', hsame'⟩ := (stores_of_perform call hparent).resolve_left hold
      obtain ⟨node, hnode, hsame⟩ := (stores_of_perform call hlater).resolve_left hold
      obtain ⟨-, hinode', hkind'⟩ := withoutCopy_fields hsame'
      obtain ⟨-, hinode, hnodeKind⟩ := withoutCopy_fields hsame
      exact Or.inr ⟨node, .node (hinode'.trans hd) hparent' (hkind'.trans hparentKind) hnormal
        hnode, hinode, hnodeKind⟩

/-- What a call does to the listing of a directory: it inserts a new promise into the one of
the mount root, in the order of the names, and leaves all others alone. -/
theorem readDir_perform (hwf : runtime.WellFormed) (hids : runtime.Identified)
    (call : RuntimeCall) {d : ℕ} {directory : RuntimeEntry}
    (hdir : runtime.lookupInode d = .ok directory) (hkind : directory.kind = .directory)
    {listed : List DirectoryEntry} (hlisted : runtime.readDir d = .ok listed) :
    if d = fuseRootInode ∧ addsPromise runtime call then
      ∃ before added after, listed = before ++ after ∧
        (runtime.perform call).readDir d = .ok (before ++ added :: after) ∧
        added.name = promiseName runtime.nextPromiseId ∧
        (∀ entry ∈ before, entry.Before added) ∧ ∀ entry ∈ after, added.Before entry
    else (runtime.perform call).readDir d = .ok listed := by
  obtain ⟨hwf', hids', -⟩ := perform_spec hwf hids call
  obtain ⟨directory', hdir', hkind'⟩ := lookupInode_perform hwf hids call hdir hkind
  obtain ⟨entries, hentries, hsorted, hmem⟩ := readDir_spec hwf hids hdir hkind
  obtain ⟨later, hlater, hsorted', hmem'⟩ := readDir_spec hwf' hids' hdir' hkind'
  obtain rfl : entries = listed := Except.ok.inj (hentries.symm.trans hlisted)
  -- no entry is lost: a child stays a child under its name, inode and kind
  have hforth : ∀ entry ∈ entries, entry ∈ later := by
    rintro ⟨name, inode, kind⟩ hentry
    obtain ⟨promiseId, node, hchild, rfl, rfl⟩ := (hmem _ _ _).mp hentry
    obtain ⟨node', hchild', hsame⟩ := child_perform hwf hids call hchild
    obtain ⟨-, hinode, hnodeKind⟩ := withoutCopy_fields hsame
    exact (hmem' _ _ _).mpr ⟨promiseId, node', hchild', hinode, hnodeKind⟩
  -- and the only new one is the promise that was committed, in the mount root
  have hback : ∀ entry ∈ later, entry ∈ entries ∨
      d = fuseRootInode ∧ entry.name = promiseName runtime.nextPromiseId ∧
        addsPromise runtime call := by
    rintro ⟨name, inode, kind⟩ hentry
    obtain ⟨promiseId, node', hchild', rfl, rfl⟩ := (hmem' _ _ _).mp hentry
    rcases child_of_perform hwf hids call hdir hkind hchild' with
      ⟨hd, hname⟩ | ⟨node, hchild, hinode, hnodeKind⟩
    · refine Or.inr ⟨hd, hname, ?_⟩
      cases hchild' with
      | promise _ hsame hnode' =>
          obtain ⟨tree, htree, -⟩ := hnode'
          rw [← hsame, hname] at htree
          exact BTreeMap.mem_of_getElem? htree
      | node hd' hparent =>
          have := hids'.notRoot _ _ _ hparent
          omega
    · exact Or.inl ((hmem _ _ _).mpr ⟨promiseId, node, hchild, hinode, hnodeKind⟩)
  split
  · rename_i hadds
    obtain ⟨rfl, hadds⟩ := hadds
    obtain ⟨tree, htree⟩ := Option.isSome_iff_exists.mp
      (Std.ExtTreeMap.mem_iff_isSome_getElem?.mp hadds)
    obtain ⟨root, hroot, -⟩ := (hwf'.shape htree).2.root
    have hadded : ⟨promiseName runtime.nextPromiseId, root.inode, root.kind⟩ ∈ later :=
      (hmem' _ _ _).mpr ⟨_, root, .promise rfl rfl ⟨tree, htree, hroot⟩, rfl, rfl⟩
    have hnew : ⟨promiseName runtime.nextPromiseId, root.inode, root.kind⟩ ∉ entries := by
      intro hold
      obtain ⟨promiseId, node, hchild, -⟩ := (hmem _ _ _).mp hold
      cases hchild with
      | promise _ hsame hnode =>
          obtain ⟨tree, htree, -⟩ := hnode
          rw [← hsame] at htree
          exact hwf.fresh (BTreeMap.mem_of_getElem? htree)
      | node hd' hparent =>
          have := hids.notRoot _ _ _ hparent
          omega
    -- both listings are sorted, so the one with one more entry is the other with an insertion
    obtain ⟨before, after, hbefore, hafter, hlow, hhigh⟩ :=
      Paging.exists_insert_of_sorted (fun _ _ => DirectoryEntry.Before.asymm) hsorted hsorted' hnew
        (fun entry => by
          constructor
          · intro hentry
            rcases hback entry hentry with hold | ⟨-, hname, -⟩
            · exact Or.inr hold
            · exact Or.inl (List.inj_on_of_nodup_map (DirectoryEntry.nodup_names hsorted')
                hentry hadded hname)
          · rintro (rfl | hold)
            · exact hadded
            · exact hforth entry hold)
    exact ⟨before, _, after, hbefore, hafter ▸ hlater, rfl, hlow, hhigh⟩
  · rename_i hadds
    rw [hlater]
    congr 1
    refine Paging.eq_of_sorted (fun _ _ => DirectoryEntry.Before.asymm) hsorted' hsorted ?_
    intro entry
    refine ⟨fun hentry => ?_, hforth entry⟩
    rcases hback entry hentry with hold | ⟨hd, -, hnew⟩
    · exact hold
    · exact absurd ⟨hd, hnew⟩ hadds

/-- A directory keeps its parent. -/
theorem parentInode_perform (hwf : runtime.WellFormed) (hids : runtime.Identified)
    (call : RuntimeCall) {d parent : ℕ} {directory later : RuntimeEntry}
    (hdir : runtime.lookupInode d = .ok directory)
    (hlater : (runtime.perform call).lookupInode d = .ok later)
    (hparent : parentInode runtime directory = .ok parent) :
    parentInode (runtime.perform call) later = .ok parent := by
  obtain ⟨hwf', hids', -⟩ := perform_spec hwf hids call
  cases directory with
  | mountRoot =>
      obtain rfl : d = fuseRootInode := by
        rcases directory_cases hwf hids hdir rfl with hd | ⟨_, _, _, _, hnode⟩
        · exact hd
        · rw [hnode.found] at hdir
          simp at hdir
      obtain rfl : .mountRoot = later := Except.ok.inj hlater
      exact hparent
  | promiseNode promiseId node =>
      obtain ⟨hstores, rfl⟩ := (lookupInode_eq_ok hwf hids).mp hdir
      obtain ⟨_, _, hchild⟩ := exists_child hwf hstores
      obtain rfl := Except.ok.inj ((parentInode_child hwf hchild).symm.trans hparent)
      obtain ⟨node', hchild', hsame⟩ := child_perform hwf hids call hchild
      obtain ⟨-, hinode, -⟩ := withoutCopy_fields hsame
      obtain ⟨_, hstores'⟩ := hchild'.stores
      have hfound := hstores'.lookupInode hwf' hids'
      rw [hinode] at hfound
      obtain rfl := Except.ok.inj (hfound.symm.trans hlater)
      exact parentInode_child hwf' hchild'

/-- A promise sorts behind `.` and `..`. -/
theorem not_before_dots (raw : ℕ) {name : Text} (h : name = ['.'] ∨ name = ['.', '.']) :
    compare (promiseName raw) name ≠ .lt := by
  obtain ⟨rest, hrest⟩ : ∃ rest, promiseName raw = 'p' :: rest := ⟨_, rfl⟩
  have hgt : compare 'p' '.' = .gt := by decide
  rcases h with rfl | rfl <;> simp [hrest, List.compare_cons_cons, hgt]

/-- What a call does to the entries of a directory. -/
theorem directoryEntries_perform (hwf : runtime.WellFormed) (hids : runtime.Identified)
    (call : RuntimeCall) {d : ℕ} {directory : RuntimeEntry}
    (hdir : runtime.lookupInode d = .ok directory) (hkind : directory.kind = .directory)
    {entries : List DirectoryEntry} (hentries : directoryEntries runtime d = .ok entries) :
    if d = fuseRootInode ∧ addsPromise runtime call then
      ∃ before added after, entries = before ++ after ∧
        directoryEntries (runtime.perform call) d = .ok (before ++ added :: after) ∧
        (∀ entry ∈ before, compare (promiseName runtime.nextPromiseId) entry.name ≠ .lt) ∧
        ∀ entry ∈ after, compare (promiseName runtime.nextPromiseId) entry.name = .lt
    else directoryEntries (runtime.perform call) d = .ok entries := by
  obtain ⟨hwf', hids', -⟩ := perform_spec hwf hids call
  obtain ⟨directory', hdir', hkind'⟩ := lookupInode_perform hwf hids call hdir hkind
  obtain ⟨parent, listed, hparent, hlisted, hspec⟩ := directoryEntries_spec hwf hids hdir hkind
  obtain ⟨parent', listed', hparent', hlisted', hspec'⟩ :=
    directoryEntries_spec hwf' hids' hdir' hkind'
  obtain rfl := Except.ok.inj (hspec.symm.trans hentries)
  obtain rfl := Except.ok.inj
    ((parentInode_perform hwf hids call hdir hdir' hparent).symm.trans hparent')
  have hcall := readDir_perform hwf hids call hdir hkind hlisted
  split at hcall
  · rename_i hadds
    rw [if_pos hadds]
    obtain ⟨before, added, after, rfl, hafter, hname, hlow, hhigh⟩ := hcall
    obtain rfl := Except.ok.inj (hafter.symm.trans hlisted')
    refine ⟨⟨['.'], d, .directory⟩ :: ⟨['.', '.'], parent, .directory⟩ :: before, added, after,
      rfl, hspec', ?_, ?_⟩
    · intro entry hentry
      rcases List.mem_cons.mp hentry with rfl | hentry
      · exact not_before_dots _ (Or.inl rfl)
      rcases List.mem_cons.mp hentry with rfl | hentry
      · exact not_before_dots _ (Or.inr rfl)
      rw [← hname]
      exact (hlow entry hentry).asymm
    · intro entry hentry
      rw [← hname]
      exact hhigh entry hentry
  · rename_i hadds
    rw [if_neg hadds, hspec']
    obtain rfl := Except.ok.inj (hcall.symm.trans hlisted')
    rfl

/-- The entries of a directory are distinct. -/
theorem nodup_directoryEntries (hwf : runtime.WellFormed) (hids : runtime.Identified) {d : ℕ}
    {directory : RuntimeEntry} (hdir : runtime.lookupInode d = .ok directory)
    (hkind : directory.kind = .directory) {entries : List DirectoryEntry}
    (hentries : directoryEntries runtime d = .ok entries) : entries.Nodup := by
  obtain ⟨parent, listed, -, hlisted, hspec⟩ := directoryEntries_spec hwf hids hdir hkind
  obtain rfl := Except.ok.inj (hspec.symm.trans hentries)
  obtain ⟨listed', hlisted', hsorted, hmem⟩ := readDir_spec hwf hids hdir hkind
  obtain rfl := Except.ok.inj (hlisted'.symm.trans hlisted)
  have hnormal : ∀ entry ∈ listed', NormalName entry.name := by
    rintro ⟨name, inode, kind⟩ hentry
    obtain ⟨promiseId, node, hchild, -⟩ := (hmem _ _ _).mp hentry
    cases hchild with
    | promise _ hname hnode =>
        obtain ⟨tree, htree, -⟩ := hnode
        obtain ⟨raw, -, rfl⟩ := hwf.named (BTreeMap.mem_of_getElem? htree)
        exact hname ▸ normalName_promiseName raw
    | node _ _ _ hnormal _ => exact hnormal name (by simp)
  refine List.nodup_cons.mpr ⟨?_, List.nodup_cons.mpr ⟨?_, ?_⟩⟩
  · intro hself
    rcases List.mem_cons.mp hself with heq | hself
    · simp at heq
    · exact (hnormal _ hself).ne_dot rfl
  · exact fun hparent => (hnormal _ hparent).ne_dotdot rfl
  · exact List.Nodup.of_map _ (DirectoryEntry.nodup_names hsorted)

end FusePromise
