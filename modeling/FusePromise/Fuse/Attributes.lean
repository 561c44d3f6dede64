import FusePromise.Fuse.Listing
import FusePromise.Runtime.Builder
import FusePromise.Runtime.Subtree

/-!
# What the mount shows

The mount replies to `lookup` and `getattr` with attributes and allows them to be kept
for a second, while promises are committed, providers go and files get copies.  None
of this makes a reply wrong:

* `replies_last` says that a reply is what the mount would reply at any later time.
  The one thing that depends on who asks is the owner, and an inode that was replied
  never comes to name another entry.
* `committed_node_is_shown` puts a commit in front of it: what a client has committed
  is found under its path, with the attributes it was committed with.

Which requests get as far as the mount is another matter: it is mounted with
`default_permissions`, so that the kernel has checked the mode bits before.
-/

namespace FusePromise

open FusePromise.Runtime

/-! ## Attributes -/

inductive FileType
  | regularFile
  | directory
  deriving DecidableEq

/-- The times are nanoseconds since the epoch. -/
structure FileAttr where
  ino : ℕ
  size : UInt64
  blocks : ℕ
  atime : ℤ
  mtime : ℤ
  ctime : ℤ
  crtime : ℤ
  kind : FileType
  perm : UInt16
  nlink : ℕ
  uid : ℕ
  gid : ℕ
  rdev : ℕ
  blksize : ℕ
  flags : ℕ
  deriving DecidableEq

/-- The user a request comes from. -/
structure Caller where
  uid : ℕ
  gid : ℕ
  deriving DecidableEq

def nodeKindToFileType : NodeKind → FileType
  | .file => .regularFile
  | .directory => .directory

/-- `i64::saturating_abs`. -/
def saturatingAbs (value : ℤ) : ℤ :=
  min |value| (2 ^ 63 - 1)

/-- A time before the epoch that can be given in nanoseconds is a `SystemTime`, so
`checked_sub` does not fail. -/
def mtime (mtimeNsec : ℤ) : ℤ :=
  if 0 ≤ mtimeNsec then mtimeNsec else -saturatingAbs mtimeNsec

/-- The owner is whoever asks, and all dates are that of the node. -/
def nodeAttr (node : PromiseNode) (caller : Caller) : FileAttr where
  ino := node.inode
  size := node.attr.size
  blocks := (node.attr.size.toNat + 511) / 512
  atime := mtime node.attr.mtimeNsec
  mtime := mtime node.attr.mtimeNsec
  ctime := mtime node.attr.mtimeNsec
  crtime := mtime node.attr.mtimeNsec
  kind := nodeKindToFileType node.kind
  perm := (node.attr.mode &&& 0o7777).toUInt16
  nlink := if node.kind = .directory then 2 else 1
  uid := caller.uid
  gid := caller.gid
  rdev := 0
  blksize := 4096
  flags := 0

/-- The mount point has a mode of its own. -/
def entryAttr (entry : RuntimeEntry) (caller : Caller) : FileAttr :=
  match entry with
  | .mountRoot =>
      { ino := fuseRootInode, size := 0, blocks := 0, atime := 0, mtime := 0, ctime := 0,
        crtime := 0, kind := .directory, perm := 0o755, nlink := 2, uid := caller.uid,
        gid := caller.gid, rdev := 0, blksize := 4096, flags := 0 }
  | .promiseNode _ node => nodeAttr node caller

/-- The same attributes, as shown to another user. -/
def FileAttr.ownedBy (attr : FileAttr) (caller : Caller) : FileAttr :=
  { attr with uid := caller.uid, gid := caller.gid }

@[simp] theorem entryAttr_ino (entry : RuntimeEntry) (caller : Caller) :
    (entryAttr entry caller).ino = entry.inode := by
  cases entry <;> rfl

@[simp] theorem entryAttr_ownedBy (entry : RuntimeEntry) (caller other : Caller) :
    (entryAttr entry caller).ownedBy other = entryAttr entry other := by
  cases entry <;> rfl

/-- The copy of a node does not show. -/
theorem nodeAttr_congr {node later : PromiseNode} (h : withoutCopy later = withoutCopy node) :
    nodeAttr later = nodeAttr node := by
  simp only [withoutCopy, PromiseNode.mk.injEq] at h
  obtain ⟨-, hinode, -, -, -, -, -, hkind, hattr⟩ := h
  funext caller
  rw [nodeAttr, nodeAttr, hinode, hkind, hattr]

/-- A word without bits outside a mask. -/
theorem and_eq_self_of_and_not {word mask : UInt32} (h : word &&& ~~~mask = 0) :
    word &&& mask = word := by
  apply UInt32.eq_of_toBitVec_eq
  ext i hi
  have hbit := congrArg (fun word : UInt32 => word.toBitVec[i]) h
  have hzero : (0 : UInt32).toBitVec[i] = false := BitVec.getElem_zero hi
  simp only [UInt32.toBitVec_and, UInt32.toBitVec_not, BitVec.getElem_and, BitVec.getElem_not,
    hzero] at hbit ⊢
  cases hword : word.toBitVec[i] with
  | false => rfl
  | true =>
      rw [hword] at hbit
      simpa using hbit

/-- Attributes that were accepted are shown as they are. -/
theorem nodeAttr_of_valid {node : PromiseNode} (h : validateAttr node.kind node.attr = .ok ())
    (caller : Caller) :
    (nodeAttr node caller).perm.toNat = node.attr.mode.toNat ∧
      (nodeAttr node caller).mtime = node.attr.mtimeNsec := by
  unfold validateAttr at h
  split at h
  · simp at h
  split at h
  · simp at h
  rename_i hmode htime
  refine ⟨?_, if_pos (Int.not_lt.mp htime)⟩
  have hmask := and_eq_self_of_and_not (not_not.mp hmode)
  have hle : (node.attr.mode &&& 0o7777).toNat ≤ 0o7777 := by
    rw [UInt32.toNat_and]
    exact Nat.and_le_right
  rw [nodeAttr, UInt32.toNat_toUInt16, Nat.mod_eq_of_lt (by omega), hmask]

/-! ## The replies -/

/-- A name that is not valid UTF-8 is `none`. -/
def lookup (runtime : Runtime) (caller : Caller) (parent : ℕ) (name : Option Text) :
    Except Errno FileAttr :=
  match name with
  | none => .error .einval
  | some name =>
      match runtime.lookupChild parent name with
      | .error status => .error (statusToErrno status)
      | .ok entry => .ok (entryAttr entry caller)

/-- The attributes of whatever has the inode. -/
def getattr (runtime : Runtime) (caller : Caller) (inode : ℕ) : Except Errno FileAttr :=
  match runtime.lookupInode inode with
  | .error status => .error (statusToErrno status)
  | .ok entry => .ok (entryAttr entry caller)

inductive OpenAccMode
  | rdonly
  | wronly
  | rdwr
  deriving DecidableEq

inductive OpenError
  | erofs
  | errno (errno : Errno)
  deriving DecidableEq

structure Opened where
  fileHandle : ℕ
  directIo : Bool
  deriving DecidableEq

/-- `PromiseFilesystem::open`. -/
def openInode (runtime : Runtime) (inode : ℕ) (accMode : OpenAccMode) :
    Except OpenError Opened :=
  if accMode ≠ .rdonly then .error .erofs
  else
    match runtime.lookupInode inode with
    | .error status => .error (.errno (statusToErrno status))
    | .ok .mountRoot => .error (.errno .eisdir)
    | .ok (.promiseNode _ node) =>
        if node.kind = .file then .ok ⟨inode, true⟩ else .error (.errno .eisdir)

/-! ## Replies stay right -/

namespace Runtime

variable {runtime : Runtime}

/-- Only a directory has entries. -/
theorem exists_directory_of_lookupChild {parent : ℕ} {name : Text} {entry : RuntimeEntry}
    (h : runtime.lookupChild parent name = .ok entry) :
    ∃ directory, runtime.lookupInode parent = .ok directory ∧ directory.kind = .directory := by
  unfold lookupChild at h
  obtain ⟨_, -, h⟩ := bind_eq_ok.mp h
  split at h
  · rename_i hroot
    exact ⟨.mountRoot, by simp [lookupInode, hroot], rfl⟩
  · obtain ⟨found, hfound, h⟩ := bind_eq_ok.mp h
    cases found with
    | mountRoot => simp at h
    | promiseNode promiseId node =>
        refine ⟨_, hfound, ?_⟩
        by_contra hkind
        have hkind : node.kind ≠ .directory := hkind
        simp [hkind] at h

theorem Child.lookupChild (hwf : runtime.WellFormed) (hids : runtime.Identified) {d : ℕ}
    {name promiseId : Text} {node : PromiseNode} (h : runtime.Child d name promiseId node) :
    runtime.lookupChild d name = .ok (.promiseNode promiseId node) := by
  have hdirectory : ∃ directory, runtime.lookupInode d = .ok directory ∧
      directory.kind = .directory := by
    cases h with
    | promise hd => exact ⟨.mountRoot, by simp [lookupInode, hd], rfl⟩
    | @node _ parent hd hparent hkind =>
        exact ⟨.promiseNode promiseId parent, hd ▸ hparent.lookupInode hwf hids, hkind⟩
  obtain ⟨directory, hdir, hkind⟩ := hdirectory
  exact (lookupChild_eq_ok hwf hids hdir hkind).mpr ⟨promiseId, node, rfl, h⟩

/-- What a lookup finds is an entry of a directory. -/
theorem exists_child_of_lookupChild (hwf : runtime.WellFormed) (hids : runtime.Identified)
    {parent : ℕ} {name : Text} {entry : RuntimeEntry}
    (h : runtime.lookupChild parent name = .ok entry) :
    ∃ promiseId node, entry = .promiseNode promiseId node ∧
      runtime.Child parent name promiseId node := by
  obtain ⟨directory, hdir, hkind⟩ := exists_directory_of_lookupChild h
  exact (lookupChild_eq_ok hwf hids hdir hkind).mp h

theorem performAll_append (runtime : Runtime) (calls later : List RuntimeCall) :
    runtime.performAll (calls ++ later) = (runtime.performAll calls).performAll later :=
  List.foldl_append

theorem child_performAll (hwf : runtime.WellFormed) (hids : runtime.Identified)
    (calls : List RuntimeCall) {d : ℕ} {name promiseId : Text} {node : PromiseNode}
    (h : runtime.Child d name promiseId node) :
    ∃ later, (runtime.performAll calls).Child d name promiseId later ∧
      withoutCopy later = withoutCopy node := by
  refine performAll_keeps (fun runtime => ∃ later, runtime.Child d name promiseId later ∧
    withoutCopy later = withoutCopy node) ?_ hwf hids ⟨node, h, rfl⟩ calls
  rintro runtime call hwf hids ⟨middle, hmiddle, hsame⟩
  obtain ⟨later, hlater, hsame'⟩ := child_perform hwf hids call hmiddle
  exact ⟨later, hlater, hsame'.trans hsame⟩

/-- What is looked up is looked up later as well, and shown alike. -/
theorem lookupChild_performAll (hwf : runtime.WellFormed) (hids : runtime.Identified)
    (calls : List RuntimeCall) {parent : ℕ} {name : Text} {entry : RuntimeEntry}
    (h : runtime.lookupChild parent name = .ok entry) :
    ∃ later, (runtime.performAll calls).lookupChild parent name = .ok later ∧
      (runtime.performAll calls).lookupInode entry.inode = .ok later ∧
      entryAttr later = entryAttr entry := by
  obtain ⟨promiseId, node, rfl, hchild⟩ := exists_child_of_lookupChild hwf hids h
  obtain ⟨hwf', hids', -⟩ := performAll_spec hwf hids calls
  obtain ⟨later, hlater, hsame⟩ := child_performAll hwf hids calls hchild
  obtain ⟨_, hstores⟩ := hlater.stores
  refine ⟨.promiseNode promiseId later, hlater.lookupChild hwf' hids', ?_, nodeAttr_congr hsame⟩
  show (runtime.performAll calls).lookupInode node.inode = _
  rw [← (withoutCopy_fields hsame).2.1]
  exact hstores.lookupInode hwf' hids'

theorem lookupInode_performAll (hwf : runtime.WellFormed) (hids : runtime.Identified)
    (calls : List RuntimeCall) {inode : ℕ} {entry : RuntimeEntry}
    (h : runtime.lookupInode inode = .ok entry) :
    ∃ later, (runtime.performAll calls).lookupInode inode = .ok later ∧
      entryAttr later = entryAttr entry := by
  obtain ⟨hwf', hids', -⟩ := performAll_spec hwf hids calls
  cases entry with
  | mountRoot =>
      rcases directory_cases hwf hids h rfl with rfl | ⟨_, _, _, _, hnode⟩
      · exact ⟨.mountRoot, by simp [lookupInode], rfl⟩
      · simp [hnode.found] at h
  | promiseNode promiseId node =>
      obtain ⟨hstores, rfl⟩ := (lookupInode_eq_ok hwf hids).mp h
      obtain ⟨later, hlater, hsame⟩ := stores_performAll hwf hids calls hstores
      refine ⟨.promiseNode promiseId later, ?_, nodeAttr_congr hsame⟩
      rw [← (withoutCopy_fields hsame).2.1]
      exact hlater.lookupInode hwf' hids'

/-- An inode is that of one entry of one directory. -/
theorem Child.unique (hwf : runtime.WellFormed) (hids : runtime.Identified) {d d' : ℕ}
    {name name' promiseId promiseId' : Text} {node node' : PromiseNode}
    (h : runtime.Child d name promiseId node) (h' : runtime.Child d' name' promiseId' node')
    (hinode : node'.inode = node.inode) : d' = d ∧ name' = name := by
  obtain ⟨path, hstores⟩ := h.stores
  obtain ⟨path', hstores'⟩ := h'.stores
  have hfound := hstores.lookupInode hwf hids
  have hfound' := hstores'.lookupInode hwf hids
  rw [hinode, hfound] at hfound'
  obtain ⟨rfl, rfl⟩ := RuntimeEntry.promiseNode.inj (Except.ok.inj hfound')
  -- one node is stored under one path
  have hpath : ∀ {first second : Text}, runtime.Stores promiseId first node →
      runtime.Stores promiseId second node → first = second := by
    rintro first second ⟨tree, htree, hfirst⟩ ⟨tree', htree', hsecond⟩
    rw [← ((hwf.shape htree).2.path hfirst).1, ← ((hwf.shape htree').2.path hsecond).1]
  cases h with
  | promise hd hname hnode =>
      cases h' with
      | promise hd' hname' => exact ⟨hd'.trans hd.symm, hname'.trans hname.symm⟩
      | node _ _ _ hnormal hnode' =>
          exact absurd (hpath hnode' hnode) (joinNames_ne_nil hnormal (by simp))
  | node hd hparent _ hnormal hnode =>
      cases h' with
      | promise _ _ hnode' =>
          exact absurd (hpath hnode hnode') (joinNames_ne_nil hnormal (by simp))
      | node hd' hparent' _ hnormal' hnode' =>
          have hnames := joinNames_injective hnormal' hnormal (hpath hnode' hnode)
          obtain ⟨rfl, hname⟩ := List.append_inj' hnames rfl
          rw [hparent'.unique hparent] at hd'
          exact ⟨hd'.symm.trans hd, by simpa using hname⟩

end Runtime

section Replies

variable {runtime : Runtime} {caller : Caller}

theorem lookup_eq_ok {parent : ℕ} {name : Option Text} {attr : FileAttr} :
    lookup runtime caller parent name = .ok attr ↔ ∃ text entry, name = some text ∧
      runtime.lookupChild parent text = .ok entry ∧ attr = entryAttr entry caller := by
  cases name with
  | none => simp [lookup]
  | some text => cases hentry : runtime.lookupChild parent text <;> simp [lookup, hentry, eq_comm]

theorem getattr_eq_ok {inode : ℕ} {attr : FileAttr} :
    getattr runtime caller inode = .ok attr ↔
      ∃ entry, runtime.lookupInode inode = .ok entry ∧ attr = entryAttr entry caller := by
  cases hentry : runtime.lookupInode inode <;> simp [getattr, hentry, eq_comm]

end Replies

/-- From every state the daemon can be in, and after anything it may do: what the mount has
replied to a lookup or a getattr is what it replies then to the same request, also from another
user, but for the owner; the inode of a lookup shows the attributes that came with it, and is
never replied for another name. -/
theorem replies_last (calls later : List RuntimeCall) :
    let runtime := new.performAll calls
    let after := runtime.performAll later
    (∀ caller parent name attr, lookup runtime caller parent name = .ok attr →
      (∀ other, lookup after other parent name = .ok (attr.ownedBy other) ∧
        getattr after other attr.ino = .ok (attr.ownedBy other)) ∧
      ∀ other parent' name' attr', lookup after other parent' name' = .ok attr' →
        attr'.ino = attr.ino → parent' = parent ∧ name' = name) ∧
    ∀ caller inode attr, getattr runtime caller inode = .ok attr →
      ∀ other, getattr after other inode = .ok (attr.ownedBy other) := by
  intro runtime after
  obtain ⟨hwf, hids⟩ : runtime.WellFormed ∧ runtime.Identified := reachable_spec calls
  obtain ⟨hwf', hids', -⟩ := performAll_spec hwf hids later
  refine ⟨fun caller parent name attr hreply => ?_, fun caller inode attr hreply other => ?_⟩
  · obtain ⟨text, entry, rfl, hentry, rfl⟩ := lookup_eq_ok.mp hreply
    obtain ⟨found, hfound, hinode, hsame⟩ := lookupChild_performAll hwf hids later hentry
    refine ⟨fun other => ?_, fun other parent' name' attr' hreply' hino => ?_⟩
    · rw [entryAttr_ownedBy, entryAttr_ino]
      exact ⟨lookup_eq_ok.mpr ⟨text, found, rfl, hfound, by rw [hsame]⟩,
        getattr_eq_ok.mpr ⟨found, hinode, by rw [hsame]⟩⟩
    · obtain ⟨text', entry', rfl, hentry', rfl⟩ := lookup_eq_ok.mp hreply'
      obtain ⟨promiseId, node, rfl, hchild⟩ := exists_child_of_lookupChild hwf' hids' hfound
      obtain ⟨promiseId', node', rfl, hchild'⟩ := exists_child_of_lookupChild hwf' hids' hentry'
      have hinode' : (entryAttr (.promiseNode promiseId node) other).ino = entry.inode := by
        rw [hsame, entryAttr_ino]
      rw [entryAttr_ino] at hino hinode'
      obtain ⟨hparent, hname⟩ := hchild.unique hwf' hids' hchild'
        ((hino.trans (entryAttr_ino entry caller)).trans hinode'.symm)
      exact ⟨hparent, congrArg some hname⟩
  · obtain ⟨entry, hentry, rfl⟩ := getattr_eq_ok.mp hreply
    obtain ⟨found, hfound, hsame⟩ := lookupInode_performAll hwf hids later hentry
    exact getattr_eq_ok.mpr ⟨found, hfound, by rw [hsame, entryAttr_ownedBy]⟩

/-- The provider of a file goes and the file gets a copy; another user asks for it by its inode. -/
theorem replies_last_file :
    let runtime := new.performAll [.op .registerProvider, .commitBuilder 1
      [⟨"f".toList, "n".toList, .file, ⟨0o644, 3, 5⟩⟩]]
    ∃ attr, lookup runtime ⟨1000, 1000⟩ 2 (some "f".toList) = .ok attr ∧
      getattr (runtime.performAll [.op (.unregisterProvider 1),
        .op (.markNodeMaterialized "promise-1".toList "f".toList "/f".toList)]) ⟨0, 0⟩ attr.ino =
          .ok (attr.ownedBy ⟨0, 0⟩) := by
  intro runtime
  obtain ⟨attr, hreply⟩ : ∃ attr, lookup runtime ⟨1000, 1000⟩ 2 (some "f".toList) = .ok attr :=
    ⟨_, rfl⟩
  exact ⟨attr, hreply, (((replies_last _ _).1 _ _ _ _ hreply).1 ⟨0, 0⟩).2⟩

/-! ## Walking a path -/

/-- The names lead from one inode to another. -/
inductive Leads (runtime : Runtime) : ℕ → List Text → ℕ → Prop
  | nil (inode : ℕ) : Leads runtime inode [] inode
  | cons {d inode : ℕ} {name promiseId : Text} {node : PromiseNode} {names : List Text}
      (hchild : runtime.Child d name promiseId node)
      (hrest : Leads runtime node.inode names inode) : Leads runtime d (name :: names) inode

namespace Leads

variable {runtime : Runtime}

theorem perform (hwf : runtime.WellFormed) (hids : runtime.Identified) (call : RuntimeCall)
    {d inode : ℕ} {names : List Text} (h : Leads runtime d names inode) :
    Leads (runtime.perform call) d names inode := by
  induction h with
  | nil inode => exact .nil inode
  | cons hchild _ ih =>
      obtain ⟨later, hlater, hsame⟩ := child_perform hwf hids call hchild
      rw [← (withoutCopy_fields hsame).2.1] at ih
      exact .cons hlater ih

/-- The names of a node below a stored one. -/
theorem of_below (hwf : runtime.WellFormed) {promiseId : Text} {names below : List Text}
    (hnormal : NormalNames (names ++ below)) {top node : PromiseNode}
    (htop : runtime.Stores promiseId (joinNames names) top)
    (hnode : runtime.Stores promiseId (joinNames (names ++ below)) node) :
    Leads runtime top.inode below node.inode := by
  induction below generalizing names top with
  | nil =>
      rw [List.append_nil] at hnode
      obtain rfl := htop.unique hnode
      exact .nil _
  | cons name rest ih =>
      obtain ⟨tree, htree, hstored⟩ := hnode
      have hshape := (hwf.shape htree).2
      rw [List.append_cons] at hnormal hstored
      -- the first name leads to an ancestor of the node, or to the node itself
      obtain ⟨child, hchild, -⟩ := hshape.ancestor hnormal hstored
      have hfirst := hnormal.of_append_left
      obtain ⟨-, -, parent, hparent, hkind⟩ := hshape.parent hfirst hchild
      obtain rfl : parent = top := Runtime.Stores.unique ⟨tree, htree, hparent⟩ htop
      exact .cons (.node rfl htop hkind hfirst ⟨tree, htree, hchild⟩)
        (ih hnormal ⟨tree, htree, hchild⟩ ⟨tree, htree, hstored⟩)

/-- The id of its promise and its names lead from the mount root to a node. -/
theorem of_stores (hwf : runtime.WellFormed) {promiseId : Text} {names : List Text}
    (hnormal : NormalNames names) {node : PromiseNode}
    (h : runtime.Stores promiseId (joinNames names) node) :
    Leads runtime fuseRootInode (promiseId :: names) node.inode := by
  obtain ⟨tree, htree, hstored⟩ := h
  obtain ⟨root, hroot, -⟩ := (hwf.shape htree).2.root
  have htop : runtime.Stores promiseId [] root := ⟨tree, htree, hroot⟩
  exact .cons (.promise rfl rfl htop)
    (@of_below runtime hwf promiseId [] names hnormal root node htop ⟨tree, htree, hstored⟩)

end Leads

/-- One name after another is looked up, each in the directory of the last reply.  Anything may
happen before each request. -/
def lookupNames (runtime : Runtime) (caller : Caller) (inode : ℕ) :
    List (List RuntimeCall × Text) → Except Errno ℕ × Runtime
  | [] => (.ok inode, runtime)
  | (calls, name) :: rest =>
      match lookup (runtime.performAll calls) caller inode (some name) with
      | .error errno => (.error errno, runtime.performAll calls)
      | .ok attr => lookupNames (runtime.performAll calls) caller attr.ino rest

/-- Names that lead to an inode are replied with it in the end. -/
theorem lookupNames_eq {runtime : Runtime} (hwf : runtime.WellFormed) (hids : runtime.Identified)
    (caller : Caller) {steps : List (List RuntimeCall × Text)} {d inode : ℕ}
    (hleads : Leads runtime d (steps.map Prod.snd) inode) :
    lookupNames runtime caller d steps =
      (.ok inode, runtime.performAll (steps.flatMap Prod.fst)) := by
  induction steps generalizing runtime d with
  | nil =>
      cases hleads with
      | nil => rfl
  | cons step rest ih =>
      obtain ⟨calls, name⟩ := step
      obtain ⟨hwf', hids', -⟩ := performAll_spec hwf hids calls
      -- the names still lead to the inode after what happens before this request
      have hleads' : Leads (runtime.performAll calls) d (name :: rest.map Prod.snd) inode :=
        performAll_keeps (Leads · d _ inode) (fun _ call hwf hids h => h.perform hwf hids call)
          hwf hids hleads calls
      cases hleads' with
      | @cons _ _ _ promiseId node _ hchild hrest =>
          have hreply : lookup (runtime.performAll calls) caller d (some name) =
              .ok (nodeAttr node caller) :=
            lookup_eq_ok.mpr ⟨name, _, rfl, hchild.lookupChild hwf' hids', rfl⟩
          rw [lookupNames, hreply]
          refine (ih hwf' hids' hrest).trans ?_
          rw [List.flatMap_cons, performAll_append]

/-- What a committed entry is stored as. -/
theorem exists_stores_of_commit {runtime : Runtime} {providerId : ProviderId}
    {nodes : List PromiseNodeBody} {builder : PromiseBuilder} {tree : PromiseTree}
    (hbuilder : (PromiseBuilder.new providerId).addNodes nodes = .ok builder)
    (hcommit : (runtime.commitPromise builder).1 = .ok tree) {spec : PromiseNodeBody}
    (hspec : spec ∈ nodes) {path : Text}
    (hpath : normalizeRelativePath spec.relativePath = .ok path) :
    ∃ node, (runtime.commitPromise builder).2.Stores tree.promiseId path node ∧
      node.kind = spec.kind ∧ node.attr = spec.attr := by
  obtain ⟨-, -, hspecs, -⟩ := PromiseBuilder.addNodes_specs hbuilder
  obtain ⟨built, hbuilt, hentry⟩ := Option.map_eq_some_iff.mp
    ((hspecs path _).mpr (Or.inr ⟨spec, hspec, hpath, rfl⟩))
  obtain ⟨-, hid, -, -, -, hnodes, -⟩ := (commitPromise_spec runtime builder).2 tree hcommit
  obtain ⟨node, hnode, hsame⟩ : ∃ node, tree.nodes[path]? = some node ∧
      PromiseNode.withoutIds node = PromiseNode.withoutIds built := by
    have hstored := hnodes path
    rw [hbuilt, Option.map_some] at hstored
    exact Option.map_eq_some_iff.mp hstored
  simp only [PromiseNode.withoutIds, PromiseNode.mk.injEq] at hsame
  obtain ⟨-, -, -, -, -, -, -, hkind, hattr⟩ := hsame
  simp only [PromiseBuilder.nodeSpec, PromiseNodeBody.mk.injEq] at hentry
  obtain ⟨-, -, hkind', hattr'⟩ := hentry
  refine ⟨node, (stores_commitPromise hcommit _ _ _).mpr ?_, hkind.trans hkind',
    hattr.trans hattr'⟩
  rw [if_pos hid.symm]
  exact hnode

/-- Only a file can be opened, and only to be read. -/
theorem openInode_eq_ok {runtime : Runtime} {promiseId : Text} {node : PromiseNode}
    (h : runtime.lookupInode node.inode = .ok (.promiseNode promiseId node))
    (accMode : OpenAccMode) :
    openInode runtime node.inode accMode = .ok ⟨node.inode, true⟩ ↔
      accMode = .rdonly ∧ node.kind = .file := by
  unfold openInode
  by_cases hmode : accMode = .rdonly <;> by_cases hkind : node.kind = .file <;>
    simp [hmode, hkind, h]

/-- A client commits an entry.  From then on, whatever happens before, between and after the
requests: the lookups along the path of the entry end at an inode for which the mount shows the
size, the mode, the time and the kind of the entry, and which it opens for reading if and only if
the entry is a file. -/
theorem committed_node_is_shown {before : List RuntimeCall} {providerId : ProviderId}
    {nodes : List PromiseNodeBody} {builder : PromiseBuilder} {tree : PromiseTree}
    (hbuilder : (PromiseBuilder.new providerId).addNodes nodes = .ok builder)
    (hcommit : ((new.performAll before).commitPromise builder).1 = .ok tree)
    {spec : PromiseNodeBody} (hspec : spec ∈ nodes) {names : List Text}
    (hnormal : NormalNames names)
    (hpath : normalizeRelativePath spec.relativePath = .ok (joinNames names)) (caller : Caller)
    {steps : List (List RuntimeCall × Text)}
    (hsteps : steps.map Prod.snd = tree.promiseId :: names) (after : List RuntimeCall) :
    let found := lookupNames ((new.performAll before).commitPromise builder).2 caller
      fuseRootInode steps
    let runtime := found.2.performAll after
    ∃ inode attr, found.1 = .ok inode ∧ getattr runtime caller inode = .ok attr ∧
      attr.ino = inode ∧ attr.size = spec.attr.size ∧ attr.perm.toNat = spec.attr.mode.toNat ∧
      attr.mtime = spec.attr.mtimeNsec ∧ attr.kind = nodeKindToFileType spec.kind ∧
      ∀ accMode, openInode runtime inode accMode = .ok ⟨inode, true⟩ ↔
        accMode = .rdonly ∧ spec.kind = .file := by
  intro found runtime
  obtain ⟨node, hstores, hkind, hattr⟩ := exists_stores_of_commit hbuilder hcommit hspec hpath
  obtain ⟨hwf, hids⟩ : ((new.performAll before).commitPromise builder).2.WellFormed ∧
      ((new.performAll before).commitPromise builder).2.Identified := by
    obtain ⟨hwf, hids⟩ := reachable_spec before
    obtain ⟨hwf', hids', -⟩ := perform_spec hwf hids (.op (.commitPromise providerId nodes))
    simp only [perform, Runtime.apply, hbuilder] at hwf' hids'
    exact ⟨hwf', hids'⟩
  -- the names lead to the node, whatever is done between the lookups
  have hfound := lookupNames_eq hwf hids caller (hsteps ▸ Leads.of_stores hwf hnormal hstores)
  have hruntime : runtime = ((new.performAll before).commitPromise builder).2.performAll
      (steps.flatMap Prod.fst ++ after) := by
    rw [performAll_append]
    exact congrArg (·.performAll after) (congrArg Prod.snd hfound)
  obtain ⟨hwf', hids', -⟩ := performAll_spec hwf hids (steps.flatMap Prod.fst ++ after)
  -- the node is still there afterwards, and differs only in where its copy is
  obtain ⟨later, hlater, hsame⟩ := stores_performAll hwf hids (steps.flatMap Prod.fst ++ after)
    hstores
  rw [← hruntime] at hwf' hids' hlater
  have hentry := hlater.lookupInode hwf' hids'
  have hopen := openInode_eq_ok hentry
  obtain ⟨tree', htree', hstored⟩ := hlater
  obtain ⟨hperm, htime⟩ := nodeAttr_of_valid ((hwf'.shape htree').2.attr hstored) caller
  simp only [withoutCopy, PromiseNode.mk.injEq] at hsame
  obtain ⟨-, hinode, -, -, -, -, -, hkind', hattr'⟩ := hsame
  rw [hinode] at hentry hopen
  rw [hkind', hkind] at hopen
  rw [hattr', hattr] at hperm htime
  refine ⟨node.inode, nodeAttr later caller, congrArg Prod.fst hfound,
    getattr_eq_ok.mpr ⟨_, hentry, rfl⟩, hinode, ?_, hperm, htime, ?_, hopen⟩
  · exact congrArg NodeAttr.size (hattr'.trans hattr)
  · exact congrArg nodeKindToFileType (hkind'.trans hkind)

/-- A file in a directory, whose provider goes between two of the lookups. -/
theorem committed_file_is_shown :
    let caller : Caller := ⟨1000, 1000⟩
    let nodes : List PromiseNodeBody := [⟨"d".toList, "n1".toList, .directory, ⟨0o755, 0, 0⟩⟩,
      ⟨"d/f".toList, "n2".toList, .file, ⟨0o644, 3, 5⟩⟩]
    let steps : List (List RuntimeCall × Text) := [([], "promise-1".toList),
      ([.op (.unregisterProvider 1)], "d".toList), ([], "f".toList)]
    ∃ builder inode attr, (PromiseBuilder.new 1).addNodes nodes = .ok builder ∧
      let found := lookupNames ((new.performAll [.op .registerProvider]).commitPromise builder).2
        caller fuseRootInode steps
      found.1 = .ok inode ∧ getattr found.2 caller inode = .ok attr ∧ attr.ino = inode ∧
        attr.size = 3 ∧ attr.perm.toNat = 0o644 ∧ attr.mtime = 5 ∧ attr.kind = .regularFile ∧
        openInode found.2 inode .rdonly = .ok ⟨inode, true⟩ := by
  intro caller nodes steps
  obtain ⟨builder, tree, hbuilder, hcommit⟩ : ∃ builder tree,
      (PromiseBuilder.new 1).addNodes nodes = .ok builder ∧
      ((new.performAll [.op .registerProvider]).commitPromise builder).1 = .ok tree :=
    ⟨_, _, rfl, rfl⟩
  have hid : tree.promiseId = "promise-1".toList := by
    rw [((commitPromise_spec _ builder).2 tree hcommit).2.1]
    decide
  have hnormal : NormalNames ["d".toList, "f".toList] := by
    intro name hmem
    rcases List.mem_pair.mp hmem with rfl | rfl
    · exact ⟨by decide, by decide, by decide, by decide, by decide⟩
    · exact ⟨by decide, by decide, by decide, by decide, by decide⟩
  have hspec : ⟨"d/f".toList, "n2".toList, .file, ⟨0o644, 3, 5⟩⟩ ∈ nodes := by simp [nodes]
  obtain ⟨inode, attr, hfound, hattr, hino, hsize, hperm, htime, hkind, hopen⟩ :=
    committed_node_is_shown hbuilder hcommit hspec hnormal rfl caller
      (show steps.map Prod.snd = _ by rw [hid]; rfl) []
  exact ⟨builder, inode, attr, hbuilder, hfound, hattr, hino, hsize, hperm, htime, hkind,
    (hopen .rdonly).mpr ⟨rfl, rfl⟩⟩

end FusePromise
