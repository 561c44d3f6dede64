import FusePromise.Runtime.Path

/-!
# Promise trees and their builder

`PromiseBuilder` collects the nodes of a promise and `PromiseTree` is the
committed result.  Both store the nodes by path and, for every directory, the
set of its child paths.  `TreeShape` is what the two maps always satisfy
together; it speaks about names, so that the parent of a node is the list of
names without its last one.

Node ids, inodes and materialized paths are rewritten after the tree is built.
`PromiseNode.core` blanks them, and the shape depends on nothing else.
-/

namespace FusePromise

/-! ## The builder -/

/-- A tree that is not committed yet.  The ids are its own until then. -/
structure PromiseBuilder where
  providerId : ProviderId
  nextNodeId : ℕ
  nextInode : ℕ
  nodes : BTreeMap Text PromiseNode
  children : BTreeMap Text (BTreeSet Text)

/-- A node of a commit request. -/
structure PromiseNodeBody where
  relativePath : Text
  providerNodeId : Text
  kind : NodeKind
  attr : NodeAttr
  deriving DecidableEq

/-- The mode has permission bits only, the date is not before the epoch, a directory has no size. -/
def validateAttr (kind : NodeKind) (attr : NodeAttr) : Result Unit :=
  if attr.mode &&& ~~~0o7777 ≠ 0 then .error .invalidArgument
  else if attr.mtimeNsec < 0 then .error .invalidArgument
  else if kind = .directory ∧ attr.size ≠ 0 then .error .invalidArgument
  else .ok ()

namespace PromiseBuilder

/-- The root every tree starts from. -/
def rootNode : PromiseNode where
  nodeId := 1
  inode := 1
  relativePath := []
  parentPath := none
  name := []
  providerNodeId := []
  materializedPath := none
  kind := .directory
  attr := ⟨0o755, 0, 0⟩

/-- A builder starts with the root. -/
def new (providerId : ProviderId) : PromiseBuilder where
  providerId := providerId
  nextNodeId := 2
  nextInode := 2
  nodes := (∅ : BTreeMap Text PromiseNode).insert [] rootNode
  children := (∅ : BTreeMap Text (BTreeSet Text)).insert [] ∅

/-- The node `addNode` stores at a path it has accepted. -/
def newNode (builder : PromiseBuilder) (path : Text) (attr : NodeAttr) (providerNodeId : Text)
    (kind : NodeKind) : PromiseNode where
  nodeId := builder.nextNodeId
  inode := builder.nextInode
  relativePath := path
  parentPath := some (parentPath path)
  name := leafName path
  providerNodeId := providerNodeId
  materializedPath := none
  kind := kind
  attr := attr

/-- The children map after a node was added under its parent. -/
def addChild (children : BTreeMap Text (BTreeSet Text)) (path : Text) (kind : NodeKind) :
    BTreeMap Text (BTreeSet Text) :=
  let parent := parentPath path
  let listed := children.insert parent (((children[parent]?).getD ∅).insert path)
  if kind = .directory then listed.insertIfNew path ∅ else listed

/-- Everything is checked before the node is added: its id, its attributes, its path, that the path
is free, and that the parent is a directory. -/
def addNode (builder : PromiseBuilder) (relativePath : Text) (attr : NodeAttr)
    (providerNodeId : Text) (kind : NodeKind) : Result PromiseBuilder :=
  if providerNodeId = [] then .error .invalidArgument
  else do
    validateAttr kind attr
    let path ← normalizeRelativePath relativePath
    if path = [] then .error .invalidArgument
    else if path ∈ builder.nodes then .error .alreadyExists
    else
      match builder.nodes[parentPath path]? with
      | none => .error .notFound
      | some parentNode =>
          if parentNode.kind ≠ .directory then .error .invalidArgument
          else
            .ok { builder with
              nextNodeId := builder.nextNodeId + 1
              nextInode := builder.nextInode + 1
              nodes := builder.nodes.insert path
                (builder.newNode path attr providerNodeId kind)
              children := addChild builder.children path kind }

def addDir (builder : PromiseBuilder) (relativePath : Text) (attr : NodeAttr)
    (providerNodeId : Text) : Result PromiseBuilder :=
  builder.addNode relativePath attr providerNodeId .directory

def addFile (builder : PromiseBuilder) (relativePath : Text) (attr : NodeAttr)
    (providerNodeId : Text) : Result PromiseBuilder :=
  builder.addNode relativePath attr providerNodeId .file

def addBody (builder : PromiseBuilder) (node : PromiseNodeBody) : Result PromiseBuilder :=
  match node.kind with
  | .file => builder.addFile node.relativePath node.attr node.providerNodeId
  | .directory => builder.addDir node.relativePath node.attr node.providerNodeId

/-- The loop of a commit request over its nodes. -/
def addNodes (builder : PromiseBuilder) (nodes : List PromiseNodeBody) : Result PromiseBuilder :=
  nodes.foldlM addBody builder

/-- The tree of a builder, under the name it gets. -/
def finish (builder : PromiseBuilder) (promiseId : Text) : PromiseTree where
  promiseId := promiseId
  providerId := builder.providerId
  state := .available
  nodes := builder.nodes
  children := builder.children

end PromiseBuilder

/-! ## Trees -/

namespace PromiseTree

/-- The node at a path, in any spelling. -/
def get (tree : PromiseTree) (relativePath : Text) : Option PromiseNode :=
  match normalizeRelativePath relativePath with
  | .ok path => tree.nodes[path]?
  | .error _ => none

/-- The nodes at and below a path, a directory before its children.  A child's
path is longer than its parent's, so the longest path bounds the depth. -/
def collectSubtreeNodes (tree : PromiseTree) : ℕ → Text → Result (List PromiseNode)
  | 0, _ => .error .io
  | fuel + 1, relativePath => do
      let node ← okOr tree.nodes[relativePath]? .notFound
      if node.kind = .directory then
        let children ← okOr tree.children[relativePath]? .notFound
        let below ← children.toList.mapM (collectSubtreeNodes tree fuel)
        return node :: below.flatten
      else
        return [node]

/-- The length of the longest path of the tree. -/
def maxPathLength (tree : PromiseTree) : ℕ :=
  (tree.nodes.keys.map List.length).foldl max 0

/-- The nodes at and below a path, each before what is below it. -/
def subtreeNodes (tree : PromiseTree) (relativePath : Text) : Result (List PromiseNode) := do
  let rootPath ← normalizeRelativePath relativePath
  if rootPath ∈ tree.nodes then tree.collectSubtreeNodes (tree.maxPathLength + 1) rootPath
  else .error .notFound

end PromiseTree

/-! ## The shape of a tree -/

/-- What a node was declared as: the fields that never change after it is added. -/
def PromiseNode.core (node : PromiseNode) : PromiseNode :=
  { node with nodeId := 0, inode := 0, materializedPath := none }

theorem PromiseNode.core_fields {first second : PromiseNode} (h : first.core = second.core) :
    first.relativePath = second.relativePath ∧ first.parentPath = second.parentPath ∧
      first.name = second.name ∧ first.providerNodeId = second.providerNodeId ∧
      first.kind = second.kind ∧ first.attr = second.attr := by
  simpa [core] using h

/-- `child` is the path of an entry of the directory at `parent`. -/
def ChildPath (parent child : Text) : Prop :=
  ∃ names name, NormalNames (names ++ [name]) ∧ parent = joinNames names ∧
    child = joinNames (names ++ [name])

/-- What the two maps of a tree satisfy together. -/
structure TreeShape (nodes : BTreeMap Text PromiseNode)
    (children : BTreeMap Text (BTreeSet Text)) : Prop where
  root : ∃ node, nodes[([] : Text)]? = some node ∧ node.kind = .directory ∧
    node.parentPath = none
  path : ∀ {path : Text} {node : PromiseNode}, nodes[path]? = some node →
    node.relativePath = path ∧ ∃ names, NormalNames names ∧ path = joinNames names
  parent : ∀ {names : List Text} {name : Text} {node : PromiseNode},
    NormalNames (names ++ [name]) → nodes[joinNames (names ++ [name])]? = some node →
      node.name = name ∧ node.parentPath = some (joinNames names) ∧
        ∃ parent, nodes[joinNames names]? = some parent ∧ parent.kind = .directory
  listed : ∀ {path : Text}, path ∈ children ↔
    ∃ node, nodes[path]? = some node ∧ node.kind = .directory
  child : ∀ {path : Text} {set : BTreeSet Text}, children[path]? = some set →
    ∀ {child : Text}, child ∈ set ↔ ChildPath path child ∧ child ∈ nodes
  attr : ∀ {path : Text} {node : PromiseNode}, nodes[path]? = some node →
    validateAttr node.kind node.attr = .ok ()

/-- The names of a child path determine its parent. -/
theorem ChildPath.eq_parentPath {parent child : Text} (h : ChildPath parent child) :
    parent = parentPath child := by
  obtain ⟨names, name, hnormal, rfl, rfl⟩ := h
  rw [parentPath_joinNames hnormal]

theorem ChildPath.ne_nil {parent child : Text} (h : ChildPath parent child) : child ≠ [] := by
  obtain ⟨names, name, hnormal, rfl, rfl⟩ := h
  exact joinNames_ne_nil hnormal (by simp)

theorem ChildPath.length_lt {parent child : Text} (h : ChildPath parent child) :
    parent.length < child.length := by
  obtain ⟨names, name, hnormal, rfl, rfl⟩ := h
  have hname := List.length_pos_iff.mpr (hnormal name (by simp)).ne_nil
  rw [joinNames_append_singleton hnormal.of_append_left]
  unfold childPath
  split
  · simp_all
  · simp only [List.length_append, List.length_cons]
    omega

/-- A normalized non-empty path is a child of its parent path. -/
theorem childPath_parentPath {input path : Text} (h : normalizeRelativePath input = .ok path)
    (hne : path ≠ []) : ChildPath (parentPath path) path := by
  obtain ⟨hnormal, rfl⟩ := normalizeRelativePath_ok h
  rcases (pathNames input).eq_nil_or_concat with hnil | ⟨names, name, hconcat⟩
  · simp [hnil] at hne
  · rw [List.concat_eq_append] at hconcat
    rw [hconcat] at hnormal ⊢
    exact ⟨names, name, hnormal, parentPath_joinNames hnormal, rfl⟩

namespace TreeShape

variable {nodes : BTreeMap Text PromiseNode} {children : BTreeMap Text (BTreeSet Text)}

/-- The shape only depends on what the nodes were declared as. -/
theorem congr (h : TreeShape nodes children) {nodes' : BTreeMap Text PromiseNode}
    (hcore : ∀ path : Text, (nodes'[path]?).map PromiseNode.core =
      (nodes[path]?).map PromiseNode.core) : TreeShape nodes' children := by
  have hback : ∀ {path : Text} {node' : PromiseNode}, nodes'[path]? = some node' →
      ∃ node, nodes[path]? = some node ∧ node'.core = node.core := by
    intro path node' hnode'
    have := hcore path
    rw [hnode', Option.map_some] at this
    obtain ⟨node, hnode, heq⟩ := Option.map_eq_some_iff.mp this.symm
    exact ⟨node, hnode, heq.symm⟩
  have hforth : ∀ {path : Text} {node : PromiseNode}, nodes[path]? = some node →
      ∃ node', nodes'[path]? = some node' ∧ node'.core = node.core := by
    intro path node hnode
    have := hcore path
    rw [hnode, Option.map_some] at this
    exact Option.map_eq_some_iff.mp this
  have hmem : ∀ {path : Text}, path ∈ nodes' ↔ path ∈ nodes := by
    intro path
    rw [Std.ExtTreeMap.mem_iff_isSome_getElem?, Std.ExtTreeMap.mem_iff_isSome_getElem?,
      ← Option.isSome_map (f := PromiseNode.core), hcore, Option.isSome_map]
  -- each field is carried over through the node at the same path
  refine ⟨?_, ?_, ?_, ?_, ?_, ?_⟩
  · obtain ⟨node, hnode, hkind, htop⟩ := h.root
    obtain ⟨node', hnode', heq⟩ := hforth hnode
    obtain ⟨-, hsameParent, -, -, hsame, -⟩ := PromiseNode.core_fields heq
    exact ⟨node', hnode', hsame.trans hkind, hsameParent.trans htop⟩
  · intro path node' hnode'
    obtain ⟨node, hnode, heq⟩ := hback hnode'
    obtain ⟨hpath, hnames⟩ := h.path hnode
    exact ⟨(PromiseNode.core_fields heq).1.trans hpath, hnames⟩
  · intro names name node' hnormal hnode'
    obtain ⟨node, hnode, heq⟩ := hback hnode'
    obtain ⟨-, hsameParent, hsameName, -, -, -⟩ := PromiseNode.core_fields heq
    obtain ⟨hname, hparentPath, parent, hparent, hkind⟩ := h.parent hnormal hnode
    obtain ⟨parent', hparent', heq'⟩ := hforth hparent
    obtain ⟨-, -, -, -, hsameKind, -⟩ := PromiseNode.core_fields heq'
    exact ⟨hsameName.trans hname, hsameParent.trans hparentPath, parent', hparent',
      hsameKind.trans hkind⟩
  · intro path
    rw [h.listed]
    constructor
    · rintro ⟨node, hnode, hkind⟩
      obtain ⟨node', hnode', heq⟩ := hforth hnode
      obtain ⟨-, -, -, -, hsame, -⟩ := PromiseNode.core_fields heq
      exact ⟨node', hnode', hsame.trans hkind⟩
    · rintro ⟨node', hnode', hkind⟩
      obtain ⟨node, hnode, heq⟩ := hback hnode'
      obtain ⟨-, -, -, -, hsame, -⟩ := PromiseNode.core_fields heq
      exact ⟨node, hnode, hsame.symm.trans hkind⟩
  · intro path set hset child
    rw [h.child hset, hmem]
  · intro path node' hnode'
    obtain ⟨node, hnode, heq⟩ := hback hnode'
    obtain ⟨-, -, -, -, hkind, hattr⟩ := PromiseNode.core_fields heq
    rw [hkind, hattr]
    exact h.attr hnode

/-- The paths of a tree are in normal form. -/
theorem normalize (h : TreeShape nodes children) {path : Text} (hmem : path ∈ nodes) :
    normalizeRelativePath path = .ok path := by
  obtain ⟨node, hnode⟩ := Option.isSome_iff_exists.mp
    (Std.ExtTreeMap.mem_iff_isSome_getElem?.mp hmem)
  obtain ⟨-, names, hnormal, rfl⟩ := h.path hnode
  exact normalizeRelativePath_joinNames hnormal

/-- A lookup through any spelling of a path returns the node stored at its
normal form. -/
theorem get_eq_some {tree : PromiseTree} (h : TreeShape tree.nodes tree.children)
    {relativePath : Text} {node : PromiseNode} (hget : tree.get relativePath = some node) :
    normalizeRelativePath relativePath = .ok node.relativePath ∧
      tree.nodes[node.relativePath]? = some node := by
  unfold PromiseTree.get at hget
  split at hget
  · rename_i path hpath
    rw [(h.path hget).1]
    exact ⟨hpath, hget⟩
  · simp at hget

end TreeShape

/-! ## The builder keeps the shape -/

namespace PromiseBuilder

theorem shape_new (providerId : ProviderId) :
    TreeShape (new providerId).nodes (new providerId).children := by
  -- the root is the only node
  have hget : ∀ path : Text, (new providerId).nodes[path]? =
      if [] = path then some rootNode else none := by
    intro path
    simp [new, Std.ExtTreeMap.getElem?_insert]
  have hnode : ∀ {path : Text} {node : PromiseNode}, (new providerId).nodes[path]? = some node →
      path = [] ∧ node = rootNode := by
    intro path node h
    rw [hget] at h
    split at h
    · rename_i hnil
      exact ⟨hnil.symm, (Option.some.inj h).symm⟩
    · simp at h
  have hmem : ∀ {path : Text}, path ∈ (new providerId).nodes ↔ path = [] := by
    intro path
    rw [Std.ExtTreeMap.mem_iff_isSome_getElem?, hget]
    by_cases hnil : path = [] <;> simp [hnil, eq_comm]
  refine ⟨⟨rootNode, by simp [hget], rfl, rfl⟩, ?_, ?_, ?_, ?_, ?_⟩
  · intro path node h
    obtain ⟨rfl, rfl⟩ := hnode h
    exact ⟨rfl, [], NormalNames.nil, rfl⟩
  · intro names name node hnormal h
    exact absurd (hnode h).1 (joinNames_ne_nil hnormal (by simp))
  · intro path
    constructor
    · intro h
      have hnil : [] = path := by simpa [new] using h
      exact ⟨rootNode, by simp [hget, ← hnil], rfl⟩
    · rintro ⟨node, h, -⟩
      simp [new, (hnode h).1]
  · intro path set h child
    have hset : set = ∅ := by
      simp only [new, Std.ExtTreeMap.getElem?_insert] at h
      split at h
      · exact (Option.some.inj h).symm
      · simp at h
    rw [hset, hmem]
    constructor
    · intro hempty
      simp at hempty
    · rintro ⟨hchild, hnil⟩
      exact absurd hnil hchild.ne_nil
  · intro path node h
    obtain ⟨-, rfl⟩ := hnode h
    decide

/-- What `addNode` has checked when it succeeds, and what it then does. -/
theorem addNode_eq_ok {builder next : PromiseBuilder} {relativePath : Text} {attr : NodeAttr}
    {providerNodeId : Text} {kind : NodeKind}
    (h : builder.addNode relativePath attr providerNodeId kind = .ok next) :
    ∃ path parentNode, normalizeRelativePath relativePath = .ok path ∧ path ≠ [] ∧
      validateAttr kind attr = .ok () ∧ path ∉ builder.nodes ∧
      builder.nodes[parentPath path]? = some parentNode ∧ parentNode.kind = .directory ∧
      next = { builder with
        nextNodeId := builder.nextNodeId + 1
        nextInode := builder.nextInode + 1
        nodes := builder.nodes.insert path (builder.newNode path attr providerNodeId kind)
        children := addChild builder.children path kind } := by
  unfold addNode at h
  split at h
  · simp at h
  obtain ⟨_, hattr, h⟩ := bind_eq_ok.mp h
  obtain ⟨path, hpath, h⟩ := bind_eq_ok.mp h
  split at h
  · simp at h
  rename_i hne
  split at h
  · simp at h
  rename_i hfresh
  split at h
  · simp at h
  rename_i parentNode hparent
  split at h
  · simp at h
  rename_i hkind
  exact ⟨path, parentNode, hpath, hne, hattr, hfresh, hparent, not_not.mp hkind,
    (Except.ok.inj h).symm⟩

private theorem getElem?_addChild (children : BTreeMap Text (BTreeSet Text)) (path : Text)
    (kind : NodeKind) (hne : parentPath path ≠ path) (other : Text) :
    (addChild children path kind)[other]? =
      if parentPath path = other then some (((children[parentPath path]?).getD ∅).insert path)
      else if path = other ∧ kind = .directory then some ((children[path]?).getD ∅)
      else children[other]? := by
  unfold addChild
  by_cases hkind : kind = .directory
  · simp only [if_pos hkind, Std.ExtTreeMap.getElem?_insertIfNew, Std.ExtTreeMap.getElem?_insert,
      Std.LawfulEqCmp.compare_eq_iff_eq, Std.ExtTreeMap.mem_insert]
    by_cases hother : path = other
    · subst hother
      by_cases hmem : path ∈ children
      · simp [hne, hmem, hkind]
      · simp [hne, hmem, hkind]
    · simp [hother]
  · simp [hkind, Std.ExtTreeMap.getElem?_insert]

/-- Adding a node keeps the shape. -/
theorem shape_addNode {builder next : PromiseBuilder} {relativePath : Text} {attr : NodeAttr}
    {providerNodeId : Text} {kind : NodeKind} (hshape : TreeShape builder.nodes builder.children)
    (h : builder.addNode relativePath attr providerNodeId kind = .ok next) :
    TreeShape next.nodes next.children := by
  obtain ⟨path, parentNode, hpath, hne, hattr, hfresh, hparent, hkind, rfl⟩ := addNode_eq_ok h
  have hchild := childPath_parentPath hpath hne
  have hparentNe : parentPath path ≠ path := by
    intro heq
    have := hchild.length_lt
    rw [heq] at this
    omega
  obtain ⟨oldSet, hold⟩ : ∃ set, builder.children[parentPath path]? = some set := by
    rw [← Option.isSome_iff_exists, ← Std.ExtTreeMap.mem_iff_isSome_getElem?, hshape.listed]
    exact ⟨parentNode, hparent, hkind⟩
  have hnotListed : path ∉ builder.children := by
    rw [hshape.listed]
    rintro ⟨node, hnode, -⟩
    exact hfresh (BTreeMap.mem_of_getElem? hnode)
  have hget : ∀ other : Text,
      (builder.nodes.insert path (builder.newNode path attr providerNodeId kind))[other]? =
        if path = other then some (builder.newNode path attr providerNodeId kind)
        else builder.nodes[other]? := by
    intro other
    simp [Std.ExtTreeMap.getElem?_insert]
  have hkeep : ∀ {other : Text} {node : PromiseNode}, builder.nodes[other]? = some node →
      (builder.nodes.insert path
        (builder.newNode path attr providerNodeId kind))[other]? = some node := by
    intro other node hnode
    rw [hget, if_neg, hnode]
    rintro rfl
    exact hfresh (BTreeMap.mem_of_getElem? hnode)
  have hchildren := getElem?_addChild builder.children path kind hparentNe
  refine ⟨?_, ?_, ?_, ?_, ?_, ?_⟩
  · obtain ⟨node, hnode, hroot⟩ := hshape.root
    exact ⟨node, hkeep hnode, hroot⟩
  · -- every node has its own path
    intro other node hnode
    rw [hget] at hnode
    split at hnode
    · rename_i heq
      obtain rfl := Option.some.inj hnode
      obtain ⟨names, name, hnormal, -, hnames⟩ := hchild
      exact ⟨heq, names ++ [name], hnormal, heq ▸ hnames⟩
    · exact hshape.path hnode
  · -- every node has a parent: the new one that of the request, the others theirs
    intro names name node hnormal hnode
    rw [hget] at hnode
    split at hnode
    · rename_i heq
      obtain rfl := Option.some.inj hnode
      have hparentPath : parentPath path = joinNames names := by
        rw [heq, parentPath_joinNames hnormal]
      refine ⟨?_, ?_, parentNode, ?_, hkind⟩
      · rw [newNode, heq, leafName_joinNames hnormal]
      · rw [newNode, hparentPath]
      · rw [← hparentPath]
        exact hkeep hparent
    · obtain ⟨hname, hparentPath, parent, hparent, hkind⟩ := hshape.parent hnormal hnode
      exact ⟨hname, hparentPath, parent, hkeep hparent, hkind⟩
  · -- a list of children for every directory: the parent had one, a new directory gets one
    intro other
    rw [Std.ExtTreeMap.mem_iff_isSome_getElem?, hchildren, hget]
    by_cases hother : parentPath path = other
    · subst hother
      simp [Ne.symm hparentNe, hparent, hkind]
    · by_cases hself : path = other
      · subst hself
        by_cases hdir : kind = .directory <;> simp [hother, hdir, newNode, hnotListed]
      · simp only [hother, hself, false_and, if_false]
        rw [← Std.ExtTreeMap.mem_iff_isSome_getElem?, hshape.listed]
  · -- the lists have the children: only the lists of the parent and of the node itself are new
    intro other set hset child
    rw [hchildren] at hset
    rw [Std.ExtTreeMap.mem_insert, Std.LawfulEqCmp.compare_eq_iff_eq]
    split at hset
    · rename_i heq
      subst heq
      obtain rfl := Option.some.inj hset
      rw [hold, Option.getD_some, Std.ExtTreeSet.mem_insert,
        Std.LawfulEqCmp.compare_eq_iff_eq, hshape.child hold]
      constructor
      · rintro (rfl | ⟨hchildPath, hmem⟩)
        · exact ⟨hchild, Or.inl rfl⟩
        · exact ⟨hchildPath, Or.inr hmem⟩
      · rintro ⟨hchildPath, heq | hmem⟩
        · exact Or.inl heq
        · exact Or.inr ⟨hchildPath, hmem⟩
    · rename_i hother
      split at hset
      · rename_i hself
        obtain ⟨rfl, -⟩ := hself
        rw [Std.ExtTreeMap.getElem?_eq_none hnotListed] at hset
        obtain rfl := Option.some.inj hset
        -- the list of a new directory is empty, and nothing can be below it yet
        constructor
        · intro hempty
          simp at hempty
        · rintro ⟨hchildPath, heq | hmem⟩
          · have := hchildPath.length_lt
            rw [heq] at this
            omega
          · -- a child that is already there has a parent that is already there
            obtain ⟨names, name, hnormal, hparentEq, rfl⟩ := hchildPath
            obtain ⟨node, hnode⟩ := Option.isSome_iff_exists.mp
              (Std.ExtTreeMap.mem_iff_isSome_getElem?.mp hmem)
            obtain ⟨-, -, parent, hparent, -⟩ := hshape.parent hnormal hnode
            rw [← hparentEq] at hparent
            exact absurd (BTreeMap.mem_of_getElem? hparent) hfresh
      · rw [hshape.child hset]
        constructor
        · rintro ⟨hchildPath, hmem⟩
          exact ⟨hchildPath, Or.inr hmem⟩
        · rintro ⟨hchildPath, heq | hmem⟩
          · exact absurd (heq ▸ hchildPath.eq_parentPath).symm hother
          · exact ⟨hchildPath, hmem⟩
  · intro other node hnode
    rw [hget] at hnode
    split at hnode
    · obtain rfl := Option.some.inj hnode
      exact hattr
    · exact hshape.attr hnode

/-- Adding a node of a request is one of the two calls. -/
theorem addBody_eq (builder : PromiseBuilder) (node : PromiseNodeBody) :
    builder.addBody node =
      builder.addNode node.relativePath node.attr node.providerNodeId node.kind := by
  unfold addBody addFile addDir
  cases node.kind <;> rfl

/-- What every added node keeps holds after the whole loop of a request. -/
theorem addNodes_invariant {inv : PromiseBuilder → Prop}
    (hstep : ∀ {builder next : PromiseBuilder} {relativePath : Text} {attr : NodeAttr}
      {providerNodeId : Text} {kind : NodeKind}, inv builder →
      builder.addNode relativePath attr providerNodeId kind = .ok next → inv next)
    {builder next : PromiseBuilder} {nodes : List PromiseNodeBody} (hstart : inv builder)
    (h : builder.addNodes nodes = .ok next) : inv next := by
  induction nodes generalizing builder with
  | nil =>
      obtain rfl : builder = next := Except.ok.inj h
      exact hstart
  | cons node rest ih =>
      rw [addNodes, List.foldlM_cons] at h
      obtain ⟨middle, hmiddle, hrest⟩ := bind_eq_ok.mp h
      rw [addBody_eq] at hmiddle
      exact ih (hstep hstart hmiddle) hrest

theorem shape_addNodes {builder next : PromiseBuilder} {nodes : List PromiseNodeBody}
    (hshape : TreeShape builder.nodes builder.children)
    (h : builder.addNodes nodes = .ok next) : TreeShape next.nodes next.children :=
  @addNodes_invariant (fun builder => TreeShape builder.nodes builder.children)
    shape_addNode _ _ _ hshape h

/-- A builder has materialized nothing. -/
def Unmaterialized (builder : PromiseBuilder) : Prop :=
  ∀ {path : Text} {node : PromiseNode}, builder.nodes[path]? = some node →
    node.materializedPath = none

theorem unmaterialized_new (providerId : ProviderId) : (new providerId).Unmaterialized := by
  intro path node h
  simp only [new, Std.ExtTreeMap.getElem?_insert] at h
  split at h
  · obtain rfl := Option.some.inj h
    rfl
  · simp at h

theorem unmaterialized_addNode {builder next : PromiseBuilder} {relativePath : Text}
    {attr : NodeAttr} {providerNodeId : Text} {kind : NodeKind} (hnone : builder.Unmaterialized)
    (h : builder.addNode relativePath attr providerNodeId kind = .ok next) :
    next.Unmaterialized := by
  obtain ⟨path, _, -, -, -, -, -, -, rfl⟩ := addNode_eq_ok h
  intro other stored hstored
  simp only [Std.ExtTreeMap.getElem?_insert] at hstored
  split at hstored
  · obtain rfl := Option.some.inj hstored
    rfl
  · exact hnone hstored

theorem unmaterialized_addNodes {builder next : PromiseBuilder} {nodes : List PromiseNodeBody}
    (hnone : builder.Unmaterialized) (h : builder.addNodes nodes = .ok next) :
    next.Unmaterialized :=
  addNodes_invariant (@unmaterialized_addNode) hnone h

end PromiseBuilder

end FusePromise
