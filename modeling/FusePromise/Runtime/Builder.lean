import FusePromise.Runtime.Tree

/-!
# Runs of the builder

A client calls `add_dir` and `add_file` on one builder as often as it likes, and
goes on after a call that failed.  `call` is such a call on a builder that is
changed in place, with every assignment of the source where it happens; `addNode`
describes it (`addNodeInPlace_eq`), so a call that fails has assigned nothing.

The second part replays a builder.  The nodes of a finished builder, sent in the
order of their paths, can be added to a new one: a directory sorts before
everything below it, because its path is a proper prefix of theirs.
-/

namespace FusePromise

namespace PromiseBuilder

/-! ## Calls on a builder that is changed in place -/

/-- `add_node` as it runs, from its checks to its last assignment. -/
def addNodeInPlace (builder : PromiseBuilder) (relativePath : Text) (attr : NodeAttr)
    (providerNodeId : Text) (kind : NodeKind) : Result Unit × PromiseBuilder :=
  if providerNodeId = [] then (.error .invalidArgument, builder)
  else
    match validateAttr kind attr with
    | .error status => (.error status, builder)
    | .ok () =>
    match normalizeRelativePath relativePath with
    | .error status => (.error status, builder)
    | .ok path =>
    if path = [] then (.error .invalidArgument, builder)
    else if path ∈ builder.nodes then (.error .alreadyExists, builder)
    else
    match builder.nodes[parentPath path]? with
    | none => (.error .notFound, builder)
    | some parentNode =>
    if parentNode.kind ≠ .directory then (.error .invalidArgument, builder)
    else
      let nodeId := builder.nextNodeId
      let builder := { builder with nextNodeId := builder.nextNodeId + 1 }
      let inode := builder.nextInode
      let builder := { builder with nextInode := builder.nextInode + 1 }
      let node : PromiseNode :=
        { nodeId
          inode
          relativePath := path
          parentPath := some (parentPath path)
          name := leafName path
          providerNodeId
          materializedPath := none
          kind
          attr }
      let builder := { builder with nodes := builder.nodes.insert path node }
      let siblings := (builder.children[parentPath path]?).getD ∅
      let builder := { builder with
        children := builder.children.insert (parentPath path) (siblings.insert path) }
      let builder :=
        if kind = .directory then
          { builder with children := builder.children.insertIfNew path ∅ }
        else builder
      (.ok (), builder)

/-- `add_dir` or `add_file`, by the kind of the node. -/
def call (builder : PromiseBuilder) (node : PromiseNodeBody) : Result Unit × PromiseBuilder :=
  builder.addNodeInPlace node.relativePath node.attr node.providerNodeId node.kind

/-- The builder after some calls, whether they succeeded or failed. -/
def runCalls (builder : PromiseBuilder) (calls : List PromiseNodeBody) : PromiseBuilder :=
  calls.foldl (fun builder node => (builder.call node).2) builder

/-- A call does what `addNode` says, or fails and leaves the builder alone. -/
theorem addNodeInPlace_eq (builder : PromiseBuilder) (relativePath : Text) (attr : NodeAttr)
    (providerNodeId : Text) (kind : NodeKind) :
    builder.addNodeInPlace relativePath attr providerNodeId kind =
      match builder.addNode relativePath attr providerNodeId kind with
      | .ok next => (.ok (), next)
      | .error status => (.error status, builder) := by
  unfold addNodeInPlace addNode
  by_cases hid : providerNodeId = []
  · simp only [hid, if_true]
  simp only [hid, if_false]
  cases hattr : validateAttr kind attr with
  | error status => rfl
  | ok u =>
  cases hpath : normalizeRelativePath relativePath with
  | error status => rfl
  | ok path =>
  simp only [bind, Except.bind]
  by_cases hempty : path = []
  · simp only [hempty, if_true]
  simp only [hempty, if_false]
  by_cases hmem : path ∈ builder.nodes
  · simp only [hmem, if_true]
  simp only [hmem, if_false]
  cases hparent : builder.nodes[parentPath path]? with
  | none => rfl
  | some parentNode =>
  by_cases hkind : parentNode.kind = .directory
  · cases kind <;> simp [hkind, newNode, addChild]
  · simp only [ne_eq, hkind, not_false_eq_true, if_true]

theorem call_eq (builder : PromiseBuilder) (node : PromiseNodeBody) :
    builder.call node =
      match builder.addBody node with
      | .ok next => (.ok (), next)
      | .error status => (.error status, builder) := by
  rw [addBody_eq]
  exact builder.addNodeInPlace_eq _ _ _ _

/-- The calls that fail can be left out. -/
theorem exists_addNodes_eq_runCalls (builder : PromiseBuilder) (calls : List PromiseNodeBody) :
    ∃ nodes, builder.addNodes nodes = .ok (builder.runCalls calls) := by
  induction calls generalizing builder with
  | nil => exact ⟨[], rfl⟩
  | cons node rest ih =>
      have hcall := builder.call_eq node
      obtain ⟨nodes, hnodes⟩ := ih (builder.call node).2
      cases hadd : builder.addBody node with
      | error status =>
          simp only [hadd] at hcall
          refine ⟨nodes, ?_⟩
          rw [hcall] at hnodes
          simpa [runCalls, hcall] using hnodes
      | ok next =>
          simp only [hadd] at hcall
          refine ⟨node :: nodes, ?_⟩
          rw [hcall] at hnodes
          rw [addNodes, List.foldlM_cons, hadd, runCalls, List.foldl_cons, hcall]
          exact hnodes

theorem shape_runCalls (providerId : ProviderId) (calls : List PromiseNodeBody) :
    TreeShape ((new providerId).runCalls calls).nodes
      ((new providerId).runCalls calls).children := by
  obtain ⟨nodes, hnodes⟩ := (new providerId).exists_addNodes_eq_runCalls calls
  exact shape_addNodes (shape_new providerId) hnodes

end PromiseBuilder

/-! ## Splitting a path at its last separator -/

/-- The parent and the leaf name of a path are its parts around the last separator. -/
theorem split_at_last_separator (path : Text) :
    '/' ∉ leafName path ∧
      (if '/' ∈ path then path = parentPath path ++ '/' :: leafName path
      else parentPath path = [] ∧ leafName path = path) := by
  have hjoin : joinNames (segments path) = path := List.intercalate_splitOn '/'
  have hslash : ∀ segment ∈ segments path, '/' ∉ segment :=
    fun segment hmem => (mem_segments hmem).1
  rcases (segments path).eq_nil_or_concat with hnil | ⟨before, name, hconcat⟩
  · exact absurd hnil (List.splitOn_ne_nil '/' path)
  rw [List.concat_eq_append] at hconcat
  have hname : '/' ∉ name := hslash name (by simp [hconcat])
  rcases before.eq_nil_or_concat with rfl | ⟨init, last, rfl⟩
  · -- no separator: the path is its only segment
    have hsplit : rsplitOnce path = none := by simp [rsplitOnce, hconcat]
    have hpath : name = path := by
      rw [hconcat, List.nil_append, joinNames_singleton] at hjoin
      exact hjoin
    have hnone : '/' ∉ path := hpath ▸ hname
    simp [leafName, parentPath, hsplit, hnone]
  · have hsplit : rsplitOnce path = some (joinNames (init ++ [last]), name) := by
      simp [rsplitOnce, hconcat]
    have hpath : path = joinNames (init ++ [last]) ++ '/' :: name := by
      rw [List.concat_eq_append] at hconcat
      rw [← hjoin, hconcat, joinNames_concat (by simp)]
    have hsome : '/' ∈ path := by
      rw [hpath]
      simp
    simp only [leafName, parentPath, hsplit, hname, not_false_eq_true, true_and, hsome, if_true]
    exact hpath

/-! ## The tree a builder holds -/

namespace PromiseBuilder

/-- After any calls, failed ones included, the two maps of a builder describe one tree, and
a further call that fails leaves the builder as it is. -/
theorem runCalls_wellFormed (providerId : ProviderId) (calls : List PromiseNodeBody) :
    let builder := (new providerId).runCalls calls
    (∃ root, builder.nodes[([] : Text)]? = some root ∧ root.kind = .directory) ∧
    (∀ (path : Text) (node : PromiseNode), builder.nodes[path]? = some node →
      node.relativePath = path ∧ normalizeRelativePath path = .ok path ∧
        validateAttr node.kind node.attr = .ok ()) ∧
    (∀ (path : Text) (node : PromiseNode), builder.nodes[path]? = some node → path ≠ [] →
      ∃ parent name parentNode,
        '/' ∉ name ∧ path = (if '/' ∈ path then parent ++ '/' :: name else name) ∧
        ('/' ∉ path → parent = []) ∧
        node.parentPath = some parent ∧ node.name = name ∧
        builder.nodes[parent]? = some parentNode ∧ parentNode.kind = .directory) ∧
    (∀ path : Text, path ∈ builder.children ↔
      ∃ node, builder.nodes[path]? = some node ∧ node.kind = .directory) ∧
    (∀ (path : Text) (entries : BTreeSet Text), builder.children[path]? = some entries →
      ∀ child : Text, child ∈ entries ↔
        ∃ node, builder.nodes[child]? = some node ∧ node.parentPath = some path) ∧
    ∀ (node : PromiseNodeBody) (status : Status), (builder.call node).1 = .error status →
      (builder.call node).2 = builder := by
  intro builder
  have hshape : TreeShape builder.nodes builder.children := shape_runCalls providerId calls
  have hsplit : ∀ {path : Text} {node : PromiseNode}, builder.nodes[path]? = some node →
      path ≠ [] → ChildPath (parentPath path) path ∧ node.parentPath = some (parentPath path) ∧
        node.name = leafName path ∧
        ∃ parent, builder.nodes[parentPath path]? = some parent ∧ parent.kind = .directory := by
    intro path node hnode hne
    have hchild := childPath_parentPath (hshape.normalize (BTreeMap.mem_of_getElem? hnode)) hne
    obtain ⟨names, name, hnormal, hparent, hpath⟩ := hchild
    rw [hpath] at hnode
    obtain ⟨hname, hparentPath, hdir⟩ := hshape.parent hnormal hnode
    rw [hpath, leafName_joinNames hnormal, parentPath_joinNames hnormal]
    exact ⟨⟨names, name, hnormal, rfl, rfl⟩, hparentPath, hname, hdir⟩
  obtain ⟨root, hroot, hrootKind, htop⟩ := hshape.root
  refine ⟨⟨root, hroot, hrootKind⟩, ?_, ?_, fun path => hshape.listed, ?_, ?_⟩
  · intro path node hnode
    exact ⟨(hshape.path hnode).1, hshape.normalize (BTreeMap.mem_of_getElem? hnode),
      hshape.attr hnode⟩
  · intro path node hnode hne
    obtain ⟨-, hparentPath, hname, parentNode, hparent, hdir⟩ := hsplit hnode hne
    obtain ⟨hslash, hparts⟩ := split_at_last_separator path
    refine ⟨parentPath path, leafName path, parentNode, hslash, ?_, ?_, hparentPath, hname,
      hparent, hdir⟩
    · by_cases hsome : '/' ∈ path
      · rw [if_pos hsome] at hparts ⊢
        exact hparts
      · rw [if_neg hsome] at hparts ⊢
        exact hparts.2.symm
    · intro hnone
      rw [if_neg hnone] at hparts
      exact hparts.1
  · intro path entries hentries child
    rw [hshape.child hentries]
    constructor
    · rintro ⟨hchild, hmem⟩
      obtain ⟨node, hnode⟩ := Option.isSome_iff_exists.mp
        (Std.ExtTreeMap.mem_iff_isSome_getElem?.mp hmem)
      obtain ⟨-, hparentPath, -⟩ := hsplit hnode hchild.ne_nil
      exact ⟨node, hnode, by rw [hparentPath, hchild.eq_parentPath]⟩
    · rintro ⟨node, hnode, hparentPath⟩
      have hne : child ≠ [] := by
        -- the root is the only node without a parent
        rintro rfl
        obtain rfl : root = node := Option.some.inj (hroot.symm.trans hnode)
        rw [htop] at hparentPath
        simp at hparentPath
      obtain ⟨hchild, hsame, -⟩ := hsplit hnode hne
      obtain rfl : parentPath child = path := Option.some.inj (hsame.symm.trans hparentPath)
      exact ⟨hchild, BTreeMap.mem_of_getElem? hnode⟩
  · intro node status herror
    rw [call_eq] at herror ⊢
    cases hadd : builder.addBody node with
    | ok next => simp [hadd] at herror
    | error status => rfl

/-! ## Replaying the nodes of a builder -/

/-- The request entry of a node. -/
def nodeSpec (node : PromiseNode) : PromiseNodeBody where
  relativePath := node.relativePath
  providerNodeId := node.providerNodeId
  kind := node.kind
  attr := node.attr

/-- The nodes a commit request lists: all but the root, in the order of their paths. -/
def nodeSpecs (builder : PromiseBuilder) : List PromiseNodeBody :=
  (builder.nodes.valueList.filter fun node => node.relativePath ≠ []).map nodeSpec

/-- A request that is accepted names each path once, and what it adds is what it lists, under
the normal form of each path. -/
theorem addNodes_specs {builder next : PromiseBuilder} {nodes : List PromiseNodeBody}
    (h : builder.addNodes nodes = .ok next) :
    (nodes.map fun spec => normalizeRelativePath spec.relativePath).Nodup ∧
    (∀ spec ∈ nodes, ∃ path, normalizeRelativePath spec.relativePath = .ok path ∧ path ≠ [] ∧
      path ∉ builder.nodes) ∧
    (∀ (path : Text) (entry : PromiseNodeBody), (next.nodes[path]?).map nodeSpec = some entry ↔
      (builder.nodes[path]?).map nodeSpec = some entry ∨
        ∃ spec ∈ nodes, normalizeRelativePath spec.relativePath = .ok path ∧
          entry = { spec with relativePath := path }) ∧
    next.nodes.size = builder.nodes.size + nodes.length ∧
    next.providerId = builder.providerId := by
  induction nodes generalizing builder with
  | nil =>
      obtain rfl : builder = next := Except.ok.inj h
      simp
  | cons node rest ih =>
      rw [addNodes, List.foldlM_cons] at h
      obtain ⟨middle, hmiddle, hrest⟩ := bind_eq_ok.mp h
      rw [addBody_eq] at hmiddle
      obtain ⟨path, _, hpath, hne, -, hfresh, -, -, rfl⟩ := addNode_eq_ok hmiddle
      obtain ⟨hnodup, hnew, hspecs, hsize, hprovider⟩ := ih hrest
      have hget : ∀ other : Text, ((builder.nodes.insert path
          (builder.newNode path node.attr node.providerNodeId node.kind))[other]?).map nodeSpec =
            if path = other then some { node with relativePath := path }
            else (builder.nodes[other]?).map nodeSpec := by
        intro other
        simp only [Std.ExtTreeMap.getElem?_insert, Std.LawfulEqCmp.compare_eq_iff_eq]
        split <;> rfl
      refine ⟨?_, ?_, ?_, ?_, hprovider⟩
      · rw [List.map_cons, List.nodup_cons]
        refine ⟨?_, hnodup⟩
        -- a later node with the same path would have been refused
        intro hmem
        obtain ⟨spec, hspec, heq⟩ := List.mem_map.mp hmem
        obtain ⟨other, hother, -, hnot⟩ := hnew spec hspec
        rw [hother, hpath] at heq
        obtain rfl := Except.ok.inj heq
        exact hnot Std.ExtTreeMap.mem_insert_self
      · intro spec hspec
        rcases List.mem_cons.mp hspec with rfl | hspec
        · exact ⟨path, hpath, hne, hfresh⟩
        · obtain ⟨other, hother, hotherNe, hnot⟩ := hnew spec hspec
          exact ⟨other, hother, hotherNe,
            fun hmem => hnot (Std.ExtTreeMap.mem_insert.mpr (Or.inr hmem))⟩
      · intro other entry
        rw [hspecs, hget]
        by_cases hother : path = other
        · subst hother
          simp [Std.ExtTreeMap.getElem?_eq_none hfresh, hpath, eq_comm]
        · have hnot : normalizeRelativePath node.relativePath ≠ .ok other := by
            rw [hpath]
            exact fun heq => hother (Except.ok.inj heq)
          simp [hother, hnot]
      · rw [hsize, Std.ExtTreeMap.size_insert, if_neg (by simpa using hfresh), List.length_cons]
        omega

end PromiseBuilder

theorem compare_append_cons (path : Text) (c : Char) (rest : Text) :
    compare path (path ++ c :: rest) = .lt := by
  induction path with
  | nil => rfl
  | cons head tail ih =>
      rw [List.cons_append, List.compare_cons_cons, Std.ReflOrd.compare_self, Ordering.eq_then]
      exact ih

theorem compare_append_left (path first second : Text) :
    compare (path ++ first) (path ++ second) = compare first second := by
  induction path with
  | nil => rfl
  | cons head tail ih =>
      rw [List.cons_append, List.cons_append, List.compare_cons_cons, Std.ReflOrd.compare_self,
        Ordering.eq_then]
      exact ih

/-- The entries of a directory sort by their names. -/
theorem compare_joinNames_concat (names : List Text) (first second : Text) :
    compare (joinNames (names ++ [first])) (joinNames (names ++ [second])) =
      compare first second := by
  by_cases hnil : names = []
  · rw [hnil, List.nil_append, List.nil_append, joinNames_singleton, joinNames_singleton]
  · rw [joinNames_concat hnil, joinNames_concat hnil, compare_append_left, List.compare_cons_cons,
      Std.ReflOrd.compare_self, Ordering.eq_then]

/-- A directory sorts before its entries. -/
theorem ChildPath.compare_lt {parent child : Text} (h : ChildPath parent child) :
    compare parent child = .lt := by
  obtain ⟨names, name, hnormal, rfl, rfl⟩ := h
  by_cases hnil : names = []
  · subst hnil
    obtain ⟨c, rest, hname⟩ := List.exists_cons_of_ne_nil (hnormal name (by simp)).ne_nil
    rw [List.nil_append, joinNames_singleton, hname]
    rfl
  · rw [joinNames_concat hnil]
    exact compare_append_cons _ _ _

/-- The children of a tree are determined by its nodes. -/
theorem TreeShape.children_eq {nodes nodes' : BTreeMap Text PromiseNode}
    {children children' : BTreeMap Text (BTreeSet Text)} (h : TreeShape nodes children)
    (h' : TreeShape nodes' children')
    (hcore : ∀ path : Text, (nodes'[path]?).map PromiseNode.core =
      (nodes[path]?).map PromiseNode.core) : children' = children := by
  have hsame : TreeShape nodes' children := h.congr hcore
  apply Std.ExtTreeMap.ext_getElem?
  intro path
  have hlisted : path ∈ children' ↔ path ∈ children := h'.listed.trans hsame.listed.symm
  cases hfirst : children'[path]? with
  | none =>
      have hnot : path ∉ children := by
        rw [← hlisted, Std.ExtTreeMap.mem_iff_isSome_getElem?, hfirst]
        simp
      exact (Std.ExtTreeMap.getElem?_eq_none hnot).symm
  | some entries =>
      obtain ⟨entries', hsecond⟩ := Option.isSome_iff_exists.mp
        (Std.ExtTreeMap.mem_iff_isSome_getElem?.mp
          (hlisted.mp (BTreeMap.mem_of_getElem? hfirst)))
      rw [hsecond]
      congr 1
      apply Std.ExtTreeSet.ext_mem
      intro child
      rw [h'.child hfirst, hsame.child hsecond]

namespace PromiseBuilder

/-- Every node below the root was declared with a provider node id. -/
def Declared (builder : PromiseBuilder) : Prop :=
  ∀ (path : Text) (node : PromiseNode), builder.nodes[path]? = some node → path ≠ [] →
    node.providerNodeId ≠ []

theorem declared_new (providerId : ProviderId) : (new providerId).Declared := by
  intro path node hnode hne
  simp [new, Ne.symm hne] at hnode

theorem declared_addNode {builder next : PromiseBuilder} {relativePath : Text} {attr : NodeAttr}
    {providerNodeId : Text} {kind : NodeKind} (h : builder.Declared)
    (hnext : builder.addNode relativePath attr providerNodeId kind = .ok next) :
    next.Declared := by
  have hid : providerNodeId ≠ [] := by
    rintro rfl
    simp [addNode] at hnext
  obtain ⟨path, _, -, -, -, -, -, -, rfl⟩ := addNode_eq_ok hnext
  intro other node hnode hne
  simp only [Std.ExtTreeMap.getElem?_insert] at hnode
  split at hnode
  · obtain rfl := Option.some.inj hnode
    exact hid
  · exact h other node hnode hne

theorem declared_runCalls (providerId : ProviderId) (calls : List PromiseNodeBody) :
    ((new providerId).runCalls calls).Declared := by
  obtain ⟨nodes, hnodes⟩ := (new providerId).exists_addNodes_eq_runCalls calls
  exact addNodes_invariant declared_addNode (declared_new providerId) hnodes

/-- No call touches the root. -/
theorem root_addNodes {providerId : ProviderId} {nodes : List PromiseNodeBody}
    {builder : PromiseBuilder} (h : (new providerId).addNodes nodes = .ok builder) :
    builder.nodes[([] : Text)]? = some rootNode := by
  refine @addNodes_invariant (fun builder => builder.nodes[([] : Text)]? = some rootNode)
    ?_ _ _ _ (by simp [new]) h
  intro builder next relativePath attr providerNodeId kind hroot h
  obtain ⟨path, _, -, hne, -, -, -, -, rfl⟩ := addNode_eq_ok h
  simpa [Std.ExtTreeMap.getElem?_insert, hne] using hroot

theorem root_runCalls (providerId : ProviderId) (calls : List PromiseNodeBody) :
    ((new providerId).runCalls calls).nodes[([] : Text)]? = some rootNode := by
  obtain ⟨nodes, hnodes⟩ := (new providerId).exists_addNodes_eq_runCalls calls
  exact root_addNodes hnodes

/-- A node can be added again once its parent has been. -/
theorem addBody_nodeSpec {builder replica : PromiseBuilder}
    (hshape : TreeShape builder.nodes builder.children) (hdeclared : builder.Declared)
    {path : Text} {node parent : PromiseNode} (hnode : builder.nodes[path]? = some node)
    (hne : path ≠ []) (hfresh : path ∉ replica.nodes)
    (hparent : replica.nodes[parentPath path]? = some parent) (hdir : parent.kind = .directory) :
    ∃ next added, replica.addBody (nodeSpec node) = .ok next ∧ added.core = node.core ∧
      next.nodes = replica.nodes.insert path added := by
  obtain ⟨hpath, names, hnormal, rfl⟩ := hshape.path hnode
  rcases names.eq_nil_or_concat with rfl | ⟨init, name, rfl⟩
  · simp at hne
  rw [List.concat_eq_append] at *
  obtain ⟨hname, hparentPath, -⟩ := hshape.parent hnormal hnode
  have hid := hdeclared _ _ hnode hne
  have hadd : replica.addBody (nodeSpec node) = .ok { replica with
      nextNodeId := replica.nextNodeId + 1
      nextInode := replica.nextInode + 1
      nodes := replica.nodes.insert (joinNames (init ++ [name]))
        (replica.newNode (joinNames (init ++ [name])) node.attr node.providerNodeId node.kind)
      children := addChild replica.children (joinNames (init ++ [name])) node.kind } := by
    rw [addBody_eq]
    simp only [nodeSpec, addNode, hid, if_false, hshape.attr hnode, hpath,
      normalizeRelativePath_joinNames hnormal, bind, Except.bind, hne, hfresh, hparent, hdir,
      ne_eq, not_true_eq_false]
  refine ⟨_, _, hadd, ?_, rfl⟩
  simp only [PromiseNode.core, newNode, hpath, hname, hparentPath, parentPath_joinNames hnormal,
    leafName_joinNames hnormal]

/-- What is left of a replay, in path order, can be added to what was replayed before. -/
private theorem replay_rest {builder : PromiseBuilder}
    (hshape : TreeShape builder.nodes builder.children) (hdeclared : builder.Declared)
    (rest : List (Text × PromiseNode)) :
    ∀ {replica : PromiseBuilder},
      rest.Pairwise (fun first second => compare first.1 second.1 = .lt) →
      (∀ path node, (path, node) ∈ rest → path ≠ [] ∧ builder.nodes[path]? = some node) →
      (∀ path : Text, (replica.nodes[path]?).map PromiseNode.core =
        if path ∈ rest.map Prod.fst then none
        else (builder.nodes[path]?).map PromiseNode.core) →
      ∃ result, replica.addNodes (rest.map fun entry => nodeSpec entry.2) = .ok result ∧
        ∀ path : Text, (result.nodes[path]?).map PromiseNode.core =
          (builder.nodes[path]?).map PromiseNode.core := by
  induction rest with
  | nil => exact fun {replica} _ _ hdone => ⟨replica, rfl, by simpa using hdone⟩
  | cons entry rest ih =>
      obtain ⟨path, node⟩ := entry
      intro replica hsorted hrest hdone
      obtain ⟨hfirst, hsorted⟩ := List.pairwise_cons.mp hsorted
      obtain ⟨hne, hnode⟩ := hrest path node List.mem_cons_self
      have hlater : ∀ {other : Text}, other ∈ rest.map Prod.fst → compare path other = .lt := by
        intro other hmem
        obtain ⟨entry, hentry, rfl⟩ := List.mem_map.mp hmem
        exact hfirst entry hentry
      have hfresh : path ∉ replica.nodes := by
        have hnone := hdone path
        simp only [List.map_cons, List.mem_cons, true_or, if_true, Option.map_eq_none_iff] at hnone
        rw [Std.ExtTreeMap.mem_iff_isSome_getElem?, hnone]
        simp
      -- the parent sorts before the node, so it has been replayed
      obtain ⟨hchild, parent, hparent, hdir⟩ : ChildPath (parentPath path) path ∧
          ∃ parent, builder.nodes[parentPath path]? = some parent ∧ parent.kind = .directory := by
        have hchild := childPath_parentPath
          (hshape.normalize (BTreeMap.mem_of_getElem? hnode)) hne
        obtain ⟨names, name, hnormal, -, hpath⟩ := id hchild
        rw [hpath] at hnode
        obtain ⟨-, -, hparent⟩ := hshape.parent hnormal hnode
        rw [← parentPath_joinNames hnormal, ← hpath] at hparent
        exact ⟨hchild, hparent⟩
      have hbefore : parentPath path ∉ ((path, node) :: rest).map Prod.fst := by
        intro hmem
        rcases List.mem_cons.mp hmem with heq | hmem
        · exact absurd hchild.length_lt (by rw [heq]; exact lt_irrefl _)
        · exact Std.OrientedCmp.not_lt_of_lt hchild.compare_lt (hlater hmem)
      have hreplayed := hdone (parentPath path)
      rw [if_neg hbefore, hparent, Option.map_some] at hreplayed
      obtain ⟨parent', hparent', hcore⟩ := Option.map_eq_some_iff.mp hreplayed
      obtain ⟨-, -, -, -, hkind, -⟩ := PromiseNode.core_fields hcore
      obtain ⟨next, added, hnext, hadded, hnodes⟩ := addBody_nodeSpec hshape hdeclared hnode hne
        hfresh hparent' (hkind.trans hdir)
      have hnotLater : path ∉ rest.map Prod.fst := fun hmem => by
        have := hlater hmem
        rw [Std.ReflOrd.compare_self] at this
        simp at this
      have hdone' : ∀ other : Text, (next.nodes[other]?).map PromiseNode.core =
          if other ∈ rest.map Prod.fst then none
          else (builder.nodes[other]?).map PromiseNode.core := by
        intro other
        simp only [hnodes, Std.ExtTreeMap.getElem?_insert, Std.LawfulEqCmp.compare_eq_iff_eq]
        by_cases hother : path = other
        · subst hother
          rw [if_pos rfl, if_neg hnotLater, hnode, Option.map_some, Option.map_some, hadded]
        · rw [if_neg hother, hdone other]
          simp only [List.map_cons, List.mem_cons, Ne.symm hother, false_or]
      obtain ⟨result, hresult, hsame⟩ := ih hsorted
        (fun path node hmem => hrest path node (List.mem_cons_of_mem _ hmem)) hdone'
      refine ⟨result, ?_, hsame⟩
      rw [List.map_cons, addNodes, List.foldlM_cons, hnext]
      exact hresult

/-- The nodes of a builder can be added to a new one in path order, and give the same tree. -/
theorem addNodes_nodeSpecs {builder : PromiseBuilder}
    (hshape : TreeShape builder.nodes builder.children) (hdeclared : builder.Declared)
    (hroot : (builder.nodes[([] : Text)]?).map PromiseNode.core = some rootNode.core)
    (providerId : ProviderId) :
    ∃ result, (new providerId).addNodes builder.nodeSpecs = .ok result ∧
      (∀ path : Text, (result.nodes[path]?).map PromiseNode.core =
        (builder.nodes[path]?).map PromiseNode.core) ∧
      result.children = builder.children := by
  have hlisted : builder.nodeSpecs =
      (builder.nodes.toList.filter fun entry => entry.1 ≠ []).map fun entry =>
        nodeSpec entry.2 := by
    rw [nodeSpecs, BTreeMap.valueList, List.filter_map, List.map_map]
    congr 1
    apply List.filter_congr
    intro entry hmem
    have hnode := Std.ExtTreeMap.mem_toList_iff_getElem?_eq_some.mp hmem
    simp [(hshape.path hnode).1]
  have hmem : ∀ path node, (path, node) ∈ (builder.nodes.toList.filter fun entry => entry.1 ≠ []) ↔
      path ≠ [] ∧ builder.nodes[path]? = some node := by
    intro path node
    rw [List.mem_filter, Std.ExtTreeMap.mem_toList_iff_getElem?_eq_some, and_comm]
    simp
  -- a new builder holds the root, which is the only node that is not listed
  have hstart : ∀ path : Text, ((new providerId).nodes[path]?).map PromiseNode.core =
      if path ∈ (builder.nodes.toList.filter fun entry => entry.1 ≠ []).map Prod.fst then none
      else (builder.nodes[path]?).map PromiseNode.core := by
    intro path
    have hlist : path ∈ (builder.nodes.toList.filter fun entry => entry.1 ≠ []).map Prod.fst ↔
        path ≠ [] ∧ (builder.nodes[path]?).isSome := by
      simp only [List.mem_map, Prod.exists, exists_and_right, exists_eq_right, hmem,
        Option.isSome_iff_exists]
      constructor
      · rintro ⟨node, hne, hnode⟩
        exact ⟨hne, node, hnode⟩
      · rintro ⟨hne, node, hnode⟩
        exact ⟨node, hne, hnode⟩
    simp only [hlist]
    by_cases hnil : path = []
    · subst hnil
      simp [hroot, new]
    · cases hnode : builder.nodes[path]? with
      | none => simp [new, Ne.symm hnil]
      | some node => simp [new, hnil, Ne.symm hnil]
  obtain ⟨result, hresult, hnodes⟩ := replay_rest hshape hdeclared
    (builder.nodes.toList.filter fun entry => entry.1 ≠ [])
    (Std.ExtTreeMap.ordered_keys_toList.filter _)
    (fun path node hentry => (hmem path node).mp hentry) hstart
  refine ⟨result, hlisted ▸ hresult, hnodes, ?_⟩
  exact hshape.children_eq (shape_addNodes (shape_new providerId) hresult) hnodes

end PromiseBuilder

end FusePromise
