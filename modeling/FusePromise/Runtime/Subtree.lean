import FusePromise.Runtime.Tree

/-!
# The nodes below a path

`subtreeNodes` walks a tree from one of its paths and lists what it meets, a
directory before its entries.  On a tree of the builder's shape the walk always
ends, and its listing is described without the recursion: the nodes stored at
the path or below it, each once, and none before a directory that holds it.
-/

namespace FusePromise

namespace PromiseTree

variable {tree : PromiseTree}

/-- The node is stored at the path the names spell, or below it. -/
def AtOrBelow (tree : PromiseTree) (names : List Text) (node : PromiseNode) : Prop :=
  ∃ below, NormalNames (names ++ below) ∧ tree.nodes[joinNames (names ++ below)]? = some node

/-- A listing of the nodes at and below a path in which no node is followed by
itself or by a directory it lies in. -/
structure Preorder (tree : PromiseTree) (names : List Text) (nodes : List PromiseNode) :
    Prop where
  mem_iff : ∀ {node : PromiseNode}, node ∈ nodes ↔ tree.AtOrBelow names node
  ordered : nodes.Pairwise fun first second =>
    ¬ splitNames second.relativePath <+: splitNames first.relativePath

theorem AtOrBelow.self {names : List Text} {node : PromiseNode} (hnormal : NormalNames names)
    (hnode : tree.nodes[joinNames names]? = some node) : tree.AtOrBelow names node :=
  ⟨[], by simpa using hnormal, by simpa using hnode⟩

theorem AtOrBelow.of_append {names below : List Text} {node : PromiseNode}
    (h : tree.AtOrBelow (names ++ below) node) : tree.AtOrBelow names node := by
  obtain ⟨rest, hnormal, hnode⟩ := h
  rw [List.append_assoc] at hnormal hnode
  exact ⟨below ++ rest, hnormal, hnode⟩

/-- One turn of the walk. -/
theorem collectSubtreeNodes_succ {fuel : ℕ} {path : Text} {nodes : List PromiseNode} :
    tree.collectSubtreeNodes (fuel + 1) path = .ok nodes ↔
      ∃ node, tree.nodes[path]? = some node ∧
        if node.kind = .directory then
          ∃ children below, tree.children[path]? = some children ∧
            children.toList.mapM (tree.collectSubtreeNodes fuel) = .ok below ∧
            nodes = node :: below.flatten
        else nodes = [node] := by
  rw [collectSubtreeNodes, bind_eq_ok]
  refine exists_congr fun node => ?_
  rw [okOr_eq_ok]
  refine and_congr_right fun _ => ?_
  split
  · rw [bind_eq_ok]
    refine exists_congr fun children => ?_
    rw [okOr_eq_ok, bind_eq_ok]
    constructor
    · rintro ⟨hchildren, below, hbelow, h⟩
      exact ⟨below, hchildren, hbelow, (Except.ok.inj h).symm⟩
    · rintro ⟨below, hchildren, hbelow, rfl⟩
      exact ⟨hchildren, below, hbelow, rfl⟩
  · exact ⟨fun h => (Except.ok.inj h).symm, fun h => h ▸ rfl⟩

theorem length_le_maxPathLength {path : Text} (hmem : path ∈ tree.nodes) :
    path.length ≤ tree.maxPathLength := by
  have hbound : ∀ (lengths : List ℕ) (start : ℕ),
      start ≤ lengths.foldl max start ∧ ∀ n ∈ lengths, n ≤ lengths.foldl max start := by
    intro lengths
    induction lengths with
    | nil => simp
    | cons m lengths ih =>
        intro start
        obtain ⟨hstart, hrest⟩ := ih (max start m)
        refine ⟨(le_max_left _ _).trans hstart, fun n hn => ?_⟩
        rcases List.mem_cons.mp hn with rfl | hn
        · exact (le_max_right _ _).trans hstart
        · exact hrest n hn
  refine (hbound _ 0).2 _ (List.mem_map.mpr ⟨path, ?_, rfl⟩)
  exact Std.ExtTreeMap.mem_keys.mpr hmem

end PromiseTree

namespace TreeShape

open PromiseTree

variable {tree : PromiseTree}

/-- The path of a node below a path starts with its names. -/
theorem isPrefix_of_atOrBelow (h : TreeShape tree.nodes tree.children) {names : List Text}
    {node : PromiseNode} (hbelow : tree.AtOrBelow names node) :
    names <+: splitNames node.relativePath := by
  obtain ⟨below, hnormal, hnode⟩ := hbelow
  rw [(h.path hnode).1, splitNames_joinNames hnormal]
  exact List.prefix_append names below

/-- Every path a node lies below is the path of a directory. -/
theorem ancestor (h : TreeShape tree.nodes tree.children) {names below : List Text}
    (hnormal : NormalNames (names ++ below)) {node : PromiseNode}
    (hnode : tree.nodes[joinNames (names ++ below)]? = some node) :
    ∃ parent, tree.nodes[joinNames names]? = some parent ∧
      (below ≠ [] → parent.kind = .directory) := by
  induction below using List.reverseRecOn generalizing node with
  | nil => exact ⟨node, by simpa using hnode, fun hne => absurd rfl hne⟩
  | append_singleton below name ih =>
      rw [← List.append_assoc] at hnormal hnode
      obtain ⟨-, -, parent, hparent, hkind⟩ := h.parent hnormal hnode
      rcases below.eq_nil_or_concat with rfl | ⟨_, _, hconcat⟩
      · exact ⟨parent, by simpa using hparent, fun _ => hkind⟩
      · obtain ⟨top, htop, hdirectory⟩ := ih hnormal.of_append_left hparent
        exact ⟨top, htop, fun _ => hdirectory (by simp [hconcat])⟩

/-- What lies below a directory is the directory itself and what lies below its
entries. -/
theorem atOrBelow_iff (h : TreeShape tree.nodes tree.children) {names : List Text}
    (hnormal : NormalNames names) {top node : PromiseNode}
    (htop : tree.nodes[joinNames names]? = some top) {children : BTreeSet Text}
    (hchildren : tree.children[joinNames names]? = some children) :
    tree.AtOrBelow names node ↔ node = top ∨ ∃ name, joinNames (names ++ [name]) ∈ children ∧
      NormalNames (names ++ [name]) ∧ tree.AtOrBelow (names ++ [name]) node := by
  constructor
  · rintro ⟨below, hbelow, hnode⟩
    cases below with
    | nil =>
        rw [List.append_nil, htop] at hnode
        exact .inl (Option.some.inj hnode).symm
    | cons name below =>
        rw [List.append_cons] at hbelow hnode
        obtain ⟨entry, hentry, -⟩ := h.ancestor hbelow hnode
        have hname := hbelow.of_append_left
        exact .inr ⟨name, (h.child hchildren).mpr ⟨⟨names, name, hname, rfl, rfl⟩,
          BTreeMap.mem_of_getElem? hentry⟩, hname, below, hbelow, hnode⟩
  · rintro (rfl | ⟨name, -, -, hbelow⟩)
    · exact .self hnormal htop
    · exact hbelow.of_append

/-- Two entries of a directory have nothing below them in common, in either order. -/
theorem not_isPrefix_of_ne (h : TreeShape tree.nodes tree.children) {names : List Text}
    {name name' : Text} (hne : name ≠ name') {node node' : PromiseNode}
    (hnode : tree.AtOrBelow (names ++ [name]) node)
    (hnode' : tree.AtOrBelow (names ++ [name']) node') :
    ¬ splitNames node'.relativePath <+: splitNames node.relativePath := by
  intro hbegins
  have heq := (List.prefix_of_prefix_length_le ((h.isPrefix_of_atOrBelow hnode').trans hbegins)
    (h.isPrefix_of_atOrBelow hnode) (by simp)).eq_of_length (by simp)
  exact hne (List.singleton_inj.mp (List.append_cancel_left heq)).symm

/-- The listing starts with the node at its path. -/
theorem head_preorder (h : TreeShape tree.nodes tree.children) {names : List Text}
    (hnormal : NormalNames names) {nodes : List PromiseNode} (hpre : tree.Preorder names nodes)
    {top : PromiseNode} (htop : tree.nodes[joinNames names]? = some top) :
    nodes.head? = some top := by
  have hmem := hpre.mem_iff.mpr (.self hnormal htop)
  cases nodes with
  | nil => simp at hmem
  | cons first rest =>
      rcases List.mem_cons.mp hmem with rfl | hrest
      · rfl
      · -- the first node lies below the top, so the top cannot come after it
        have hbelow := h.isPrefix_of_atOrBelow (hpre.mem_iff.mp List.mem_cons_self)
        have hlater := (List.pairwise_cons.mp hpre.ordered).1 top hrest
        rw [(h.path htop).1, splitNames_joinNames hnormal] at hlater
        exact absurd hbelow hlater

/-- The entries of a directory are its path with one name more. -/
theorem exists_name_of_mem_children (h : TreeShape tree.nodes tree.children) {names : List Text}
    (hnormal : NormalNames names) {children : BTreeSet Text}
    (hchildren : tree.children[joinNames names]? = some children) {child : Text}
    (hchild : child ∈ children.toList) :
    ∃ name, child = joinNames (names ++ [name]) ∧ NormalNames (names ++ [name]) := by
  obtain ⟨⟨names', name, hnormal', hparent, rfl⟩, -⟩ :=
    (h.child hchildren).mp (Std.ExtTreeSet.mem_toList.mp hchild)
  obtain rfl := joinNames_injective hnormal hnormal'.of_append_left hparent
  exact ⟨name, rfl, hnormal'⟩

/-- A file has nothing below it. -/
private theorem preorder_file (h : TreeShape tree.nodes tree.children) {names : List Text}
    (hnormal : NormalNames names) {top : PromiseNode}
    (htop : tree.nodes[joinNames names]? = some top) (hkind : top.kind ≠ .directory) :
    tree.Preorder names [top] := by
  refine ⟨fun {node} => ?_, List.pairwise_singleton _ _⟩
  rw [List.mem_singleton]
  constructor
  · rintro rfl
    exact .self hnormal htop
  · rintro ⟨below, hbelow, hnode⟩
    obtain ⟨parent, hparent, hdirectory⟩ := h.ancestor hbelow hnode
    obtain rfl : parent = top := Option.some.inj (hparent.symm.trans htop)
    obtain rfl : below = [] := by_contra fun hne => hkind (hdirectory hne)
    rw [List.append_nil] at hnode
    exact Option.some.inj (hnode.symm.trans htop)

/-- A directory is followed by the listings of its entries. -/
private theorem preorder_directory (h : TreeShape tree.nodes tree.children) {names : List Text}
    (hnormal : NormalNames names) {top : PromiseNode}
    (htop : tree.nodes[joinNames names]? = some top) {children : BTreeSet Text}
    (hchildren : tree.children[joinNames names]? = some children)
    {walk : Text → Result (List PromiseNode)} {below : List (List PromiseNode)}
    (hbelow : children.toList.mapM walk = .ok below)
    (hwalk : ∀ {name list}, NormalNames (names ++ [name]) →
      walk (joinNames (names ++ [name])) = .ok list → tree.Preorder (names ++ [name]) list) :
    tree.Preorder names (top :: below.flatten) := by
  -- each list below is the preorder of one child
  have hlists : ∀ list ∈ below, ∃ name, joinNames (names ++ [name]) ∈ children ∧
      NormalNames (names ++ [name]) ∧ tree.Preorder (names ++ [name]) list := by
    intro list hlist
    obtain ⟨child, hchild, hlist⟩ := (mem_of_mapM_eq_ok hbelow).mp hlist
    obtain ⟨name, rfl, hnames⟩ := h.exists_name_of_mem_children hnormal hchildren hchild
    exact ⟨name, Std.ExtTreeSet.mem_toList.mp hchild, hnames, hwalk hnames hlist⟩
  constructor
  · intro node
    rw [h.atOrBelow_iff hnormal htop hchildren, List.mem_cons, List.mem_flatten]
    refine or_congr_right ⟨?_, ?_⟩
    · rintro ⟨list, hlist, hnode⟩
      obtain ⟨name, hchild, hnames, hpre⟩ := hlists list hlist
      exact ⟨name, hchild, hnames, hpre.mem_iff.mp hnode⟩
    · rintro ⟨name, hchild, hnames, hnode⟩
      obtain ⟨list, hlist, hchildList⟩ := exists_of_mapM_eq_ok hbelow
        (Std.ExtTreeSet.mem_toList.mpr hchild)
      exact ⟨list, hlist, (hwalk hnames hchildList).mem_iff.mpr hnode⟩
  · refine List.pairwise_cons.mpr ⟨?_, List.pairwise_flatten.mpr ⟨?_, ?_⟩⟩
    · intro node hnode hbegins
      obtain ⟨list, hlist, hnode⟩ := List.mem_flatten.mp hnode
      obtain ⟨name, -, -, hpre⟩ := hlists list hlist
      have hlong := (h.isPrefix_of_atOrBelow (hpre.mem_iff.mp hnode)).length_le
      have hshort := hbegins.length_le
      rw [(h.path htop).1, splitNames_joinNames hnormal] at hshort
      rw [List.length_append, List.length_singleton] at hlong
      omega
    · intro list hlist
      obtain ⟨name, -, -, hpre⟩ := hlists list hlist
      exact hpre.ordered
    -- the subtrees of two children have no path in common
    · refine pairwise_of_mapM_eq_ok hbelow Std.ExtTreeSet.distinct_toList ?_
      intro child hchild child' hchild' hne list list' hlist hlist' node hnode node' hnode'
      obtain ⟨name, rfl, hnames⟩ := h.exists_name_of_mem_children hnormal hchildren hchild
      obtain ⟨name', rfl, hnames'⟩ := h.exists_name_of_mem_children hnormal hchildren hchild'
      refine h.not_isPrefix_of_ne ?_ ((hwalk hnames hlist).mem_iff.mp hnode)
        ((hwalk hnames' hlist').mem_iff.mp hnode')
      rintro rfl
      exact hne Std.ReflCmp.compare_self

/-- The walk lists the nodes at and below its path in preorder. -/
theorem preorder_collect (h : TreeShape tree.nodes tree.children) {fuel : ℕ}
    {names : List Text} (hnormal : NormalNames names) {nodes : List PromiseNode}
    (hcollect : tree.collectSubtreeNodes fuel (joinNames names) = .ok nodes) :
    tree.Preorder names nodes := by
  induction fuel generalizing names nodes with
  | zero => simp [collectSubtreeNodes] at hcollect
  | succ fuel ih =>
      obtain ⟨top, htop, hlist⟩ := collectSubtreeNodes_succ.mp hcollect
      split_ifs at hlist with hkind
      · obtain ⟨children, below, hchildren, hbelow, rfl⟩ := hlist
        exact h.preorder_directory hnormal htop hchildren hbelow
          fun hnames hlist => ih hnames hlist
      · obtain rfl := hlist
        exact h.preorder_file hnormal htop hkind

/-- The longest path of the tree is fuel enough: every step of the walk makes
its path longer. -/
theorem exists_collect (h : TreeShape tree.nodes tree.children) {fuel : ℕ} {path : Text}
    (hmem : path ∈ tree.nodes) (hfuel : tree.maxPathLength < path.length + fuel) :
    ∃ nodes, tree.collectSubtreeNodes fuel path = .ok nodes := by
  induction fuel generalizing path with
  | zero => exact absurd (length_le_maxPathLength hmem) (by omega)
  | succ fuel ih =>
      obtain ⟨node, hnode⟩ := Option.isSome_iff_exists.mp
        (Std.ExtTreeMap.mem_iff_isSome_getElem?.mp hmem)
      by_cases hkind : node.kind = .directory
      · obtain ⟨children, hchildren⟩ := Option.isSome_iff_exists.mp
          (Std.ExtTreeMap.mem_iff_isSome_getElem?.mp (h.listed.mpr ⟨node, hnode, hkind⟩))
        obtain ⟨below, hbelow⟩ : ∃ below,
            children.toList.mapM (tree.collectSubtreeNodes fuel) = .ok below := by
          refine exists_mapM_eq_ok fun child hchild => ?_
          obtain ⟨hpath, hchild⟩ := (h.child hchildren).mp (Std.ExtTreeSet.mem_toList.mp hchild)
          exact ih hchild (by have := hpath.length_lt; omega)
        exact ⟨node :: below.flatten, collectSubtreeNodes_succ.mpr
          ⟨node, hnode, by rw [if_pos hkind]; exact ⟨children, below, hchildren, hbelow, rfl⟩⟩⟩
      · exact ⟨[node], collectSubtreeNodes_succ.mpr ⟨node, hnode, by rw [if_neg hkind]⟩⟩

/-- Asked for any spelling of one of its paths, a tree lists what lies there and
below. -/
theorem preorder_subtreeNodes (h : TreeShape tree.nodes tree.children) {relativePath : Text}
    {nodes : List PromiseNode} (hnodes : tree.subtreeNodes relativePath = .ok nodes) :
    ∃ names, NormalNames names ∧ normalizeRelativePath relativePath = .ok (joinNames names) ∧
      joinNames names ∈ tree.nodes ∧ tree.Preorder names nodes := by
  obtain ⟨path, hpath, hnodes⟩ := bind_eq_ok.mp hnodes
  obtain ⟨hnormal, rfl⟩ := normalizeRelativePath_ok hpath
  split_ifs at hnodes with hmem
  exact ⟨_, hnormal, hpath, hmem, h.preorder_collect hnormal hnodes⟩

theorem exists_subtreeNodes_iff (h : TreeShape tree.nodes tree.children) {names : List Text}
    (hnormal : NormalNames names) :
    (∃ nodes, tree.subtreeNodes (joinNames names) = .ok nodes) ↔
      joinNames names ∈ tree.nodes := by
  constructor
  · rintro ⟨nodes, hnodes⟩
    obtain ⟨names', hnormal', hpath, hmem, -⟩ := h.preorder_subtreeNodes hnodes
    rw [normalizeRelativePath_joinNames hnormal] at hpath
    exact Except.ok.inj hpath ▸ hmem
  · intro hmem
    have hfuel : tree.maxPathLength < (joinNames names).length + (tree.maxPathLength + 1) := by
      omega
    obtain ⟨nodes, hnodes⟩ := h.exists_collect hmem hfuel
    refine ⟨nodes, bind_eq_ok.mpr ⟨_, normalizeRelativePath_joinNames hnormal, ?_⟩⟩
    rw [if_pos hmem]
    exact hnodes

end TreeShape

end FusePromise
