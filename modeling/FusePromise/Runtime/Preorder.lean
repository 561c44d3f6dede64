import FusePromise.Foundation.Lexicographic
import FusePromise.Foundation.Utf8
import FusePromise.Runtime.Builder
import FusePromise.Runtime.Subtree

/-!
# The order of a subtree's listing

The walk of `subtreeNodes` follows the children index, so its order is not the
order of the paths: `a-b` sorts before `a/c` and is listed after it.  It is the
lexicographic order of the lists of names.  A directory is a prefix of what lies
below it, which puts it first and keeps what lies below it together, and two
entries of one directory differ in their last name only, where the order of
names is the byte order of the paths.
-/

namespace FusePromise

open Lexicographic

/-- The path `other` extends `path` by a separator and at least one name; every
path but its own extends the root's. -/
def Extends (path other : Text) : Prop :=
  if path = [] then other ≠ [] else ∃ rest, other = path ++ '/' :: rest

theorem extends_joinNames {names other : List Text} (hnames : NormalNames names)
    (hother : NormalNames other) :
    Extends (joinNames names) (joinNames other) ↔ names <+: other ∧ names ≠ other := by
  unfold Extends
  by_cases hnil : names = []
  · subst hnil
    rw [joinNames_nil, if_pos rfl]
    constructor
    · intro hne
      refine ⟨List.nil_prefix, ?_⟩
      rintro rfl
      exact hne rfl
    · rintro ⟨-, hne⟩
      exact joinNames_ne_nil hother (Ne.symm hne)
  · rw [if_neg (joinNames_ne_nil hnames hnil)]
    constructor
    · rintro ⟨rest, hrest⟩
      have hne : other ≠ [] := by
        rintro rfl
        simp at hrest
      have hsplit : other = names ++ segments rest := by
        rw [← segments_joinNames hother hne, hrest, segments_append,
          segments_joinNames hnames hnil]
      refine ⟨⟨segments rest, hsplit.symm⟩, ?_⟩
      intro heq
      exact List.splitOn_ne_nil '/' rest (List.append_right_eq_self.mp (heq ▸ hsplit).symm)
    · rintro ⟨⟨below, rfl⟩, hne⟩
      exact ⟨joinNames below, joinNames_append hnil (by simpa using hne)⟩

/-- The order of the walk: names are compared one after the other. -/
def WalkBefore (first second : PromiseNode) : Prop :=
  List.Lex (fun name name' : Text => compare name name' = .lt)
    (splitNames first.relativePath) (splitNames second.relativePath)

theorem compare_asymm (name name' : Text) (h : compare name name' = .lt) :
    ¬ compare name' name = .lt :=
  Std.OrientedCmp.not_lt_of_lt h

namespace PromiseTree

variable {tree : PromiseTree}

/-- More fuel does not change a walk that has ended. -/
theorem collectSubtreeNodes_mono {fuel fuel' : ℕ} (hle : fuel ≤ fuel') {path : Text}
    {nodes : List PromiseNode} (hcollect : tree.collectSubtreeNodes fuel path = .ok nodes) :
    tree.collectSubtreeNodes fuel' path = .ok nodes := by
  induction fuel generalizing fuel' path nodes with
  | zero => simp [collectSubtreeNodes] at hcollect
  | succ fuel ih =>
      obtain ⟨more, rfl⟩ : ∃ more, fuel' = more + 1 := ⟨fuel' - 1, by omega⟩
      obtain ⟨node, hnode, hlist⟩ := collectSubtreeNodes_succ.mp hcollect
      refine collectSubtreeNodes_succ.mpr ⟨node, hnode, ?_⟩
      split_ifs at hlist ⊢ with hkind
      · obtain ⟨children, below, hchildren, hbelow, rfl⟩ := hlist
        refine ⟨children, below, hchildren, mapM_eq_ok.mpr ?_, rfl⟩
        exact (mapM_eq_ok.mp hbelow).imp fun _ _ hwalk => ih (by omega) hwalk
      · exact hlist

end PromiseTree

namespace TreeShape

open PromiseTree

variable {tree : PromiseTree}

/-- The walk lists its nodes in the order of their names. -/
theorem sorted_collect (h : TreeShape tree.nodes tree.children) {fuel : ℕ} {names : List Text}
    (hnormal : NormalNames names) {nodes : List PromiseNode}
    (hcollect : tree.collectSubtreeNodes fuel (joinNames names) = .ok nodes) :
    nodes.Pairwise WalkBefore := by
  induction fuel generalizing names nodes with
  | zero => simp [collectSubtreeNodes] at hcollect
  | succ fuel ih =>
      obtain ⟨top, htop, hlist⟩ := collectSubtreeNodes_succ.mp hcollect
      split_ifs at hlist with hkind
      · obtain ⟨children, below, hchildren, hbelow, rfl⟩ := hlist
        -- where the nodes listed for one entry lie
        have hplace : ∀ {name list}, NormalNames (names ++ [name]) →
            tree.collectSubtreeNodes fuel (joinNames (names ++ [name])) = .ok list →
            ∀ node ∈ list, ∃ rest, splitNames node.relativePath = names ++ name :: rest := by
          intro name list hnames hlist node hnode
          have hat := (h.preorder_collect hnames hlist).mem_iff.mp hnode
          obtain ⟨rest, hrest⟩ := h.isPrefix_of_atOrBelow hat
          exact ⟨rest, by rw [← hrest, List.append_assoc, List.singleton_append]⟩
        refine List.pairwise_cons.mpr ⟨?_, List.pairwise_flatten.mpr ⟨?_, ?_⟩⟩
        · intro node hnode
          obtain ⟨list, hlist, hnode⟩ := List.mem_flatten.mp hnode
          obtain ⟨child, hchild, hwalk⟩ := (mem_of_mapM_eq_ok hbelow).mp hlist
          obtain ⟨name, rfl, hnames⟩ := h.exists_name_of_mem_children hnormal hchildren hchild
          obtain ⟨rest, hrest⟩ := hplace hnames hwalk node hnode
          rw [WalkBefore, (h.path htop).1, splitNames_joinNames hnormal, hrest]
          exact lex_append_cons names name rest
        · intro list hlist
          obtain ⟨child, hchild, hwalk⟩ := (mem_of_mapM_eq_ok hbelow).mp hlist
          obtain ⟨name, rfl, hnames⟩ := h.exists_name_of_mem_children hnormal hchildren hchild
          exact ih hnames hwalk
        · refine pairwise_of_mapM_eq_ok hbelow Std.ExtTreeSet.ordered_toList ?_
          intro child hchild child' hchild' hlt list list' hwalk hwalk' node hnode node' hnode'
          obtain ⟨name, rfl, hnames⟩ := h.exists_name_of_mem_children hnormal hchildren hchild
          obtain ⟨name', rfl, hnames'⟩ := h.exists_name_of_mem_children hnormal hchildren hchild'
          obtain ⟨rest, hrest⟩ := hplace hnames hwalk node hnode
          obtain ⟨rest', hrest'⟩ := hplace hnames' hwalk' node' hnode'
          rw [compare_joinNames_concat] at hlt
          rw [WalkBefore, hrest, hrest']
          exact List.Lex.append_left (fun a b : Text => compare a b = .lt) (.rel hlt) names
      · obtain rfl := hlist
        exact List.pairwise_singleton _ _

/-- Two entries of one directory are listed in the byte order of their paths. -/
theorem lex_of_walkBefore (h : TreeShape tree.nodes tree.children) {first second : PromiseNode}
    (hfirst : tree.nodes[first.relativePath]? = some first)
    (hsecond : tree.nodes[second.relativePath]? = some second)
    (hparent : first.parentPath = second.parentPath) (hwalk : WalkBefore first second) :
    List.Lex (· < ·) (Utf8.encode first.relativePath) (Utf8.encode second.relativePath) := by
  apply Utf8.lex_encode
  obtain ⟨-, names, hnormal, hpath⟩ := h.path hfirst
  obtain ⟨-, names', hnormal', hpath'⟩ := h.path hsecond
  rw [WalkBefore, hpath, hpath', splitNames_joinNames hnormal, splitNames_joinNames hnormal']
    at hwalk
  rw [hpath] at hfirst
  rw [hpath'] at hsecond
  rw [hpath, hpath']
  obtain ⟨root, hroot, -, htop⟩ := h.root
  rcases names'.eq_nil_or_concat with rfl | ⟨dir', name', hconcat'⟩
  · simp at hwalk
  rw [List.concat_eq_append] at hconcat'
  subst hconcat'
  obtain ⟨-, hdir', -⟩ := h.parent hnormal' hsecond
  rcases names.eq_nil_or_concat with rfl | ⟨dir, name, hconcat⟩
  · -- only the root has no parent
    obtain rfl : root = first := Option.some.inj (hroot.symm.trans hfirst)
    rw [htop, hdir'] at hparent
    simp at hparent
  rw [List.concat_eq_append] at hconcat
  subst hconcat
  obtain ⟨-, hdir, -⟩ := h.parent hnormal hfirst
  rw [hdir, hdir'] at hparent
  obtain rfl := joinNames_injective hnormal.of_append_left hnormal'.of_append_left
    (Option.some.inj hparent)
  rw [compare_joinNames_concat]
  cases lex_of_append_left compare_asymm hwalk with
  | rel hlt => exact hlt
  | cons hnil => simp at hnil

/-- What is listed after the first node is what extends its path. -/
theorem mem_iff_extends (h : TreeShape tree.nodes tree.children) {names : List Text}
    (hnormal : NormalNames names) {top : PromiseNode} {rest : List PromiseNode}
    (hpre : tree.Preorder names (top :: rest)) (htop : tree.nodes[joinNames names]? = some top)
    {node : PromiseNode} :
    node ∈ rest ↔ tree.nodes[node.relativePath]? = some node ∧
      Extends top.relativePath node.relativePath := by
  have hlater := (List.pairwise_cons.mp hpre.ordered).1
  constructor
  · intro hmem
    obtain ⟨below, hbelow, hnode⟩ := hpre.mem_iff.mp (List.mem_cons_of_mem _ hmem)
    have hnot := hlater node hmem
    rw [(h.path hnode).1, (h.path htop).1] at hnot ⊢
    refine ⟨hnode, (extends_joinNames hnormal hbelow).mpr ⟨List.prefix_append _ _, ?_⟩⟩
    intro heq
    rw [← heq] at hnot
    exact hnot (List.prefix_refl _)
  · rintro ⟨hnode, hextends⟩
    obtain ⟨-, other, hother, hpath⟩ := h.path hnode
    rw [(h.path htop).1, hpath, extends_joinNames hnormal hother] at hextends
    obtain ⟨⟨below, rfl⟩, hne⟩ := hextends
    rw [hpath] at hnode
    rcases List.mem_cons.mp (hpre.mem_iff.mpr ⟨below, hother, hnode⟩) with rfl | hmem
    · have hsame := (h.path htop).1.symm.trans (h.path hnode).1
      exact absurd (joinNames_injective hnormal hother hsame) hne
    · exact hmem

/-- What extends the path of a listed node stands immediately after it. -/
theorem exists_split_extends (h : TreeShape tree.nodes tree.children)
    {nodes before after : List PromiseNode} {node : PromiseNode}
    (hstored : ∀ other ∈ nodes, tree.nodes[other.relativePath]? = some other)
    (hsorted : nodes.Pairwise WalkBefore) (hsplit : nodes = before ++ node :: after) :
    ∃ below rest, after = below ++ rest ∧
      (∀ other ∈ below, Extends node.relativePath other.relativePath) ∧
      ∀ other ∈ before ++ rest, ¬ Extends node.relativePath other.relativePath := by
  have hiff : ∀ other ∈ nodes, Extends node.relativePath other.relativePath ↔
      splitNames node.relativePath <+: splitNames other.relativePath ∧
        splitNames node.relativePath ≠ splitNames other.relativePath := by
    intro other hother
    obtain ⟨-, names, hnormal, hpath⟩ := h.path (hstored node (by simp [hsplit]))
    obtain ⟨-, names', hnormal', hpath'⟩ := h.path (hstored other hother)
    rw [hpath, hpath', extends_joinNames hnormal hnormal', splitNames_joinNames hnormal,
      splitNames_joinNames hnormal']
  subst hsplit
  obtain ⟨-, hafter, hbefore⟩ := List.pairwise_append.mp hsorted
  obtain ⟨below, rest, rfl, hbelow, hrest⟩ := exists_split_extensions compare_asymm hafter
  refine ⟨below, rest, rfl, ?_, ?_⟩
  · intro other hother
    refine (hiff other (by simp [hother])).mpr ⟨hbelow other hother, ?_⟩
    intro heq
    have hlt : WalkBefore node other :=
      (List.pairwise_cons.mp hafter).1 other (by simp [hother])
    rw [WalkBefore, heq] at hlt
    exact not_lex_of_isPrefix compare_asymm (List.prefix_refl _) hlt
  · intro other hother hextends
    rw [hiff other (by rcases List.mem_append.mp hother with h | h <;> simp [h])] at hextends
    rcases List.mem_append.mp hother with hother | hother
    · exact not_lex_of_isPrefix compare_asymm hextends.1
        (hbefore other hother node List.mem_cons_self)
    · exact hrest other hother hextends.1

/-- A walk that starts at a node of the tree ends, with every fuel the depth of
the tree allows for. -/
theorem collect_eq_of_subtreeNodes {relativePath path : Text} {nodes : List PromiseNode}
    (hpath : normalizeRelativePath relativePath = .ok path)
    (hnodes : tree.subtreeNodes relativePath = .ok nodes) {fuel : ℕ}
    (hfuel : tree.maxPathLength < fuel) : tree.collectSubtreeNodes fuel path = .ok nodes := by
  unfold subtreeNodes at hnodes
  simp only [hpath, bind, Except.bind] at hnodes
  split_ifs at hnodes
  exact collectSubtreeNodes_mono hfuel hnodes

end TreeShape

namespace PromiseBuilder

open PromiseTree

/-- On every tree of a builder and for every path: the walk ends and succeeds
exactly where a node is stored, and what it lists is the node, then what lies
below it, in preorder. -/
theorem subtreeNodes_spec (providerId : ProviderId) (calls : List PromiseNodeBody)
    (promiseId relativePath : Text) :
    let tree := ((new providerId).runCalls calls).finish promiseId
    ((∃ nodes, tree.subtreeNodes relativePath = .ok nodes) ↔
      ∃ path, normalizeRelativePath relativePath = .ok path ∧ path ∈ tree.nodes) ∧
    ∀ nodes, tree.subtreeNodes relativePath = .ok nodes →
      ∃ top rest, nodes = top :: rest ∧
        normalizeRelativePath relativePath = .ok top.relativePath ∧
        tree.nodes[top.relativePath]? = some top ∧
        (∀ fuel > tree.maxPathLength,
          tree.collectSubtreeNodes fuel top.relativePath = .ok nodes) ∧
        (∀ node, node ∈ rest ↔ tree.nodes[node.relativePath]? = some node ∧
          Extends top.relativePath node.relativePath) ∧
        nodes.Nodup ∧
        (∀ before node after, nodes = before ++ node :: after →
          ∃ below others, after = below ++ others ∧
            (∀ other ∈ below, Extends node.relativePath other.relativePath) ∧
            ∀ other ∈ before ++ others, ¬ Extends node.relativePath other.relativePath) ∧
        nodes.Pairwise fun first second => first.parentPath = second.parentPath →
          List.Lex (· < ·) (Utf8.encode first.relativePath)
            (Utf8.encode second.relativePath) := by
  intro tree
  have hshape : TreeShape tree.nodes tree.children := shape_runCalls providerId calls
  constructor
  · constructor
    · rintro ⟨nodes, hnodes⟩
      obtain ⟨names, -, hpath, hmem, -⟩ := hshape.preorder_subtreeNodes hnodes
      exact ⟨joinNames names, hpath, hmem⟩
    · rintro ⟨path, hpath, hmem⟩
      obtain ⟨nodes, hnodes⟩ := hshape.exists_collect hmem
        (show tree.maxPathLength < path.length + (tree.maxPathLength + 1) by omega)
      exact ⟨nodes, bind_eq_ok.mpr ⟨path, hpath, by rw [if_pos hmem]; exact hnodes⟩⟩
  · intro nodes hnodes
    obtain ⟨names, hnormal, hpath, hmem, hpre⟩ := hshape.preorder_subtreeNodes hnodes
    have hwalk := TreeShape.collect_eq_of_subtreeNodes hpath hnodes (Nat.lt_succ_self _)
    -- the walk goes through the children in the order of their paths, which is that of their bytes
    have hsorted := hshape.sorted_collect hnormal hwalk
    obtain ⟨top, htop⟩ := Option.isSome_iff_exists.mp
      (Std.ExtTreeMap.mem_iff_isSome_getElem?.mp hmem)
    have hstored : ∀ node ∈ nodes, tree.nodes[node.relativePath]? = some node := by
      intro node hnode
      obtain ⟨below, -, hbelow⟩ := hpre.mem_iff.mp hnode
      rw [(hshape.path hbelow).1]
      exact hbelow
    -- the walk begins at the node it was asked for
    obtain ⟨rest, rfl⟩ : ∃ rest, nodes = top :: rest := by
      have hhead := hshape.head_preorder hnormal hpre htop
      cases nodes with
      | nil => simp at hhead
      | cons first rest => exact ⟨rest, by rw [Option.some.inj hhead]⟩
    have htopPath := (hshape.path htop).1
    refine ⟨top, rest, rfl, by rw [htopPath]; exact hpath, hstored top List.mem_cons_self, ?_,
      fun node => hshape.mem_iff_extends hnormal hpre htop, ?_, ?_, ?_⟩
    · intro fuel hfuel
      rw [htopPath]
      exact TreeShape.collect_eq_of_subtreeNodes hpath hnodes hfuel
    · refine hpre.ordered.imp ?_
      rintro first second hnot rfl
      exact hnot (List.prefix_refl _)
    · intro before node after hsplit
      exact hshape.exists_split_extends hstored hsorted hsplit
    · refine hsorted.imp_of_mem ?_
      intro first second hfirst hsecond hlt hparent
      exact hshape.lex_of_walkBefore (hstored first hfirst) (hstored second hsecond) hparent hlt

end PromiseBuilder

end FusePromise
