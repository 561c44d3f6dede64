import FusePromise.Runtime.Builder
import FusePromise.Runtime.Invariant

/-!
# The order in which a promise is declared

A builder numbers its nodes as they are declared, and a commit numbers them again
in path order.  Of the order of the calls only one thing is left: a node needs its
parent.  Calls that succeed in one order succeed in every order that puts parents
first, and the two builders are committed as the same promise.
-/

namespace FusePromise

open Machine

namespace PromiseBuilder

/-- Every call of the list succeeds, one after the other. -/
def AllSucceed : PromiseBuilder → List PromiseNodeBody → Prop
  | _, [] => True
  | builder, node :: rest =>
      (builder.call node).1 = .ok () ∧ AllSucceed (builder.call node).2 rest

/-- Each node comes after its parent, unless its parent is the root. -/
def ParentsFirst (calls : List PromiseNodeBody) : Prop :=
  ∀ before node after path, calls = before ++ node :: after →
    normalizeRelativePath node.relativePath = .ok path →
    parentPath path = [] ∨
      ∃ earlier ∈ before, normalizeRelativePath earlier.relativePath = .ok (parentPath path)

theorem allSucceed_iff {builder : PromiseBuilder} {calls : List PromiseNodeBody} :
    builder.AllSucceed calls ↔ builder.addNodes calls = .ok (builder.runCalls calls) := by
  induction calls generalizing builder with
  | nil => simp [AllSucceed, addNodes, runCalls, pure, Except.pure]
  | cons node rest ih =>
      have hcall := builder.call_eq node
      have hadds : builder.addNodes (node :: rest) =
          builder.addBody node >>= fun next => next.addNodes rest := List.foldlM_cons
      have hruns : builder.runCalls (node :: rest) = (builder.call node).2.runCalls rest := rfl
      rw [AllSucceed, ih, hadds, hruns]
      cases hadd : builder.addBody node with
      | error status =>
          simp only [hadd] at hcall
          simp [hcall, bind, Except.bind]
      | ok next =>
          simp only [hadd] at hcall
          simp [hcall, bind, Except.bind]

/-- A request that is accepted makes the calls of a client. -/
theorem runCalls_eq_of_addNodes {builder next : PromiseBuilder} {calls : List PromiseNodeBody}
    (h : builder.addNodes calls = .ok next) : builder.runCalls calls = next := by
  induction calls generalizing builder with
  | nil => exact Except.ok.inj h
  | cons node rest ih =>
      rw [addNodes, List.foldlM_cons] at h
      obtain ⟨middle, hmiddle, hrest⟩ := bind_eq_ok.mp h
      have hcall := builder.call_eq node
      rw [hmiddle] at hcall
      rw [runCalls, List.foldl_cons, hcall]
      exact ih hrest

/-! ## When a node is accepted -/

/-- What a node needs whatever the builder holds. -/
structure Declarable (spec : PromiseNodeBody) (path : Text) : Prop where
  normal : normalizeRelativePath spec.relativePath = .ok path
  ne_root : path ≠ []
  providerNodeId : spec.providerNodeId ≠ []
  attr : validateAttr spec.kind spec.attr = .ok ()

/-- A call succeeds exactly when its node is declarable, new, and has a directory to go to. -/
theorem exists_addBody_iff {builder : PromiseBuilder} {spec : PromiseNodeBody} :
    (∃ next, builder.addBody spec = .ok next) ↔
      ∃ path, Declarable spec path ∧ path ∉ builder.nodes ∧
        ∃ parent, builder.nodes[parentPath path]? = some parent ∧ parent.kind = .directory := by
  rw [addBody_eq]
  constructor
  · rintro ⟨next, hnext⟩
    have hid : spec.providerNodeId ≠ [] := by
      intro hnil
      simp [addNode, hnil] at hnext
    obtain ⟨path, parent, hpath, hne, hattr, hfresh, hparent, hkind, -⟩ := addNode_eq_ok hnext
    exact ⟨path, ⟨hpath, hne, hid, hattr⟩, hfresh, parent, hparent, hkind⟩
  · rintro ⟨path, hspec, hfresh, parent, hparent, hkind⟩
    simp only [addNode, hspec.providerNodeId, if_false, hspec.attr, hspec.normal, bind,
      Except.bind, hspec.ne_root, hfresh, hparent, hkind, ne_eq, not_true_eq_false]
    exact ⟨_, rfl⟩

/-- What a builder holds after its first calls. -/
theorem nodes_of_addNodes {providerId : ProviderId} {specs : List PromiseNodeBody}
    {builder : PromiseBuilder} (h : (new providerId).addNodes specs = .ok builder) (path : Text)
    (entry : PromiseNodeBody) :
    (builder.nodes[path]?).map nodeSpec = some entry ↔
      path = [] ∧ entry = nodeSpec rootNode ∨
        ∃ spec ∈ specs, normalizeRelativePath spec.relativePath = .ok path ∧
          entry = { spec with relativePath := path } := by
  obtain ⟨-, -, hspecs, -, -⟩ := addNodes_specs h
  rw [hspecs]
  refine or_congr_left ?_
  by_cases hnil : path = []
  · subst hnil
    simp [new, eq_comm]
  · simp [new, hnil, Ne.symm hnil]

theorem mem_nodes_of_addNodes {providerId : ProviderId} {specs : List PromiseNodeBody}
    {builder : PromiseBuilder} (h : (new providerId).addNodes specs = .ok builder) {path : Text} :
    path ∈ builder.nodes ↔
      path = [] ∨ ∃ spec ∈ specs, normalizeRelativePath spec.relativePath = .ok path := by
  have hnodes := nodes_of_addNodes h path
  rw [Std.ExtTreeMap.mem_iff_isSome_getElem?, ← Option.isSome_map (f := nodeSpec),
    Option.isSome_iff_exists]
  simp only [hnodes]
  constructor
  · rintro ⟨entry, ⟨hnil, -⟩ | ⟨spec, hmem, hpath, -⟩⟩
    · exact .inl hnil
    · exact .inr ⟨spec, hmem, hpath⟩
  · rintro (hnil | ⟨spec, hmem, hpath⟩)
    · exact ⟨_, .inl ⟨hnil, rfl⟩⟩
    · exact ⟨_, .inr ⟨spec, hmem, hpath, rfl⟩⟩

theorem directory_of_addNodes {providerId : ProviderId} {specs : List PromiseNodeBody}
    {builder : PromiseBuilder} (h : (new providerId).addNodes specs = .ok builder) {path : Text} :
    (∃ node, builder.nodes[path]? = some node ∧ node.kind = .directory) ↔
      path = [] ∨ ∃ spec ∈ specs, normalizeRelativePath spec.relativePath = .ok path ∧
        spec.kind = .directory := by
  have hnodes := nodes_of_addNodes h path
  constructor
  · rintro ⟨node, hnode, hkind⟩
    have hentry := (hnodes (nodeSpec node)).mp (by rw [hnode]; rfl)
    rcases hentry with ⟨hnil, -⟩ | ⟨spec, hmem, hpath, heq⟩
    · exact .inl hnil
    · have hsame : node.kind = spec.kind := congrArg PromiseNodeBody.kind heq
      exact .inr ⟨spec, hmem, hpath, hsame ▸ hkind⟩
  · intro hcases
    obtain ⟨entry, hentry, hkind⟩ : ∃ entry, (builder.nodes[path]?).map nodeSpec = some entry ∧
        entry.kind = .directory := by
      rcases hcases with hnil | ⟨spec, hmem, hpath, hkind⟩
      · exact ⟨_, (hnodes _).mpr (.inl ⟨hnil, rfl⟩), rfl⟩
      · exact ⟨_, (hnodes _).mpr (.inr ⟨spec, hmem, hpath, rfl⟩), hkind⟩
    obtain ⟨node, hnode, rfl⟩ := Option.map_eq_some_iff.mp hentry
    exact ⟨node, hnode, hkind⟩

/-- The calls a new builder accepts: declarable nodes under different paths, each after the
directory it goes to. -/
theorem exists_addNodes_iff (providerId : ProviderId) (specs : List PromiseNodeBody) :
    (∃ builder, (new providerId).addNodes specs = .ok builder) ↔
      (∀ spec ∈ specs, ∃ path, Declarable spec path) ∧
      (specs.map fun spec => normalizeRelativePath spec.relativePath).Nodup ∧
      ∀ before spec after path, specs = before ++ spec :: after →
        normalizeRelativePath spec.relativePath = .ok path →
        parentPath path = [] ∨ ∃ earlier ∈ before,
          normalizeRelativePath earlier.relativePath = .ok (parentPath path) ∧
            earlier.kind = .directory := by
  -- calls are made from the left, so the induction takes the last one off
  induction specs using List.reverseRecOn with
  | nil => simp [addNodes, pure, Except.pure]
  | append_singleton specs spec ih =>
      have hlast : (∃ builder, (new providerId).addNodes (specs ++ [spec]) = .ok builder) ↔
          ∃ builder, (new providerId).addNodes specs = .ok builder ∧
            ∃ next, builder.addBody spec = .ok next := by
        simp only [addNodes, List.foldlM_append, List.foldlM_cons, List.foldlM_nil, bind_pure,
          bind_eq_ok]
        rw [exists_comm]
        simp only [exists_and_left]
      rw [hlast]
      constructor
      · rintro ⟨builder, hbuilder, hadd⟩
        obtain ⟨hdeclarable, hnodup, hparents⟩ := ih.mp ⟨builder, hbuilder⟩
        obtain ⟨path, hspec, hfresh, hparent⟩ := exists_addBody_iff.mp hadd
        rw [mem_nodes_of_addNodes hbuilder] at hfresh
        rw [directory_of_addNodes hbuilder] at hparent
        refine ⟨?_, ?_, ?_⟩
        · intro other hother
          rcases List.mem_append.mp hother with hother | hother
          · exact hdeclarable other hother
          · exact ⟨path, List.mem_singleton.mp hother ▸ hspec⟩
        · rw [List.map_append, List.map_singleton, List.nodup_append]
          refine ⟨hnodup, List.nodup_singleton _, ?_⟩
          rintro other hother _ hmem rfl
          rw [List.mem_singleton.mp hmem, hspec.normal] at hother
          obtain ⟨earlier, hearlier, heq⟩ := List.mem_map.mp hother
          exact hfresh (.inr ⟨earlier, hearlier, heq⟩)
        · intro before other after otherPath hsplit hpath
          -- the call is the last one, or the hypothesis is about it
          rcases after.eq_nil_or_concat with rfl | ⟨init, last, rfl⟩
          · obtain ⟨rfl, hsame⟩ := List.append_inj' hsplit rfl
            obtain rfl := List.singleton_inj.mp hsame
            obtain rfl := Except.ok.inj (hspec.normal.symm.trans hpath)
            exact hparent
          · rw [List.concat_eq_append, ← List.cons_append, ← List.append_assoc] at hsplit
            exact hparents before other init otherPath (List.append_inj' hsplit rfl).1 hpath
      · rintro ⟨hdeclarable, hnodup, hparents⟩
        rw [List.map_append, List.map_singleton, List.nodup_append] at hnodup
        obtain ⟨hnodup, -, hdistinct⟩ := hnodup
        obtain ⟨builder, hbuilder⟩ := ih.mpr
          ⟨fun other hother => hdeclarable other (List.mem_append_left _ hother), hnodup,
            fun before other after otherPath hsplit => hparents before other (after ++ [spec])
              otherPath (by rw [hsplit, List.append_assoc, List.cons_append])⟩
        obtain ⟨path, hspec⟩ := hdeclarable spec (by simp)
        have hparent := hparents specs spec [] path rfl hspec.normal
        refine ⟨builder, hbuilder, exists_addBody_iff.mpr
          ⟨path, hspec, ?_, (directory_of_addNodes hbuilder).mpr hparent⟩⟩
        rw [mem_nodes_of_addNodes hbuilder]
        rintro (hnil | ⟨earlier, hearlier, heq⟩)
        · exact hspec.ne_root hnil
        · refine hdistinct _ (List.mem_map.mpr ⟨earlier, hearlier, heq⟩) _
            (List.mem_singleton.mpr rfl) hspec.normal.symm

/-- Calls that succeed in one order succeed in another exactly when it puts parents first. -/
theorem exists_addNodes_perm {providerId : ProviderId} {specs other : List PromiseNodeBody}
    {builder : PromiseBuilder} (h : (new providerId).addNodes specs = .ok builder)
    (hperm : other.Perm specs) :
    (∃ next, (new providerId).addNodes other = .ok next) ↔ ParentsFirst other := by
  obtain ⟨hdeclarable, hnodup, hparents⟩ :=
    (exists_addNodes_iff providerId specs).mp ⟨builder, h⟩
  rw [exists_addNodes_iff]
  constructor
  · rintro ⟨-, -, hother⟩ before node after path hsplit hpath
    rcases hother before node after path hsplit hpath with hroot | ⟨earlier, hmem, heq, -⟩
    · exact .inl hroot
    · exact .inr ⟨earlier, hmem, heq⟩
  · intro hfirst
    refine ⟨fun spec hspec => hdeclarable spec (hperm.mem_iff.mp hspec),
      (hperm.map _).nodup_iff.mpr hnodup, ?_⟩
    intro before node after path hsplit hpath
    rcases hfirst before node after path hsplit hpath with hroot | ⟨earlier, hmem, heq⟩
    · exact .inl hroot
    · refine .inr ⟨earlier, hmem, heq, ?_⟩
      -- in the first order the node went to a directory, and no other node has its path
      have hearlier : earlier ∈ specs := hperm.mem_iff.mp (by simp [hsplit, hmem])
      have hnode : node ∈ specs := hperm.mem_iff.mp (by simp [hsplit])
      obtain ⟨before', after', hsplit'⟩ := List.append_of_mem hnode
      rcases hparents before' node after' path hsplit' hpath with
        hroot | ⟨parent, hparent, heq', hkind⟩
      · obtain ⟨earlierPath, hdecl⟩ := hdeclarable earlier hearlier
        have hsame := Except.ok.inj (hdecl.normal.symm.trans heq)
        exact absurd (hsame.trans hroot) hdecl.ne_root
      · have hparent' : parent ∈ specs := by simp [hsplit', hparent]
        rw [List.inj_on_of_nodup_map hnodup hearlier hparent' (heq.trans heq'.symm)]
        exact hkind

/-- Two builders that declare a path alike hold it alike, except for the ids. -/
theorem core_eq_of_nodeSpec {first second : PromiseBuilder}
    (hfirst : TreeShape first.nodes first.children)
    (hsecond : TreeShape second.nodes second.children) {path : Text} (hne : path ≠ [])
    (hspec : (first.nodes[path]?).map nodeSpec = (second.nodes[path]?).map nodeSpec) :
    (first.nodes[path]?).map PromiseNode.core = (second.nodes[path]?).map PromiseNode.core := by
  cases hnode : first.nodes[path]? with
  | none =>
      rw [hnode, Option.map_none] at hspec
      rw [Option.map_eq_none_iff.mp hspec.symm]
  | some node =>
      rw [hnode, Option.map_some] at hspec
      obtain ⟨node', hnode', heq⟩ := Option.map_eq_some_iff.mp hspec.symm
      rw [hnode', Option.map_some, Option.map_some]
      -- the name and the parent are read off the path
      obtain ⟨-, names, hnormal, rfl⟩ := hfirst.path hnode
      rcases names.eq_nil_or_concat with rfl | ⟨dir, name, hconcat⟩
      · exact absurd rfl hne
      rw [List.concat_eq_append] at hconcat
      subst hconcat
      obtain ⟨hname, hparent, -⟩ := hfirst.parent hnormal hnode
      obtain ⟨hname', hparent', -⟩ := hsecond.parent hnormal hnode'
      simp only [nodeSpec, PromiseNodeBody.mk.injEq] at heq
      obtain ⟨hpath, hid, hkind, hattr⟩ := heq
      simp only [PromiseNode.core, hpath, hid, hkind, hattr, hname, hname', hparent, hparent']

/-- What a builder holds does not depend on the order of its calls, except for the ids. -/
theorem core_perm {providerId : ProviderId} {specs other : List PromiseNodeBody}
    {builder next : PromiseBuilder} (h : (new providerId).addNodes specs = .ok builder)
    (hnext : (new providerId).addNodes other = .ok next) (hperm : other.Perm specs)
    (path : Text) :
    (next.nodes[path]?).map PromiseNode.core = (builder.nodes[path]?).map PromiseNode.core := by
  have hspecs : (next.nodes[path]?).map nodeSpec = (builder.nodes[path]?).map nodeSpec := by
    apply Option.ext
    intro entry
    rw [nodes_of_addNodes hnext, nodes_of_addNodes h]
    simp only [hperm.mem_iff]
  by_cases hnil : path = []
  · rw [hnil, root_addNodes hnext, root_addNodes h]
  · exact core_eq_of_nodeSpec (shape_addNodes (shape_new providerId) hnext)
      (shape_addNodes (shape_new providerId) h) hnil hspecs

end PromiseBuilder

/-! ## The commit numbers the nodes again -/

namespace Runtime

/-- What is numbered again does not depend on the numbers it had. -/
theorem assignIds_congr (paths : List Text) :
    ∀ (runtime : Runtime) {first second : BTreeMap Text PromiseNode},
      (∀ path : Text, (first[path]?).map PromiseNode.withoutIds =
        (second[path]?).map PromiseNode.withoutIds) →
      (∀ path : Text, path ∉ paths → first[path]? = second[path]?) →
      runtime.assignIds first paths = runtime.assignIds second paths := by
  induction paths with
  | nil =>
      intro runtime first second _ hsame
      rw [Std.ExtTreeMap.ext_getElem? fun path => hsame path List.not_mem_nil]
  | cons path rest ih =>
      intro runtime first second hblank hsame
      unfold assignIds
      cases runtime.allocateNodeId with
      | mk nodeId counted =>
      cases nodeId with
      | error status => rfl
      | ok nodeId =>
      dsimp only
      cases counted.allocateInode with
      | mk inode counted =>
      cases inode with
      | error status => rfl
      | ok inode =>
      dsimp only
      -- at `path` both maps now hold the same node
      have hrenumber : ∀ {node node' : PromiseNode}, node.withoutIds = node'.withoutIds →
          { node with nodeId := nodeId, inode := inode } =
            { node' with nodeId := nodeId, inode := inode } := by
        intro node node' heq
        simpa [PromiseNode.withoutIds] using heq
      have hhere : ((first[path]?).map fun node =>
          { node with nodeId := nodeId, inode := inode }) =
            (second[path]?).map fun node => { node with nodeId := nodeId, inode := inode } := by
        have heq := hblank path
        cases hfirst : first[path]? with
        | none =>
            rw [hfirst, Option.map_none] at heq
            rw [Option.map_eq_none_iff.mp heq.symm]
        | some node =>
            rw [hfirst, Option.map_some] at heq
            obtain ⟨node', hnode', heq⟩ := Option.map_eq_some_iff.mp heq.symm
            rw [hnode', Option.map_some, Option.map_some, hrenumber heq]
      apply ih
      · intro other
        simp only [Std.ExtTreeMap.getElem?_modify, Std.LawfulEqCmp.compare_eq_iff_eq]
        split
        · rw [hhere]
        · exact hblank other
      · intro other hother
        simp only [Std.ExtTreeMap.getElem?_modify, Std.LawfulEqCmp.compare_eq_iff_eq]
        split
        · exact hhere
        · rename_i hne
          exact hsame other fun hmem => (List.mem_cons.mp hmem).elim
            (fun heq => hne heq.symm) hother

/-- Builders with the same tree, except for the ids, are committed alike. -/
theorem commitPromise_congr (runtime : Runtime) {first second : PromiseBuilder}
    (hprovider : first.providerId = second.providerId)
    (hchildren : first.children = second.children)
    (hnodes : ∀ path : Text, (first.nodes[path]?).map PromiseNode.withoutIds =
      (second.nodes[path]?).map PromiseNode.withoutIds) :
    runtime.commitPromise first = runtime.commitPromise second := by
  have hmap : (first.nodes.map fun _ => PromiseNode.withoutIds) =
      second.nodes.map fun _ => PromiseNode.withoutIds := by
    apply Std.ExtTreeMap.ext_getElem?
    intro path
    rw [Std.ExtTreeMap.getElem?_map, Std.ExtTreeMap.getElem?_map]
    exact hnodes path
  have hkeys : first.nodes.keys = second.nodes.keys := by
    rw [← Std.ExtTreeMap.keys_map, hmap, Std.ExtTreeMap.keys_map]
  have hassign : ∀ counted : Runtime, counted.assignIds first.nodes first.nodes.keys =
      counted.assignIds second.nodes second.nodes.keys := by
    intro counted
    rw [← hkeys]
    refine assignIds_congr _ counted hnodes ?_
    intro path hpath
    have hfirst := hpath
    rw [Std.ExtTreeMap.mem_keys] at hfirst
    rw [hkeys, Std.ExtTreeMap.mem_keys] at hpath
    rw [Std.ExtTreeMap.getElem?_eq_none hfirst, Std.ExtTreeMap.getElem?_eq_none hpath]
  unfold commitPromise assignRuntimeIds PromiseBuilder.finish
  simp only [hassign, hprovider, hchildren]

end Runtime

namespace PromiseBuilder

/-- Of nodes that have no copy, only the ids are blanked. -/
theorem withoutIds_eq_of_core {first second : PromiseBuilder} (hfirst : first.Unmaterialized)
    (hsecond : second.Unmaterialized) {path : Text}
    (hcore : (first.nodes[path]?).map PromiseNode.core =
      (second.nodes[path]?).map PromiseNode.core) :
    (first.nodes[path]?).map PromiseNode.withoutIds =
      (second.nodes[path]?).map PromiseNode.withoutIds := by
  have hsame : ∀ {builder : PromiseBuilder}, builder.Unmaterialized →
      (builder.nodes[path]?).map PromiseNode.withoutIds =
        (builder.nodes[path]?).map PromiseNode.core := by
    intro builder hnone
    cases hnode : builder.nodes[path]? with
    | none => rfl
    | some node => simp [PromiseNode.withoutIds, PromiseNode.core, hnone hnode]
  rw [hsame hfirst, hsame hsecond, hcore]

/-- Calls that all succeed on a new builder also succeed in another order exactly when it puts
parents first, and then both builders are committed as the same promise, in any runtime. -/
theorem commitPromise_perm {providerId : ProviderId} {calls other : List PromiseNodeBody}
    (hcalls : (new providerId).AllSucceed calls) (hperm : other.Perm calls) :
    ((new providerId).AllSucceed other ↔ ParentsFirst other) ∧
      ((new providerId).AllSucceed other → ∀ runtime : Runtime,
        runtime.commitPromise ((new providerId).runCalls other) =
          runtime.commitPromise ((new providerId).runCalls calls)) := by
  rw [allSucceed_iff] at hcalls
  constructor
  · rw [← exists_addNodes_perm hcalls hperm, allSucceed_iff]
    constructor
    · exact fun hother => ⟨_, hother⟩
    · rintro ⟨next, hnext⟩
      rw [runCalls_eq_of_addNodes hnext]
      exact hnext
  · intro hother runtime
    rw [allSucceed_iff] at hother
    have hcore := core_perm hcalls hother hperm
    have hshape := shape_addNodes (shape_new providerId) hcalls
    have hshape' := shape_addNodes (shape_new providerId) hother
    obtain ⟨-, -, -, -, hprovider⟩ := addNodes_specs hcalls
    obtain ⟨-, -, -, -, hprovider'⟩ := addNodes_specs hother
    refine runtime.commitPromise_congr (hprovider'.trans hprovider.symm)
      (hshape.children_eq hshape' hcore) ?_
    intro path
    exact withoutIds_eq_of_core (unmaterialized_addNodes (unmaterialized_new providerId) hother)
      (unmaterialized_addNodes (unmaterialized_new providerId) hcalls) (hcore path)

/-- A file at the top, declared before or after a directory and its file. -/
theorem commitPromise_perm_three :
    let directory : PromiseNodeBody := ⟨"d".toList, "1".toList, .directory, ⟨0o755, 0, 0⟩⟩
    let inside : PromiseNodeBody := ⟨"d/f".toList, "2".toList, .file, ⟨0o644, 3, 0⟩⟩
    let outside : PromiseNodeBody := ⟨"c".toList, "3".toList, .file, ⟨0o644, 5, 0⟩⟩
    (new 1).AllSucceed [directory, inside, outside] ∧
      ∀ runtime : Runtime,
        runtime.commitPromise ((new 1).runCalls [outside, directory, inside]) =
          runtime.commitPromise ((new 1).runCalls [directory, inside, outside]) := by
  intro directory inside outside
  have hcalls : (new 1).AllSucceed [directory, inside, outside] := by
    refine ⟨by decide +kernel, by decide +kernel, by decide +kernel, trivial⟩
  have hother : (new 1).AllSucceed [outside, directory, inside] := by
    refine ⟨by decide +kernel, by decide +kernel, by decide +kernel, trivial⟩
  have hperm : [outside, directory, inside].Perm [directory, inside, outside] := by
    decide +kernel
  exact ⟨hcalls, (commitPromise_perm hcalls hperm).2 hother⟩

end PromiseBuilder

end FusePromise
