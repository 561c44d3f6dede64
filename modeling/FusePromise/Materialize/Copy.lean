import FusePromise.Materialize.Content

/-!
# A run that is through has made a copy

At the end of a run that has succeeded there is a copy of every node of the subtree
at its place below the root: a directory, or a file with the whole content, with the
declared mode and date.  Everything else is as it was, temporary files are gone, and
the nodes of the subtree are the ones that know of their copies.

The bytes are those of the content as long as the chunks read from earlier copies
are; every chunk read from a copy is on record.
-/

namespace FusePromise

open Machine ByteMap Program Unix World

/-- What a copy of the node holds. -/
def PromiseNode.body (content : ℕ → UInt8) (node : PromiseNode) : Body :=
  match node.kind with
  | .directory => .directory
  | .file => .file (slice content 0 node.attr.size.toNat)

/-- The object is a copy of the node. -/
structure IsCopy (content : ℕ → UInt8) (node : PromiseNode) (object : Object) : Prop where
  body : object.body = node.body content
  mode : object.mode = node.attr.mode &&& 0o7777
  mtime : object.mtime = node.attr.mtimeNsec

/-- The node that is `below` the node at the given names. -/
def PromiseTree.NodeBelow (tree : PromiseTree) (names below : List Text) (node : PromiseNode) :
    Prop :=
  NormalNames (names ++ below) ∧ tree.nodes[joinNames (names ++ below)]? = some node

/-- The subtree at the given names has been copied to `rootName` in the target directory. -/
structure SubtreeCopied (content : Content) (promiseId : Text) (tree : PromiseTree)
    (names : List Text) (targetPath : Text) (targetDir : Loc) (rootName : Text)
    (world last : World) : Prop where
  copy : ∀ {below : List Text} {node : PromiseNode}, tree.NodeBelow names below node →
    last.fs.locate (targetBelow targetPath below) = .ok (placeBelow targetDir rootName below) ∧
      ∃ object, last.fs.get (placeBelow targetDir rootName below) = some object ∧
        IsCopy (content ⟨promiseId, joinNames (names ++ below)⟩) node object
  marked : ∀ {below : List Text} {node : PromiseNode}, tree.NodeBelow names below node →
    last.runtime.Stores promiseId (joinNames (names ++ below))
      { node with materializedPath := some (targetBelow targetPath below) }
  /-- Elsewhere nothing has changed, the date of the target directory apart. -/
  elsewhere : ∀ {loc : Loc}, (∀ below node, tree.NodeBelow names below node →
      placeBelow targetDir rootName below ≠ loc) →
    last.fs.held loc = world.fs.held loc ∧
      (loc ≠ targetDir → last.fs.get loc = world.fs.get loc)
  /-- Other nodes keep the copies they have, and those that are new have none. -/
  unmarked : ∀ {otherId path : Text} {node : PromiseNode},
    ¬ (otherId = promiseId ∧ ∃ below node, tree.NodeBelow names below node ∧
      path = joinNames (names ++ below)) →
    (world.runtime.Stores otherId path node → last.runtime.Stores otherId path node) ∧
      (last.runtime.Stores otherId path node → world.runtime.Stores otherId path node ∨
        otherId ∉ world.runtime.promises ∧ node.materializedPath = none)

/-! ## Whole files -/

/-- As long as the chunks of earlier copies are chunks of the content, all bytes are; the first
`known` chunks on record belong to earlier runs. -/
def contentIf (content : Content) (promiseId : Text) (known : ℕ) : Trust where
  Byte copied relativePath i v := (∀ chunk ∈ copied.drop known, chunk.Honest content) →
    v = content ⟨promiseId, relativePath⟩ i
  mono := by
    rintro copied _ relativePath i v ⟨more, rfl⟩ hbyte hhonest
    refine hbyte fun chunk hchunk => hhonest chunk ?_
    rw [List.drop_append]
    exact List.mem_append_left _ hchunk

theorem eq_slice_of_whole {trust : Trust} {copied : List CopiedChunk} {entry : MaterializeEntryPlan}
    {content : ℕ → UInt8} {bytes : List UInt8}
    (hbyte : ∀ {i v}, trust.Byte copied entry.relativePath i v → v = content i)
    (h : trust.Whole copied entry bytes) : bytes = slice content 0 entry.size.toNat := by
  refine List.ext_getElem? fun i => ?_
  rw [getElem?_slice, Nat.zero_add]
  split
  · rename_i hi
    have hget := List.getElem?_eq_getElem (h.length.symm ▸ hi)
    rw [hget, ← hbyte (h.byte hget)]
  · rename_i hi
    exact List.getElem?_eq_none (by rw [h.length]; omega)

namespace Daemon

section Finished

variable {content : Content} {env : Environment} {first world : World}
  {entries : List MaterializeEntryPlan} {layout : Layout first.fs.held entries} {trust : Trust}
  {promiseId : Text} {node : PromiseNode} {targetPath : Text}

/-- The object at the place of an entry is a copy of the node. -/
theorem Finished.isCopy (h : Finished env layout trust promiseId world)
    (hmem : node.entryAt targetPath ∈ entries)
    (hbyte : ∀ {i v}, trust.Byte world.copied node.relativePath i v →
      v = content ⟨promiseId, node.relativePath⟩ i) :
    ∃ object, world.fs.get (layout.loc (node.entryAt targetPath)) = some object ∧
      IsCopy (content ⟨promiseId, node.relativePath⟩) node object := by
  cases hkind : node.kind with
  | directory =>
      obtain ⟨object, hobject, hbody, hmode, hmtime⟩ := h.dressed hmem hkind
      exact ⟨object, hobject, by rw [hbody, PromiseNode.body, hkind], hmode, hmtime⟩
  | file =>
      obtain ⟨object, hwritten⟩ := h.written hmem hkind
      obtain ⟨bytes, hbody, hwhole⟩ := hwritten.body
      have hslice := eq_slice_of_whole hbyte hwhole
      refine ⟨object, hwritten.get, ?_, hwritten.mode, hwritten.mtime⟩
      rw [hbody, hslice, PromiseNode.body, hkind]
      rfl

end Finished

section Begun

variable {content : Content} {env : Environment} {request : MaterializeBody}
  {world first last : World} {plan : MaterializePlan} {tree : PromiseTree} {names : List Text}
  {rootName : Text} {nodes : List PromiseNode} {targetDir : Loc}

theorem Begun.entry_mem (h : Begun env request world plan first tree names rootName nodes targetDir)
    {below : List Text} {node : PromiseNode} (hbelow : tree.NodeBelow names below node) :
    node.entryAt (targetBelow plan.targetPath below) ∈ plan.entries :=
  h.planned.mem_entries.mpr ⟨node, below, hbelow.1, hbelow.2, rfl⟩

theorem Begun.relativePath
    (h : Begun env request world plan first tree names rootName nodes targetDir)
    {below : List Text} {node : PromiseNode} (hbelow : tree.NodeBelow names below node) :
    node.relativePath = joinNames (names ++ below) :=
  (h.planned.shape.path hbelow.2).1

theorem Begun.normalize (h : Begun env request world plan first tree names rootName nodes targetDir)
    {entry : MaterializeEntryPlan} (hmem : entry ∈ plan.entries) :
    normalizeRelativePath entry.relativePath = .ok entry.relativePath := by
  obtain ⟨node, below, hnormal, hstored, rfl⟩ := h.planned.mem_entries.mp hmem
  rw [PromiseNode.entryAt, (h.planned.shape.path hstored).1]
  exact h.planned.shape.normalize (BTreeMap.mem_of_getElem? hstored)

theorem Begun.cacheHolds
    (h : Begun env request world plan first tree names rootName nodes targetDir)
    (hwf : world.runtime.WellFormed) (henv : env.Honest content)
    (hcache : CacheHolds content world.runtime) : CacheHolds content first.runtime := by
  obtain ⟨ops, hops, hruntime⟩ := h.runtime
  rw [hruntime]
  exact hcache.run hwf fun op hop => henv.op (hops op hop)

/-- If all chunks of earlier copies turn out to be chunks of the content, all bytes are bytes of
the content. -/
theorem Begun.readsChunks
    (h : Begun env request world plan first tree names rootName nodes targetDir)
    (hwf : world.runtime.WellFormed) (henv : env.Honest content)
    (hcache : CacheHolds content world.runtime) (layout : Layout first.fs.held plan.entries) :
    ∀ entry ∈ plan.entries, ReadsChunks layout
      (contentIf content plan.promiseId world.copied.length) env plan.promiseId entry := by
  intro entry hmem
  refine readsChunks_of_source henv h.wellFormed (h.cacheHolds hwf henv hcache) (h.normalize hmem)
    (fun _ _ _ => rfl) ?_
  rintro offset bytes middle later hunmarked - hreads i v hv hhonest
  obtain ⟨_, _, _, _, _, -, -, -, -, -, -, before, hbefore, hlater⟩ := hreads
  have hknown : world.copied.length ≤ before.length :=
    ((h.copied.trans hunmarked.copied).trans hbefore).length_le
  have hslice :
      bytes = slice (content ⟨plan.promiseId, entry.relativePath⟩) offset bytes.length := by
    refine hhonest ⟨plan.promiseId, entry.relativePath, offset, bytes⟩ ?_
    rw [hlater, List.drop_append_of_le_length hknown]
    simp
  have hbelieved : (contentIf content plan.promiseId world.copied.length).Byte later.copied
      entry.relativePath (offset + i) v := chunk_of_slice (fun _ _ => rfl) hslice hv
  exact hbelieved hhonest

/-- A run that is through has copied the subtree. -/
theorem Begun.subtreeCopied
    (h : Begun env request world plan first tree names rootName nodes targetDir)
    (hwf : world.runtime.WellFormed) {layout : Layout first.fs.held plan.entries} {trust : Trust}
    (htop : layout.targetDir = targetDir)
    (hloc : ∀ entry, layout.loc entry = placeBelow targetDir rootName (namesBelow names entry))
    (hfinished : Finished env layout trust plan.promiseId last)
    (hbyte : ∀ {relativePath i v}, trust.Byte last.copied relativePath i v →
      v = content ⟨plan.promiseId, relativePath⟩ i) :
    SubtreeCopied content plan.promiseId tree names plan.targetPath targetDir rootName world
      last := by
  have hplace : ∀ {below : List Text} {node : PromiseNode}, tree.NodeBelow names below node →
      layout.loc (node.entryAt (targetBelow plan.targetPath below)) =
        placeBelow targetDir rootName below := by
    intro below node hbelow
    rw [hloc, h.planned.namesBelow_entryAt hbelow.1 hbelow.2]
  obtain ⟨runtime, hgrows, hmarks⟩ := hfinished.marks h.wellFormed
  have hsince := (h.grows hwf).trans hgrows
  refine ⟨?_, ?_, ?_, ?_⟩
  · intro below node hbelow
    have hmem := h.entry_mem hbelow
    obtain ⟨object, hobject, hcopy⟩ := hfinished.isCopy hmem hbyte
    -- a copy is no link, so the path leads to it
    have hlink : ∀ target, object.body ≠ .symlink target := by
      intro target
      rw [hcopy.body, PromiseNode.body]
      cases node.kind <;> simp
    have hlocate := FileSystem.locate_of_enters (hfinished.enters hmem) hobject hlink
    rw [hplace hbelow] at hobject
    rw [h.relativePath hbelow] at hcopy
    exact ⟨hlocate.trans (congrArg _ (hplace hbelow)), object, hobject, hcopy⟩
  · intro below node hbelow
    have hstored := hgrows.forth (h.stored hbelow.2)
    rw [← h.relativePath hbelow] at hstored ⊢
    exact hmarks.marked (h.entry_mem hbelow) hstored
  · intro loc helse
    have hentries : ∀ entry ∈ plan.entries, layout.loc entry ≠ loc := by
      intro entry hmem
      obtain ⟨node, below, hnormal, hstored, rfl⟩ := h.planned.mem_entries.mp hmem
      rw [hplace ⟨hnormal, hstored⟩]
      exact helse below node ⟨hnormal, hstored⟩
    rw [← h.fs]
    exact ⟨hfinished.held_eq hentries, fun hne => hfinished.get_eq (htop ▸ hne) hentries⟩
  · intro otherId path node hother
    have hsame := @hmarks.other otherId path node (by
      rintro ⟨rfl, hpath⟩
      obtain ⟨entry, hmem, rfl⟩ := List.mem_map.mp hpath
      obtain ⟨found, below, hnormal, hstored, rfl⟩ := h.planned.mem_entries.mp hmem
      exact hother ⟨rfl, below, found, ⟨hnormal, hstored⟩, h.relativePath ⟨hnormal, hstored⟩⟩)
    exact ⟨fun hstored => hsame.mpr (hsince.forth hstored),
      fun hstored => hsince.back (hsame.mp hstored)⟩

end Begun

/-- Every way a request can succeed: the providers answer with stretches of the content, short
ones too, and may be gone; chunks may come from the cache, and from earlier copies as long as
these hold the content.  Then the subtree has been copied. -/
theorem materializeNodeInState_copies (content : Content) {calls : List RuntimeCall}
    (hcalls : ∀ call ∈ calls, call.Honest content) {env : Environment} (henv : env.Honest content)
    (request : MaterializeBody) {world last : World}
    (hruntime : world.runtime = Runtime.new.performAll calls)
    {reports : List MaterializeProgress} {progress : MaterializeProgress}
    (hrun : (materializeNodeInState env request world).Path reports (.ok progress, last))
    (hcopied : ∀ chunk ∈ last.copied.drop world.copied.length, chunk.Honest content) :
    ∃ plan first tree names rootName targetDir,
      planRequest env request world = (.ok plan, first) ∧
      world.mount.resolveVisiblePath request.sourcePath = .ok (plan.promiseId, joinNames names) ∧
      (env.planningRuntime world).promises[plan.promiseId]? = some tree ∧
      (∃ node, tree.NodeBelow names [] node) ∧
      world.fs.resolve request.targetDir = .ok targetDir ∧
      plan.targetPath = pathJoin request.targetDir rootName ∧
      SubtreeCopied content plan.promiseId tree names plan.targetPath targetDir rootName world
        last := by
  have hwf : world.runtime.WellFormed := hruntime ▸ (Runtime.reachable_spec calls).1
  have hcache : CacheHolds content world.runtime := hruntime ▸ CacheHolds.performAll hcalls
  rcases materializeNodeInState_cases hwf hrun with ⟨⟨status, hresult⟩, -⟩ |
    ⟨plan, first, tree, names, rootName, nodes, targetDir, layout, hplan, hbegun, htop, hloc, hpath⟩
  · simp at hresult
  have hfinished : Finished env layout _ plan.promiseId last :=
    hbegun.outcome layout (hbegun.readsChunks hwf henv hcache layout) hpath
  refine ⟨plan, first, tree, names, rootName, targetDir, hplan, hbegun.resolved, hbegun.committed,
    ?_, hbegun.fs ▸ hbegun.resolve, hbegun.planned.target,
    hbegun.subtreeCopied hwf htop hloc hfinished fun hbyte => hbyte hcopied⟩
  obtain ⟨node, hnode⟩ := Option.isSome_iff_exists.mp
    (Std.ExtTreeMap.mem_iff_isSome_getElem?.mp hbegun.planned.stored)
  exact ⟨node, by simpa using hbegun.planned.normal, by simpa using hnode⟩

end Daemon

/-- The calls that promise a file of the given size. -/
def promiseFile (size : UInt64) : List RuntimeCall :=
  [.op .registerProvider, .commitBuilder 1 [⟨"f".toList, "n1".toList, .file, ⟨0o644, size, 0⟩⟩]]

def World.promisedFile (size : UInt64) (fs : FileSystem) : World :=
  .fresh (Runtime.new.performAll (promiseFile size)) ⟨some "/m".toList, true⟩ fs

/-- The provider answers with two bytes at a time. -/
def Environment.answering (content : Content) : Environment :=
  { Environment.undisturbed with
    answer := fun _ => FusePromise.answering content fun request => min 2 request.length }

theorem Environment.answering_honest (content : Content) :
    (Environment.answering content).Honest content where
  op := by
    rintro op ⟨tick, other, hother, -⟩
    simp [Environment.answering, Environment.undisturbed] at hother
  answer := by
    intro tick request response hanswer _
    obtain rfl := Except.ok.inj hanswer
    exact ⟨_, min_le_right _ _, rfl⟩

namespace Daemon

/-- A file of three bytes, in two chunks. -/
theorem materializeNodeInState_copies_file :
    ∃ reports progress last promiseId tree names targetPath targetDir rootName,
      (materializeNodeInState (.answering fun _ i => i.toUInt8)
        ⟨"/m/promise-1/f".toList, "/".toList, .fail⟩
        (.promisedFile 3 .empty)).Path reports (.ok progress, last) ∧
      SubtreeCopied (fun _ i => i.toUInt8) promiseId tree names targetPath targetDir rootName
        (.promisedFile 3 .empty) last := by
  obtain ⟨reports, ⟨result, last⟩, hpath, hok, hnone⟩ : ∃ reports final,
      (materializeNodeInState (.answering fun _ i => i.toUInt8)
        ⟨"/m/promise-1/f".toList, "/".toList, .fail⟩
        (.promisedFile 3 .empty)).Path reports final ∧ final.1.isOk = true ∧ final.2.copied = [] :=
    ⟨_, _, Tree.path_answered (.ok (some .materializeContinue)) _, by decide +kernel,
      by decide +kernel⟩
  obtain _ | progress := result
  · simp [Except.isOk, Except.toBool] at hok
  have hcalls : ∀ call ∈ promiseFile 3, call.Honest fun _ i => i.toUInt8 := by
    simp [promiseFile, RuntimeCall.Honest, RuntimeOp.Honest]
  obtain ⟨plan, first, tree, names, rootName, targetDir, -, -, -, -, -, -, hcopy⟩ :=
    materializeNodeInState_copies _ hcalls (Environment.answering_honest _) _ rfl hpath
      (by simp [show last.copied = [] from hnone])
  exact ⟨reports, progress, last, _, tree, names, _, targetDir, rootName, hpath, hcopy⟩

end Daemon

end FusePromise
