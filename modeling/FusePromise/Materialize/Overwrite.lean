import FusePromise.Materialize.Copy
import FusePromise.Materialize.Failures
import FusePromise.Materialize.Stuck

/-!
# A failed run that overwrites

A run under `Overwrite` uses the directories it finds, and gives them the modes that
are declared for them before it is through.  If it fails after that, the cleanup has
to go through these directories with their new modes to what the run has made.

Whatever happens, what was there is there, and a file that was replaced holds the
whole content.  Nothing new is left as long as the declared modes keep open what the
run has to go through; a directory that is declared read-only is enough to leave the
new files in it behind.

The condition is exact.  If some run for the nodes makes all its targets, and one of
the modes that follow shuts it out, then the same run with one more failure leaves
something new.
-/

namespace FusePromise

open Machine ByteMap Program Unix World

/-! ## The targets of the nodes -/

/-- The names of a node below the source. -/
def PromiseNode.namesBelow (names : List Text) (node : PromiseNode) : List Text :=
  (splitNames node.relativePath).drop names.length

/-- The directories of the subtree get their declared modes from the last to the first, as far as
they can be opened, and no mode stands in the way: where a target was missing in a directory that
was there, and could be made, it still could. -/
def KeepsAccess (fs : FileSystem) (targetPath : Text) (names : List Text) (rootName : Text)
    (targetDir : Loc) (nodes : List PromiseNode) : Prop :=
  StaysAccessible fs (fun node => targetBelow targetPath (node.namesBelow names))
    (fun node => placeBelow targetDir rootName (node.namesBelow names))
    (fun node => node.attr.mode &&& 0o7777) nodes fs
    (nodes.filter fun node => node.kind = .directory).reverse

namespace Planned

variable {request : MaterializeBody} {plan : MaterializePlan} {tree : PromiseTree}
  {names : List Text} {rootName : Text} {nodes : List PromiseNode}

/-- The entries are the nodes, each with its target. -/
theorem entries_eq (h : Planned request plan tree names rootName nodes) :
    plan.entries = nodes.map fun node =>
      node.entryAt (targetBelow plan.targetPath (node.namesBelow names)) := by
  rw [← List.map_id plan.entries]
  refine map_of_mapM_eq_ok h.entries fun node hmem entry hentry => ?_
  obtain ⟨below, hnormal, hstored⟩ := h.preorder.mem_iff.mp hmem
  have hpath := (h.shape.path hstored).1
  have hbelow : node.namesBelow names = below := by
    rw [PromiseNode.namesBelow, hpath, splitNames_joinNames hnormal, List.drop_left]
  rw [entryPlan_below hnormal hpath] at hentry
  rw [hbelow]
  exact (Except.ok.inj hentry).symm

/-- Every date can be set. -/
theorem mtimeNsec_nonneg (h : Planned request plan tree names rootName nodes)
    {entry : MaterializeEntryPlan} (hmem : entry ∈ plan.entries) : 0 ≤ entry.mtimeNsec := by
  obtain ⟨node, below, -, hstored, rfl⟩ := h.mem_entries.mp hmem
  have hvalid := h.shape.attr hstored
  unfold validateAttr at hvalid
  split_ifs at hvalid with hmode hmtime hsize
  exact not_lt.mp hmtime

end Planned

namespace Daemon

/-- What a request that does not rename asks for: the nodes of a subtree, the name of the copy,
and the directory it is to lie in. -/
structure Asks (env : Environment) (request : MaterializeBody) (world : World) (promiseId : Text)
    (names : List Text) (nodes : List PromiseNode) (rootName : Text) (targetDir : Loc) : Prop where
  normal : NormalNames names
  resolved : world.mount.resolveVisiblePath request.sourcePath = .ok (promiseId, joinNames names)
  listed : ∃ tree, (env.planningRuntime world).promises[promiseId]? = some tree ∧
    tree.subtreeNodes (joinNames names) = .ok nodes
  called : ∃ root, nodes.head? = some root ∧ materializeTargetName promiseId root = .ok rootName
  targetDir : world.fs.resolve request.targetDir = .ok targetDir

/-- For some environment, and some answers of the client, the run makes all its targets and gets
to the modes of the directories. -/
def Completes (request : MaterializeBody) (world : World) (promiseId : Text) (names : List Text)
    (nodes : List PromiseNode) (rootName : Text) (targetDir : Loc) : Prop :=
  ∃ env plan first reports made last,
    Asks env request world promiseId names nodes rootName targetDir ∧
    planRequest env request world = (.ok plan, first) ∧
    (makeTargets env plan first).Path reports (.ok made, last)

section Begun

variable {content : Content} {env : Environment} {request : MaterializeBody}
  {world first last : World} {plan : MaterializePlan} {tree : PromiseTree} {names : List Text}
  {rootName : Text} {nodes : List PromiseNode} {targetDir : Loc}

theorem Begun.asks (h : Begun env request world plan first tree names rootName nodes targetDir)
    (hpolicy : request.conflictPolicy ≠ .rename) :
    Asks env request world plan.promiseId names nodes rootName targetDir :=
  ⟨h.planned.normal, h.resolved, ⟨tree, h.committed, h.planned.listed⟩, h.called hpolicy,
    h.fs ▸ h.resolve⟩

/-- The environment and the request settle what is asked for. -/
theorem Asks.unique {promiseId promiseId' : Text} {names' : List Text} {nodes' : List PromiseNode}
    {rootName' : Text} {targetDir' : Loc}
    (h : Asks env request world promiseId names nodes rootName targetDir)
    (h' : Asks env request world promiseId' names' nodes' rootName' targetDir') :
    promiseId = promiseId' ∧ names = names' ∧ nodes = nodes' ∧ rootName = rootName' ∧
      targetDir = targetDir' := by
  obtain ⟨rfl, hjoined⟩ := Prod.mk.inj (Except.ok.inj (h.resolved.symm.trans h'.resolved))
  obtain rfl := joinNames_injective h.normal h'.normal hjoined
  obtain ⟨tree, htree, hnodes⟩ := h.listed
  obtain ⟨tree', htree', hnodes'⟩ := h'.listed
  obtain rfl := Option.some.inj (htree.symm.trans htree')
  obtain rfl := Except.ok.inj (hnodes.symm.trans hnodes')
  obtain ⟨root, hroot, hname⟩ := h.called
  obtain ⟨root', hroot', hname'⟩ := h'.called
  obtain rfl := Option.some.inj (hroot.symm.trans hroot')
  obtain rfl := Except.ok.inj (hname.symm.trans hname')
  exact ⟨rfl, rfl, rfl, rfl, Except.ok.inj (h.targetDir.symm.trans h'.targetDir)⟩

/-- The modes of the entries are those of the nodes. -/
theorem Begun.keepsAccess_iff
    (h : Begun env request world plan first tree names rootName nodes targetDir)
    {layout : Layout first.fs.held plan.entries}
    (hloc : ∀ entry, layout.loc entry = placeBelow targetDir rootName (namesBelow names entry)) :
    layout.KeepsAccess ↔ KeepsAccess world.fs (pathJoin request.targetDir rootName) names rootName
      targetDir nodes := by
  have hplace : layout.loc = fun entry =>
      placeBelow targetDir rootName (namesBelow names entry) := funext hloc
  rw [Layout.KeepsAccess, Layout.StaysAccessible, Layout.withModes, FileSystem.chmodAll,
    List.foldr_nil, hplace, h.planned.entries_eq, List.filter_map, ← List.map_reverse,
    staysAccessible_map, ← h.fs, ← h.planned.target]
  rfl

/-- What was there is there, and a file that was replaced holds the whole content. -/
theorem Begun.kept (h : Begun env request world plan first tree names rootName nodes targetDir)
    {layout : Layout first.fs.held plan.entries} {trust : Trust}
    (hloc : ∀ entry, layout.loc entry = placeBelow targetDir rootName (namesBelow names entry))
    (hremains : Remains layout trust last.copied last.fs)
    (hbyte : ∀ {relativePath i v}, trust.Byte last.copied relativePath i v →
      v = content ⟨plan.promiseId, relativePath⟩ i) {loc : Loc} {object : Object}
    (hobject : world.fs.get loc = some object) :
    ∃ later, last.fs.get loc = some later ∧ (later.body = object.body ∨
      ∃ node ∈ nodes, node.kind = .file ∧
        placeBelow targetDir rootName (node.namesBelow names) = loc ∧
        (∃ old, object.body = .file old) ∧
        later.body = node.body (content ⟨plan.promiseId, node.relativePath⟩)) := by
  rw [← h.fs] at hobject
  obtain ⟨held, hheld, hbecomes⟩ := hremains (FileSystem.held_of_get hobject)
  obtain ⟨later, hlater, rfl⟩ := FileSystem.get_of_held hheld
  refine ⟨later, hlater, ?_⟩
  generalize hdated : later.setMtime 0 = now at hbecomes
  have hbody : later.body = now.body := hdated ▸ rfl
  cases hbecomes with
  | same => exact Or.inl hbody
  | mode => exact Or.inl hbody
  | @content entry _ bytes old hmem hkind hplace hfile hnow hwhole =>
      rw [h.planned.entries_eq] at hmem
      obtain ⟨node, hnode, rfl⟩ := List.mem_map.mp hmem
      refine Or.inr ⟨node, hnode, hkind, (hloc _).symm.trans hplace, ⟨old, hfile⟩, ?_⟩
      rw [hbody, hnow, eq_slice_of_whole hbyte hwhole, PromiseNode.body,
        show node.kind = .file from hkind]
      rfl

end Begun

section Failed

variable {env : Environment} {request : MaterializeBody} {world first last : World}
  {plan : MaterializePlan} {promiseId : Text} {names : List Text} {rootName : Text}
  {nodes : List PromiseNode} {targetDir : Loc} {reports : List MaterializeProgress}
  {error : MaterializeOperationError}

/-- Nothing new is left if the run failed before everything was made, or if the modes keep the
way open. -/
theorem get_eq_none_of_failed (hpolicy : request.conflictPolicy = .overwrite)
    (hwf : world.runtime.WellFormed)
    (hasks : Asks env request world promiseId names nodes rootName targetDir)
    (haccess : Completes request world promiseId names nodes rootName targetDir →
      KeepsAccess world.fs (pathJoin request.targetDir rootName) names rootName targetDir nodes)
    (hrun : (materializeNodeInState env request world).Path reports (.error error, last))
    {loc : Loc} (hnone : world.fs.get loc = none) : last.fs.get loc = none := by
  rcases materializeNodeInState_cases hwf hrun with ⟨-, hkeeps⟩ |
    ⟨plan, first, tree, names', rootName', nodes', targetDir', layout, hplan, hbegun, -, hloc,
      hpath⟩
  · rw [hkeeps.fs]
    exact hnone
  obtain ⟨hid, rfl, rfl, rfl, rfl⟩ := hasks.unique (hbegun.asks (by simp [hpolicy]))
  rw [← hbegun.fs] at hnone
  have hsplit := hpath
  rw [executePlan_eq] at hsplit
  obtain ⟨front, back, ⟨result, middle⟩, -, hfront, hback⟩ := Tree.path_bind.mp hsplit
  cases result with
  | error error' =>
      -- the targets were not all made, and no mode was changed
      cases hback
      have hmake := @triple_makeTargets first plan.entries layout anyBytes True env plan rfl
        (fun entry _ => readsChunks_anyBytes plan.promiseId entry) first rfl
      rcases hmake.path hfront with hstopped | hgood
      · exact hstopped.2.2.1 trivial hnone
      · exact hgood.2.2.1 trivial hnone
  | ok made =>
      have hkeeps := (hbegun.keepsAccess_iff hloc).mpr
        (haccess ⟨env, plan, first, front, made, middle, hasks, hplan, hfront⟩)
      obtain ⟨-, -, hgone, -⟩ : During env first (RolledBack layout anyBytes _) last :=
        hbegun.outcome_anyBytes layout hpath
      exact hgone hkeeps hnone

section Replay

variable {fault : ℕ → Option { errno : Unix.Errno // errno ≠ .noent }} {time : ℕ}
  (hfault : ∀ tick < time, fault tick = env.fault tick)

include hfault

/-- A plan that was found by the time is found in the other environment as well. -/
theorem planRequest_replayed (h : planRequest env request world = (.ok plan, first))
    (hend : first.tick ≤ time) :
    planRequest (env.withFaults fault) request world = (.ok plan, first) := by
  obtain ⟨body, hbody, h⟩ := Prog.ofExcept_bind_eq_ok.mp h
  obtain ⟨found, planned, hfound, hrest⟩ := Prog.bind_eq_ok.mp h
  refine Prog.ofExcept_bind_eq_ok.mpr ⟨body, hbody, Prog.bind_eq_ok.mpr
    ⟨found, planned, ?_, hrest⟩⟩
  have hplanned : { planned with plan := some found } = first := (Prod.mk.inj hrest).2
  have hearly : planned.tick ≤ time := by
    rw [← hplanned] at hend
    exact hend
  rw [(agrees_planMaterialize hfault body).same world (by rw [hfound]; exact hearly), hfound]

/-- The targets that were made by the time are made there as well. -/
theorem agrees_makeTargets (plan : MaterializePlan) :
    Dialogue.Agrees Refuses (World.Unmarked env) World.tick time (makeTargets env plan)
      (makeTargets (env.withFaults fault) plan) := by
  refine (agrees_report _ _ _).bind fun _ => ?_
  refine (agrees_createDirectories hfault _ _ _ _).bind fun (progress, created) => ?_
  exact agrees_writeFiles hfault _ _ _ _ _

end Replay

/-- If some run makes all its targets and a mode shuts it out, a run like it leaves something. -/
theorem exists_left (hpolicy : request.conflictPolicy = .overwrite)
    (hwf : world.runtime.WellFormed)
    (hcompletes : Completes request world promiseId names nodes rootName targetDir)
    (hshut : ¬ KeepsAccess world.fs (pathJoin request.targetDir rootName) names rootName targetDir
      nodes) :
    ∃ env reports error last, Asks env request world promiseId names nodes rootName targetDir ∧
      (materializeNodeInState env request world).Path reports (.error error, last) ∧
      ∃ loc, world.fs.get loc = none ∧ last.fs.get loc ≠ none := by
  obtain ⟨env, plan, first, reports, made, last, hasks, hplan, hpath⟩ := hcompletes
  obtain ⟨tree, names', rootName', nodes', targetDir', hbegun⟩ := planRequest_begun hwf hplan
  obtain ⟨-, rfl, rfl, rfl, rfl⟩ := hasks.unique (hbegun.asks (by simp [hpolicy]))
  obtain ⟨layout, -, hloc⟩ := hbegun.exists_layout
  rw [← hbegun.keepsAccess_iff hloc] at hshut
  obtain ⟨hmade, hdressing⟩ : During env first (Dressing layout anyBytes [] made.2) last := by
    have hmake := @triple_makeTargets first plan.entries layout anyBytes True env plan rfl
      (fun entry _ => readsChunks_anyBytes plan.promiseId entry) first rfl
    rcases hmake.path hpath with hstopped | hgood
    · exact hstopped.elim
    · exact hgood
  have hordered : List.Pairwise (fun entry later =>
      layout.loc entry ≠ layout.loc later ∧ ¬ layout.loc later <:+ layout.dir entry)
      ((plan.entries.filter fun entry => entry.kind = .directory).reverse.reverse ++ []) := by
    rw [List.reverse_reverse, List.append_nil]
    exact ((layout.ordered.imp And.left).and layout.pairwise_not_suffix).filter _
  obtain ⟨delay, hdelay⟩ := @exists_stuck first plan.entries layout anyBytes made.2 _ []
    hbegun.planned.nodup_targets (fun _ => hbegun.planned.mtimeNsec_nonneg) (fun entry hentry => by
      simpa using List.mem_filter.mp (List.mem_reverse.mp hentry)) (by simp) hordered
    layout.letsIn_nil hshut
  -- nothing fails after the targets were made but the one call
  let fault (tick : ℕ) : Option { errno : Unix.Errno // errno ≠ .noent } :=
    if tick < last.tick then env.fault tick
    else if tick = last.tick + delay then some ⟨.io, by decide⟩ else none
  have hbefore : ∀ tick < last.tick, fault tick = env.fault tick := fun tick htick => if_pos htick
  have hplan' := planRequest_replayed hbefore hplan hmade.tick
  have hpath' := (agrees_makeTargets hbefore plan).same hpath le_rfl
  obtain ⟨status, middle, hpass, hstuck⟩ := hdelay (env.withFaults fault) last ⟨.io, by decide⟩
    (fun tick hle => if_neg (not_lt.mpr hle)) hdressing
  obtain ⟨error, end', hend, hleft⟩ := path_dressTargets_of_stuck hpass hstuck
  refine ⟨env.withFaults fault, reports, error, end', ?_, ?_, hbegun.fs ▸ hleft⟩
  · exact ⟨hasks.normal, hasks.resolved, hasks.listed, hasks.called, hasks.targetDir⟩
  · rw [materializeNodeInState_of_plan hplan', executePlan_eq]
    exact Tree.path_bind.mpr ⟨reports, [], _, (List.append_nil _).symm, hpath', hend⟩

end Failed

/-- A request that overwrites and fails, for every way it can fail.  What was there is there, and
a file holds its old bytes or the whole content of a node.  Nothing new is left, whatever fails, if
and only if no run gets to the modes of the directories or these modes keep open what the run has
to go through. -/
theorem materializeNodeInState_overwrite_failed (content : Content) {calls : List RuntimeCall}
    (hcalls : ∀ call ∈ calls, call.Honest content) (request : MaterializeBody)
    (hpolicy : request.conflictPolicy = .overwrite) {world : World}
    (hruntime : world.runtime = Runtime.new.performAll calls) :
    (∀ env reports error last, env.Honest content →
      (materializeNodeInState env request world).Path reports (.error error, last) →
      (∀ chunk ∈ last.copied.drop world.copied.length, chunk.Honest content) →
      last.fs = world.fs ∨ ∃ promiseId names nodes rootName targetDir,
        Asks env request world promiseId names nodes rootName targetDir ∧
        ∀ loc object, world.fs.get loc = some object →
          ∃ later, last.fs.get loc = some later ∧ (later.body = object.body ∨
            ∃ node ∈ nodes, node.kind = .file ∧
              placeBelow targetDir rootName (node.namesBelow names) = loc ∧
              (∃ old, object.body = .file old) ∧
              later.body = node.body (content ⟨promiseId, node.relativePath⟩))) ∧
    ∀ promiseId names nodes rootName targetDir,
      (∀ env reports error last, Asks env request world promiseId names nodes rootName targetDir →
        (materializeNodeInState env request world).Path reports (.error error, last) →
        ∀ loc, world.fs.get loc = none → last.fs.get loc = none) ↔
      (Completes request world promiseId names nodes rootName targetDir →
        KeepsAccess world.fs (pathJoin request.targetDir rootName) names rootName targetDir
          nodes) := by
  have hwf : world.runtime.WellFormed := hruntime ▸ (Runtime.reachable_spec calls).1
  have hcache : CacheHolds content world.runtime := hruntime ▸ CacheHolds.performAll hcalls
  refine ⟨fun env reports error last henv hrun hcopied => ?_,
    fun promiseId names nodes rootName targetDir => ⟨fun hclean hcompletes => ?_,
      fun haccess env reports error last hasks hrun loc hnone => ?_⟩⟩
  · rcases materializeNodeInState_cases hwf hrun with ⟨-, hkeeps⟩ |
      ⟨plan, first, tree, names, rootName, nodes, targetDir, layout, -, hbegun, -, hloc, hpath⟩
    · exact Or.inl hkeeps.fs
    obtain ⟨-, hremains, -⟩ : During env first (RolledBack layout _ _) last :=
      hbegun.outcome layout (hbegun.readsChunks hwf henv hcache layout) hpath
    exact Or.inr ⟨plan.promiseId, names, nodes, rootName, targetDir,
      hbegun.asks (by simp [hpolicy]),
      fun loc object hobject => hbegun.kept hloc hremains (fun hbyte => hbyte hcopied) hobject⟩
  -- a fault while the modes are set leaves what the cleanup cannot get at
  · by_contra hshut
    obtain ⟨env, reports, error, last, hasks, hrun, loc, hnone, hleft⟩ :=
      exists_left hpolicy hwf hcompletes hshut
    exact hleft (hclean env reports error last hasks hrun loc hnone)
  · exact get_eq_none_of_failed hpolicy hwf hasks haccess hrun hnone

end Daemon

/-- A filesystem with an empty directory. -/
def existingDirectory : FileSystem :=
  (FileSystem.empty.mkdir "/d".toList 0o755 0).toOption.getD .empty

/-- The nodes of the promised directory: itself and a file. -/
def promisedNodes (directoryMode : UInt32) : List PromiseNode :=
  [⟨2, 3, "d".toList, some [], "d".toList, "n1".toList, none, .directory, ⟨directoryMode, 0, 0⟩⟩,
    ⟨3, 4, "d/f".toList, some "d".toList, "f".toList, "n2".toList, none, .file, ⟨0o644, 0, 0⟩⟩]

theorem Environment.failingAt_honest (content : Content) (failing : ℕ) :
    (Environment.failingAt failing).Honest content where
  op := by
    rintro op ⟨tick, other, hother, -⟩
    simp [Environment.failingAt, Environment.undisturbed] at hother
  answer := by
    intro tick request response hanswer
    simp [Environment.failingAt, Environment.undisturbed] at hanswer

namespace Daemon

theorem asks_existingDirectory :
    Asks (.failingAt 12) ⟨"/m/promise-1/d".toList, "/".toList, .overwrite⟩
      (.promisedDirectory 0o755 existingDirectory) "promise-1".toList ["d".toList]
      (promisedNodes 0o755) "d".toList [] := by
  have hnormal : NormalNames ["d".toList] := by
    intro name hname
    rw [List.mem_singleton.mp hname]
    exact ⟨by decide, by decide, by decide, by decide, by decide⟩
  have hlisted : (((Environment.failingAt 12).planningRuntime
      (.promisedDirectory 0o755 existingDirectory)).promises["promise-1".toList]?.map fun tree =>
        tree.subtreeNodes (joinNames ["d".toList])) = some (.ok (promisedNodes 0o755)) := by
    decide +kernel
  exact ⟨hnormal, by decide +kernel, Option.map_eq_some_iff.mp hlisted,
    ⟨_, rfl, by decide +kernel⟩, by decide +kernel⟩

theorem completes_existingDirectory :
    Completes ⟨"/m/promise-1/d".toList, "/".toList, .overwrite⟩
      (.promisedDirectory 0o755 existingDirectory) "promise-1".toList ["d".toList]
      (promisedNodes 0o755) "d".toList [] := by
  let plan : MaterializePlan := ⟨"promise-1".toList, "/d".toList, .overwrite,
    [⟨"d".toList, "/d".toList, .directory, 0, 0o755, 0⟩,
      ⟨"d/f".toList, "/d/f".toList, .file, 0, 0o644, 0⟩]⟩
  have hplan : (planRequest (.failingAt 12) ⟨"/m/promise-1/d".toList, "/".toList, .overwrite⟩
      (.promisedDirectory 0o755 existingDirectory)).1 = .ok plan := by
    decide +kernel
  obtain ⟨reports, ⟨result, last⟩, hpath, hok⟩ : ∃ reports final,
      (makeTargets (.failingAt 12) plan (planRequest (.failingAt 12)
        ⟨"/m/promise-1/d".toList, "/".toList, .overwrite⟩
        (.promisedDirectory 0o755 existingDirectory)).2).Path reports final ∧
      final.1.isOk = true :=
    ⟨_, _, Tree.path_answered (.ok (some .materializeContinue)) _, by decide +kernel⟩
  obtain _ | made := result
  · simp [Except.isOk, Except.toBool] at hok
  · exact ⟨_, plan, _, reports, made, last, asks_existingDirectory, Prog.eq_ok_of_fst hplan, hpath⟩

/-- The declared mode is the one the directory has. -/
theorem keepsAccess_existingDirectory :
    KeepsAccess existingDirectory "/d".toList ["d".toList] "d".toList [] (promisedNodes 0o755) := by
  refine fun _ => ⟨LetsIn.refl.congr fun loc => ?_, trivial⟩
  rw [FileSystem.get_chmodAt]
  split
  · rename_i heq
    subst heq
    decide +kernel
  · rfl

/-- A run makes its targets and fails after that.  The directory is there, and the new file in it
is not. -/
theorem materializeNodeInState_overwrite_failed_mtime :
    Completes ⟨"/m/promise-1/d".toList, "/".toList, .overwrite⟩
      (.promisedDirectory 0o755 existingDirectory) "promise-1".toList ["d".toList]
      (promisedNodes 0o755) "d".toList [] ∧
    KeepsAccess existingDirectory "/d".toList ["d".toList] "d".toList [] (promisedNodes 0o755) ∧
    ∃ reports error last later,
      (materializeNodeInState (.failingAt 12) ⟨"/m/promise-1/d".toList, "/".toList, .overwrite⟩
        (.promisedDirectory 0o755 existingDirectory)).Path reports (.error error, last) ∧
      last.fs.get ["d".toList] = some later ∧ later.body = .directory ∧
      last.fs.get ["f".toList, "d".toList] = none := by
  obtain ⟨reports, ⟨result, last⟩, hpath, hok, hnone⟩ : ∃ reports final,
      (materializeNodeInState (.failingAt 12) ⟨"/m/promise-1/d".toList, "/".toList, .overwrite⟩
        (.promisedDirectory 0o755 existingDirectory)).Path reports final ∧ final.1.isOk = false ∧
      final.2.copied = [] :=
    ⟨_, _, Tree.path_answered (.ok (some .materializeContinue)) _, by decide +kernel,
      by decide +kernel⟩
  obtain error | _ := result
  swap
  · simp [Except.isOk, Except.toBool] at hok
  have hcalls : ∀ call ∈ promiseDirectory 0o755, call.Honest fun _ i => i.toUInt8 := by
    simp [promiseDirectory, RuntimeCall.Honest, RuntimeOp.Honest]
  obtain ⟨hkept, hgone⟩ := materializeNodeInState_overwrite_failed _ hcalls
    ⟨"/m/promise-1/d".toList, "/".toList, .overwrite⟩ rfl
    (show (World.promisedDirectory 0o755 existingDirectory).runtime = _ from rfl)
  have hfree := (hgone "promise-1".toList ["d".toList] (promisedNodes 0o755) "d".toList []).mpr
    (fun _ => keepsAccess_existingDirectory) _ _ _ _ asks_existingDirectory hpath
    ["f".toList, "d".toList] (by decide +kernel)
  obtain ⟨object, hobject, hbody⟩ : ∃ object,
      (World.promisedDirectory 0o755 existingDirectory).fs.get ["d".toList] = some object ∧
        object.body = .directory :=
    ⟨⟨1, 0o755, 0, .directory⟩, by decide +kernel, rfl⟩
  refine ⟨completes_existingDirectory, keepsAccess_existingDirectory, reports, error, last, ?_⟩
  rcases hkept _ _ _ _ (Environment.failingAt_honest _ _) hpath
    (by simp [show last.copied = [] from hnone]) with hsame | ⟨_, _, nodes, _, _, -, hkept⟩
  · exact ⟨object, hpath, hsame ▸ hobject, hbody, hfree⟩
  · obtain ⟨later, hlater, hsame | ⟨node, -, -, -, ⟨old, hfile⟩, -⟩⟩ := hkept _ _ hobject
    · exact ⟨later, hpath, hlater, hsame.trans hbody, hfree⟩
    · rw [hbody] at hfile
      simp at hfile

/-- The directory is declared read-only and gets its mode; then the call for its date fails, and
the new file in it cannot be removed. -/
theorem materializeNodeInState_leaves_file :
    existingDirectory.get ["f".toList, "d".toList] = none ∧
    ∃ reports error last,
      (materializeNodeInState (.failingAt 12) ⟨"/m/promise-1/d".toList, "/".toList, .overwrite⟩
        (.promisedDirectory 0o500 existingDirectory)).Path reports (.error error, last) ∧
      (last.fs.get ["f".toList, "d".toList]).isSome = true := by
  refine ⟨by decide +kernel, ?_⟩
  obtain ⟨reports, ⟨result, last⟩, hpath, hok, hleft⟩ : ∃ reports final,
      (materializeNodeInState (.failingAt 12) ⟨"/m/promise-1/d".toList, "/".toList, .overwrite⟩
        (.promisedDirectory 0o500 existingDirectory)).Path reports final ∧ final.1.isOk = false ∧
      (final.2.fs.get ["f".toList, "d".toList]).isSome = true :=
    ⟨_, _, Tree.path_answered (.ok (some .materializeContinue)) _, by decide +kernel,
      by decide +kernel⟩
  obtain error | _ := result
  · exact ⟨reports, error, last, hpath, hleft⟩
  · simp [Except.isOk, Except.toBool] at hok

end Daemon

end FusePromise
