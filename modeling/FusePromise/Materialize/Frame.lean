import FusePromise.Foundation.Clock
import FusePromise.Materialize.Run

/-!
# What the parts of a run leave alone

Two relations between the state a part of the run finds and the one it leaves.
`Unmarked` is kept by everything but the last loop: the plan and the marks are as
they were, the clock has not gone back, copies were only added to the record, and
what happened to the runtime was done by other threads, which mark nothing.
`ReadOnly` adds that the filesystem is the same; it is kept by the planning and by
the reading of a chunk.

The clock of a run is the number of its questions to the environment.  What the
environment does later has no part in what has happened so far: a plan that was
found, and targets that were made, by some time are the same in an environment that
only makes other calls fail after it.
-/

namespace FusePromise

open Machine Program

/-- The other threads do the operation at some time. -/
def Environment.Interferes (env : Environment) (op : RuntimeOp) : Prop :=
  ∃ tick, ∃ other ∈ (env.gap tick).ops, other.val = op

theorem Environment.Interferes.isMark {env : Environment} {op : RuntimeOp}
    (h : env.Interferes op) : op.isMark = false := by
  obtain ⟨tick, other, -, rfl⟩ := h
  exact other.property

/-- The same environment, but other calls fail. -/
def Environment.withFaults (env : Environment)
    (fault : ℕ → Option { errno : Unix.Errno // errno ≠ .noent }) : Environment :=
  { env with fault }

theorem Environment.fault_same (env : Environment) (tick : ℕ) (_ : tick < 0) :
    env.fault tick = env.fault tick :=
  rfl

namespace World

variable {env : Environment}

/-- Nothing was marked, and the runtime has changed only by other threads. -/
structure Unmarked (env : Environment) (s t : World) : Prop where
  mount : t.mount = s.mount
  plan : t.plan = s.plan
  marked : t.marked = s.marked
  failures : s.failures ≤ t.failures
  tick : s.tick ≤ t.tick
  copied : s.copied <+: t.copied
  runtime : ∃ ops : List RuntimeOp, (∀ op ∈ ops, env.Interferes op) ∧
    t.runtime = s.runtime.run ops

/-- The filesystem is the same as well. -/
structure ReadOnly (env : Environment) (s t : World) : Prop extends Unmarked env s t where
  fs : t.fs = s.fs

/-- The runtime is the same as well. -/
theorem Unmarked.of_eq {s t : World} (hmount : t.mount = s.mount) (hplan : t.plan = s.plan)
    (hmarked : t.marked = s.marked) (hfailures : s.failures ≤ t.failures)
    (htick : s.tick ≤ t.tick) (hcopied : s.copied <+: t.copied)
    (hruntime : t.runtime = s.runtime) : Unmarked env s t :=
  ⟨hmount, hplan, hmarked, hfailures, htick, hcopied, [], by simp, hruntime⟩

instance : Std.Refl (Unmarked env) where
  refl _ := .of_eq rfl rfl rfl le_rfl le_rfl List.prefix_rfl rfl

instance : IsTrans World (Unmarked env) where
  trans s t u h h' := by
    obtain ⟨ops, hops, hruntime⟩ := h.runtime
    obtain ⟨ops', hops', hruntime'⟩ := h'.runtime
    refine ⟨h'.mount.trans h.mount, h'.plan.trans h.plan, h'.marked.trans h.marked,
      h.failures.trans h'.failures, h.tick.trans h'.tick, h.copied.trans h'.copied, ops ++ ops',
      ?_, ?_⟩
    · simpa [or_imp, forall_and] using ⟨hops, hops'⟩
    · rw [hruntime', hruntime, Runtime.run_append]

instance : Std.Refl (ReadOnly env) where
  refl s := ⟨Std.Refl.refl s, rfl⟩

instance : IsTrans World (ReadOnly env) where
  trans _ _ _ h h' :=
    ⟨IsTrans.trans _ _ _ h.toUnmarked h'.toUnmarked, h'.fs.trans h.fs⟩

instance forward_unmarked : Forward (Unmarked env) World.tick where
  le h := h.tick

instance forward_readOnly : Forward (ReadOnly env) World.tick where
  le h := h.tick

end World

namespace Daemon

open World

variable {ε α β : Type} {env : Environment}

/-- A program that keeps the filesystem marks nothing either. -/
theorem unmarked_of_readOnly {prog : Daemon ε α} (h : Keeps (ReadOnly env) prog) :
    Keeps (Unmarked env) prog :=
  h.mono fun _ _ hkeeps => hkeeps.toUnmarked

theorem agrees_of_readOnly {prog other : Daemon ε α} {time : ℕ}
    (h : Prog.Agrees (ReadOnly env) World.tick time prog other) :
    Prog.Agrees (Unmarked env) World.tick time prog other :=
  h.mono fun _ _ hkeeps => hkeeps.toUnmarked

/-! ## Asking the environment -/

theorem keeps_nextTick : Keeps (ReadOnly env) (nextTick : Daemon ε ℕ) :=
  fun _ => ⟨.of_eq rfl rfl rfl le_rfl (Nat.le_succ _) List.prefix_rfl rfl, rfl⟩

theorem keeps_noteFailure : Keeps (ReadOnly env) (noteFailure : Daemon ε Unit) :=
  .modify fun _ => ⟨.of_eq rfl rfl rfl (Nat.le_succ _) le_rfl List.prefix_rfl rfl, rfl⟩

theorem keeps_inspect (env : Environment) (op : Unix.FileSystem → Except Unix.Errno α) :
    Keeps (ReadOnly env) (inspect env op) := by
  refine keeps_nextTick.bind fun tick => ?_
  split
  · exact keeps_noteFailure.bind fun _ => .throw _
  · refine .get_bind fun world => ?_
    cases hvalue : op world.fs with
    | error errno =>
        simp only [Bind.bind, Except.bind, hvalue]
        exact Std.Refl.refl world
    | ok value =>
        simp only [Bind.bind, Except.bind, hvalue]
        exact ⟨.of_eq rfl rfl rfl le_rfl le_rfl List.prefix_rfl rfl, rfl⟩

theorem keeps_quietly (env : Environment)
    (op : ℤ → Unix.FileSystem → Except Unix.Errno Unix.FileSystem) :
    Keeps (Unmarked env) (quietly env op : Daemon ε Unit) := by
  refine (unmarked_of_readOnly keeps_nextTick).bind fun tick => .modify fun world => ?_
  split <;> exact .of_eq rfl rfl rfl le_rfl le_rfl List.prefix_rfl rfl

theorem keeps_lockRuntime (env : Environment) :
    Keeps (ReadOnly env) (lockRuntime env : Daemon ε Runtime) := by
  refine keeps_nextTick.bind fun tick world => ?_
  refine ⟨⟨rfl, rfl, rfl, le_rfl, le_rfl, List.prefix_rfl, _, ?_, rfl⟩, rfl⟩
  rintro op hop
  obtain ⟨other, hother, rfl⟩ := List.mem_map.mp hop
  exact ⟨tick, other, hother, rfl⟩

/-- What follows a question depends on its number only. -/
theorem agrees_nextTick_bind {next next' : ℕ → Daemon ε α} {time : ℕ}
    (hkeeps : ∀ tick, Keeps (Unmarked env) (next tick))
    (h : ∀ tick < time, next' tick = next tick) :
    Prog.Agrees (Unmarked env) World.tick time (nextTick >>= next) (nextTick >>= next') := by
  refine ⟨(unmarked_of_readOnly keeps_nextTick).bind hkeeps, fun world hend => ?_⟩
  have hturn := (hkeeps world.tick { world with tick := world.tick + 1 }).tick.trans hend
  exact congrFun (h world.tick hturn) _

/-! ## Cleanup -/

theorem keeps_ifSameTarget {action : Daemon ε Unit} (target : CreatedTarget)
    (h : Keeps (Unmarked env) action) : Keeps (Unmarked env) (ifSameTarget target action) := by
  refine Keeps.bind (Keeps.get.bind fun world => ?_) fun metadata => ?_
  · split <;> exact .pure _
  · split
    · split
      · exact h
      · exact .pure _
    · exact .pure _

theorem keeps_forEach {action : β → Daemon ε Unit} (h : ∀ item, Keeps (Unmarked env) (action item))
    (items : List β) : Keeps (Unmarked env) (forEach action items) := by
  induction items with
  | nil => exact .pure _
  | cons item rest ih => exact (h item).bind fun _ => ih

theorem keeps_cleanupCreatedTargets (env : Environment) (created : List CreatedTarget) :
    Keeps (Unmarked env) (cleanupCreatedTargets env created : Daemon ε Unit) := by
  refine (keeps_forEach (fun target => ?_) _).bind fun _ => keeps_forEach (fun target => ?_) _
  · exact keeps_ifSameTarget target (keeps_quietly env _)
  · refine keeps_ifSameTarget target ?_
    split <;> exact keeps_quietly env _

section Parts

variable {fault : ℕ → Option { errno : Unix.Errno // errno ≠ .noent }} {time : ℕ}
  (hfault : ∀ tick < time, fault tick = env.fault tick)

include hfault

/-! ## Calls -/

theorem agrees_call (op : ℤ → Unix.FileSystem → Except Unix.Errno (Unix.FileSystem × α)) :
    Prog.Agrees (Unmarked env) World.tick time (call env op)
      (call (env.withFaults fault) op) := by
  refine agrees_nextTick_bind (fun tick => ?_) fun tick htick => ?_
  · split
    · exact (unmarked_of_readOnly keeps_noteFailure).bind fun _ => .throw _
    · refine .get_bind fun world => ?_
      cases op (env.now tick) world.fs with
      | error errno => exact Std.Refl.refl world
      | ok result => exact .of_eq rfl rfl rfl le_rfl le_rfl List.prefix_rfl rfl
  · rw [show (env.withFaults fault).fault tick = env.fault tick from hfault tick htick]
    rfl

theorem agrees_inspect (op : Unix.FileSystem → Except Unix.Errno α) :
    Prog.Agrees (ReadOnly env) World.tick time (inspect env op)
      (inspect (env.withFaults fault) op) :=
  ⟨keeps_inspect env op, (agrees_call hfault _).same⟩

theorem agrees_change (op : ℤ → Unix.FileSystem → Except Unix.Errno Unix.FileSystem) :
    Prog.Agrees (Unmarked env) World.tick time (change env op)
      (change (env.withFaults fault) op) :=
  agrees_call hfault _

/-! ## Planning -/

theorem agrees_existingTarget (entry : MaterializeEntryPlan)
    (conflictPolicy : MaterializeConflictPolicy) :
    Prog.Agrees (ReadOnly env) World.tick time (existingTarget env entry conflictPolicy)
      (existingTarget (env.withFaults fault) entry conflictPolicy) := by
  refine (agrees_inspect hfault _).attempt.bind fun result => ?_
  split
  · exact (Prog.Agrees.ofExcept _).bind fun _ => .pure _
  · split
    · exact .pure _
    · exact .throw _

theorem agrees_validateTargetDir (targetDir : Text) :
    Prog.Agrees (ReadOnly env) World.tick time (validateTargetDir env targetDir)
      (validateTargetDir (env.withFaults fault) targetDir) := by
  unfold validateTargetDir
  split
  · exact .throw _
  · refine (agrees_inspect hfault _).mapError.bind fun metadata => ?_
    split
    · exact .pure _
    · exact .throw _

theorem agrees_uniqueFrom (targetDir targetName : Text) (targetKind : NodeKind)
    (left attempt : ℕ) :
    Prog.Agrees (ReadOnly env) World.tick time
      (uniqueFrom env targetDir targetName targetKind left attempt)
      (uniqueFrom (env.withFaults fault) targetDir targetName targetKind left attempt) := by
  induction left generalizing attempt with
  | zero => exact .throw _
  | succ left ih =>
      refine (agrees_inspect hfault _).attempt.bind fun result => ?_
      split
      · exact ih (attempt + 1)
      · split
        · exact .pure _
        · exact .throw _

theorem agrees_materializeTargetPath (targetDir targetName : Text) (targetKind : NodeKind)
    (conflictPolicy : MaterializeConflictPolicy) :
    Prog.Agrees (ReadOnly env) World.tick time
      (materializeTargetPath env targetDir targetName targetKind conflictPolicy)
      (materializeTargetPath (env.withFaults fault) targetDir targetName targetKind
        conflictPolicy) := by
  unfold materializeTargetPath
  split
  · exact .pure _
  · exact agrees_uniqueFrom hfault _ _ _ _ _

theorem agrees_preflightMaterializeTargets (conflictPolicy : MaterializeConflictPolicy)
    (entries : List MaterializeEntryPlan) :
    Prog.Agrees (ReadOnly env) World.tick time
      (preflightMaterializeTargets env conflictPolicy entries)
      (preflightMaterializeTargets (env.withFaults fault) conflictPolicy entries) := by
  induction entries with
  | nil => exact .pure _
  | cons entry rest ih => exact (agrees_existingTarget hfault entry conflictPolicy).bind fun _ => ih

theorem agrees_planMaterialize (request : MaterializeBody) :
    Prog.Agrees (ReadOnly env) World.tick time (planMaterialize env request)
      (planMaterialize (env.withFaults fault) request) := by
  refine (agrees_validateTargetDir hfault _).bind fun _ => Prog.Agrees.get.bind fun world => ?_
  refine (Prog.Agrees.ofExcept _).bind fun (promiseId, relativePath) => ?_
  refine (Prog.Agrees.refl (keeps_lockRuntime env)).bind fun runtime => ?_
  refine (Prog.Agrees.ofExcept _).bind fun tree => ?_
  split
  · exact .throw _
  · refine (Prog.Agrees.ofExcept _).bind fun nodes => ?_
    refine (Prog.Agrees.ofExcept _).bind fun root => ?_
    refine (Prog.Agrees.ofExcept _).bind fun name => ?_
    refine (agrees_materializeTargetPath hfault _ _ _ _).bind fun targetPath => ?_
    refine (Prog.Agrees.ofExcept _).bind fun entries => ?_
    exact (agrees_preflightMaterializeTargets hfault _ _).bind fun _ => .pure _

/-! ## Directories -/

theorem agrees_createMaterializedDirectory (entry : MaterializeEntryPlan)
    (conflictPolicy : MaterializeConflictPolicy) :
    Prog.Agrees (Unmarked env) World.tick time
      (createMaterializedDirectory env entry conflictPolicy)
      (createMaterializedDirectory (env.withFaults fault) entry conflictPolicy) := by
  refine (agrees_of_readOnly (agrees_existingTarget hfault entry conflictPolicy)).bind
    fun existing => ?_
  split
  · exact .pure _
  · refine (agrees_change hfault _).mapError.bind fun _ => ?_
    refine Prog.Agrees.bind (Prog.Agrees.get.bind fun world => ?_) fun _ => .pure _
    split
    · exact .pure _
    · exact .throw _

theorem agrees_applyMtime (file : Unix.Loc) (mtimeNsec : ℤ) :
    Prog.Agrees (Unmarked env) World.tick time (applyMtime env file mtimeNsec)
      (applyMtime (env.withFaults fault) file mtimeNsec) :=
  (agrees_change hfault _).mapError

theorem agrees_setPermissions (file : Unix.Loc) (mode : UInt32) :
    Prog.Agrees (Unmarked env) World.tick time (setPermissions env file mode)
      (setPermissions (env.withFaults fault) file mode) :=
  (agrees_change hfault _).mapError

theorem agrees_applyEntryMetadata (created : List CreatedTarget) (entry : MaterializeEntryPlan) :
    Prog.Agrees (Unmarked env) World.tick time (applyEntryMetadata env created entry)
      (applyEntryMetadata (env.withFaults fault) created entry) := by
  unfold applyEntryMetadata
  split
  · exact .throw _
  · refine (agrees_of_readOnly (agrees_inspect hfault _)).mapError.bind fun directory => ?_
    refine (agrees_of_readOnly (agrees_inspect hfault _)).mapError.bind fun metadata => ?_
    split
    · exact .throw _
    · exact (agrees_setPermissions hfault _ _).bind fun _ => agrees_applyMtime hfault _ _

/-! ## Reading a chunk -/

omit hfault in
theorem keeps_readMaterializeProviderChunk (env : Environment) (plan : ProviderReadPlan) :
    Keeps (ReadOnly env) (readMaterializeProviderChunk env plan) := by
  refine Keeps.bind (.get_bind fun world => ?_) fun request => ?_
  · exact ⟨.of_eq rfl rfl rfl le_rfl le_rfl List.prefix_rfl rfl, rfl⟩
  · refine (Keeps.ofExcept _).bind fun _ => (keeps_lockRuntime env).bind fun _ => ?_
    refine keeps_nextTick.bind fun tick => ?_
    split
    · exact keeps_noteFailure.bind fun _ => .pure _
    · exact .pure _
    · exact keeps_noteFailure.bind fun _ => .throw _

theorem agrees_readLocalMaterializedChunk (path : Text) (offset length : ℕ) :
    Prog.Agrees (ReadOnly env) World.tick time
      (readLocalMaterializedChunk env path offset length)
      (readLocalMaterializedChunk (env.withFaults fault) path offset length) := by
  refine (agrees_inspect hfault _).mapError.bind fun file => ?_
  refine (agrees_inspect hfault _).mapError.bind fun bytes => ?_
  split
  · exact .throw _
  · exact .pure _

theorem agrees_readMaterializeChunk (promiseId : Text) (entry : MaterializeEntryPlan)
    (offset length : ℕ) :
    Prog.Agrees (ReadOnly env) World.tick time
      (readMaterializeChunk env promiseId entry offset length)
      (readMaterializeChunk (env.withFaults fault) promiseId entry offset length) := by
  -- neither the locks nor the providers fail in another way
  have hlock : Prog.Agrees (ReadOnly env) World.tick time (lockRuntime env : Daemon Status Runtime)
      (lockRuntime (env.withFaults fault)) :=
    .refl (keeps_lockRuntime env)
  have hprovider : ∀ plan, Prog.Agrees (ReadOnly env) World.tick time
      (readMaterializeProviderChunk env plan)
      (readMaterializeProviderChunk (env.withFaults fault) plan) :=
    fun plan => .refl (keeps_readMaterializeProviderChunk env plan)
  refine hlock.bind fun runtime => ?_
  split
  · exact hprovider _
  · refine hlock.bind fun runtime => (Prog.Agrees.ofExcept _).bind fun plan => ?_
    split
    · exact hprovider _
    · refine (agrees_readLocalMaterializedChunk hfault _ _ _).bind fun bytes => .refl ?_
      refine Keeps.bind (.modify fun world => ?_) fun _ => .pure _
      exact ⟨.of_eq rfl rfl rfl le_rfl le_rfl (List.prefix_append _ _) rfl, rfl⟩
    · exact .pure _
    · exact .throw _
  · exact .throw _

/-! ## Files -/

theorem agrees_openMaterializeOutput (path : Text) :
    Prog.Agrees (Unmarked env) World.tick time (openMaterializeOutput env path)
      (openMaterializeOutput (env.withFaults fault) path) := by
  refine (agrees_call hfault _).mapError.bind fun file => Prog.Agrees.get.bind fun world => ?_
  split
  · exact .pure _
  · exact .throw _

theorem agrees_openFinalMaterializedFile (entry : MaterializeEntryPlan) (removeOnCleanup : Bool) :
    Prog.Agrees (Unmarked env) World.tick time
      (openFinalMaterializedFile env entry removeOnCleanup)
      (openFinalMaterializedFile (env.withFaults fault) entry removeOnCleanup) :=
  (agrees_openMaterializeOutput hfault _).bind fun _ => .pure _

theorem agrees_openReplacement (entry : MaterializeEntryPlan) (left : ℕ) :
    Prog.Agrees (Unmarked env) World.tick time (openReplacement env entry left)
      (openReplacement (env.withFaults fault) entry left) := by
  induction left with
  | zero => exact .throw _
  | succ left ih =>
      refine Prog.Agrees.bind (.refl (.get_bind fun world =>
        .of_eq rfl rfl rfl le_rfl le_rfl List.prefix_rfl rfl)) fun attempt => ?_
      refine (Prog.Agrees.ofExcept _).mapError.bind fun tempPath => ?_
      refine (agrees_openMaterializeOutput hfault _).attempt.bind fun result => ?_
      split
      · exact .pure _
      · split
        · exact ih
        · exact .throw _

theorem agrees_openMaterializedFile (entry : MaterializeEntryPlan)
    (conflictPolicy : MaterializeConflictPolicy) :
    Prog.Agrees (Unmarked env) World.tick time (openMaterializedFile env entry conflictPolicy)
      (openMaterializedFile (env.withFaults fault) entry conflictPolicy) := by
  refine (agrees_of_readOnly (agrees_existingTarget hfault entry conflictPolicy)).mapError.bind
    fun existing => ?_
  split
  · exact agrees_openFinalMaterializedFile hfault entry true
  · split
    · exact agrees_openReplacement hfault entry 16
    · exact agrees_openFinalMaterializedFile hfault entry true
  · exact agrees_openFinalMaterializedFile hfault entry true

theorem agrees_writeAll (file : Unix.Loc) (bytes : List UInt8) :
    Prog.Agrees (Unmarked env) World.tick time (writeAll env file bytes)
      (writeAll (env.withFaults fault) file bytes) := by
  refine agrees_nextTick_bind (fun tick => ?_) fun tick htick => ?_
  · split
    · refine (unmarked_of_readOnly keeps_noteFailure).bind fun _ => ?_
      exact Keeps.bind (.modify fun world => .of_eq rfl rfl rfl le_rfl le_rfl List.prefix_rfl rfl)
        fun _ => .throw _
    · exact .modify fun world => .of_eq rfl rfl rfl le_rfl le_rfl List.prefix_rfl rfl
  · rw [show (env.withFaults fault).fault tick = env.fault tick from hfault tick htick]
    rfl

theorem agrees_finalizeMaterializedFile (target : MaterializeFileTarget) (bytesWritten : ℕ) :
    Prog.Agrees (Unmarked env) World.tick time (finalizeMaterializedFile env target bytesWritten)
      (finalizeMaterializedFile (env.withFaults fault) target bytesWritten) := by
  unfold finalizeMaterializedFile
  split
  · exact (agrees_change hfault _).mapError.bind fun _ => .pure _
  · exact .pure _

end Parts

/-! ## Reporting -/

/-- The answers that stop a run. -/
def Refuses (answer : ProgressAnswer) : Prop :=
  progressDecision answer ≠ .ok ()

theorem keeps_reportProgress (progress : MaterializeProgress) :
    Dialogue.Keeps Refuses (ReadOnly env) (reportProgress progress) := by
  refine .of_triple fun s => .ask (fun answer hrefuses => ?_) fun answer haccepts => ?_
  · split
    · rename_i haccepts
      exact absurd haccepts hrefuses
    · refine ((keeps_noteFailure (ε := Status)).triple s).bind fun _ => ?_
      exact .throw fun _ h => h
  · split
    · exact .pure fun _ h => h
    · rename_i hrefuses
      exact absurd hrefuses (by simp [not_not.mp haccepts])

theorem keeps_orCleanup {step : Reporting Status α} (created : List CreatedTarget)
    (progress : MaterializeProgress) (h : Dialogue.Keeps Refuses (Unmarked env) step) :
    Dialogue.Keeps Refuses (Unmarked env) (orCleanup env created progress step) :=
  h.orElse (fun _ => (keeps_cleanupCreatedTargets env created).bind fun _ => .throw _)
    fun _ => Prog.bind_fail _ _

theorem keeps_report (progress : MaterializeProgress) :
    Dialogue.Keeps Refuses (Unmarked env) (reportProgress progress) :=
  (keeps_reportProgress progress).mono fun _ _ hkeeps => hkeeps.toUnmarked

section Reports

variable {fault : ℕ → Option { errno : Unix.Errno // errno ≠ .noent }} {time : ℕ}

theorem agrees_orCleanup {step step' : Reporting Status α} (created : List CreatedTarget)
    (progress : MaterializeProgress)
    (h : Dialogue.Agrees Refuses (Unmarked env) World.tick time step step') :
    Dialogue.Agrees Refuses (Unmarked env) World.tick time (orCleanup env created progress step)
      (orCleanup (env.withFaults fault) created progress step') :=
  h.orElse (fun _ => .refl ((keeps_cleanupCreatedTargets env created).bind fun _ => .throw _))
    fun _ => Prog.bind_fail _ _

theorem agrees_report (created : List CreatedTarget) (progress next : MaterializeProgress) :
    Dialogue.Agrees Refuses (Unmarked env) World.tick time
      (orCleanup env created progress (reportProgress next))
      (orCleanup (env.withFaults fault) created progress (reportProgress next)) :=
  agrees_orCleanup created progress (.refl (keeps_report next))

variable (hfault : ∀ tick < time, fault tick = env.fault tick)

include hfault

section Files

variable {reportFileProgress : ℕ → Reporting Status Unit}
  (hreport : ∀ bytes, Dialogue.Keeps Refuses (Unmarked env) (reportFileProgress bytes))

include hreport

theorem agrees_writeChunks (promiseId : Text) (entry : MaterializeEntryPlan)
    (target : MaterializeFileTarget) (left offset : ℕ) :
    Dialogue.Agrees Refuses (Unmarked env) World.tick time
      (writeChunks env promiseId entry target reportFileProgress left offset)
      (writeChunks (env.withFaults fault) promiseId entry target reportFileProgress left
        offset) := by
  induction left generalizing offset with
  | zero => exact .pure _
  | succ left ih =>
      unfold writeChunks
      split
      · exact .pure _
      · refine .bind (.lift (agrees_of_readOnly
          (agrees_readMaterializeChunk hfault _ _ _ _)).mapError) fun bytes => ?_
        split
        · exact .lift (.throw _)
        · refine .bind (.lift (agrees_writeAll hfault _ _).mapError) fun _ => ?_
          split
          · exact .lift (.throw _)
          · exact (Dialogue.Agrees.refl (hreport _)).mapError.bind fun _ => ih _

theorem agrees_writeMaterializedFile (promiseId : Text) (entry : MaterializeEntryPlan)
    (conflictPolicy : MaterializeConflictPolicy) :
    Dialogue.Agrees Refuses (Unmarked env) World.tick time
      (writeMaterializedFile env promiseId entry conflictPolicy reportFileProgress)
      (writeMaterializedFile (env.withFaults fault) promiseId entry conflictPolicy
        reportFileProgress) := by
  refine .bind (.lift (agrees_openMaterializedFile hfault entry conflictPolicy)) fun target => ?_
  refine (agrees_writeChunks hfault hreport promiseId entry target _ _).bind fun offset => ?_
  refine .bind (.lift (agrees_setPermissions hfault _ _).mapError) fun _ => ?_
  refine .bind (.lift (agrees_applyMtime hfault _ _).mapError) fun _ => ?_
  exact .bind (.lift (agrees_finalizeMaterializedFile hfault target offset)) fun _ => .pure _

end Files

/-! ## The loops -/

theorem agrees_createDirectories (conflictPolicy : MaterializeConflictPolicy)
    (entries : List MaterializeEntryPlan) (progress : MaterializeProgress)
    (created : List CreatedTarget) :
    Dialogue.Agrees Refuses (Unmarked env) World.tick time
      (createDirectories env conflictPolicy entries progress created)
      (createDirectories (env.withFaults fault) conflictPolicy entries progress created) := by
  induction entries generalizing progress created with
  | nil => exact .pure _
  | cons entry rest ih =>
      refine .bind (agrees_orCleanup _ _ (.lift
        (agrees_createMaterializedDirectory hfault entry conflictPolicy))) fun target => ?_
      exact (agrees_report _ _ _).bind fun _ => ih _ _

theorem agrees_writeFiles (promiseId : Text) (conflictPolicy : MaterializeConflictPolicy)
    (entries : List MaterializeEntryPlan) (progress : MaterializeProgress)
    (created : List CreatedTarget) :
    Dialogue.Agrees Refuses (Unmarked env) World.tick time
      (writeFiles env promiseId conflictPolicy entries progress created)
      (writeFiles (env.withFaults fault) promiseId conflictPolicy entries progress created) := by
  induction entries generalizing progress created with
  | nil => exact .pure _
  | cons entry rest ih =>
      refine .bind (.orElse (agrees_writeMaterializedFile hfault (fun bytes => keeps_report _)
        promiseId entry conflictPolicy) ?_ ?_) fun outcome => ?_
      · exact fun error => .refl ((keeps_cleanupCreatedTargets env _).bind fun _ => .throw _)
      · exact fun error => Prog.bind_fail _ _
      · exact (agrees_report _ _ _).bind fun _ => ih _ _

end Reports

end Daemon

end FusePromise
