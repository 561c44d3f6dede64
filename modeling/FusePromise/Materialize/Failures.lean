import FusePromise.Materialize.Request

/-!
# A run that fails

The environment and the client can make a run fail at every call, read and report.
Unless something is overwritten, no such failure is passed over: a part of the run
that returns a value has counted none.  So a run with a failure after planning ends
with an error, and then it was rolled back.

Under `Overwrite` this is not so: a temporary name that is said to be taken is
followed by the next one.
-/

namespace FusePromise

open Machine Program Unix World

namespace Daemon

variable {ε ε' α β : Type} {env : Environment}

/-! ## Parts that pass over no failure -/

/-- A value comes without a failure. -/
def Smooth (prog : Daemon ε α) : Prop :=
  ∀ n, Triple (fun world => world.failures = n) prog (fun _ world => world.failures = n)
    fun _ _ => True

namespace Smooth

theorem pure (a : α) : Smooth (Pure.pure a : Daemon ε α) :=
  fun _ => .pure fun _ h => h

theorem throw (e : ε) : Smooth (Prog.fail e : Daemon ε α) :=
  fun _ => .throw fun _ _ => trivial

theorem ofExcept (result : Except ε α) : Smooth (Prog.ofExcept result : Daemon ε α) :=
  fun _ => .ofExcept (fun _ _ _ h => h) fun _ _ _ _ => trivial

theorem bind {prog : Daemon ε α} {next : α → Daemon ε β} (h : Smooth prog)
    (hnext : ∀ a, Smooth (next a)) : Smooth (prog >>= next) :=
  fun n => (h n).bind fun a => hnext a n

theorem mapError {prog : Daemon ε α} {f : ε → ε'} (h : Smooth prog) : Smooth (prog.mapError f) :=
  fun n => (h n).mapError fun _ _ _ => trivial

theorem get_bind {next : World → Daemon ε β} (h : ∀ world, Smooth (next world)) :
    Smooth (Prog.get >>= next) :=
  fun n world hworld => h world n world hworld

end Smooth

theorem triple_nextTick_failures {fail : ε → World → Prop} (n : ℕ) :
    Triple (fun world => world.failures = n) (nextTick : Daemon ε ℕ)
      (fun _ world => world.failures = n) fail :=
  fun _ h => h

/-- What says that something is missing is not a failure. -/
theorem triple_call_failures (op : ℤ → FileSystem → Except Unix.Errno (FileSystem × α)) (n : ℕ) :
    Triple (fun world => world.failures = n) (call env op) (fun _ world => world.failures = n)
      fun errno world => errno = .noent → world.failures = n := by
  refine (triple_nextTick_failures n).bind fun tick => ?_
  split
  · rename_i errno _
    exact fun _ _ hnoent => absurd hnoent errno.property
  · intro world h
    simp only [Bind.bind, Prog.get]
    cases op (env.now tick) world.fs with
    | error errno => exact fun _ => h
    | ok result => exact h

theorem smooth_call (op : ℤ → FileSystem → Except Unix.Errno (FileSystem × α)) :
    Smooth (call env op) :=
  fun n => (triple_call_failures op n).weaken_fail fun _ _ _ => trivial

theorem smooth_change (op : ℤ → FileSystem → Except Unix.Errno FileSystem) :
    Smooth (change env op) :=
  smooth_call _

theorem smooth_inspect (op : FileSystem → Except Unix.Errno α) : Smooth (inspect env op) :=
  smooth_call _

theorem smooth_lockRuntime : Smooth (lockRuntime env : Daemon ε Runtime) :=
  fun _ _ h => h

theorem smooth_existingTarget (entry : MaterializeEntryPlan)
    (conflictPolicy : MaterializeConflictPolicy) :
    Smooth (existingTarget env entry conflictPolicy) := by
  intro n
  refine Triple.bind (triple_call_failures _ n).attempt fun result => ?_
  cases result with
  | ok object => exact ((Smooth.ofExcept _).bind fun _ => .pure _) n
  | error errno =>
      dsimp only
      split
      · rename_i hnoent
        exact .pure fun _ h => h hnoent
      · exact .throw fun _ _ => trivial

theorem smooth_createMaterializedDirectory (entry : MaterializeEntryPlan)
    (conflictPolicy : MaterializeConflictPolicy) :
    Smooth (createMaterializedDirectory env entry conflictPolicy) := by
  refine (smooth_existingTarget entry conflictPolicy).bind fun existing => ?_
  split
  · exact .pure _
  · refine (smooth_change _).mapError.bind fun _ => ?_
    refine Smooth.bind (.get_bind fun world => ?_) fun _ => .pure _
    split
    · exact .pure _
    · exact .throw _

theorem smooth_applyMtime (file : Loc) (mtimeNsec : ℤ) : Smooth (applyMtime env file mtimeNsec) :=
  (smooth_change _).mapError

theorem smooth_setPermissions (file : Loc) (mode : UInt32) :
    Smooth (setPermissions env file mode) :=
  (smooth_change _).mapError

theorem smooth_applyEntryMetadata (created : List CreatedTarget) (entry : MaterializeEntryPlan) :
    Smooth (applyEntryMetadata env created entry) := by
  unfold applyEntryMetadata
  split
  · exact .throw _
  · refine (smooth_inspect _).mapError.bind fun directory => ?_
    refine (smooth_inspect _).mapError.bind fun metadata => ?_
    split
    · exact .throw _
    · exact (smooth_setPermissions _ _).bind fun _ => smooth_applyMtime _ _

theorem smooth_forEach {action : β → Daemon ε Unit} (h : ∀ item, Smooth (action item))
    (items : List β) : Smooth (forEach action items) := by
  induction items with
  | nil => exact .pure _
  | cons item rest ih => exact (h item).bind fun _ => ih

theorem smooth_markEntries (promiseId : Text) (entries : List MaterializeEntryPlan) :
    Smooth (markEntries promiseId entries) := by
  induction entries with
  | nil => exact .pure _
  | cons entry rest ih =>
      intro n world h
      simp only [markEntries, Bind.bind, Prog.get]
      cases world.runtime.markNodeMaterialized promiseId entry.relativePath entry.targetPath with
      | error status => trivial
      | ok runtime => exact ih n _ h

theorem smooth_openFinalMaterializedFile (entry : MaterializeEntryPlan) (removeOnCleanup : Bool) :
    Smooth (openFinalMaterializedFile env entry removeOnCleanup) := by
  refine Smooth.bind ((smooth_call _).mapError.bind fun file => .get_bind fun world => ?_)
    fun _ => .pure _
  split
  · exact .pure _
  · exact .throw _

theorem smooth_openMaterializedFile (entry : MaterializeEntryPlan)
    {conflictPolicy : MaterializeConflictPolicy} (hpolicy : conflictPolicy ≠ .overwrite) :
    Smooth (openMaterializedFile env entry conflictPolicy) := by
  refine (smooth_existingTarget entry conflictPolicy).mapError.bind fun existing => ?_
  cases conflictPolicy with
  | overwrite => exact absurd rfl hpolicy
  | fail => exact smooth_openFinalMaterializedFile entry true
  | rename => exact smooth_openFinalMaterializedFile entry true

theorem smooth_writeAll (file : Loc) (bytes : List UInt8) : Smooth (writeAll env file bytes) := by
  intro n
  refine (triple_nextTick_failures n).bind fun tick => ?_
  split
  · exact fun _ _ => trivial
  · exact fun _ h => h

theorem smooth_finalizeMaterializedFile (target : MaterializeFileTarget) (bytesWritten : ℕ) :
    Smooth (finalizeMaterializedFile env target bytesWritten) := by
  unfold finalizeMaterializedFile
  split
  · exact (smooth_change _).mapError.bind fun _ => .pure _
  · exact .pure _

/-- A chunk that is not empty comes without a failure. -/
def SmoothChunk (prog : Daemon ε (List UInt8)) : Prop :=
  ∀ n, Triple (fun world => world.failures = n) prog
    (fun bytes world => bytes ≠ [] → world.failures = n) fun _ _ => True

theorem Smooth.chunk {prog : Daemon ε (List UInt8)} (h : Smooth prog) : SmoothChunk prog :=
  fun n => (h n).conseq (fun _ hn => hn) (fun _ _ hn _ => hn) fun _ _ hn => hn

theorem Smooth.bind_chunk {prog : Daemon ε α} {next : α → Daemon ε (List UInt8)}
    (h : Smooth prog) (hnext : ∀ a, SmoothChunk (next a)) : SmoothChunk (prog >>= next) :=
  fun n => (h n).bind fun a => hnext a n

theorem smoothChunk_readMaterializeProviderChunk (plan : ProviderReadPlan) :
    SmoothChunk (readMaterializeProviderChunk env plan) := by
  have hrequest : Smooth (newProviderReadRequest plan : Daemon Status ProviderReadRequest) :=
    fun _ _ h => h
  refine hrequest.bind_chunk fun request => ?_
  refine (Smooth.ofExcept _).bind_chunk fun _ => smooth_lockRuntime.bind_chunk fun _ => ?_
  have htick : Smooth (nextTick : Daemon Status ℕ) := fun _ _ h => h
  refine htick.bind_chunk fun tick => ?_
  split
  · exact fun n _ _ hempty => absurd rfl hempty
  · exact (Smooth.pure _).chunk
  · exact fun _ _ _ => trivial

theorem smoothChunk_readMaterializeChunk (promiseId : Text) (entry : MaterializeEntryPlan)
    (offset length : ℕ) :
    SmoothChunk (readMaterializeChunk env promiseId entry offset length) := by
  refine smooth_lockRuntime.bind_chunk fun runtime => ?_
  split
  · exact smoothChunk_readMaterializeProviderChunk _
  · refine smooth_lockRuntime.bind_chunk fun runtime => ?_
    refine (Smooth.ofExcept _).bind_chunk fun plan => ?_
    split
    · exact smoothChunk_readMaterializeProviderChunk _
    · refine Smooth.chunk (Smooth.bind ?_ fun bytes => ?_)
      · refine (smooth_inspect _).mapError.bind fun file => ?_
        refine (smooth_inspect _).mapError.bind fun bytes => ?_
        split
        · exact .throw _
        · exact .pure _
      · exact fun _ _ h => h
    · exact (Smooth.pure _).chunk
    · exact (Smooth.throw _).chunk
  · exact (Smooth.throw _).chunk

/-! ## The run -/

/-- The same of the parts that report. -/
def SmoothRun (part : Reporting ε α) : Prop :=
  ∀ n, Dialogue.Triple Refuses (fun world => world.failures = n) part
    (fun _ world => world.failures = n) (fun _ _ => True) fun _ _ => True

namespace SmoothRun

theorem lift {prog : Daemon ε α} (h : Smooth prog) : SmoothRun (Dialogue.lift prog) :=
  fun n => .lift (h n)

theorem pure (a : α) : SmoothRun (Pure.pure a : Reporting ε α) :=
  fun _ => .pure fun _ h => h

theorem bind {part : Reporting ε α} {next : α → Reporting ε β} (h : SmoothRun part)
    (hnext : ∀ a, SmoothRun (next a)) : SmoothRun (part >>= next) :=
  fun n => (h n).bind fun a => hnext a n

theorem mapError {part : Reporting ε α} {f : ε → ε'} (h : SmoothRun part) :
    SmoothRun (part.mapError f) :=
  fun n => (h n).mapError (fun _ _ _ => trivial) fun _ _ _ => trivial

/-- A handler that ends with an error. -/
theorem orElse {part : Reporting ε α} {handler : ε → Daemon ε' α} (h : SmoothRun part)
    (hfails : ∀ e world, ∃ e' last, handler e world = (.error e', last)) :
    SmoothRun (part.orElse handler) := by
  intro n
  refine (h n).orElse (fun e world _ => ?_) fun e world _ => ?_
  all_goals
    obtain ⟨e', last, hrun⟩ := hfails e world
    rw [hrun]
    trivial

end SmoothRun

theorem smoothRun_reportProgress (progress : MaterializeProgress) :
    SmoothRun (reportProgress progress) := by
  intro n
  refine .ask (fun answer hrefuses => ?_) fun answer haccepts => ?_
  · split
    · rename_i haccepts
      exact absurd haccepts hrefuses
    · exact fun _ _ => trivial
  · split
    · exact .pure fun _ h => h
    · exact fun _ _ => trivial

theorem smoothRun_orCleanup {step : Reporting Status α} (h : SmoothRun step)
    (created : List CreatedTarget) (progress : MaterializeProgress) :
    SmoothRun (orCleanup env created progress step) :=
  h.orElse fun _ _ => Prog.bind_fail _ _ _

theorem smoothRun_createDirectories (conflictPolicy : MaterializeConflictPolicy)
    (entries : List MaterializeEntryPlan) (progress : MaterializeProgress)
    (created : List CreatedTarget) :
    SmoothRun (createDirectories env conflictPolicy entries progress created) := by
  induction entries generalizing progress created with
  | nil => exact .pure _
  | cons entry rest ih =>
      refine .bind (smoothRun_orCleanup (.lift
        (smooth_createMaterializedDirectory entry conflictPolicy)) _ _) fun target => ?_
      exact .bind (smoothRun_orCleanup (smoothRun_reportProgress _) _ _) fun _ => ih _ _

section Files

variable {conflictPolicy : MaterializeConflictPolicy} (hpolicy : conflictPolicy ≠ .overwrite)
  {reportFileProgress : ℕ → Reporting Status Unit}
  (hreport : ∀ bytes, SmoothRun (reportFileProgress bytes))

include hreport in
theorem smoothRun_writeChunks (promiseId : Text) (entry : MaterializeEntryPlan)
    (target : MaterializeFileTarget) (left offset : ℕ) :
    SmoothRun (writeChunks env promiseId entry target reportFileProgress left offset) := by
  induction left generalizing offset with
  | zero => exact .pure _
  | succ left ih =>
      unfold writeChunks
      split
      · exact .pure _
      intro n
      refine .bind (.lift ((smoothChunk_readMaterializeChunk promiseId entry _ _ n).mapError
        fun _ _ _ => trivial)) fun bytes => ?_
      split
      · exact fun _ _ => trivial
      · rename_i hnonempty
        refine Dialogue.Triple.conseq (SmoothRun.bind (.lift (smooth_writeAll _ _).mapError)
          (fun _ => ?_) n) (fun _ h => h hnonempty) (fun _ _ h => h) (fun _ _ h => h)
          fun _ _ h => h
        split
        · exact .lift (.throw _)
        · exact (hreport _).mapError.bind fun _ => ih _

include hpolicy hreport in
theorem smoothRun_writeMaterializedFile (promiseId : Text) (entry : MaterializeEntryPlan) :
    SmoothRun (writeMaterializedFile env promiseId entry conflictPolicy reportFileProgress) := by
  refine .bind (.lift (smooth_openMaterializedFile entry hpolicy)) fun target => ?_
  refine (smoothRun_writeChunks hreport promiseId entry target _ _).bind fun offset => ?_
  refine .bind (.lift (smooth_setPermissions _ _).mapError) fun _ => ?_
  refine .bind (.lift (smooth_applyMtime _ _).mapError) fun _ => ?_
  exact .bind (.lift (smooth_finalizeMaterializedFile target offset)) fun _ => .pure _

include hpolicy in
theorem smoothRun_writeFiles (promiseId : Text) (entries : List MaterializeEntryPlan)
    (progress : MaterializeProgress) (created : List CreatedTarget) :
    SmoothRun (writeFiles env promiseId conflictPolicy entries progress created) := by
  induction entries generalizing progress created with
  | nil => exact .pure _
  | cons entry rest ih =>
      refine .bind (.orElse (smoothRun_writeMaterializedFile hpolicy
        (fun bytes => smoothRun_reportProgress _) promiseId entry)
        fun _ _ => Prog.bind_fail _ _ _) fun outcome => ?_
      exact .bind (smoothRun_orCleanup (smoothRun_reportProgress _) _ _) fun _ => ih _ _

end Files

theorem smoothRun_executePlan {plan : MaterializePlan}
    (hpolicy : plan.conflictPolicy ≠ .overwrite) : SmoothRun (executePlan env plan) := by
  refine .bind (smoothRun_orCleanup (smoothRun_reportProgress _) _ _) fun _ => ?_
  refine .bind (smoothRun_createDirectories _ _ _ _) fun (_, created) => ?_
  refine .bind (smoothRun_writeFiles hpolicy _ _ _ _) fun (_, created) => ?_
  refine .bind (smoothRun_orCleanup (.lift
    (smooth_forEach (smooth_applyEntryMetadata created) _)) _ _) fun _ => ?_
  refine .bind (smoothRun_orCleanup (.lift (smooth_lockRuntime.bind fun _ =>
    smooth_markEntries _ _)) _ _) fun _ => ?_
  exact .pure _

/-! ## A failed run leaves what it found -/

/-- A request that overwrites nothing, once it has a plan.  If the environment or the client
makes the run fail anywhere, it ends with an error.  If it ends with an error, the filesystem is
as it was, dates of directories apart, and no node has got or lost a copy. -/
theorem materializeNodeInState_failed (calls : List RuntimeCall) (env : Environment)
    (request : MaterializeBody) {world first : World} {plan : MaterializePlan}
    (hruntime : world.runtime = Runtime.new.performAll calls)
    (hpolicy : request.conflictPolicy = .fail ∨ request.conflictPolicy = .rename)
    (hplan : planRequest env request world = (.ok plan, first))
    {reports : List MaterializeProgress}
    {result : Except MaterializeOperationError MaterializeProgress} {last : World}
    (hrun : (materializeNodeInState env request world).Path reports (result, last)) :
    (last.failures ≠ first.failures → ∃ error, result = .error error) ∧
      ∀ error, result = .error error →
        last.fs.held = world.fs.held ∧ Runtime.Grows world.runtime last.runtime := by
  have hwf : world.runtime.WellFormed := hruntime ▸ (Runtime.reachable_spec calls).1
  have hoverwrite : request.conflictPolicy ≠ .overwrite := by
    rcases hpolicy with h | h <;> simp [h]
  obtain ⟨tree, names, rootName, nodes, targetDir, hbegun⟩ := planRequest_begun hwf hplan
  obtain ⟨layout, -, hloc⟩ := hbegun.exists_layout
  rw [materializeNodeInState_of_plan hplan] at hrun
  refine ⟨fun hfailed => ?_, ?_⟩
  · have hsmooth : SmoothRun (executePlan env plan) :=
      smoothRun_executePlan (hbegun.planned.policy ▸ hoverwrite)
    cases result with
    | error error => exact ⟨error, rfl⟩
    | ok progress =>
        rcases (hsmooth first.failures first rfl).path hrun with hstopped | hgood
        · exact hstopped.elim
        · exact absurd hgood hfailed
  · rintro error rfl
    obtain ⟨hunmarked, hrolled⟩ : During env first (RolledBack layout anyBytes _) last :=
      hbegun.outcome_anyBytes layout hrun
    obtain ⟨ops, hops, hlater⟩ := hunmarked.runtime
    refine ⟨?_, (hbegun.grows hwf).trans ?_⟩
    · rw [RolledBack.held_of_free (hbegun.free_entries hoverwrite hloc) hrolled, hbegun.fs]
    · rw [hlater]
      exact Runtime.grows_run hbegun.wellFormed fun op hop => (hops op hop).isMark

end Daemon

/-- The calls that promise a directory with an empty file. -/
def promiseDirectory (directoryMode : UInt32) : List RuntimeCall :=
  [.op .registerProvider, .commitBuilder 1
    [⟨"d".toList, "n1".toList, .directory, ⟨directoryMode, 0, 0⟩⟩,
      ⟨"d/f".toList, "n2".toList, .file, ⟨0o644, 0, 0⟩⟩]]

def World.promisedDirectory (directoryMode : UInt32) (fs : FileSystem) : World :=
  .fresh (Runtime.new.performAll (promiseDirectory directoryMode)) ⟨some "/m".toList, true⟩ fs

/-- One call fails. -/
def Environment.failingAt (failing : ℕ) : Environment :=
  { Environment.undisturbed with
    fault := fun tick => if tick = failing then some ⟨.io, by decide⟩ else none }

namespace Daemon

/-- The directory already has its mode when the call for its date fails. -/
theorem materializeNodeInState_failed_mtime :
    ∃ reports error last,
      (materializeNodeInState (.failingAt 13) ⟨"/m/promise-1/d".toList, "/".toList, .fail⟩
        (.promisedDirectory 0o500 .empty)).Path reports (.error error, last) ∧
      last.fs.held = FileSystem.empty.held := by
  obtain ⟨plan, first, hplan, hbefore⟩ : ∃ plan first,
      planRequest (.failingAt 13) ⟨"/m/promise-1/d".toList, "/".toList, .fail⟩
        (.promisedDirectory 0o500 .empty) = (.ok plan, first) ∧ first.failures = 0 := by
    have hplan : (planRequest (.failingAt 13) ⟨"/m/promise-1/d".toList, "/".toList, .fail⟩
        (.promisedDirectory 0o500 .empty)).1 =
        .ok ⟨"promise-1".toList, "/d".toList, .fail,
          [⟨"d".toList, "/d".toList, .directory, 0, 0o500, 0⟩,
            ⟨"d/f".toList, "/d/f".toList, .file, 0, 0o644, 0⟩]⟩ := by
      decide +kernel
    exact ⟨_, _, Prog.eq_ok_of_fst hplan, by decide +kernel⟩
  obtain ⟨reports, ⟨result, last⟩, hpath, hafter⟩ : ∃ reports final,
      (materializeNodeInState (.failingAt 13) ⟨"/m/promise-1/d".toList, "/".toList, .fail⟩
        (.promisedDirectory 0o500 .empty)).Path reports final ∧ final.2.failures = 1 :=
    ⟨_, _, Tree.path_answered (.ok (some .materializeContinue)) _, by decide +kernel⟩
  have hleft := materializeNodeInState_failed (promiseDirectory 0o500) _ _ rfl (Or.inl rfl) hplan
    hpath
  obtain ⟨error, rfl⟩ := hleft.1 (by simp_all)
  exact ⟨reports, error, last, hpath, (hleft.2 error rfl).1⟩

end Daemon

end FusePromise
