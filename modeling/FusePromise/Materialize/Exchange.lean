import FusePromise.Foundation.Transition
import FusePromise.Materialize.Frame

/-!
# The exchange of a materialize request

The client writes its request and then reads: a progress frame is handed to its
callback and answered with a frame of its own, anything else is the last frame.
The daemon runs `materialize_node_in_state`, writes a progress frame at every
report and waits for the answer.  The two share a stream that keeps the order of
the frames and loses none.

`Stage n x` lists the states the two can be in, with a bound `n` on the steps that
are left.  Everything said about an exchange is read off the list.
-/

namespace FusePromise

open Machine Program Transition

/-! ## What a run has marked -/

namespace World

/-- The run has marked every node of its plan. -/
def MarkedAll (world : World) : Prop :=
  ∃ plan, world.plan = some plan ∧
    world.marked = plan.entries.map MaterializeEntryPlan.relativePath

theorem not_markedAll_of_nil {world : World} {plan : MaterializePlan}
    (hplan : world.plan = some plan) (hentries : plan.entries ≠ []) (hmarked : world.marked = []) :
    ¬ world.MarkedAll := by
  rintro ⟨other, hother, hall⟩
  obtain rfl := Option.some.inj (hplan.symm.trans hother)
  rw [hmarked] at hall
  exact hentries (List.map_eq_nil_iff.mp hall.symm)

end World

namespace Daemon

open World

/-- The marks are made in order, and a failure leaves some of the entries out. -/
theorem markEntries_marked (promiseId : Text) (entries : List MaterializeEntryPlan)
    (plan : Option MaterializePlan) (marked : List Text) :
    Triple (fun world => world.plan = plan ∧ world.marked = marked)
      (markEntries promiseId entries)
      (fun _ world => world.plan = plan ∧
        world.marked = marked ++ entries.map MaterializeEntryPlan.relativePath)
      fun _ world => world.plan = plan ∧
        world.marked.length < marked.length + entries.length := by
  induction entries generalizing marked with
  | nil => exact .pure fun world h => by simpa using h
  | cons entry rest ih =>
      rintro world ⟨hplan, hmarked⟩
      simp only [markEntries, Bind.bind, Prog.get]
      cases world.runtime.markNodeMaterialized promiseId entry.relativePath entry.targetPath with
      | error status => exact ⟨hplan, by simp [hmarked]⟩
      | ok runtime =>
          have hrest := ih (marked ++ [entry.relativePath])
            { world with runtime, marked := world.marked ++ [entry.relativePath] }
            ⟨hplan, by rw [hmarked]⟩
          refine hrest.mono ?_ ?_
          · rintro _ last ⟨hplan, hlast⟩
            exact ⟨hplan, by simpa using hlast⟩
          · rintro _ last ⟨hplan, hlast⟩
            exact ⟨hplan, by simpa [Nat.add_assoc, Nat.add_comm 1] using hlast⟩

/-- A plan has an entry for the root of the copy. -/
theorem planMaterialize_entries (env : Environment) (request : MaterializeBody) :
    Triple (fun _ => True) (planMaterialize env request) (fun plan _ => plan.entries ≠ [])
      fun _ _ => True := by
  refine .bind .trivial fun _ => .bind .trivial fun world => ?_
  refine .bind .trivial fun (promiseId, relativePath) => .bind .trivial fun runtime => ?_
  refine .bind .trivial fun tree => ?_
  split
  · exact .throw fun _ _ => trivial
  · refine .bind .trivial fun nodes => ?_
    refine .ofExcept_bind (fun root hroot => ?_) fun _ _ _ _ => trivial
    have hnodes : nodes ≠ [] := by
      rintro rfl
      simp [okOr] at hroot
    refine .bind .trivial fun name => .bind .trivial fun targetPath => ?_
    refine .ofExcept_bind (fun entries hentries => ?_) fun _ _ _ _ => trivial
    have hne : entries ≠ [] := by
      rintro rfl
      exact hnodes (by simpa using (mapM_eq_ok.mp hentries))
    exact .bind .trivial fun _ => .pure fun _ _ => hne

theorem planRequest_marked (env : Environment) (request : MaterializeBody) :
    Triple (fun world => world.plan = none ∧ world.marked = []) (planRequest env request)
      (fun plan world => plan.entries ≠ [] ∧ world.plan = some plan ∧ world.marked = [])
      fun _ world => world.plan = none ∧ world.marked = [] := by
  refine .ofExcept_bind (fun request _ => ?_) fun _ _ _ h => h
  rintro world ⟨hplan, hmarked⟩
  have hkeeps := (agrees_planMaterialize env.fault_same request).keeps world
  have hentries := planMaterialize_entries env request world trivial
  simp only [Bind.bind]
  cases hrun : planMaterialize env request world with
  | mk result last =>
      rw [hrun] at hkeeps hentries
      cases result with
      | error status => exact ⟨hkeeps.plan.trans hplan, hkeeps.marked.trans hmarked⟩
      | ok plan => exact ⟨hentries, rfl, hkeeps.marked.trans hmarked⟩

/-- A step that marks nothing, or fails before everything is marked. -/
theorem orCleanup_marked {α : Type} {step : Reporting Status α} {pre : World → Prop}
    {post : α → World → Prop} (env : Environment) (created : List CreatedTarget)
    (progress : MaterializeProgress)
    (h : Dialogue.Triple Refuses pre step post (fun _ world => ¬ world.MarkedAll)
      fun _ world => ¬ world.MarkedAll ∧ world.marked = []) :
    Dialogue.Triple Refuses pre (orCleanup env created progress step) post
      (fun _ world => ¬ world.MarkedAll) fun _ world => ¬ world.MarkedAll ∧ world.marked = [] := by
  have hcleanup (status : Status) (world : World) :
      ∃ error last, (do
        cleanupCreatedTargets env created
        Prog.fail ⟨status, some progress⟩ : Daemon MaterializeOperationError α) world =
          (.error error, last) ∧ World.Unmarked env world last := by
    obtain ⟨error, last, hrun⟩ :=
      Prog.bind_fail (β := α) (cleanupCreatedTargets env created)
        (⟨status, some progress⟩ : MaterializeOperationError) world
    have hkeeps := Keeps.bind (keeps_cleanupCreatedTargets env created)
      (fun _ => Keeps.throw (α := α) (⟨status, some progress⟩ : MaterializeOperationError)) world
    rw [hrun] at hkeeps
    exact ⟨error, last, hrun, hkeeps⟩
  have hsame : ∀ {world last : World}, World.Unmarked env world last →
      (last.MarkedAll ↔ world.MarkedAll) := by
    intro world last hkeeps
    simp only [MarkedAll, hkeeps.plan, hkeeps.marked]
  refine h.orElse (fun status world hworld => ?_) fun status world hworld => ?_
  · obtain ⟨error, last, hrun, hkeeps⟩ := hcleanup status world
    rw [hrun]
    exact fun hall => hworld ((hsame hkeeps).mp hall)
  · obtain ⟨error, last, hrun, hkeeps⟩ := hcleanup status world
    rw [hrun]
    exact ⟨fun hall => hworld.1 ((hsame hkeeps).mp hall), hkeeps.marked.trans hworld.2⟩

section Plan

variable (env : Environment) {plan : MaterializePlan} (hentries : plan.entries ≠ [])

include hentries

/-- Before the last loop nothing is marked. -/
theorem unmarked_of_keeps {ε α : Type} {part : Reporting ε α}
    (h : Dialogue.Keeps Refuses (Unmarked env) part) :
    Dialogue.Triple Refuses (fun world => world.plan = some plan ∧ world.marked = []) part
      (fun _ world => world.plan = some plan ∧ world.marked = [])
      (fun _ world => ¬ world.MarkedAll) fun _ world => ¬ world.MarkedAll ∧ world.marked = [] := by
  rintro world ⟨hplan, hmarked⟩
  have hstill : ∀ last, World.Unmarked env world last → last.plan = some plan ∧ last.marked = [] :=
    fun last hkeeps => ⟨hkeeps.plan.trans hplan, hkeeps.marked.trans hmarked⟩
  have hnot : ∀ last, World.Unmarked env world last → ¬ last.MarkedAll := fun last hkeeps =>
    not_markedAll_of_nil (hstill last hkeeps).1 hentries (hstill last hkeeps).2
  refine (h world).mono (fun _ hlast => hlast.mono (fun _ _ => id) ?_) fun _ hlast =>
    hlast.mono (fun _ => hstill) fun _ => hnot
  exact fun _ last hkeeps => ⟨hnot last hkeeps, (hstill last hkeeps).2⟩

theorem markEntries_all :
    Triple (fun world => world.plan = some plan ∧ world.marked = [])
      (do
        let _ ← lockRuntime env
        markEntries plan.promiseId plan.entries)
      (fun _ world => world.MarkedAll) fun _ world => ¬ world.MarkedAll := by
  rintro world ⟨hplan, hmarked⟩
  have hkeeps := keeps_lockRuntime (ε := Status) env world
  simp only [Bind.bind]
  cases hrun : (lockRuntime env : Daemon Status Runtime) world with
  | mk result locked =>
      rw [hrun] at hkeeps
      cases result with
      | error status =>
          exact not_markedAll_of_nil (hkeeps.plan.trans hplan) hentries
            (hkeeps.marked.trans hmarked)
      | ok runtime =>
          refine (markEntries_marked plan.promiseId plan.entries (some plan) [] locked
            ⟨hkeeps.plan.trans hplan, hkeeps.marked.trans hmarked⟩).mono ?_ ?_
          · rintro _ last ⟨hlast, hall⟩
            exact ⟨plan, hlast, hall⟩
          · rintro _ last ⟨hlast, hless⟩ ⟨other, hother, hall⟩
            obtain rfl := Option.some.inj (hlast.symm.trans hother)
            simp [hall] at hless

theorem executePlan_marked :
    Dialogue.Triple Refuses (fun world => world.plan = some plan ∧ world.marked = [])
      (executePlan env plan) (fun _ world => world.MarkedAll)
      (fun _ world => ¬ world.MarkedAll) fun _ world => ¬ world.MarkedAll ∧ world.marked = [] := by
  have hkeeps {ε α : Type} {part : Reporting ε α}
      (h : Dialogue.Keeps Refuses (Unmarked env) part) :=
    unmarked_of_keeps env hentries h
  have hsame := env.fault_same
  refine .bind (hkeeps (keeps_orCleanup _ _ (keeps_report _))) fun _ => ?_
  refine .bind (hkeeps (agrees_createDirectories hsame _ _ _ _).keeps) fun (_, created) => ?_
  refine .bind (hkeeps (agrees_writeFiles hsame _ _ _ _ _).keeps) fun (progress, created) => ?_
  refine .bind (hkeeps (keeps_orCleanup _ _ (.lift (keeps_forEach (fun entry =>
    (agrees_applyEntryMetadata hsame created entry).keeps) _)))) fun _ => ?_
  refine (orCleanup_marked env _ _ (.lift (markEntries_all env hentries))).bind fun _ => ?_
  exact .pure fun _ h => h

end Plan

theorem materializeNodeInState_marked (env : Environment) (request : MaterializeBody) :
    Dialogue.Triple Refuses (fun world => world.plan = none ∧ world.marked = [])
      (materializeNodeInState env request) (fun _ world => world.MarkedAll)
      (fun _ world => ¬ world.MarkedAll) fun _ world => ¬ world.MarkedAll ∧ world.marked = [] := by
  have hplan : Dialogue.Triple Refuses (fun world => world.plan = none ∧ world.marked = [])
      (Dialogue.lift ((planRequest env request).mapError
        MaterializeOperationError.withoutProgress) : Reporting _ _)
      (fun plan world => plan.entries ≠ [] ∧ world.plan = some plan ∧ world.marked = [])
      (fun _ world => ¬ world.MarkedAll)
      fun _ world => ¬ world.MarkedAll ∧ world.marked = [] := by
    refine .lift ((planRequest_marked env request).mapError ?_)
    rintro _ world ⟨hplan, -⟩ ⟨plan, hsome, -⟩
    simp [hplan] at hsome
  refine hplan.bind fun plan world ⟨hentries, hworld⟩ => ?_
  exact executePlan_marked env hentries world hworld

end Daemon

/-! ## The two parties -/

/-- The frames the daemon answers a materialize request with. -/
inductive MaterializeReply
  | progress (progress : MaterializeProgress)
  | materialized (progress : MaterializeProgress)
  | failed (code : ErrorCode) (message : String) (progress : MaterializeProgress)
  | error (code : ErrorCode) (message : String)
  deriving DecidableEq

/-- The last frame of `handle_materialize`. -/
def lastReply : Except MaterializeOperationError MaterializeProgress → MaterializeReply
  | .ok progress => .materialized progress
  | .error ⟨status, some progress⟩ =>
      if progress.hasPartial then .failed (statusToErrorCode status) status.asStr progress
      else .error (statusToErrorCode status) status.asStr
  | .error ⟨status, none⟩ => .error (statusToErrorCode status) status.asStr

/-- The text of `materialize_failure_to_io`. -/
def failureMessage (message : String) (progress : MaterializeProgress) : String :=
  message ++ "; target_path=" ++ String.ofList progress.targetPath ++
    "; entries_done=" ++ toString progress.entriesDone ++
    "; entries_total=" ++ toString progress.entriesTotal ++
    "; bytes_written=" ++ toString progress.bytesWritten ++
    "; bytes_total=" ++ toString progress.bytesTotal ++
    "; files_written=" ++ toString progress.filesWritten ++
    "; files_total=" ++ toString progress.filesTotal ++
    "; directories_created=" ++ toString progress.directoriesCreated ++
    "; directories_total=" ++ toString progress.directoriesTotal

/-- Where the client is in `materialize_file_with_progress`. -/
inductive ClientPhase
  | sending
  | reading
  /-- In the callback. -/
  | reporting (progress : MaterializeProgress)
  /-- The callback has failed, and one more frame is read. -/
  | cancelled (error : IoError)
  | returned (result : IoResult MaterializeProgress)
  deriving DecidableEq

/-- What the client does with a frame. -/
def ClientPhase.receive (reply : MaterializeReply) : ClientPhase :=
  match reply with
  | .progress progress => .reporting progress
  | .materialized progress => .returned (.ok progress)
  | .failed code message progress =>
      .returned (.error ⟨errorCodeToIoKind code, failureMessage message progress⟩)
  | .error code message => .returned (.error ⟨errorCodeToIoKind code, message⟩)

abbrev MaterializeRun :=
  Tree MaterializeProgress ProgressAnswer
    (Except MaterializeOperationError MaterializeProgress × World)

/-- Where the daemon is in `handle_materialize`. -/
inductive DaemonPhase
  | listening
  | running (run : MaterializeRun)
  /-- A progress frame is written, and the next frame is read. -/
  | asked (next : ProgressAnswer → MaterializeRun)
  | stopped (result : Except MaterializeOperationError MaterializeProgress) (world : World)

/-- The two parties and the frames between them.  The last three fields are a record: how many
progress frames and how many answers were written, and whether the callback has failed. -/
structure Exchange where
  client : ClientPhase
  daemon : DaemonPhase
  toDaemon : List Request
  toClient : List MaterializeReply
  reports : ℕ
  answers : ℕ
  refused : Bool

/-- The steps of the client and of the daemon. -/
inductive ExchangeAction
  | send
  | receive
  /-- What the callback returns. -/
  | decide (decision : IoResult Unit)
  | accept
  | write
  | read

namespace Exchange

def initial : Exchange where
  client := .sending
  daemon := .listening
  toDaemon := []
  toClient := []
  reports := 0
  answers := 0
  refused := false

/-- The run of a request from a state of the daemon, with a new record. -/
def start (env : Environment) (request : MaterializeBody) (world : World) : MaterializeRun :=
  Daemon.materializeNodeInState env request { world with plan := none, marked := [] }

/-- The steps of the client. -/
def clientStep (x : Exchange) : ExchangeAction → Option Exchange
  | .send =>
      match x.client with
      | .sending => some { x with client := .reading, toDaemon := x.toDaemon ++ [.materialize] }
      | _ => none
  | .receive =>
      match x.client, x.toClient with
      | .reading, reply :: rest => some { x with client := .receive reply, toClient := rest }
      | .cancelled error, _ :: rest =>
          some { x with client := .returned (.error error), toClient := rest }
      | _, _ => none
  | .decide decision =>
      match x.client, decision with
      | .reporting _, .ok () =>
          some { x with
            client := .reading
            toDaemon := x.toDaemon ++ [.materializeContinue]
            answers := x.answers + 1 }
      | .reporting _, .error error =>
          some { x with
            client := .cancelled error
            toDaemon := x.toDaemon ++ [.materializeCancel]
            answers := x.answers + 1
            refused := true }
      | _, _ => none
  | _ => none

/-- The steps of the daemon, whose run is given. -/
def daemonStep (run : MaterializeRun) (x : Exchange) : ExchangeAction → Option Exchange
  | .accept =>
      match x.daemon, x.toDaemon with
      | .listening, .materialize :: rest => some { x with daemon := .running run, toDaemon := rest }
      | _, _ => none
  | .write =>
      match x.daemon with
      | .running (.ask progress next) =>
          some { x with
            daemon := .asked next
            toClient := x.toClient ++ [.progress progress]
            reports := x.reports + 1 }
      | .running (.done (result, world)) =>
          some { x with
            daemon := .stopped result world
            toClient := x.toClient ++ [lastReply result] }
      | _ => none
  | .read =>
      match x.daemon, x.toDaemon with
      | .asked next, frame :: rest =>
          some { x with daemon := .running (next (.ok (some frame))), toDaemon := rest }
      | _, _ => none
  | _ => none

def step (run : MaterializeRun) (x : Exchange) (action : ExchangeAction) : Option Exchange :=
  (x.clientStep action).or (x.daemonStep run action)

/-! ## Every state of an exchange -/

/-- The answers a client gives. -/
abbrev yes : ProgressAnswer := .ok (some .materializeContinue)
abbrev no : ProgressAnswer := .ok (some .materializeCancel)

/-- What holds of a result that no refusal came before, and of one that follows a refusal. -/
def Good : Except MaterializeOperationError MaterializeProgress × World → Prop :=
  Program.Outcome (fun _ world => world.MarkedAll) fun _ world => ¬ world.MarkedAll

def Stopped : Except MaterializeOperationError MaterializeProgress × World → Prop :=
  Program.Outcome (fun _ _ => False) fun _ world => ¬ world.MarkedAll ∧ world.marked = []

abbrev Obedient (run : MaterializeRun) : Prop :=
  run.Obeys Daemon.Refuses Stopped Good

theorem obedient_start (env : Environment) (request : MaterializeBody) (world : World) :
    Obedient (start env request world) :=
  Daemon.materializeNodeInState_marked env request _ ⟨rfl, rfl⟩

/-- The states of an exchange, with a bound on the steps left.  A question costs four: it is
written, read, answered, and the answer is read. -/
inductive Stage (run : MaterializeRun) : ℕ → Exchange → Prop
  | sending : Stage run (4 * run.depth yes no + 4) initial
  | sent :
      Stage run (4 * run.depth yes no + 3) ⟨.reading, .listening, [.materialize], [], 0, 0, false⟩
  | running {now : MaterializeRun} (n : ℕ) (h : Obedient now) :
      Stage run (4 * now.depth yes no + 2) ⟨.reading, .running now, [], [], n, n, false⟩
  | asked {progress : MaterializeProgress} {next : ProgressAnswer → MaterializeRun} (n : ℕ)
      (h : Obedient (.ask progress next)) :
      Stage run (4 * (Tree.ask progress next).depth yes no + 1)
        ⟨.reading, .asked next, [], [.progress progress], n + 1, n, false⟩
  | reporting {progress : MaterializeProgress} {next : ProgressAnswer → MaterializeRun} (n : ℕ)
      (h : Obedient (.ask progress next)) :
      Stage run (4 * (Tree.ask progress next).depth yes no)
        ⟨.reporting progress, .asked next, [], [], n + 1, n, false⟩
  | continued {next : ProgressAnswer → MaterializeRun} (n : ℕ) (h : Obedient (next yes)) :
      Stage run (4 * (next yes).depth yes no + 3)
        ⟨.reading, .asked next, [.materializeContinue], [], n, n, false⟩
  | cancelled {next : ProgressAnswer → MaterializeRun} (error : IoError) (n : ℕ)
      (h : ∃ last, next no = .done last ∧ Stopped last) :
      Stage run 3 ⟨.cancelled error, .asked next, [.materializeCancel], [], n, n, true⟩
  | ending {last : Except MaterializeOperationError MaterializeProgress × World} (error : IoError)
      (n : ℕ) (h : Stopped last) :
      Stage run 2 ⟨.cancelled error, .running (.done last), [], [], n, n, true⟩
  | ended {result : Except MaterializeOperationError MaterializeProgress} {world : World}
      (error : IoError) (n : ℕ) (h : Stopped (result, world)) :
      Stage run 1 ⟨.cancelled error, .stopped result world, [], [lastReply result], n, n, true⟩
  | answered {result : Except MaterializeOperationError MaterializeProgress} {world : World}
      (n : ℕ) (h : Good (result, world)) :
      Stage run 1 ⟨.reading, .stopped result world, [], [lastReply result], n, n, false⟩
  | finished {result : Except MaterializeOperationError MaterializeProgress} {world : World}
      {answer : IoResult MaterializeProgress} (n : ℕ) (refused : Bool)
      (hanswer : ∀ progress, answer = .ok progress ↔ result = .ok progress)
      (hgood : Good (result, world)) (hstopped : refused = true → Stopped (result, world)) :
      Stage run 0 ⟨.returned answer, .stopped result world, [], [], n, n, refused⟩

/-- Only a result without an error is answered with `materialized`. -/
theorem receive_lastReply (result : Except MaterializeOperationError MaterializeProgress) :
    ∃ answer, ClientPhase.receive (lastReply result) = .returned answer ∧
      ∀ progress, answer = .ok progress ↔ result = .ok progress := by
  unfold lastReply
  split
  · exact ⟨_, rfl, by simp⟩
  · split <;> exact ⟨_, rfl, by simp⟩
  · exact ⟨_, rfl, by simp⟩

theorem Stopped.error {result : Except MaterializeOperationError MaterializeProgress}
    {world : World} (h : Stopped (result, world)) :
    ∃ error, result = .error error ∧ ¬ world.MarkedAll ∧ world.marked = [] := by
  cases result with
  | ok progress => exact h.elim
  | error error => exact ⟨error, rfl, h⟩

theorem Stopped.good {last : Except MaterializeOperationError MaterializeProgress × World}
    (h : Stopped last) : Good last := by
  obtain ⟨result, world⟩ := last
  obtain ⟨error, rfl, hnot, -⟩ := h.error
  exact hnot

theorem Good.ok_iff {result : Except MaterializeOperationError MaterializeProgress}
    {world : World} (h : Good (result, world)) :
    (∃ progress, result = .ok progress) ↔ world.MarkedAll := by
  cases result with
  | ok progress => exact iff_of_true ⟨progress, rfl⟩ h
  | error error => exact iff_of_false (by simp) h

theorem refuses_no : Daemon.Refuses no := by
  simp [Daemon.Refuses, Daemon.progressDecision]

theorem not_refuses_yes : ¬ Daemon.Refuses yes := by
  simp [Daemon.Refuses, Daemon.progressDecision]

variable {run : MaterializeRun} {x y : Exchange} {action : ExchangeAction} {n : ℕ}

/-- Every step leads to another state of the list, with fewer steps left. -/
theorem Stage.step (h : Stage run n x) (hrun : Obedient run)
    (hstep : x.step run action = some y) : ∃ m < n, Stage run m y := by
  cases h with
  | sending =>
      cases action <;> simp [Exchange.step, clientStep, daemonStep, initial] at hstep
      subst hstep
      exact ⟨_, by omega, .sent⟩
  | sent =>
      cases action <;> simp [Exchange.step, clientStep, daemonStep] at hstep
      subst hstep
      exact ⟨_, by omega, .running 0 hrun⟩
  | @running now k hnow =>
      cases now with
      | done last =>
          cases action <;> simp [Exchange.step, clientStep, daemonStep] at hstep
          subst hstep
          exact ⟨_, by omega, .answered k hnow⟩
      | ask progress next =>
          cases action <;> simp [Exchange.step, clientStep, daemonStep] at hstep
          subst hstep
          exact ⟨_, by omega, .asked k hnow⟩
  | @asked progress next k hask =>
      cases action <;> simp [Exchange.step, clientStep, daemonStep] at hstep
      subst hstep
      exact ⟨_, by omega, .reporting k hask⟩
  -- the only state in which there is a choice, that of the callback
  | @reporting progress next k hask =>
      cases action with
      | decide decision =>
          cases decision with
          | ok value =>
              simp [Exchange.step, clientStep, daemonStep] at hstep
              subst hstep
              refine ⟨_, ?_, .continued (k + 1) (hask.2 yes not_refuses_yes)⟩
              simp only [Tree.depth]
              omega
          | error error =>
              simp [Exchange.step, clientStep, daemonStep] at hstep
              subst hstep
              refine ⟨3, ?_, .cancelled error (k + 1) (hask.1 no refuses_no)⟩
              simp only [Tree.depth]
              omega
      | _ => simp [Exchange.step, clientStep, daemonStep] at hstep
  | @continued next k hnext =>
      cases action <;> simp [Exchange.step, clientStep, daemonStep] at hstep
      subst hstep
      exact ⟨4 * (next yes).depth yes no + 2, by omega, .running k hnext⟩
  | @cancelled next error k hnext =>
      -- after a refusal the run asks nothing more
      obtain ⟨last, hlast, hstopped⟩ := hnext
      cases action <;> simp [Exchange.step, clientStep, daemonStep, hlast] at hstep
      subst hstep
      exact ⟨2, by omega, .ending error k hstopped⟩
  | @ending last error k hstopped =>
      cases action <;> simp [Exchange.step, clientStep, daemonStep] at hstep
      subst hstep
      exact ⟨1, by omega, .ended error k hstopped⟩
  | @ended result world error k hstopped =>
      cases action <;> simp [Exchange.step, clientStep, daemonStep] at hstep
      subst hstep
      obtain ⟨failure, rfl, -⟩ := hstopped.error
      exact ⟨0, by omega, .finished k true (by simp) hstopped.good fun _ => hstopped⟩
  | @answered result world k hgood =>
      cases action <;> simp [Exchange.step, clientStep, daemonStep] at hstep
      subst hstep
      obtain ⟨answer, hreceive, hanswer⟩ := receive_lastReply result
      rw [hreceive]
      exact ⟨0, by omega, .finished k false hanswer hgood (by simp)⟩
  | finished =>
      cases action <;> simp [Exchange.step, clientStep, daemonStep] at hstep

/-- Unless both have stopped, one of the two can go on. -/
theorem Stage.enabled (h : Stage run n x) (hstuck : ∀ action, x.step run action = none) :
    ∃ result world answer, x.client = .returned answer ∧ x.daemon = .stopped result world := by
  cases h with
  | sending => simpa [Exchange.step, clientStep, initial] using hstuck .send
  | sent => simpa [Exchange.step, clientStep, daemonStep] using hstuck .accept
  | @running now =>
      cases now <;> simpa [Exchange.step, clientStep, daemonStep] using hstuck .write
  | asked => simpa [Exchange.step, clientStep] using hstuck .receive
  | reporting => simpa [Exchange.step, clientStep] using hstuck (.decide (.ok ()))
  | continued => simpa [Exchange.step, clientStep, daemonStep] using hstuck .read
  | cancelled => simpa [Exchange.step, clientStep, daemonStep] using hstuck .read
  | ending => simpa [Exchange.step, clientStep, daemonStep] using hstuck .write
  | ended => simpa [Exchange.step, clientStep] using hstuck .receive
  | answered => simpa [Exchange.step, clientStep] using hstuck .receive
  | finished => exact ⟨_, _, _, rfl, rfl⟩

theorem Stage.reaches (h : Stage run n x) (hrun : Obedient run) {actions : List ExchangeAction}
    (hactions : Run (Exchange.step run) always x actions y) :
    ∃ m, Stage run m y ∧ m + actions.length ≤ n := by
  induction actions generalizing x n with
  | nil =>
      obtain rfl : x = y := hactions
      exact ⟨n, h, by simp⟩
  | cons action rest ih =>
      obtain ⟨-, middle, hmiddle, hrest⟩ := hactions
      obtain ⟨m, hless, hstage⟩ := h.step hrun hmiddle
      obtain ⟨last, hlast, hbound⟩ := ih hstage hrest
      exact ⟨last, hlast, by simp only [List.length_cons]; omega⟩

/-- At most one frame is under way, and every progress frame but the last has its answer. -/
theorem Stage.alternates (h : Stage run n x) :
    x.toClient.length + x.toDaemon.length ≤ 1 ∧ x.answers ≤ x.reports ∧
      x.reports ≤ x.answers + 1 := by
  cases h <;> simp [initial]

/-- What the two have agreed on when both have stopped. -/
theorem Stage.agrees (h : Stage run n x)
    {result : Except MaterializeOperationError MaterializeProgress}
    {world : World} {answer : IoResult MaterializeProgress} (hclient : x.client = .returned answer)
    (hdaemon : x.daemon = .stopped result world) :
    x.toClient = [] ∧ x.toDaemon = [] ∧ x.answers = x.reports ∧
      (∀ progress, answer = .ok progress ↔ result = .ok progress) ∧
      ((∃ progress, answer = .ok progress) ↔ world.MarkedAll) ∧
      (x.refused = true → (∃ error, result = .error error) ∧ world.marked = []) := by
  cases h with
  | finished k refused hanswer hgood hstopped =>
      obtain rfl := ClientPhase.returned.inj hclient
      obtain ⟨rfl, rfl⟩ := DaemonPhase.stopped.inj hdaemon
      refine ⟨rfl, rfl, rfl, hanswer, ?_, fun hrefused => ?_⟩
      · simp only [hanswer]
        exact hgood.ok_iff
      · obtain ⟨error, herror, -, hmarked⟩ := (hstopped hrefused).error
        exact ⟨⟨error, herror⟩, hmarked⟩
  | _ => simp [initial] at hclient hdaemon

/-- In every exchange of a materialize request, whatever the callback returns and whatever
happens in the daemon: the two parties alternate, both stop after a bounded number of steps
and leave no frame unread, the client returns without an error exactly when every planned
node was marked, and if the callback fails the run fails and marks nothing. -/
theorem exchange_agrees (env : Environment) (request : MaterializeBody) (world : World)
    {actions : List ExchangeAction}
    (hactions : Run (Exchange.step (start env request world)) always initial actions x) :
    (x.toClient.length + x.toDaemon.length ≤ 1 ∧ x.answers ≤ x.reports ∧
      x.reports ≤ x.answers + 1) ∧
    actions.length ≤ 4 * (start env request world).depth yes no + 4 ∧
    ((∀ action, x.step (start env request world) action = none) →
      ∃ result last answer, x.client = .returned answer ∧ x.daemon = .stopped result last) ∧
    ∀ result last answer, x.client = .returned answer → x.daemon = .stopped result last →
      x.toClient = [] ∧ x.toDaemon = [] ∧ x.answers = x.reports ∧
      (∀ progress, answer = .ok progress ↔ result = .ok progress) ∧
      ((∃ progress, answer = .ok progress) ↔ last.MarkedAll) ∧
      (x.refused = true → (∃ error, result = .error error) ∧ last.marked = []) := by
  have hstart : Stage (start env request world) _ initial := .sending
  obtain ⟨n, hstage, hbound⟩ := hstart.reaches (obedient_start env request world) hactions
  exact ⟨hstage.alternates, by omega, hstage.enabled, fun _ _ _ => hstage.agrees⟩

/-- The callback fails at the first report of a file. -/
theorem exchange_agrees_of_cancelled :
    ∃ (x : Exchange) (result : Except MaterializeOperationError MaterializeProgress)
      (last : World), x.client = .returned (.error ⟨.interrupted, "cancelled"⟩) ∧
      x.daemon = .stopped result last ∧ x.refused = true ∧ x.toClient = [] ∧ x.toDaemon = [] ∧
      last.marked = [] := by
  let env : Environment := ⟨1, fun _ => 0, fun _ => none, fun _ => 0, fun _ => ⟨[], 0⟩,
    fun _ _ => .error ⟨.timedOut, "provider read response timed out"⟩⟩
  let world : World := ⟨Runtime.new.run [.registerProvider,
      .commitPromise 1 [⟨"a".toList, "n".toList, .file, ⟨0o644, 3, 0⟩⟩]],
    ⟨some "/m".toList, true⟩, 1, 0, .empty, 0, none, [], [], 0⟩
  let run := start env ⟨"/m/promise-1/a".toList, "/".toList, .fail⟩ world
  let actions : List ExchangeAction := [.send, .accept, .write, .receive,
    .decide (.error ⟨.interrupted, "cancelled"⟩), .read, .write, .receive]
  have hseen : (actions.foldlM (Exchange.step run) initial).map (fun x =>
      (x.client, x.refused, match x.daemon with | .stopped _ _ => true | _ => false)) =
      some (.returned (.error ⟨.interrupted, "cancelled"⟩), true, true) := by
    decide +kernel
  obtain ⟨x, hx, hsame⟩ := Option.map_eq_some_iff.mp hseen
  simp only [Prod.mk.injEq] at hsame
  obtain ⟨hclient, hrefused, hdaemon⟩ := hsame
  split at hdaemon
  · rename_i result last hstopped
    obtain ⟨hread, hread', -, -, -, hmarked⟩ :=
      (exchange_agrees env _ world (.of_foldlM hx)).2.2.2 result last _ hclient hstopped
    exact ⟨x, result, last, hclient, hstopped, hrefused, hread, hread', (hmarked hrefused).2⟩
  · simp at hdaemon

end Exchange

end FusePromise
