import FusePromise.Foundation.Fairness
import FusePromise.Ipc.LiveProvider
import FusePromise.Ipc.Poison
import FusePromise.Ipc.Registration

/-!
# Reads and sessions come to an end

A thread of `route_provider_read` waits for its answer with a limit, but not for the
write of its request: a provider that does not read can hold it up for ever.  Nothing
else can, as long as it gets the locks it asks for: each of its own steps brings it
nearer to its return.  A handler whose session is over writes nothing; it disconnects
one provider after the other, and when it gets the locks for that, nothing is left of
the providers on its list.

The rank of a thread is read off its phase.  Within a disconnect the number of
reads still to fail is known only once the table has been swept, hence the
lexicographic order.
-/

namespace FusePromise

open Machine Transition

/-! ## Ranks -/

def DisconnectStage.rank : DisconnectStage → ℕ ×ₗ ℕ
  | .removeRoute => toLex (3, 0)
  | .unregister => toLex (2, 0)
  | .sweep => toLex (1, 0)
  | .failing reads => toLex (0, reads.length)

/-- How far a call is from its return. -/
def CallPhase.rank : CallPhase → ℕ ×ₗ ℕ
  | .absent | .ready _ => toLex (9, 0)
  | .routing => toLex (8, 0)
  | .routed _ => toLex (7, 0)
  | .writing _ => toLex (6, 0)
  | .waiting | .writeFailed _ => toLex (5, 0)
  | .timedOut => toLex (4, 0)
  | .disconnecting stage _ => stage.rank
  | .done _ => toLex (0, 0)

/-- How many providers are left, and how far the disconnect of the current one is. -/
def HandlerPhase.rank : HandlerPhase → ℕ ×ₗ (ℕ ×ₗ ℕ)
  | .disconnecting _ stage (some rest) => toLex (rest.length + 1, stage.rank)
  | .closing providerIds => toLex (providerIds.length, toLex (4, 0))
  | _ => toLex (0, toLex (0, 0))

theorem DisconnectStage.rank_lt (stage : DisconnectStage) : stage.rank < toLex (4, 0) := by
  cases stage <;> simp [rank, Prod.Lex.toLex_lt_toLex]

namespace System

variable {s t : System} {action : Action} {c : CallId} {k : ConnId}

/-- Every section of a disconnect lowers the rank. -/
theorem disconnectStep_rank {agent : Agent} {providerId : ℕ} {stage later : DisconnectStage}
    {next : System} (h : s.disconnectStep agent providerId stage = (next, some later)) :
    later.rank < stage.rank := by
  cases stage with
  | removeRoute =>
      simp only [disconnectStep, Prod.mk.injEq] at h
      obtain ⟨-, hlater⟩ := h
      split at hlater
      · obtain rfl := Option.some.inj hlater
        simp [DisconnectStage.rank, Prod.Lex.toLex_lt_toLex]
      · simp at hlater
  | unregister =>
      obtain ⟨-, hlater⟩ := Prod.mk.inj h
      obtain rfl := Option.some.inj hlater
      simp [DisconnectStage.rank, Prod.Lex.toLex_lt_toLex]
  | sweep =>
      obtain ⟨-, hlater⟩ := Prod.mk.inj h
      obtain rfl := Option.some.inj hlater
      simp [DisconnectStage.rank, Prod.Lex.toLex_lt_toLex]
  | failing reads =>
      cases reads with
      | nil => simp [disconnectStep] at h
      | cons read rest =>
          obtain ⟨-, hlater⟩ := Prod.mk.inj h
          obtain rfl := Option.some.inj hlater
          simp [DisconnectStage.rank, Prod.Lex.toLex_lt_toLex]

/-! ## Calls return -/

/-- A call that has begun and has not returned. -/
def Unfinished (s : System) (c : CallId) : Prop :=
  (s.calls c).phase.started ∧ ∀ outcome, (s.calls c).phase ≠ .done outcome

/-- The call has returned. -/
def Returned (s : System) (c : CallId) : Prop :=
  ∃ outcome, (s.calls c).phase = .done outcome

/-- The call is at the write of its request. -/
def isWriting (s : System) (c : CallId) : Bool :=
  match (s.calls c).phase with
  | .writing _ => true
  | _ => false

/-- A call that has not returned has a step to take, and this is a write when it is at its write. -/
theorem Unfinished.enabled (h : s.Unfinished c) :
    Enabled step always (fun action => action.agent = some (.caller c) ∧
      action.isWrite = s.isWriting c) s := by
  obtain ⟨hstarted, hnot⟩ := h
  have hcall : ∀ action : Action, action.agent = some (.caller c) → (s.callStep action).isSome →
      action.isWrite = s.isWriting c →
      Enabled step always (fun action => action.agent = some (.caller c) ∧
        action.isWrite = s.isWriting c) s := by
    intro action hagent hstep hwrite
    refine ⟨action, ⟨hagent, hwrite⟩, trivial, ?_⟩
    obtain ⟨next, hnext⟩ := Option.isSome_iff_exists.mp hstep
    simp [step, hnext]
  cases hphase : (s.calls c).phase with
  | absent | ready => simp [hphase, CallPhase.started] at hstarted
  | routing =>
      refine hcall (.lookupRoute c) rfl ?_ (by simp [isWriting, hphase, Action.isWrite])
      simp only [callStep, hphase]
      split <;> rfl
  | routed =>
      exact hcall (.insertPending c) rfl (by simp [callStep, hphase])
        (by simp [isWriting, hphase, Action.isWrite])
  | writing =>
      exact hcall (.writeRequest c none) rfl (by simp [callStep, hphase])
        (by simp [isWriting, hphase, Action.isWrite])
  | writeFailed | timedOut =>
      exact hcall (.removePending c) rfl (by simp [callStep, hphase])
        (by simp [isWriting, hphase, Action.isWrite])
  | disconnecting =>
      exact hcall (.disconnectCall c) rfl (by simp [callStep, hphase])
        (by simp [isWriting, hphase, Action.isWrite])
  | waiting =>
      -- there is an outcome to receive, or the wait times out
      cases hinbox : (s.calls c).inbox with
      | nil =>
          exact hcall (.timeout c) rfl (by simp [callStep, hphase, hinbox])
            (by simp [isWriting, hphase, Action.isWrite])
      | cons =>
          exact hcall (.receive c) rfl (by simp [callStep, hphase, hinbox])
            (by simp [isWriting, hphase, Action.isWrite])
  | done outcome => exact absurd hphase (hnot outcome)

/-- Every step of its own brings a call nearer to its return. -/
theorem Step.rank_of_own (h : Step s action t) (hagent : action.agent = some (.caller c))
    (hbegun : s.Unfinished c) :
    t.Returned c ∨ t.Unfinished c ∧ (t.calls c).phase.rank < (s.calls c).phase.rank := by
  obtain ⟨hstarted, hnot⟩ := hbegun
  have hnext : ∀ phase : CallPhase, (t.calls c).phase = phase → phase.started →
      (∀ outcome, phase ≠ .done outcome) → phase.rank < (s.calls c).phase.rank →
      t.Returned c ∨ t.Unfinished c ∧ (t.calls c).phase.rank < (s.calls c).phase.rank := by
    rintro phase rfl hstarted hnot hrank
    exact Or.inr ⟨⟨hstarted, hnot⟩, hrank⟩
  -- the phases go down the list of `CallPhase.rank`, or to the end at once
  cases h with
  | @allocate c' hphase =>
      obtain rfl : c' = c := by simpa [Action.agent] using hagent
      simp [hphase, CallPhase.started] at hstarted
  | @begin c' request hbegin =>
      obtain rfl : c' = c := by simpa [Action.agent] using hagent
      generalize (s.calls c').phase = phase at hbegin hstarted
      cases phase <;> simp [mayBegin, CallPhase.started] at hbegin hstarted
  | @noRoute c' | @removeTimedOut c' | @receive c' | @channelClosed c' =>
      obtain rfl : c' = c := by simpa [Action.agent] using hagent
      exact Or.inl ⟨_, by simp; rfl⟩
  | @route c' route hphase =>
      obtain rfl : c' = c := by simpa [Action.agent] using hagent
      refine hnext (.routed route) (by simp) rfl (by simp) ?_
      simp [hphase, CallPhase.rank, Prod.Lex.toLex_lt_toLex]
  | @insertPending c' route hphase =>
      obtain rfl : c' = c := by simpa [Action.agent] using hagent
      by_cases hmem : (s.calls c').request.requestId ∈ s.pendingReads
      · exact Or.inl ⟨_, by simp [System.insertPending, enter, hmem]; rfl⟩
      · refine hnext (.writing route) (by simp [System.insertPending, enter, hmem]) rfl
          (by simp) ?_
        simp [hphase, CallPhase.rank, Prod.Lex.toLex_lt_toLex]
  | @written c' route hphase =>
      obtain rfl : c' = c := by simpa [Action.agent] using hagent
      refine hnext .waiting (by simp) rfl (by simp) ?_
      simp [hphase, CallPhase.rank, Prod.Lex.toLex_lt_toLex]
  | @writeFailed c' route error hphase =>
      obtain rfl : c' = c := by simpa [Action.agent] using hagent
      refine hnext (.writeFailed error) (by simp) rfl (by simp) ?_
      simp [hphase, CallPhase.rank, Prod.Lex.toLex_lt_toLex]
  | @removeFailed c' error hphase =>
      obtain rfl : c' = c := by simpa [Action.agent] using hagent
      refine hnext (.disconnecting .removeRoute error) (by simp) rfl (by simp) ?_
      simp [hphase, CallPhase.rank, DisconnectStage.rank, Prod.Lex.toLex_lt_toLex]
  | @timeout c' hphase =>
      obtain rfl : c' = c := by simpa [Action.agent] using hagent
      refine hnext .timedOut (by simp) rfl (by simp) ?_
      simp [hphase, CallPhase.rank, Prod.Lex.toLex_lt_toLex]
  | @disconnectCall c' stage error hphase =>
      obtain rfl : c' = c := by simpa [Action.agent] using hagent
      generalize hresult : s.disconnectStep _ _ _ = result at hnext ⊢
      obtain ⟨next, later⟩ := result
      cases later with
      | none => exact Or.inl ⟨.error error, by simp [CallPhase.afterDisconnect]⟩
      | some later =>
          refine hnext (.disconnecting later error)
            (by simp [CallPhase.afterDisconnect]) rfl (by simp) ?_
          rw [hphase]
          exact disconnectStep_rank hresult
  | _ => simp [Action.agent] at hagent

/-- A step of another thread leaves a call where it is. -/
theorem Step.unfinished_of_other (h : Step s action t) (hagent : action.agent ≠ some (.caller c)) :
    (t.Unfinished c ↔ s.Unfinished c) ∧ t.isWriting c = s.isWriting c := by
  simp only [Unfinished, isWriting, h.phase_of_other hagent, and_self]

/-- A call that returns, as long as its write does. -/
theorem leadsTo_returned {trace : Trace step always}
    (hfair : ∀ write, trace.Fair fun action => action.agent = some (.caller c) ∧
      action.isWrite = write) : trace.LeadsTo (Unfinished · c) (Returned · c) := by
  refine Trace.leadsTo_of_rank
    (fun write action => action.agent = some (.caller c) ∧ action.isWrite = write)
    (fun s => (s.calls c).phase.rank) (isWriting · c) hfair Unfinished.enabled ?_
  intro s action t hbegun _ hstep
  have hstep := Step.of_step hstep
  by_cases hagent : action.agent = some (.caller c)
  · rcases hstep.rank_of_own hagent hbegun with hreturned | ⟨hbegun, hrank⟩
    · exact Or.inl hreturned
    · exact Or.inr ⟨hbegun, Or.inl hrank⟩
  · obtain ⟨hsame, hwriting⟩ := hstep.unfinished_of_other hagent
    refine Or.inr ⟨hsame.mpr hbegun, Or.inr ⟨?_, hwriting, fun hown => hagent hown.1⟩⟩
    rw [hstep.phase_of_other hagent]

/-- A call that can write is at its write. -/
theorem isWriting_of_enabled (h : Enabled step always (fun action =>
      action.agent = some (.caller c) ∧ action.isWrite = true) s) : s.isWriting c = true := by
  obtain ⟨action, ⟨hagent, hwrite⟩, -, hsome⟩ := h
  obtain ⟨t, hstep⟩ := Option.isSome_iff_exists.mp hsome
  cases Step.of_step hstep with
  | @written c' route hphase | @writeFailed c' route _ hphase =>
      obtain rfl : c' = c := by simpa [Action.agent] using hagent
      simp [isWriting, hphase]
  | _ => simp_all [Action.agent, Action.isWrite]

/-- Whatever the other threads and the providers do: on a run that is fair to its thread, but for
the write of its request, a call that has begun returns, and what it returns stays; or it stays
in that write for ever. -/
theorem call_returns_or_keeps_writing {trace : Trace step always}
    (hfair : trace.Fair fun action =>
      action.agent = some (.caller c) ∧ action.isWrite = false) {n : ℕ}
    (hbegun : (trace.state n).Unfinished c) :
    (∃ m ≥ n, ∃ outcome, ∀ later ≥ m, ((trace.state later).calls c).phase = .done outcome) ∨
      ∃ m ≥ n, ∀ later ≥ m, ∃ route, ((trace.state later).calls c).phase = .writing route := by
  by_cases hwrite : ∃ m ≥ n, ∀ later ≥ m, (trace.state later).isWriting c = true
  · obtain ⟨m, hm, hwriting⟩ := hwrite
    refine Or.inr ⟨m, hm, fun later hlater => ?_⟩
    have := hwriting later hlater
    unfold isWriting at this
    split at this
    · exact ⟨_, by assumption⟩
    · simp at this
  · -- then its write returns whenever it is at it
    have hleads := leadsTo_returned fun write => by
      cases write with
      | false => exact hfair
      | true =>
          intro n' henabled
          refine absurd ⟨max n n', le_max_left _ _, fun later hlater => ?_⟩ hwrite
          exact isWriting_of_enabled (henabled later ((le_max_right _ _).trans hlater))
    obtain ⟨m, hm, outcome, hdone⟩ := hleads n hbegun
    refine Or.inl ⟨m, hm, outcome, fun later hlater => ?_⟩
    induction later, hlater using Nat.le_induction with
    | base => exact hdone
    | succ later hlater ih => exact ((Step.of_step (trace.next later)).call c).done ih

theorem Returned.not_enabled (h : s.Returned c) :
    ¬ Enabled step always (fun action => action.agent = some (.caller c)) s := by
  rintro ⟨action, hagent, -, hsome⟩
  obtain ⟨outcome, hdone⟩ := h
  obtain ⟨t, hstep⟩ := Option.isSome_iff_exists.mp hsome
  cases Step.of_step hstep with
  | @begin c' request hbegin =>
      obtain rfl : c' = c := by simpa [Action.agent] using hagent
      simp [hdone, mayBegin] at hbegin
  | @allocate c' hphase | @noRoute c' hphase | @route c' _ hphase | @written c' _ hphase
  | @writeFailed c' _ _ hphase | @receive c' _ _ hphase | @timeout c' hphase
  | @channelClosed c' hphase | @removeFailed c' _ hphase | @removeTimedOut c' hphase
  | @insertPending c' _ hphase | @disconnectCall c' _ _ hphase =>
      obtain rfl : c' = c := by simpa [Action.agent] using hagent
      simp [hdone] at hphase
  | _ => simp [Action.agent] at hagent

/-- Setting the mount status to what it is changes nothing. -/
theorem step_setMountStatus (h : s.readyForCommits = false) :
    step s (.setMountStatus false) = some s := by
  cases s
  obtain rfl : _ = false := h
  rfl

/-- A read of a provider that takes the request and never answers: the call is not at its write
for ever. -/
theorem call_returns_of_timeout :
    ∃ trace : Trace step always, ((trace.state 0).calls 0).phase = .routing ∧
      ∃ m, ∃ outcome, ((trace.state m).calls 0).phase = .done outcome := by
  obtain ⟨s, t, -, hbegun, hrun, hidle, hdone⟩ : ∃ s t : System,
      [Action.connect 0, .frame 0 (.hello 1 1), .reply 0 true, .frame 0 .providerRegister,
        .registerProvider 0, .registerRoute 0 (some 5), .reply 0 true,
        .begin 0 ⟨1, 1, ['p'], ['f'], ['n'], 0, 4⟩].foldlM step (initial Runtime.new) = some s ∧
      (s.calls 0).phase = .routing ∧
      Run step always s [.lookupRoute 0, .insertPending 0, .writeRequest 0 none, .timeout 0,
        .removePending 0] t ∧ t.readyForCommits = false ∧ t.Returned 0 :=
    ⟨_, _, rfl, rfl, ⟨trivial, _, rfl, trivial, _, rfl, trivial, _, rfl, trivial, _, rfl, trivial,
      _, rfl, rfl⟩, rfl, _, rfl⟩
  obtain ⟨trace, hstart, hend⟩ :=
    Trace.exists_of_run hrun (.idle trivial (step_setMountStatus hidle)) rfl
  have hphase : ((trace.state 0).calls 0).phase = .routing := hstart ▸ hbegun
  have hstuck : ¬ Enabled step always (fun action =>
      action.agent = some (.caller 0) ∧ action.isWrite = false) t := by
    rintro ⟨action, ⟨hagent, -⟩, hok, hsome⟩
    exact hdone.not_enabled ⟨action, hagent, hok, hsome⟩
  rcases call_returns_or_keeps_writing (Trace.fair_of_rest _ hend hstuck) (n := 0)
    ⟨by rw [hphase]; rfl, by simp [hphase]⟩ with ⟨m, -, outcome, hlater⟩ | ⟨m, -, hwriting⟩
  · exact ⟨trace, hphase, m, outcome, hlater m le_rfl⟩
  · obtain ⟨outcome, hdone⟩ := hdone
    obtain ⟨route, hroute⟩ := hwriting (5 + m) (by omega)
    rw [show trace.state (5 + m) = t from hend m, hdone] at hroute
    simp at hroute

/-! ## Sessions end -/

end System

/-- A session that is over and whose handler is not done with it. -/
def HandlerPhase.ending : HandlerPhase → Bool
  | .closing _ | .disconnecting _ _ (some _) => true
  | _ => false

/-- The actions of a handler in each of its phases. -/
def HandlerPhase.accepts : HandlerPhase → Action → Bool
  | .absent, .connect _ | .reading, .frame _ _ | .reading, .endOfStream _
  | .materializing, .frame _ _ | .materializing, .endOfStream _ | .materializing, .endMaterialize _
  | .replying, .reply _ _ | .registering, .registerProvider _ | .registered _, .registerRoute _ _
  | .validating _ _ _, .validateOwner _ | .unregistering _, .unregister _
  | .checkingMount _ _, .checkMount _ | .committing _ _, .commit _ | .taking _, .takePending _
  | .answering _ _, .answer _ | .disconnecting _ _ _, .disconnectConn _
  | .closing _, .close _ => true
  | _, _ => false

namespace System

variable {s t : System} {action : Action} {k : ConnId}

/-- A handler does what its phase is for. -/
theorem Step.accepts (h : Step s action t) (hagent : action.agent = some (.handler k)) :
    (s.conns k).phase.accepts action := by
  cases h with
  | @connect k' hphase | @frame k' _ hphase | @progressFrame k' _ hphase | @endOfStream k' hphase
  | @progressEnd k' hphase | @replied k' hphase | @replyFailed k' hphase
  | @registerProvider k' hphase | @registerRoute k' _ _ hphase | @noToken k' _ hphase
  | @owned k' _ _ _ _ hphase | @notOwned k' _ _ _ hphase | @unregister k' _ _ hphase
  | @unregisterFailed k' _ hphase | @mounted k' _ _ hphase | @notMounted k' _ _ hphase
  | @commit k' _ _ hphase | @endMaterialize k' hphase | @takePending k' _ _ hphase
  | @unmatched k' _ hphase | @answer k' _ _ hphase | @disconnectConn k' _ _ _ hphase
  | @closed k' hphase | @closeNext k' _ _ hphase =>
      obtain rfl : k' = k := by simpa [Action.agent] using hagent
      rw [hphase]
      rfl
  | _ => simp [Action.agent] at hagent

theorem enabled_of_ending (h : (s.conns k).phase.ending) :
    Enabled step always (fun action => action.agent = some (.handler k)) s := by
  have hconn : ∀ action : Action, action.agent = some (.handler k) → s.callStep action = none →
      (s.connStep action).isSome →
      Enabled step always (fun action => action.agent = some (.handler k)) s := by
    intro action hagent hcall hstep
    refine ⟨action, hagent, trivial, ?_⟩
    obtain ⟨next, hnext⟩ := Option.isSome_iff_exists.mp hstep
    simp [step, hcall, hnext]
  cases hphase : (s.conns k).phase with
  | closing providerIds =>
      refine hconn (.close k) rfl rfl ?_
      simp only [connStep, hphase]
      cases providerIds <;> rfl
  | disconnecting => exact hconn (.disconnectConn k) rfl rfl (by simp [connStep, hphase])
  | _ => simp [hphase, HandlerPhase.ending] at h

/-- Every step of its own brings the handler nearer to the end of its session. -/
theorem Step.rank_of_ending (h : Step s action t) (hagent : action.agent = some (.handler k))
    (hending : (s.conns k).phase.ending) :
    (t.conns k).phase = .closed ∨
      (t.conns k).phase.ending ∧ (t.conns k).phase.rank < (s.conns k).phase.rank := by
  have haccepts := h.accepts hagent
  cases h with
  | @closed k' hphase =>
      obtain rfl : k' = k := by simpa [Action.agent] using hagent
      exact Or.inl (by simp)
  | @closeNext k' providerId rest hphase =>
      obtain rfl : k' = k := by simpa [Action.agent] using hagent
      refine Or.inr ⟨by simp [HandlerPhase.ending], ?_⟩
      simp [hphase, HandlerPhase.rank, Prod.Lex.toLex_lt_toLex, DisconnectStage.rank_lt]
  | @disconnectConn k' providerId stage rest hphase =>
      obtain rfl : k' = k := by simpa [Action.agent] using hagent
      obtain ⟨providerIds, rfl⟩ : ∃ providerIds, rest = some providerIds := by
        cases rest with
        | none => simp [hphase, HandlerPhase.ending] at hending
        | some providerIds => exact ⟨providerIds, rfl⟩
      generalize hresult : s.disconnectStep _ _ _ = result
      obtain ⟨next, later⟩ := result
      have hnext :
          ((next.setHandler k' (.afterDisconnect providerId (some providerIds) later)).conns
          k').phase = .afterDisconnect providerId (some providerIds) later := by simp
      rw [hnext, hphase]
      cases later with
      | none =>
          refine Or.inr ⟨rfl, ?_⟩
          simp [HandlerPhase.afterDisconnect, HandlerPhase.rank, Prod.Lex.toLex_lt_toLex]
      | some later =>
          refine Or.inr ⟨rfl, ?_⟩
          simp [HandlerPhase.afterDisconnect, HandlerPhase.rank, Prod.Lex.toLex_lt_toLex,
            disconnectStep_rank hresult]
  | _ =>
      generalize (s.conns k).phase = phase at haccepts hending
      cases phase <;> simp [HandlerPhase.ending, HandlerPhase.accepts] at hending haccepts

theorem Step.closed_stays (h : Step s action t) (hclosed : (s.conns k).phase = .closed) :
    (t.conns k).phase = .closed := by
  rcases h.handler k with hsame | hmove
  · rw [hsame, hclosed]
  · rw [hclosed] at hmove
    generalize (t.conns k).phase = phase at hmove
    cases hmove with
    | endSession _ hcause => simp at hcause
    | reply _ hcause => simp at hcause

/-- A session that is over, and the providers it had. -/
structure Leaving (s : System) (k : ConnId) (providerIds : List ProviderId) : Prop where
  tidy : Tidy s
  accounted : ∀ providerId ∈ providerIds, s.Accounted k providerId

theorem Leaving.step {providerIds : List ProviderId} (h : s.Leaving k providerIds)
    (hphase : (s.conns k).phase.ending ∨ (s.conns k).phase = .closed)
    (hstep : Step s action t) : t.Leaving k providerIds := by
  have hroute : action ≠ .registerRoute k none := by
    rintro rfl
    cases hstep with
    | noToken hregistered => simp [hregistered, HandlerPhase.ending] at hphase
  exact ⟨h.tidy.step hstep, fun providerId hmem =>
    (h.accounted providerId hmem).step h.tidy hstep hroute⟩

/-- A provider that was registered has its record. -/
theorem mem_providers_step (htidy : Tidy s) (h : ∀ providerId, s.Known providerId →
      providerId ∈ s.runtime.providers) (hstep : Step s action t) {providerId : ProviderId}
    (hknown : t.Known providerId) : providerId ∈ t.runtime.providers := by
  have hbefore : providerId ∈ s.runtime.providers := by
    obtain ⟨k, hon⟩ := hknown
    rcases hstep.shared.registeredOn hon with hon | ⟨hphase, -⟩
    · exact h providerId ⟨k, hon⟩
    · exact Runtime.mem_of_hasProvider (htidy.fresh hphase).live
  rcases hstep.shared.runtime_cases with hsame | ⟨op, happly, -⟩
  · exact hsame ▸ hbefore
  · exact happly ▸ (s.runtime.effect_apply op).mem_providers hbefore

/-- On a run that is fair to its handler, which needs nothing but locks now, a session that is
over is closed, and then nothing is ever left of the providers on its list.  A provider without a
token or a route never got onto the list. -/
theorem ended_session_releases_providers {policy : CachePolicy} {start : Runtime}
    {trace : Trace step always} (hstart : Runtime.withCachePolicy policy = .ok start)
    (hinitial : trace.state 0 = initial start)
    (hfair : trace.Fair fun action => action.agent = some (.handler k)) {n : ℕ}
    {providerIds : List ProviderId}
    (hphase : ((trace.state n).conns k).phase = .closing providerIds) :
    ∃ m ≥ n, ∀ later ≥ m, ((trace.state later).conns k).phase = .closed ∧
      ∀ providerId ∈ providerIds, (trace.state later).Released providerId := by
  obtain ⟨htidy, hmem⟩ : Tidy (trace.state n) ∧ ∀ providerId,
      (trace.state n).Known providerId → providerId ∈ (trace.state n).runtime.providers := by
    refine (trace.reaches n).invariant (fun s => Tidy s ∧ ∀ providerId,
      s.Known providerId → providerId ∈ s.runtime.providers) ?_ ?_
    · rintro s action t ⟨htidy, hmem⟩ - hstep
      have hstep := Step.of_step hstep
      exact ⟨htidy.step hstep, fun providerId => mem_providers_step htidy hmem hstep⟩
    · rw [hinitial]
      exact ⟨.initial hstart, by simp [Known, RegisteredOn, System.initial]⟩
  have hstarted : (trace.state n).Leaving k providerIds := by
    refine ⟨htidy, fun providerId hleaving => ⟨hmem providerId ?_, Or.inl ?_⟩⟩
    · exact htidy.sessions.handler (k := k) providerId (by simpa [HandlerPhase.leaving, hphase])
    · simpa [Conn.due, hphase] using hleaving
  -- every step of the handler lowers its rank, and no other thread moves it
  have hleads : trace.LeadsTo (fun s => s.Leaving k providerIds ∧ (s.conns k).phase.ending)
      (fun s => s.Leaving k providerIds ∧ (s.conns k).phase = .closed) := by
    refine Trace.leadsTo_of_rank (ι := Unit) (fun _ action => action.agent = some (.handler k))
      (fun s => (s.conns k).phase.rank) (fun _ => ()) (fun _ => hfair)
      (fun h => enabled_of_ending h.2) ?_
    rintro s action t ⟨hleaving, hending⟩ - hstep
    have hstep := Step.of_step hstep
    have hlater := hleaving.step (Or.inl hending) hstep
    by_cases hagent : action.agent = some (.handler k)
    · rcases hstep.rank_of_ending hagent hending with hclosed | ⟨hending, hrank⟩
      · exact Or.inl ⟨hlater, hclosed⟩
      · exact Or.inr ⟨⟨hlater, hending⟩, Or.inl hrank⟩
    · have hsame : (t.conns k).phase = (s.conns k).phase := by rw [hstep.conn_of_other hagent]
      exact Or.inr ⟨⟨hlater, hsame ▸ hending⟩, Or.inr ⟨by rw [hsame], rfl, hagent⟩⟩
  obtain ⟨m, hm, hclosed⟩ := hleads n ⟨hstarted, by rw [hphase]; rfl⟩
  -- a closed connection stays closed, and what it has released stays released
  have hstays : ∀ later ≥ m, (trace.state later).Leaving k providerIds ∧
      ((trace.state later).conns k).phase = .closed := by
    intro later hlater
    induction later, hlater using Nat.le_induction with
    | base => exact hclosed
    | succ later hlater ih =>
        have hstep := Step.of_step (trace.next later)
        exact ⟨ih.1.step (Or.inr ih.2) hstep, hstep.closed_stays ih.2⟩
  refine ⟨m, hm, fun later hlater => ?_⟩
  obtain ⟨hleaving, hclosed⟩ := hstays later hlater
  exact ⟨hclosed, fun providerId hmem =>
    (hleaving.accounted providerId hmem).released hleaving.tidy.tracked hclosed⟩

theorem not_enabled_of_closed (h : (s.conns k).phase = .closed) :
    ¬ Enabled step always (fun action => action.agent = some (.handler k)) s := by
  rintro ⟨action, hagent, -, hsome⟩
  obtain ⟨t, hstep⟩ := Option.isSome_iff_exists.mp hsome
  have haccepts := (Step.of_step hstep).accepts hagent
  rw [h] at haccepts
  cases action <;> simp [HandlerPhase.accepts] at haccepts

/-- The stream of a provider's connection ends. -/
theorem ended_session_releases_provider :
    ∃ (trace : Trace step always) (n m : ℕ), ((trace.state n).conns 0).phase = .closing [1] ∧
      n ≤ m ∧ (trace.state m).Released 1 := by
  obtain ⟨s, hbefore, hphase, t, hafter, hidle, hclosed⟩ : ∃ s, Run step always
      (initial Runtime.new) [.connect 0, .frame 0 (.hello 1 1), .reply 0 true,
        .frame 0 .providerRegister, .registerProvider 0, .registerRoute 0 (some 5),
        .reply 0 true, .endOfStream 0] s ∧ (s.conns 0).phase = .closing [1] ∧
      ∃ t, Run step always s [.close 0, .disconnectConn 0, .disconnectConn 0, .disconnectConn 0,
        .disconnectConn 0, .close 0] t ∧ t.readyForCommits = false ∧
        (t.conns 0).phase = .closed :=
    ⟨_, ⟨trivial, _, rfl, trivial, _, rfl, trivial, _, rfl, trivial, _, rfl, trivial, _, rfl,
      trivial, _, rfl, trivial, _, rfl, trivial, _, rfl, rfl⟩, rfl, _, ⟨trivial, _, rfl, trivial,
      _, rfl, trivial, _, rfl, trivial, _, rfl, trivial, _, rfl, trivial, _, rfl, rfl⟩, rfl, rfl⟩
  obtain ⟨ending, hstart, hend⟩ :=
    Trace.exists_of_run hafter (.idle trivial (step_setMountStatus hidle)) rfl
  obtain ⟨trace, hinitial, hlater⟩ := Trace.exists_of_run hbefore ending hstart
  have hfair : trace.Fair fun action => action.agent = some (.handler 0) := by
    refine Trace.fair_of_rest (8 + 6) (fun n => ?_) (not_enabled_of_closed hclosed)
    rw [Nat.add_assoc]
    exact (hlater (6 + n)).trans (hend n)
  have hnow : ((trace.state 8).conns 0).phase = .closing [1] := by
    rw [show trace.state 8 = s from (hlater 0).trans hstart]
    exact hphase
  have hnew : Runtime.withCachePolicy .noCache = .ok Runtime.new := rfl
  obtain ⟨m, hm, hreleased⟩ := ended_session_releases_providers hnew hinitial hfair hnow
  exact ⟨trace, 8, m, hnow, hm, (hreleased m le_rfl).2 1 (by simp)⟩

end System

end FusePromise
