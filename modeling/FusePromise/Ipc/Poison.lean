import FusePromise.Ipc.Disconnect
import FusePromise.Ipc.Writers

/-!
# The table of pending reads when a call fails

`route_provider_read` puts an entry into the table of pending reads and has many ways
out after that.  This module says which of them clean the table up: a call that returns
an error should leave no entry behind, and should not touch the entries of other calls
unless it disconnects their provider.

The ways out include the locks.  A lock is poisoned when a thread panics while it holds
it, and stays so; a thread that then takes it gives up what it is doing.  Nothing in the
daemon panics like that, so the threads were modelled without it; here any lock may be
poisoned at any time.
-/

namespace FusePromise

open Machine Transition

/-! ## Poisoned locks -/

/-- The locks of the daemon.  Every route has one for its writer. -/
inductive Lock
  | mountStatus
  | runtime
  | providerRoutes
  | pendingReads
  | writer (route : ProviderRoute)
  deriving DecidableEq

/-- The lock a stage of a disconnect takes. -/
def DisconnectStage.locks : DisconnectStage → List Lock
  | .removeRoute => [.providerRoutes]
  | .unregister => [.runtime]
  | .sweep => [.pendingReads]
  | .failing _ => []

/-- The locks that are taken in a step.  A handler also takes locks to reply to a status or
an inspect request; when that fails there is no reply, as when the write fails. -/
def System.locks (s : System) : Action → List Lock
  | .lookupRoute _ | .registerRoute _ (some _) => [.providerRoutes]
  | .insertPending _ | .removePending _ | .takePending _ => [.pendingReads]
  | .writeRequest c _ =>
      match (s.calls c).phase with
      | .writing route => [.writer route]
      | _ => []
  | .disconnectCall c =>
      match (s.calls c).phase with
      | .disconnecting stage _ => stage.locks
      | _ => []
  | .registerProvider _ | .unregister _ | .markNodeMaterialized _ _ _
  | .recordCachedRead _ _ _ _ => [.runtime]
  | .validateOwner k =>
      match (s.conns k).phase with
      | .validating providerId _ _ =>
          -- the runtime is asked about a provider without a route
          if providerId ∈ s.providerRoutes then [.providerRoutes] else [.providerRoutes, .runtime]
      | _ => []
  | .checkMount _ | .setMountStatus _ => [.mountStatus]
  | .commit k =>
      match (s.conns k).phase with
      | .committing providerId nodes =>
          if ((PromiseBuilder.new providerId).addNodes nodes).isOk then [.runtime] else []
      | _ => []
  | .disconnectConn k =>
      match (s.conns k).phase with
      | .disconnecting _ stage _ => stage.locks
      | _ => []
  | _ => []

/-- Where a call goes when the lock it takes is poisoned.  An entry that cannot be removed
and reads that cannot be failed are left as they are. -/
def CallPhase.afterPoison : CallPhase → CallPhase
  | .routing => .done (.error ⟨.other, "provider route lock poisoned"⟩)
  | .routed _ => .done (.error ⟨.other, "provider pending lock poisoned"⟩)
  | .writing _ => .done (.error ⟨.other, "provider writer lock poisoned"⟩)
  | .writeFailed error => .disconnecting .removeRoute error
  | .timedOut => .done (.error ⟨.timedOut, "provider read response timed out"⟩)
  | .disconnecting .removeRoute _ => .done (.error ⟨.other, "provider route lock poisoned"⟩)
  | .disconnecting .unregister _ => .done (.error ⟨.other, "runtime lock poisoned"⟩)
  | .disconnecting .sweep error => .done (.error error)
  | phase => phase

/-- Where a handler goes when the lock it takes is poisoned: the session ends, and a
session that was ending ends at once. -/
def Conn.afterPoison (conn : Conn) : HandlerPhase :=
  match conn.phase with
  | .disconnecting _ (.failing _) _ | .answering _ _ =>
      -- no lock is taken here
      conn.phase
  | .disconnecting providerId .sweep rest => .afterDisconnect providerId rest none
  | .disconnecting _ _ (some _) => .closed
  | _ => .closing conn.registeredProviders

/-- A thread finds a lock poisoned. -/
def System.giveUp (s : System) (action : Action) : System :=
  match action.agent with
  | some (.caller c) => s.setPhase c (s.calls c).phase.afterPoison
  | some (.handler k) => s.setHandler k (s.conns k).afterPoison
  | none => s

/-- The threads, and the locks that are poisoned. -/
structure Guarded where
  system : System
  poisoned : Lock → Bool

/-- A lock is poisoned, or a thread takes a step. -/
inductive GuardedAction
  | poison (lock : Lock)
  | act (action : Action)

namespace Guarded

def initial (runtime : Runtime) : Guarded where
  system := .initial runtime
  poisoned := fun _ => false

/-- The step needs a lock that is poisoned. -/
def blocked (s : Guarded) (action : Action) : Bool :=
  (s.system.locks action).any s.poisoned

/-- A step that needs a poisoned lock fails instead. -/
def step (s : Guarded) : GuardedAction → Option Guarded
  | .poison lock => some { s with poisoned := Function.update s.poisoned lock true }
  | .act action =>
      (s.system.step action).map fun system =>
        { s with system := if s.blocked action then s.system.giveUp action else system }

end Guarded

/-! ## What a call owes to the table -/

namespace System

/-- The table has an entry that a call has made. -/
def HasEntry (s : System) (c : CallId) : Prop :=
  ∃ (id : ℕ) (read : PendingRead), s.pendingReads[id]? = some read ∧ read.sender = c

/-- What a step of a call owes to the table. -/
structure LeavesTable (s t : System) (c : CallId) : Prop where
  own : ∀ error, (t.calls c).phase = .done (.error error) → ¬ t.HasEntry c
  others : ∀ {id : ℕ} {read : PendingRead}, s.pendingReads[id]? = some read → read.sender ≠ c →
    t.pendingReads[id]? = some read ∨
      (∃ error, (s.calls c).phase = .disconnecting .sweep error) ∧
        read.providerId = (s.calls c).request.providerId

end System

namespace Guarded

/-- The call returns from `disconnect_provider_id` in its next step. -/
def returning (s : Guarded) (c : CallId) : Bool :=
  match (s.system.calls c).phase with
  | .disconnecting .removeRoute _ =>
      s.poisoned .providerRoutes ||
        (ProviderId.fromRaw (s.system.calls c).request.providerId).isNone
  | .disconnecting .unregister _ => s.poisoned .runtime
  | .disconnecting .sweep _ => s.poisoned .pendingReads
  | .disconnecting (.failing reads) _ => reads.isEmpty
  | _ => false

/-- The steps that leave the table in order: an id is entered only while it is not in the
table, an id is removed only while its entry is the call's own, and no poisoned lock makes
a call return while it has an entry. -/
def Safe (s : Guarded) : Action → Prop
  | .insertPending c =>
      s.poisoned .pendingReads = true ∨
        (s.system.calls c).request.requestId ∉ s.system.pendingReads
  | .writeRequest c _ =>
      s.blocked (.writeRequest c none) = true → ¬ s.system.HasEntry c
  | .removePending c =>
      if s.poisoned .pendingReads then
        (s.system.calls c).phase = .timedOut → ¬ s.system.HasEntry c
      else
        ∀ read, s.system.pendingReads[(s.system.calls c).request.requestId]? = some read →
          read.sender = c
  | .disconnectCall c =>
      s.returning c = true → s.poisoned .pendingReads = true → ¬ s.system.HasEntry c
  | _ => True

end Guarded

/-! ## Senders under poisoned locks -/

theorem CallPhase.early_afterPoison {phase : CallPhase} (h : phase.afterPoison.early = true) :
    phase.early = true := by
  unfold afterPoison at h
  split at h <;> simp_all [early]

theorem CallPhase.held_afterPoison (phase : CallPhase) : phase.afterPoison.held = phase.held := by
  unfold afterPoison
  split <;> rfl

theorem Conn.held_afterPoison (conn : Conn) : conn.afterPoison.held = conn.phase.held := by
  unfold afterPoison
  cases hphase : conn.phase with
  | disconnecting providerId stage rest => cases stage <;> cases rest <;> rfl
  | _ => rfl

namespace System

variable {s t : System} {action : Action} {c : CallId}

theorem Senders.giveUp (h : Senders s) (action : Action) : Senders (s.giveUp action) := by
  unfold System.giveUp
  split
  · exact h.setPhase (CallPhase.held_afterPoison _) CallPhase.early_afterPoison
  · exact h.setConn (Conn.held_afterPoison _)
  · exact h

theorem Senders.hasEntry_iff (h : Senders s) : s.HasEntry c ↔ (s.calls c).place = .table := by
  constructor
  · rintro ⟨id, read, hread, rfl⟩
    obtain ⟨c, hplace, rfl, -⟩ := h.table.mp hread
    exact hplace
  · intro hplace
    exact ⟨_, s.entry c, h.table.mpr ⟨c, hplace, rfl, rfl⟩, rfl⟩

theorem Senders.not_hasEntry_of_early (h : Senders s) (hearly : (s.calls c).phase.early) :
    ¬ s.HasEntry c := by
  rw [h.hasEntry_iff, h.early c hearly]
  simp

theorem HasEntry.before (h : t.HasEntry c) (hstep : Step s action t) :
    s.HasEntry c ∨ ∃ route, (s.calls c).phase = .routed route := by
  obtain ⟨id, read, hread, hsender⟩ := h
  rcases hstep.shared.pending hread with hold | ⟨c', route, hphase, rfl⟩
  · exact Or.inl ⟨id, read, hold, hsender⟩
  · obtain rfl : c' = c := hsender
    exact Or.inr ⟨route, hphase⟩

theorem hasEntry_congr (hpending : t.pendingReads = s.pendingReads) :
    t.HasEntry c ↔ s.HasEntry c := by
  rw [HasEntry, HasEntry, hpending]

theorem hasEntry_erase (id : ℕ) (hpending : t.pendingReads = s.pendingReads.erase id)
    (h : t.HasEntry c) : ∃ (id' : ℕ) (read : PendingRead), id' ≠ id ∧
      s.pendingReads[id']? = some read ∧ read.sender = c := by
  obtain ⟨id', read, hread, hsender⟩ := h
  rw [hpending, Std.ExtTreeMap.getElem?_erase] at hread
  split at hread
  · simp at hread
  · rename_i hne
    exact ⟨id', read, fun heq => hne (by simp [heq]), hread, hsender⟩

/-- The only step of a call whose write has failed. -/
theorem Step.of_writeFailed (h : Step s action t) (hagent : action.agent = some (.caller c))
    {error : IoError} (hphase : (s.calls c).phase = .writeFailed error) :
    action = .removePending c ∧
      t = (s.dropPending (s.calls c).request.requestId).setPhase c
        (.disconnecting .removeRoute error) := by
  cases h <;> simp_all [Action.agent, mayBegin]

/-- Removing its id from the table removes the entry of a call. -/
theorem Senders.not_hasEntry_erase (h : Senders s)
    (hpending : t.pendingReads = s.pendingReads.erase (s.calls c).request.requestId) :
    ¬ t.HasEntry c := by
  intro hentry
  obtain ⟨id, read, hne, hread, rfl⟩ := hasEntry_erase _ hpending hentry
  obtain ⟨c, -, rfl, rfl⟩ := h.table.mp hread
  exact hne rfl

end System

namespace Guarded

open FusePromise.System

variable {s t : Guarded} {action : Action} {c : CallId}

/-- A call that is disconnecting its provider has removed its entry, unless it could not. -/
structure Orderly (s : Guarded) : Prop where
  senders : Senders s.system
  removed : ∀ {c : CallId} {stage : DisconnectStage} {error : IoError},
    (s.system.calls c).phase = .disconnecting stage error → s.system.HasEntry c →
      s.poisoned .pendingReads = true

theorem Orderly.act (h : Orderly s) {next : System} (hstep : Step s.system action next) :
    Orderly { s with system := next } := by
  refine ⟨h.senders.step hstep, ?_⟩
  intro c stage error hphase hentry
  -- an entry of a call that was disconnecting before was there before
  have hold : ∀ {stage : DisconnectStage} {error : IoError},
      (s.system.calls c).phase = .disconnecting stage error → s.poisoned .pendingReads = true := by
    intro stage error hbefore
    rcases hentry.before hstep with hentry | ⟨route, hrouted⟩
    · exact h.removed hbefore hentry
    · simp [hrouted] at hbefore
  dsimp only at hphase
  by_cases hagent : action.agent = some (.caller c)
  · cases hstep.call c with
    | begin _ _ hbegin => rcases hbegin with hbegin | ⟨error, hbegin⟩ <;> simp [hbegin] at hphase
    | answer _ _ _ _ hsame => exact hold (hsame ▸ hphase)
    | move _ hmove =>
        rcases hmove with hsame | hmove
        · exact hold (hsame ▸ hphase)
        · generalize hbefore : (s.system.calls c).phase = before at hmove
          generalize hafter : (next.calls c).phase = after at hmove
          cases hmove with
          | removeFailed =>
              obtain ⟨-, rfl⟩ := hstep.of_writeFailed hagent hbefore
              exact absurd hentry (h.senders.not_hasEntry_erase rfl)
          | disconnect => exact hold hbefore
          | _ => simp [hphase] at hafter
  · exact hold (hstep.phase_of_other hagent ▸ hphase)

theorem giveUp_pendingReads (s : System) (action : Action) :
    (s.giveUp action).pendingReads = s.pendingReads := by
  unfold giveUp
  split <;> rfl

theorem giveUp_phase_of_caller (s : System) (hagent : action.agent = some (.caller c)) :
    ((s.giveUp action).calls c).phase = (s.calls c).phase.afterPoison := by
  simp [giveUp, hagent]

theorem giveUp_phase_of_other (s : System) (hagent : action.agent ≠ some (.caller c)) :
    ((s.giveUp action).calls c).phase = (s.calls c).phase := by
  unfold giveUp
  split
  · rename_i c' hcaller
    have hne : c ≠ c' := by
      rintro rfl
      exact hagent hcaller
    simp [hne]
  · rfl
  · rfl

theorem Orderly.giveUp (h : Orderly s) {next : System} (hstep : Step s.system action next)
    (hblocked : s.blocked action = true) :
    Orderly { s with system := s.system.giveUp action } := by
  refine ⟨h.senders.giveUp action, ?_⟩
  intro c stage error hphase hentry
  rw [hasEntry_congr (giveUp_pendingReads _ _)] at hentry
  dsimp only at hphase
  by_cases hagent : action.agent = some (.caller c)
  · rw [giveUp_phase_of_caller _ hagent] at hphase
    cases hbefore : (s.system.calls c).phase with
    | disconnecting before error => exact h.removed hbefore hentry
    | writeFailed error =>
        -- the lock it could not take is the one of the table
        obtain ⟨rfl, -⟩ := hstep.of_writeFailed hagent hbefore
        simpa [blocked, locks] using hblocked
    | _ => simp [hbefore, CallPhase.afterPoison] at hphase
  · exact h.removed (giveUp_phase_of_other _ hagent ▸ hphase) hentry

theorem Orderly.step (h : Orderly s) {action : GuardedAction} (hstep : s.step action = some t) :
    Orderly t := by
  cases action with
  | poison lock =>
      obtain rfl := Option.some.inj hstep
      refine ⟨h.senders, fun hphase hentry => ?_⟩
      by_cases hlock : lock = .pendingReads
      · simp [hlock]
      · simpa [Ne.symm hlock] using h.removed hphase hentry
  | act action =>
      obtain ⟨next, hnext, rfl⟩ := Option.map_eq_some_iff.mp hstep
      split
      · rename_i hblocked
        exact h.giveUp (.of_step hnext) hblocked
      · exact h.act (.of_step hnext)

theorem orderly_of_reaches {runtime : Runtime}
    (h : Reaches Guarded.step always (Guarded.initial runtime) s) : Orderly s := by
  refine h.invariant Orderly (fun horderly _ hstep => horderly.step hstep) ⟨.initial runtime, ?_⟩
  simp [Guarded.initial, System.initial, Call.unstarted]

/-! ## Which steps leave the table in order -/

/-- A step that does not touch the table must not be a return while there is an entry. -/
theorem leavesTable_iff_of_same {s t : System} (hpending : t.pendingReads = s.pendingReads) :
    s.LeavesTable t c ↔
      ((∃ error, (t.calls c).phase = .done (.error error)) → ¬ s.HasEntry c) := by
  constructor
  · rintro h ⟨error, hphase⟩
    rw [← hasEntry_congr hpending]
    exact h.own error hphase
  · refine fun h => ⟨fun error hphase => ?_, fun hread _ => Or.inl (hpending ▸ hread)⟩
    rw [hasEntry_congr hpending]
    exact h ⟨error, hphase⟩

/-- A thread that finds a lock poisoned. -/
theorem leavesTable_giveUp_iff (h : Orderly s) (hagent : action.agent = some (.caller c))
    {next : System} (hstep : Step s.system action next) (hblocked : s.blocked action = true) :
    s.system.LeavesTable (s.system.giveUp action) c ↔ s.Safe action := by
  rw [leavesTable_iff_of_same (giveUp_pendingReads _ _), giveUp_phase_of_caller _ hagent]
  have hearly := h.senders.not_hasEntry_of_early (c := c)
  cases hstep with
  | noRoute hphase | route hphase =>
      obtain rfl := Agent.caller.inj (Option.some.inj hagent)
      simp [Safe, hearly (by simp [hphase, CallPhase.early])]
  | insertPending hphase =>
      obtain rfl := Agent.caller.inj (Option.some.inj hagent)
      have hpoisoned : s.poisoned .pendingReads = true := by simpa [blocked, locks] using hblocked
      simp [Safe, hpoisoned, hearly (by simp [hphase, CallPhase.early])]
  | @written c' _ hphase | @writeFailed c' _ _ hphase =>
      obtain rfl : c' = c := Agent.caller.inj (Option.some.inj hagent)
      have hsame : s.blocked (.writeRequest c' none) = true := hblocked
      simp [Safe, hsame, hphase, CallPhase.afterPoison]
  | removeFailed hphase | removeTimedOut hphase =>
      obtain rfl := Agent.caller.inj (Option.some.inj hagent)
      have hpoisoned : s.poisoned .pendingReads = true := by simpa [blocked, locks] using hblocked
      simp [Safe, hpoisoned, hphase, CallPhase.afterPoison]
  | @disconnectCall c' stage error hphase =>
      obtain rfl : c' = c := Agent.caller.inj (Option.some.inj hagent)
      have hremoved := h.removed hphase
      by_cases hentry : s.system.HasEntry c'
      case neg => simp [Safe, hentry]
      cases stage with
      | removeRoute | unregister | sweep =>
          simp_all [Safe, returning, blocked, locks, DisconnectStage.locks, CallPhase.afterPoison]
      | failing reads => simp [blocked, locks, hphase, DisconnectStage.locks] at hblocked
  | _ => simp_all [blocked, locks, Action.agent]

theorem leavesTable_insertPending_iff {s : System} (c : CallId) (route : ProviderRoute) :
    s.LeavesTable (s.insertPending c route) c ↔
      (s.calls c).request.requestId ∉ s.pendingReads := by
  have hpending : ∀ id, (s.insertPending c route).pendingReads[id]? =
      if (s.calls c).request.requestId = id then some (s.entry c) else s.pendingReads[id]? := by
    intro id
    simp only [System.insertPending, enter, System.entry, dropPending,
      Std.ExtTreeMap.getElem?_insert, Std.ExtTreeMap.getElem?_erase,
      Std.LawfulEqCmp.compare_eq_iff_eq]
    split <;> simp_all
  constructor
  · intro h hmem
    -- a duplicate: the call returns, and its own entry is in the table
    refine h.own (invalidData "duplicate provider read request id") ?_
      ⟨(s.calls c).request.requestId, s.entry c, by rw [hpending, if_pos rfl], rfl⟩
    simp [System.insertPending, enter, hmem]
  · intro hfresh
    constructor
    · intro error hphase
      simp [System.insertPending, enter, hfresh] at hphase
    · intro id read hread _
      refine Or.inl ?_
      rw [hpending, if_neg, hread]
      rintro rfl
      exact hfresh (BTreeMap.mem_of_getElem? hread)

/-- An id that is removed from the table must not be another call's. -/
theorem leavesTable_erase_iff {s t : System} (h : Senders s)
    (hpending : t.pendingReads = s.pendingReads.erase (s.calls c).request.requestId)
    (hphase : ∀ error, (s.calls c).phase ≠ .disconnecting .sweep error) :
    s.LeavesTable t c ↔ ∀ read,
      s.pendingReads[(s.calls c).request.requestId]? = some read → read.sender = c := by
  constructor
  · intro hleaves read hread
    by_contra hother
    rcases hleaves.others hread hother with hkept | ⟨⟨error, hsweep⟩, -⟩
    · rw [hpending, Std.ExtTreeMap.getElem?_erase_self] at hkept
      simp at hkept
    · exact hphase error hsweep
  · intro hown
    refine ⟨fun _ _ => h.not_hasEntry_erase hpending, fun {id read} hread hother => Or.inl ?_⟩
    rw [hpending, Std.ExtTreeMap.getElem?_erase, if_neg, hread]
    rw [Std.LawfulEqCmp.compare_eq_iff_eq]
    rintro rfl
    exact hother (hown read hread)

/-- A section of `disconnect_provider_id` that has its lock. -/
theorem leavesTable_disconnectCall_iff (h : Orderly s) {stage : DisconnectStage} {error : IoError}
    (hphase : (s.system.calls c).phase = .disconnecting stage error)
    (hfree : s.blocked (.disconnectCall c) = false) {next : System}
    {later : Option DisconnectStage}
    (hnext : s.system.disconnectStep (.caller c) (s.system.calls c).request.providerId stage =
      (next, later)) :
    s.system.LeavesTable (next.setPhase c (.afterDisconnect error later)) c ↔
      s.Safe (.disconnectCall c) := by
  have hremoved := h.removed hphase
  have hlocks : (stage.locks.any s.poisoned) = false := by
    simpa [blocked, locks, hphase] using hfree
  -- only the sweep changes the table, and it takes entries of this provider only
  by_cases hsweep : stage = .sweep
  · subst hsweep
    have hunpoisoned : s.poisoned .pendingReads = false := by
      simpa [DisconnectStage.locks] using hlocks
    obtain ⟨rfl, rfl⟩ := Prod.mk.inj hnext
    refine iff_of_true ⟨?_, ?_⟩ (by simp [Safe, hunpoisoned])
    · simp [CallPhase.afterDisconnect]
    · intro id read hread hother
      by_cases hprovider : read.providerId = (s.system.calls c).request.providerId
      · exact Or.inr ⟨⟨error, hphase⟩, hprovider⟩
      · refine Or.inl ?_
        simp [hread, hprovider]
  · have hpending : next.pendingReads = s.system.pendingReads :=
      (disconnectStep_pendingReads hnext).resolve_right fun hwas => hsweep hwas.1
    refine (leavesTable_iff_of_same (by exact hpending)).trans ?_
    have hreturn : (∃ error', ((next.setPhase c (.afterDisconnect error later)).calls c).phase =
        .done (.error error')) ↔ s.returning c = true := by
      simp only [returning, hphase, setPhase, setCall_calls, if_true]
      cases stage with
      | sweep => exact absurd rfl hsweep
      | removeRoute =>
          obtain ⟨rfl, rfl⟩ := Prod.mk.inj hnext
          have hroutes : s.poisoned .providerRoutes = false := by
            simpa [DisconnectStage.locks] using hlocks
          rw [hroutes, Bool.false_or]
          cases ProviderId.fromRaw (s.system.calls c).request.providerId <;>
            simp [CallPhase.afterDisconnect]
      | unregister =>
          obtain ⟨rfl, rfl⟩ := Prod.mk.inj hnext
          have hruntime : s.poisoned .runtime = false := by
            simpa [DisconnectStage.locks] using hlocks
          simp [hruntime, CallPhase.afterDisconnect]
      | failing reads =>
          cases reads <;> obtain ⟨rfl, rfl⟩ := Prod.mk.inj hnext <;>
            simp [CallPhase.afterDisconnect]
    rw [hreturn]
    refine forall_congr' fun _ => ⟨fun hno _ => hno, fun hno hentry => ?_⟩
    exact hno (hremoved hentry) hentry

theorem leavesTable_act_iff (h : Orderly s) (hagent : action.agent = some (.caller c))
    {next : System} (hstep : Step s.system action next) (hfree : s.blocked action = false) :
    s.system.LeavesTable next c ↔ s.Safe action := by
  have hearly := h.senders.not_hasEntry_of_early (c := c)
  -- most steps leave the table as it is; then the step has to leave no entry behind
  cases hstep with
  | @begin c' request hphase =>
      obtain rfl : c' = c := Agent.caller.inj (Option.some.inj hagent)
      have hnone : ¬ s.system.HasEntry c' := by
        refine hearly ?_
        cases hbefore : (s.system.calls c').phase <;> simp_all [mayBegin, CallPhase.early]
      refine (leavesTable_iff_of_same ?_).trans (by simp [Safe, hnone])
      unfold System.begin
      split <;> rfl
  | @allocate c' hphase | @route c' _ hphase | @timeout c' hphase =>
      obtain rfl : c' = c := Agent.caller.inj (Option.some.inj hagent)
      refine (leavesTable_iff_of_same (by rfl)).trans ?_
      simp [Safe]
  | @noRoute c' hphase =>
      obtain rfl : c' = c := Agent.caller.inj (Option.some.inj hagent)
      refine (leavesTable_iff_of_same (by rfl)).trans ?_
      simp [Safe, hearly (by simp [hphase, CallPhase.early])]
  | @insertPending c' route hphase =>
      obtain rfl : c' = c := Agent.caller.inj (Option.some.inj hagent)
      have hunpoisoned : s.poisoned .pendingReads = false := by simpa [blocked, locks] using hfree
      simp only [Safe, hunpoisoned, Bool.false_eq_true, false_or]
      exact leavesTable_insertPending_iff c' route
  | @written c' _ hphase | @writeFailed c' _ _ hphase =>
      obtain rfl : c' = c := Agent.caller.inj (Option.some.inj hagent)
      have hsame : s.blocked (.writeRequest c' none) = false := hfree
      refine (leavesTable_iff_of_same (by rfl)).trans ?_
      simp [Safe, hsame]
  | @removeFailed c' _ hphase | @removeTimedOut c' hphase =>
      obtain rfl : c' = c := Agent.caller.inj (Option.some.inj hagent)
      have hunpoisoned : s.poisoned .pendingReads = false := by simpa [blocked, locks] using hfree
      simp only [Safe, hunpoisoned, Bool.false_eq_true, if_false]
      exact leavesTable_erase_iff h.senders rfl (by simp [hphase])
  | @disconnectCall c' stage error hphase =>
      obtain rfl : c' = c := Agent.caller.inj (Option.some.inj hagent)
      exact leavesTable_disconnectCall_iff h hphase hfree rfl
  | @receive c' outcome rest hphase hinbox =>
      obtain rfl : c' = c := Agent.caller.inj (Option.some.inj hagent)
      have hgone : (s.system.calls c').place = .gone :=
        ((h.senders.inbox c').resolve_left (by simp [hinbox])).1
      refine (leavesTable_iff_of_same (by rfl)).trans ?_
      simp [Safe, h.senders.hasEntry_iff, hgone]
  | @channelClosed c' hphase hinbox hplace =>
      obtain rfl : c' = c := Agent.caller.inj (Option.some.inj hagent)
      refine (leavesTable_iff_of_same (by rfl)).trans ?_
      simp [Safe, h.senders.hasEntry_iff, hplace]
  | _ => simp [Action.agent] at hagent

/-- Provider 1 is registered on connection 0, a read is routed to it, and so on. -/
def afterRoutedRead (request : ProviderReadRequest) (rest : List Action) : List GuardedAction :=
  [.act (.connect 0), .act (.frame 0 (.hello 1 1)), .act (.reply 0 true),
    .act (.frame 0 .providerRegister), .act (.registerProvider 0),
    .act (.registerRoute 0 (some 5)), .act (.reply 0 true), .act (.begin 0 request),
    .act (.lookupRoute 0), .act (.insertPending 0)] ++ rest.map .act

/-- A second read with the id of one that is waiting returns an error.  Its entry is in the
table then, and that of the first read is not. -/
theorem duplicate_id_replaces_entry : ∃ s t : Guarded,
    Reaches Guarded.step always (Guarded.initial Runtime.new) s ∧
      s.step (.act (.insertPending 1)) = some t ∧
      (t.system.calls 1).phase =
        .done (.error (invalidData "duplicate provider read request id")) ∧
      s.system.pendingReads[7]?.map PendingRead.sender = some 0 ∧
      t.system.pendingReads[7]?.map PendingRead.sender = some 1 ∧
      ¬ s.system.LeavesTable t.system 1 := by
  have hrun : ((afterRoutedRead ⟨7, 1, ['p'], ['f'], ['n'], 0, 4⟩
      [.writeRequest 0 none, .begin 1 ⟨7, 1, ['p'], ['g'], ['m'], 0, 4⟩,
        .lookupRoute 1]).foldlM Guarded.step (Guarded.initial Runtime.new)).map
          (fun s => (s.system.pendingReads[7]?.map PendingRead.sender,
            (s.step (.act (.insertPending 1))).map fun t => ((t.system.calls 1).phase,
              t.system.pendingReads[7]?.map PendingRead.sender))) =
      some (some 0, some (.done (.error (invalidData "duplicate provider read request id")),
        some 1)) := by
    decide +kernel
  obtain ⟨s, hs, hfacts⟩ := Option.map_eq_some_iff.mp hrun
  simp only [Prod.mk.injEq] at hfacts
  obtain ⟨hbefore, hstep⟩ := hfacts
  obtain ⟨t, ht, hfacts⟩ := Option.map_eq_some_iff.mp hstep
  obtain ⟨hphase, hafter⟩ := Prod.mk.inj hfacts
  refine ⟨s, t, Reaches.of_foldlM hs, ht, hphase, hbefore, hafter, fun hleaves => ?_⟩
  obtain ⟨read, hread, hsender⟩ := Option.map_eq_some_iff.mp hafter
  exact hleaves.own _ hphase ⟨7, read, hread, hsender⟩

end Guarded

end FusePromise
