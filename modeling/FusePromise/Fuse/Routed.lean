import FusePromise.Ffi.Helper
import FusePromise.Fuse.ReadCorrect

/-!
# The mount's reads are calls of the daemon

`FuseState` sees a routed read as one step: the other threads do something
meanwhile, and an answer comes back.  In `System` the same read is a call whose
locked sections are interleaved with those of all other threads.  This module
connects the two, from the inside out.

* `ofSystem` is the part of the daemon's state that reads use.  Every stretch of a
  run in which nothing is recorded in the cache is an `Interference` on it
  (`exists_interfere`).
* A call, from the allocation of its request id to its return, is a
  `routeProviderRead` under some `Routing` (`Routed.exists_routing`).
* `MountRead` is a whole read with its sections on the daemon, and it is a read of
  `FuseState` in some `ReadTurn` (`MountRead.exists_turn`).  So a `MountRun` of the
  daemon is a history of the mount, and what was shown of such histories holds for
  every interleaving of the threads (`mount_read_returns_content`).
-/

namespace FusePromise

open Machine Transition

/-- The part of the daemon's state that reads use. -/
def FuseState.ofSystem (s : System) : FuseState :=
  ⟨s.runtime, s.nextReadRequestId⟩

theorem wrappingAdd_le (a b : ℕ) : wrappingAdd a b ≤ u64Max := by
  rw [wrappingAdd, u64Max]
  omega

theorem wrappingAdd_zero {a : ℕ} (h : a ≤ u64Max) : wrappingAdd a 0 = a :=
  Nat.mod_eq_of_lt (by unfold u64Max at h; omega)

/-- Two gaps in a row are one. -/
theorem FuseState.interfere_interfere (state : FuseState) (first second : Interference) :
    (state.interfere first).interfere second =
      state.interfere ⟨first.ops ++ second.ops, first.idsTaken + second.idsTaken⟩ := by
  have hids : wrappingAdd (wrappingAdd state.nextReadRequestId first.idsTaken) second.idsTaken =
      wrappingAdd state.nextReadRequestId (first.idsTaken + second.idsTaken) := by
    simp only [wrappingAdd, Nat.mod_add_mod, Nat.add_assoc]
  simp only [interfere, List.map_append, Runtime.run_append, hids]

namespace System

open FuseState (ofSystem)

variable {s t : System} {action : Action} {c : CallId}

/-! ## Gaps -/

/-- Only the thread that serves the mount records in the cache. -/
def unrecorded (_ : System) : Action → Prop
  | .recordCachedRead .. => False
  | _ => True

theorem Step.exists_otherOps (h : Step s action t) (hok : unrecorded s action) :
    ∃ ops : List OtherOp, t.runtime = s.runtime.run (ops.map Subtype.val) := by
  cases h.shared with
  | quiet _ hruntime => exact ⟨[], hruntime⟩
  | @runtime op hcause _ hruntime =>
      have hother : op.isRecord = false := by
        cases hcause with
        | record => exact absurd hok id
        | _ => rfl
      exact ⟨[⟨op, hother⟩], hruntime⟩
  | insert _ _ _ hruntime => exact ⟨[], hruntime⟩
  | remove _ _ _ hruntime => exact ⟨[], hruntime⟩
  | take _ _ _ hruntime => exact ⟨[], hruntime⟩
  | addRoute _ _ _ _ _ hruntime => exact ⟨[], hruntime⟩
  | @disconnect _ providerId _ _ _ _ _ hnext _ _ _ hruntime =>
      rcases disconnectStep_runtime hnext with hsame | ⟨-, hunregistered⟩
      · exact ⟨[], hruntime.trans hsame⟩
      · exact ⟨[⟨.unregisterProvider providerId, rfl⟩], hruntime.trans hunregistered⟩

theorem Step.exists_interfere (h : Step s action t) (hok : unrecorded s action)
    (hword : s.nextReadRequestId ≤ u64Max) :
    ∃ other, ofSystem t = (ofSystem s).interfere other := by
  obtain ⟨ops, hruntime⟩ := h.exists_otherOps hok
  rcases h.nextReadRequestId with ⟨-, hsame⟩ | ⟨c, -, hnext⟩
  · refine ⟨⟨ops, 0⟩, ?_⟩
    simp only [ofSystem, FuseState.interfere, hruntime, hsame, wrappingAdd_zero hword]
  · refine ⟨⟨ops, 1⟩, ?_⟩
    simp only [ofSystem, FuseState.interfere, hruntime, hnext]

/-- A stretch of a run is a gap. -/
theorem exists_interfere {actions : List Action} (hrun : Run step unrecorded s actions t)
    (hword : s.nextReadRequestId ≤ u64Max) :
    ∃ other, ofSystem t = (ofSystem s).interfere other := by
  induction actions generalizing s with
  | nil =>
      obtain rfl : s = t := hrun
      refine ⟨⟨[], 0⟩, ?_⟩
      simp only [ofSystem, FuseState.interfere, wrappingAdd_zero hword]
      rfl
  | cons action rest ih =>
      obtain ⟨hok, middle, hstep, hrest⟩ := hrun
      obtain ⟨first, hfirst⟩ := (Step.of_step hstep).exists_interfere hok hword
      -- the counter wraps, so it is a word after any step
      have hmiddle : middle.nextReadRequestId ≤ u64Max := by
        have hid : middle.nextReadRequestId = wrappingAdd s.nextReadRequestId first.idsTaken :=
          congrArg FuseState.nextReadRequestId hfirst
        exact hid ▸ wrappingAdd_le ..
      obtain ⟨second, hsecond⟩ := ih hrest hmiddle
      exact ⟨_, by rw [hsecond, hfirst, FuseState.interfere_interfere]⟩

/-! ## The call -/

/-- The call has begun with the request.  A request that fails its checks is not sent. -/
structure Begun (s : System) (c : CallId) (request : ProviderReadRequest) : Prop where
  asked : (s.calls c).request = request
  past : ∀ other, mayBegin (s.calls c).phase other = false
  refused : ∀ error, request.intoBody = .error error → (s.calls c).phase = .done (.error error)

namespace Begun

variable {request : ProviderReadRequest}

theorem of_begin (h : s.step (.begin c request) = some t) : t.Begun c request := by
  cases Step.of_step h with
  | begin hmay =>
      unfold System.begin
      cases hbody : request.intoBody with
      | error error =>
          refine ⟨by simp [setCall], by simp [setCall, mayBegin], ?_⟩
          intro error' herror
          obtain rfl := Except.error.inj (hbody.symm.trans herror)
          simp [setCall]
      | ok body =>
          refine ⟨by simp [setCall], by simp [setCall, mayBegin], ?_⟩
          intro error herror
          simp [hbody] at herror

/-- A call begins once. -/
theorem past_of_phaseStep {phase later : CallPhase} (h : PhaseStep s action c phase later)
    (hpast : ∀ other, mayBegin phase other = false) : ∀ other, mayBegin later other = false := by
  intro other
  cases h with
  | allocate => exact absurd (hpast other) (by simp [mayBegin])
  | disconnect stage error later => cases later <;> rfl
  | _ => rfl

theorem step (h : s.Begun c request) (hstep : Step s action t) : t.Begun c request := by
  have hchange := hstep.call c
  refine ⟨?_, ?_, fun error hbody => hchange.done (h.refused error hbody)⟩
  · cases hchange with
    | begin hmay => simp [h.past] at hmay
    | move hrequest => exact hrequest.trans h.asked
    | answer _ _ _ hrequest => exact hrequest.trans h.asked
  · cases hchange with
    | begin hmay => simp [h.past] at hmay
    | move _ hphase =>
        rcases hphase with hphase | hphase
        · rw [hphase]
          exact h.past
        · exact past_of_phaseStep hphase h.past
    | answer _ _ _ _ hphase =>
        rw [hphase]
        exact h.past

theorem reaches {ok : System → Action → Prop} (h : s.Begun c request)
    (hrun : Reaches System.step ok s t) : t.Begun c request :=
  hrun.invariant (fun s => s.Begun c request)
    (fun hbegun _ hstep => hbegun.step (Step.of_step hstep)) h

end Begun

/-- A response that a call has returned passed the check for its request. -/
theorem accepted_of_done {start : Runtime} {ok : System → Action → Prop}
    (hreach : Reaches step ok (initial start) s) {response : ProviderReadResponse}
    (hdone : (s.calls c).phase = .done (.ok response)) :
    validateProviderReadResponseForRequest (s.calls c).request response = .ok () := by
  obtain ⟨-, hlogged⟩ := reachable_logged hreach
  obtain ⟨delivery, hmem, rfl, hok⟩ := hlogged.calls (Or.inr hdone)
  exact (hlogged.genuine delivery hmem hok).accepted

/-- A call of the mount for a plan, from the allocation of its request id to its return.  The
other threads leave the cache alone. -/
inductive Routed (s : System) (plan : ProviderReadPlan) (outcome : Outcome) (t : System) : Prop
  | call {c : CallId} {allocated ready begun : System}
      (hallocate : s.step (.allocate c) = some allocated) {before : List Action}
      (hbefore : Run step unrecorded allocated before ready)
      (hbegin : ready.step (.begin c ((ofSystem s).newRequest plan).1) = some begun)
      {during : List Action} (hduring : Run step unrecorded begun during t)
      (hdone : (t.calls c).phase = .done outcome)

/-- The routing that answers one request. -/
def routing (during : Interference) (request : ProviderReadRequest) (outcome : Outcome) :
    Routing where
  during
  answer other := if other = request then outcome else .error ⟨.other, ""⟩

/-- The routing of a read that asks nobody. -/
def silent : Routing :=
  ⟨⟨[], 0⟩, fun _ => .error ⟨.other, ""⟩⟩

theorem honest_silent (content : Content) : silent.Honest content := by
  intro request response hanswer
  simp [silent] at hanswer

theorem honest_routing {content : Content} {request : ProviderReadRequest} {outcome : Outcome}
    (h : ∀ response, outcome = .ok response → response.Honest content request)
    (during : Interference) : (routing during request outcome).Honest content := by
  intro other response hanswer
  by_cases hother : other = request
  · subst hother
    simp only [routing, if_true] at hanswer
    exact h response hanswer
  · simp [routing, hother] at hanswer

theorem honest_routing_ok {content : Content} {request : ProviderReadRequest}
    {response : ProviderReadResponse} (h : response.Honest content request)
    (during : Interference) : (routing during request (.ok response)).Honest content := by
  refine honest_routing (fun other hother => ?_) during
  obtain rfl := Except.ok.inj hother
  exact h

namespace Routed

variable {start : Runtime} {plan : ProviderReadPlan} {outcome : Outcome}

theorem reaches (h : Routed s plan outcome t) : Reaches step always s t := by
  cases h with
  | @call c allocated ready begun hallocate before hbefore hbegin during hduring =>
      have hrest : Run step unrecorded ready
          (.begin c ((ofSystem s).newRequest plan).1 :: during) t :=
        ⟨trivial, begun, hbegin, hduring⟩
      refine Reaches.trans ⟨[.allocate c], trivial, allocated, hallocate, rfl⟩ ?_
      exact Reaches.mono (fun _ _ _ => trivial) ⟨_, hbefore.append hrest⟩

/-- The mount's view of a call. -/
theorem exists_routing (hreach : Reaches step always (initial start) s)
    (h : Routed s plan outcome t) :
    ∃ during gap after,
      let request := ((ofSystem s).newRequest plan).1
      ((ofSystem s).newRequest plan).2.routeProviderRead (routing during request outcome)
        request = (outcome, after) ∧ ofSystem t = after.interfere gap ∧
        ∀ response, outcome = .ok response → ofSystem t = after := by
  have htotal := hreach.trans h.reaches
  obtain ⟨hallocate, hbefore, hbegin, hduring, hdone⟩ := h
  rename_i c allocated ready begun before during
  set request := ((ofSystem s).newRequest plan).1 with hrequest
  have hnext : ((ofSystem s).newRequest plan).2 = ofSystem allocated := by
    cases Step.of_step hallocate with
    | allocate => rfl
  have hword : allocated.nextReadRequestId ≤ u64Max := by
    have hid : allocated.nextReadRequestId = wrappingAdd s.nextReadRequestId 1 :=
      (congrArg FuseState.nextReadRequestId hnext).symm
    exact hid ▸ wrappingAdd_le ..
  have hrun : Run step unrecorded allocated (before ++ .begin c request :: during) t :=
    hbefore.append ⟨trivial, begun, hbegin, hduring⟩
  obtain ⟨other, hother⟩ := exists_interfere hrun hword
  have hbegun : t.Begun c request := (Begun.of_begin hbegin).reaches ⟨during, hduring⟩
  rw [hnext]
  cases hbody : request.intoBody with
  | error error =>
      -- the call returns at once, and all of the run is a gap
      have hrefused := hbegun.refused error hbody
      rw [hdone] at hrefused
      obtain rfl := CallPhase.done.inj hrefused
      refine ⟨other, other, ofSystem allocated, ?_, hother, by simp⟩
      simp only [FuseState.routeProviderRead, hbody]
  | ok body =>
      -- all of the run falls between the request and its answer, and no gap is left
      refine ⟨other, ⟨[], 0⟩, (ofSystem allocated).interfere other, ?_, ?_, fun _ _ => hother⟩
      · simp only [FuseState.routeProviderRead, hbody, routing, if_pos]
        cases outcome with
        | error error => rfl
        | ok response =>
            have haccepted := accepted_of_done htotal hdone
            rw [hbegun.asked] at haccepted
            simp only [bind, Except.bind, haccepted]
            rfl
      · rw [FuseState.interfere_interfere, List.append_nil, Nat.add_zero]
        exact hother

end Routed

/-- Whatever the other threads do, as long as they leave the cache alone: a call of the mount,
from the allocation of its request id to its return, is a routed read as `FuseState` has it. -/
theorem routeProviderRead_of_call {start : Runtime}
    (hreach : Reaches step always (initial start) s) {plan : ProviderReadPlan}
    {allocated ready begun : System} (hallocate : s.step (.allocate c) = some allocated)
    {before : List Action} (hbefore : Run step unrecorded allocated before ready)
    (hbegin : ready.step (.begin c ((ofSystem s).newRequest plan).1) = some begun)
    {during : List Action} (hduring : Run step unrecorded begun during t) {outcome : Outcome}
    (hdone : (t.calls c).phase = .done outcome) :
    ∃ (routing : Routing) (gap : Interference),
      let routed := ((ofSystem s).newRequest plan).2.routeProviderRead routing
        ((ofSystem s).newRequest plan).1
      routed.1 = outcome ∧ ofSystem t = routed.2.interfere gap := by
  obtain ⟨during', gap, after, hroute, hstate, -⟩ :=
    (Routed.call hallocate hbefore hbegin hduring hdone).exists_routing hreach
  refine ⟨_, gap, congrArg Prod.fst hroute, ?_⟩
  rw [hroute]
  exact hstate

/-- A read that its provider answers, while another provider registers. -/
theorem routeProviderRead_of_answered_call :
    ∃ (s t : System) (plan : ProviderReadPlan) (routing : Routing) (gap : Interference),
      (t.calls 0).phase = .done (.ok ⟨1, .ok, [7]⟩) ∧
      let routed := ((ofSystem s).newRequest plan).2.routeProviderRead routing
        ((ofSystem s).newRequest plan).1
      routed.1 = .ok ⟨1, .ok, [7]⟩ ∧ ofSystem t = routed.2.interfere gap := by
  let plan : ProviderReadPlan := ⟨1, ['p'], ['f'], ['n'], 0, 4⟩
  obtain ⟨s, allocated, begun, t, hstart, hallocate, hbegin, hduring, hdone⟩ :
      ∃ s allocated begun t : System, [Action.connect 0, .frame 0 (.hello 1 1), .reply 0 true,
        .frame 0 .providerRegister, .registerProvider 0, .registerRoute 0 (some 5), .reply 0 true,
        .connect 1, .frame 1 (.hello 1 1), .reply 1 true,
        .frame 1 .providerRegister].foldlM step (initial Runtime.new) = some s ∧
      s.step (.allocate 0) = some allocated ∧
      allocated.step (.begin 0 ((ofSystem s).newRequest plan).1) = some begun ∧
      Run step unrecorded begun [.lookupRoute 0, .registerProvider 1, .insertPending 0,
        .writeRequest 0 none, .frame 0 (.providerReadResponse ⟨1, .ok, [7]⟩), .takePending 0,
        .answer 0, .receive 0] t ∧ (t.calls 0).phase = .done (.ok ⟨1, .ok, [7]⟩) :=
    ⟨_, _, _, _, rfl, rfl, rfl, ⟨trivial, _, rfl, trivial, _, rfl, trivial, _, rfl, trivial, _,
      rfl, trivial, _, rfl, trivial, _, rfl, trivial, _, rfl, trivial, _, rfl, rfl⟩, rfl⟩
  have hbefore : Run step unrecorded allocated [] allocated := rfl
  obtain ⟨routing, gap, hrouted⟩ := routeProviderRead_of_call (Reaches.of_foldlM hstart)
    hallocate hbefore hbegin hduring hdone
  exact ⟨s, t, plan, routing, gap, hdone, hrouted⟩

/-! ## Whole reads -/

/-- The daemon records an answer of a provider. -/
def Records (s : System) (request : ProviderReadRequest) (bytes : List UInt8) (t : System) : Prop :=
  s.step (.recordCachedRead request.promiseId request.relativePath request.offset bytes) = some t

/-- `prefetch_after_provider_read` on the daemon. -/
inductive Prefetched (content : Content) (s : System) (request : ProviderReadRequest)
    (bytesRead : ℕ) : System → Prop
  | skipped (h : bytesRead ≠ request.length ∨ ∀ plan, s.runtime.planSequentialPrefetch
      request.promiseId request.relativePath request.offset bytesRead ≠ .ok (some plan)) :
      Prefetched content s request bytesRead s
  | routed {plan : ProviderReadPlan} {outcome : Outcome} {t : System}
      (hlength : bytesRead = request.length)
      (hplan : s.runtime.planSequentialPrefetch request.promiseId request.relativePath
        request.offset bytesRead = .ok (some plan)) (hrouted : Routed s plan outcome t)
      (hbad : ∀ response, outcome = .ok response → response.status ≠ .ok) :
      Prefetched content s request bytesRead t
  | recorded {plan : ProviderReadPlan} {response : ProviderReadResponse} {t u : System}
      (hlength : bytesRead = request.length)
      (hplan : s.runtime.planSequentialPrefetch request.promiseId request.relativePath
        request.offset bytesRead = .ok (some plan)) (hrouted : Routed s plan (.ok response) t)
      (hok : response.status = .ok)
      (hhonest : response.Honest content ((ofSystem s).newRequest plan).1)
      (hrecords : Records t ((ofSystem s).newRequest plan).1 response.bytes u) :
      Prefetched content s request bytesRead u

theorem Records.ofSystem {request : ProviderReadRequest} {bytes : List UInt8}
    (h : Records s request bytes t) :
    FuseState.ofSystem t = match (FuseState.ofSystem s).recordCachedRead request bytes with
      | .ok recorded => recorded
      | .error _ => FuseState.ofSystem s := by
  cases Step.of_step h with
  | recordCachedRead =>
      unfold FuseState.recordCachedRead FuseState.ofSystem
      dsimp only [Runtime.apply]
      cases hrecord : s.runtime.recordCachedRead request.promiseId request.relativePath
        request.offset bytes <;> simp [Runtime.orKeep]

theorem Prefetched.reaches {content : Content} {request : ProviderReadRequest} {bytesRead : ℕ}
    (h : Prefetched content s request bytesRead t) : Reaches step always s t := by
  cases h with
  | skipped => exact .refl s
  | routed _ _ hrouted => exact hrouted.reaches
  | recorded _ _ hrouted _ _ hrecords =>
      exact hrouted.reaches.trans ⟨[_], trivial, _, hrecords, rfl⟩

/-- The mount's view of a prefetch. -/
theorem Prefetched.exists_routing {start : Runtime} {content : Content}
    {request : ProviderReadRequest} {bytesRead : ℕ}
    (hreach : Reaches step always (initial start) s)
    (h : Prefetched content s request bytesRead t) :
    ∃ (routing : Routing) (gaps : List Interference), routing.Honest content ∧
      FuseState.ofSystem t = ((FuseState.ofSystem s).prefetchAfterProviderRead routing request
        bytesRead).run (gaps.map .other) := by
  cases h with
  | skipped hskip =>
      refine ⟨silent, [], honest_silent content, ?_⟩
      have hsame : (FuseState.ofSystem s).prefetchAfterProviderRead silent request bytesRead =
          FuseState.ofSystem s := by
        unfold FuseState.prefetchAfterProviderRead
        split
        · rfl
        · rename_i hlength
          split
          · rename_i plan hplan
            exact absurd hplan (hskip.resolve_left hlength plan)
          · rfl
      rw [hsame]
      rfl
  -- an answer that is not used may be anything: it is honest because it says nothing
  | @routed plan outcome _ hlength hplan hrouted hbad =>
      obtain ⟨during, gap, after, hroute, hstate, -⟩ := hrouted.exists_routing hreach
      refine ⟨routing during ((FuseState.ofSystem s).newRequest plan).1 outcome, [gap],
        honest_routing (fun response hok hstatus => absurd hstatus (hbad response hok)) _, ?_⟩
      have hplan' : (FuseState.ofSystem s).runtime.planSequentialPrefetch request.promiseId
          request.relativePath request.offset bytesRead = .ok (some plan) := hplan
      unfold FuseState.prefetchAfterProviderRead
      rw [if_neg (not_not.mpr hlength), hplan']
      dsimp only
      rw [hroute]
      cases outcome with
      | error error => exact hstate
      | ok response =>
          simp only [hbad response rfl, if_false]
          exact hstate
  | @recorded plan response middle _ hlength hplan hrouted hok hhonest hrecords =>
      obtain ⟨during, gap, after, hroute, -, hstate⟩ := hrouted.exists_routing hreach
      obtain rfl := hstate response rfl
      have hafter := hrecords.ofSystem
      refine ⟨routing during ((FuseState.ofSystem s).newRequest plan).1 (.ok response), [],
        honest_routing_ok hhonest _, ?_⟩
      have hplan' : (FuseState.ofSystem s).runtime.planSequentialPrefetch request.promiseId
          request.relativePath request.offset bytesRead = .ok (some plan) := hplan
      unfold FuseState.prefetchAfterProviderRead
      rw [if_neg (not_not.mpr hlength), hplan']
      dsimp only
      rw [hroute]
      simp only [hok, if_true]
      cases hrecorded : (FuseState.ofSystem middle).recordCachedRead
          ((FuseState.ofSystem s).newRequest plan).1 response.bytes with
      | error errno =>
          rw [hrecorded] at hafter
          exact hafter
      | ok recorded =>
          rw [hrecorded] at hafter
          exact hafter

/-- `PromiseFilesystem::read` on the daemon.  Of the answers that are used it is only known
that they are honest. -/
inductive MountRead (content : Content) (s : System) (inode offset size : ℕ) :
    Except Errno (List UInt8) → System → Prop
  | unplanned {errno : Errno} {next : FuseState}
      (hplan : (ofSystem s).planRead inode offset (min size maxProviderReadLen) =
        (.error errno, next)) : MountRead content s inode offset size (.error errno) s
  | atEnd {next : FuseState}
      (hplan : (ofSystem s).planRead inode offset (min size maxProviderReadLen) =
        (.ok none, next)) : MountRead content s inode offset size (.ok []) s
  | cached {bytes : List UInt8} {next : FuseState}
      (hplan : (ofSystem s).planRead inode offset (min size maxProviderReadLen) =
        (.ok (some (.cached bytes)), next)) : MountRead content s inode offset size (.ok bytes) s
  | materialized {path : Text} {start length : ℕ} {next : FuseState}
      (openFile : Text → IoResult (List UInt8))
      (hplan : (ofSystem s).planRead inode offset (min size maxProviderReadLen) =
        (.ok (some (.materialized path start length)), next)) :
      MountRead content s inode offset size
        (FuseState.readMaterializedFile openFile path start length) s
  | failed {plan : ProviderReadPlan} {responseOffset responseLength : ℕ} {error : IoError}
      {t : System}
      (hplan : (ofSystem s).planRead inode offset (min size maxProviderReadLen) =
        (.ok (some (.provider ((ofSystem s).newRequest plan).1 responseOffset responseLength)),
          ((ofSystem s).newRequest plan).2))
      (hrouted : Routed s plan (.error error) t) :
      MountRead content s inode offset size (.error (ioErrorToErrno error)) t
  | refused {plan : ProviderReadPlan} {responseOffset responseLength : ℕ}
      {response : ProviderReadResponse} {t : System}
      (hplan : (ofSystem s).planRead inode offset (min size maxProviderReadLen) =
        (.ok (some (.provider ((ofSystem s).newRequest plan).1 responseOffset responseLength)),
          ((ofSystem s).newRequest plan).2))
      (hrouted : Routed s plan (.ok response) t) (hstatus : response.status ≠ .ok) :
      MountRead content s inode offset size (.error (providerStatusToErrno response.status)) t
  | notRecorded {plan : ProviderReadPlan} {responseOffset responseLength : ℕ}
      {response : ProviderReadResponse} {t : System} {errno : Errno}
      (hplan : (ofSystem s).planRead inode offset (min size maxProviderReadLen) =
        (.ok (some (.provider ((ofSystem s).newRequest plan).1 responseOffset responseLength)),
          ((ofSystem s).newRequest plan).2))
      (hrouted : Routed s plan (.ok response) t) (hok : response.status = .ok)
      (hhonest : response.Honest content ((ofSystem s).newRequest plan).1)
      (hrecord : (ofSystem t).recordCachedRead ((ofSystem s).newRequest plan).1 response.bytes =
        .error errno) :
      MountRead content s inode offset size (.error errno) t
  | answered {plan : ProviderReadPlan} {responseOffset responseLength : ℕ}
      {response : ProviderReadResponse} {t u v w : System} {recorded : FuseState}
      {gap : List Action}
      (hplan : (ofSystem s).planRead inode offset (min size maxProviderReadLen) =
        (.ok (some (.provider ((ofSystem s).newRequest plan).1 responseOffset responseLength)),
          ((ofSystem s).newRequest plan).2))
      (hrouted : Routed s plan (.ok response) t) (hok : response.status = .ok)
      (hhonest : response.Honest content ((ofSystem s).newRequest plan).1)
      (hrecord : (ofSystem t).recordCachedRead ((ofSystem s).newRequest plan).1 response.bytes =
        .ok recorded)
      (hrecords : Records t ((ofSystem s).newRequest plan).1 response.bytes u)
      (hgap : Run step unrecorded u gap v)
      (hprefetch : Prefetched content v ((ofSystem s).newRequest plan).1 response.bytes.length w) :
      MountRead content s inode offset size
        (FuseState.providerReplyBytes response.bytes responseOffset responseLength) w

end System

/-- Only a plan that asks the provider takes a request id. -/
theorem FuseState.planRead_state {state next : FuseState} {inode offset size : ℕ}
    {plan : Except Errno (Option FuseReadPlan)}
    (h : state.planRead inode offset size = (plan, next))
    (hlocal : ∀ request responseOffset responseLength,
      plan ≠ .ok (some (.provider request responseOffset responseLength))) : next = state := by
  unfold planRead at h
  repeat' split at h
  all_goals obtain ⟨rfl, rfl⟩ := Prod.mk.inj h
  all_goals first
    | rfl
    | exact absurd rfl (hlocal _ _ _)

namespace System

open FuseState (ofSystem)

variable {s t : System} {content : Content} {inode offset size : ℕ}
  {reply : Except Errno (List UInt8)} {start : Runtime}

theorem MountRead.reaches (h : MountRead content s inode offset size reply t) :
    Reaches step always s t := by
  cases h with
  | failed _ hrouted | refused _ hrouted | notRecorded _ hrouted => exact hrouted.reaches
  | answered _ hrouted _ _ _ hrecords hgap hprefetch =>
      have hrecorded : Reaches step always _ _ :=
        hrouted.reaches.trans ⟨[_], trivial, _, hrecords, rfl⟩
      exact (hrecorded.trans (Reaches.mono (fun _ _ _ => trivial) ⟨_, hgap⟩)).trans
        hprefetch.reaches
  | _ => exact .refl s

/-- The request ids of a reachable daemon are words. -/
theorem nextReadRequestId_le (h : Reaches step always (initial start) s) :
    s.nextReadRequestId ≤ u64Max := by
  refine h.invariant (fun s => s.nextReadRequestId ≤ u64Max) ?_ (show 1 ≤ u64Max by decide)
  intro s action t hword _ hstep
  rcases (Step.of_step hstep).nextReadRequestId with ⟨-, hsame⟩ | ⟨c, -, hnext⟩
  · exact hsame ▸ hword
  · exact hnext ▸ wrappingAdd_le ..

/-- The mount's view of a read of which the plan decides everything. -/
theorem exists_turn_of_local {plan : Except Errno (Option FuseState.FuseReadPlan)}
    {next : FuseState} (openFile : Text → IoResult (List UInt8))
    (hplan : (ofSystem s).planRead inode offset (min size maxProviderReadLen) = (plan, next))
    (hlocal : ∀ request responseOffset responseLength,
      plan ≠ .ok (some (.provider request responseOffset responseLength)))
    (hreply : ((ofSystem s).read ⟨silent, ⟨[], 0⟩, silent, openFile⟩ inode offset size) =
      (reply, next)) :
    ∃ (turn : ReadTurn) (gaps : List Interference), turn.Honest content ∧
      ((ofSystem s).read turn inode offset size).1 = reply ∧
      ofSystem s = ((ofSystem s).read turn inode offset size).2.run (gaps.map .other) := by
  refine ⟨_, [], ⟨honest_silent content, honest_silent content⟩, congrArg Prod.fst hreply, ?_⟩
  rw [hreply]
  exact (FuseState.planRead_state hplan hlocal).symm

/-- The mount's view of a read. -/
theorem MountRead.exists_turn (hreach : Reaches step always (initial start) s)
    (h : MountRead content s inode offset size reply t) :
    ∃ (turn : ReadTurn) (gaps : List Interference), turn.Honest content ∧
      ((ofSystem s).read turn inode offset size).1 = reply ∧
      ofSystem t = ((ofSystem s).read turn inode offset size).2.run (gaps.map .other) := by
  have noFile : Text → IoResult (List UInt8) := fun _ => .ok []
  cases h with
  | unplanned hplan =>
      exact exists_turn_of_local noFile hplan (by simp) (by simp only [FuseState.read, hplan])
  | atEnd hplan =>
      exact exists_turn_of_local noFile hplan (by simp) (by simp only [FuseState.read, hplan])
  | cached hplan =>
      exact exists_turn_of_local noFile hplan (by simp) (by simp only [FuseState.read, hplan])
  | materialized openFile hplan =>
      exact exists_turn_of_local openFile hplan (by simp) (by simp only [FuseState.read, hplan])
  -- the read ends here, so the second request of the turn is never made
  | @failed plan _ _ error _ hplan hrouted =>
      obtain ⟨during, gap, after, hroute, hstate, -⟩ := hrouted.exists_routing hreach
      refine ⟨⟨routing during ((ofSystem s).newRequest plan).1 (.error error), ⟨[], 0⟩, silent,
        noFile⟩, [gap], ⟨honest_routing (by simp) _, honest_silent content⟩, ?_⟩
      simp only [FuseState.read, hplan, FuseState.providerRead, hroute]
      exact ⟨trivial, hstate⟩
  | @refused plan _ _ response _ hplan hrouted hstatus =>
      obtain ⟨during, gap, after, hroute, hstate, -⟩ := hrouted.exists_routing hreach
      refine ⟨⟨routing during ((ofSystem s).newRequest plan).1 (.ok response), ⟨[], 0⟩, silent,
        noFile⟩, [gap], ⟨honest_routing_ok (fun hok => absurd hok hstatus) _,
        honest_silent content⟩, ?_⟩
      simp only [FuseState.read, hplan, FuseState.providerRead, hroute, hstatus, if_false]
      exact ⟨trivial, hstate⟩
  | @notRecorded plan _ _ response _ errno hplan hrouted hok hhonest hrecord =>
      obtain ⟨during, gap, after, hroute, -, hstate⟩ := hrouted.exists_routing hreach
      obtain rfl := hstate response rfl
      refine ⟨⟨routing during ((ofSystem s).newRequest plan).1 (.ok response), ⟨[], 0⟩, silent,
        noFile⟩, [], ⟨honest_routing_ok hhonest _, honest_silent content⟩, ?_⟩
      simp only [FuseState.read, hplan, FuseState.providerRead, hroute, hok, if_true, hrecord]
      exact ⟨trivial, rfl⟩
  | @answered plan _ _ response middle u v _ recorded gap hplan hrouted hok hhonest hrecord
      hrecords hgap hprefetch =>
      obtain ⟨during, -, after, hroute, -, hstate⟩ := hrouted.exists_routing hreach
      obtain rfl := hstate response rfl
      have hafter := hrecords.ofSystem
      rw [hrecord] at hafter
      have hrecorded : Reaches step always (initial start) u :=
        (hreach.trans hrouted.reaches).trans ⟨[_], trivial, _, hrecords, rfl⟩
      -- what happens between the answer and the prefetch is the gap of the turn
      obtain ⟨other, hother⟩ := exists_interfere hgap (nextReadRequestId_le hrecorded)
      obtain ⟨prefetch, gaps, hprefetchHonest, hlast⟩ := hprefetch.exists_routing
        (hrecorded.trans (Reaches.mono (fun _ _ _ => trivial) ⟨_, hgap⟩))
      refine ⟨⟨routing during ((ofSystem s).newRequest plan).1 (.ok response), other, prefetch,
        noFile⟩, gaps, ⟨honest_routing_ok hhonest _, hprefetchHonest⟩, ?_⟩
      simp only [FuseState.read, hplan, FuseState.providerRead, hroute, hok, if_true, hrecord]
      refine ⟨trivial, ?_⟩
      rw [hlast, hother, hafter]

/-- The daemon at work: the mount reads, one read at a time, and between its reads the other
threads do what they like. -/
inductive MountRun (content : Content) (start : Runtime) : System → Prop
  | boot : MountRun content start (initial start)
  | other {s t : System} {action : Action} (h : MountRun content start s)
      (hstep : s.step action = some t) (hok : unrecorded s action) : MountRun content start t
  | read {s t : System} {inode offset size : ℕ} {reply : Except Errno (List UInt8)}
      (h : MountRun content start s) (hread : MountRead content s inode offset size reply t) :
      MountRun content start t

theorem MountRun.reaches (h : MountRun content start s) :
    Reaches step always (initial start) s := by
  induction h with
  | boot => exact .refl _
  | other _ hstep _ ih => exact ih.trans ⟨[_], trivial, _, hstep, rfl⟩
  | read _ hread ih => exact ih.trans hread.reaches

/-- The history of the mount. -/
theorem MountRun.exists_events (h : MountRun content start s) :
    ∃ events : List FuseState.Event, (∀ event ∈ events, event.Honest content) ∧
      ofSystem s = (FuseState.initial start).run events := by
  induction h with
  | boot => exact ⟨[], by simp, rfl⟩
  | other hrun hstep hok ih =>
      obtain ⟨events, hevents, hstate⟩ := ih
      obtain ⟨other, hother⟩ := (Step.of_step hstep).exists_interfere hok
        (nextReadRequestId_le hrun.reaches)
      refine ⟨events ++ [.other other], ?_, ?_⟩
      · intro event hmem
        rcases List.mem_append.mp hmem with hmem | hmem
        · exact hevents event hmem
        · rw [List.mem_singleton.mp hmem]
          trivial
      · rw [hother, hstate, FuseState.run, FuseState.run, List.foldl_append]
        rfl
  | @read s t inode offset size reply hrun hread ih =>
      obtain ⟨events, hevents, hstate⟩ := ih
      obtain ⟨turn, gaps, hhonest, -, hnext⟩ := hread.exists_turn hrun.reaches
      refine ⟨events ++ .read turn inode offset size :: gaps.map .other, ?_, ?_⟩
      · intro event hmem
        rcases List.mem_append.mp hmem with hmem | hmem
        · exact hevents event hmem
        rcases List.mem_cons.mp hmem with rfl | hmem
        · exact hhonest
        · obtain ⟨other, -, rfl⟩ := List.mem_map.mp hmem
          trivial
      · rw [hnext, hstate, FuseState.run, FuseState.run, FuseState.run, List.foldl_append]
        rfl

/-- In every interleaving of the daemon's threads in which the answers the mount uses are
honest: a read of a file that is not materialized returns a stretch of the content of the file
from the requested offset on, no longer than the request and the rest of the file, or fails. -/
theorem mount_read_returns_content {policy : CachePolicy}
    (hstart : Runtime.withCachePolicy policy = .ok start) (hrun : MountRun content start s)
    {promiseId : Text} {node : PromiseNode}
    (hentry : s.runtime.lookupInode inode = .ok (.promiseNode promiseId node))
    (hnone : node.materializedPath = none) {bytes : List UInt8}
    (hread : MountRead content s inode offset size (.ok bytes) t) :
    bytes = ByteMap.slice (content ⟨promiseId, node.relativePath⟩) offset bytes.length ∧
      bytes.length ≤ min size (min maxProviderReadLen (node.attr.size.toNat - offset)) := by
  obtain ⟨events, hevents, hstate⟩ := hrun.exists_events
  obtain ⟨turn, -, hhonest, hreply, -⟩ := hread.exists_turn hrun.reaches
  have hagrees : CacheAgrees content policy (ofSystem s).runtime := by
    rw [hstate]
    exact FuseState.agrees_run _ (CacheAgrees.start hstart) events hevents
  exact FuseState.agrees_read_reply hagrees hhonest.1 hentry hnone hreply

theorem MountRun.run {actions : List Action} (h : MountRun content start s)
    (hrun : Run step unrecorded s actions t) : MountRun content start t := by
  induction actions generalizing s with
  | nil =>
      obtain rfl : s = t := hrun
      exact h
  | cons action rest ih =>
      obtain ⟨hok, middle, hstep, hrest⟩ := hrun
      exact ih (h.other hstep hok) hrest

/-- A file of three bytes, read by the mount after its provider has committed it. -/
theorem mount_read_returns_three_bytes :
    let counting : Content := fun _ i => UInt8.ofNat i
    ∃ s t : System, MountRun counting Runtime.new s ∧
      MountRead counting s 3 0 8 (.ok [0, 1, 2]) t ∧
      ([0, 1, 2] : List UInt8) =
        ByteMap.slice (counting ⟨"promise-1".toList, "a".toList⟩) 0 3 ∧
      3 ≤ min 8 (min maxProviderReadLen (3 - 0)) := by
  intro counting
  let node : PromiseNode :=
    ⟨2, 3, "a".toList, some [], "a".toList, "n".toList, none, .file, ⟨0o644, 3, 0⟩⟩
  let plan : ProviderReadPlan := ⟨1, "promise-1".toList, "a".toList, "n".toList, 0, 3⟩
  obtain ⟨s, allocated, begun, t, u, hrun, hentry, hplan, hcoalesced, hallocate, hbegin, hduring,
      hdone, hrecords, hpolicy, hpolicy'⟩ : ∃ s allocated begun t u : System,
      Run step unrecorded (initial Runtime.new) [.setMountStatus true, .connect 0,
        .frame 0 (.hello 1 1), .reply 0 true, .frame 0 .providerRegister, .registerProvider 0,
        .registerRoute 0 (some 5), .reply 0 true,
        .frame 0 (.promiseCommit 1 5 [⟨"a".toList, "n".toList, .file, ⟨0o644, 3, 0⟩⟩]),
        .validateOwner 0, .checkMount 0, .commit 0, .reply 0 true] s ∧
      s.runtime.lookupInode 3 = .ok (.promiseNode "promise-1".toList node) ∧
      s.runtime.planRead "promise-1".toList "a".toList 0 8 = .ok (.request plan) ∧
      s.runtime.planCoalescedProviderRead plan = .ok ⟨plan, 0, 3⟩ ∧
      s.step (.allocate 0) = some allocated ∧
      allocated.step (.begin 0 ((ofSystem s).newRequest plan).1) = some begun ∧
      Run step unrecorded begun [.lookupRoute 0, .insertPending 0, .writeRequest 0 none,
        .frame 0 (.providerReadResponse ⟨1, .ok, [0, 1, 2]⟩), .takePending 0, .answer 0,
        .receive 0] t ∧
      (t.calls 0).phase = .done (.ok ⟨1, .ok, [0, 1, 2]⟩) ∧
      Records t ((ofSystem s).newRequest plan).1 [0, 1, 2] u ∧
      t.runtime.cachePolicy = .noCache ∧ u.runtime.cachePolicy = .noCache :=
    ⟨_, _, _, _, _, ⟨trivial, _, rfl, trivial, _, rfl, trivial, _, rfl, trivial, _, rfl,
      trivial, _, rfl, trivial, _, rfl, trivial, _, rfl, trivial, _, rfl, trivial, _, rfl,
      trivial, _, rfl, trivial, _, rfl, trivial, _, rfl, trivial, _, rfl, rfl⟩, by decide, by
      decide, by decide, rfl, rfl, ⟨trivial, _, rfl, trivial, _, rfl, trivial, _, rfl, trivial, _,
      rfl, trivial, _, rfl, trivial, _, rfl, trivial, _, rfl, rfl⟩, rfl, rfl, rfl, rfl⟩
  have hmount : MountRun counting Runtime.new s := MountRun.boot.run hrun
  have hrouted : Routed s plan (.ok ⟨1, .ok, [0, 1, 2]⟩) t := by
    have hbefore : Run step unrecorded allocated [] allocated := rfl
    exact .call hallocate hbefore hbegin hduring hdone
  have hread : MountRead counting s 3 0 8 (.ok [0, 1, 2]) u := by
    have hasked : (ofSystem s).planRead 3 0 (min 8 maxProviderReadLen) =
        (.ok (some (.provider ((ofSystem s).newRequest plan).1 0 3)),
          ((ofSystem s).newRequest plan).2) := by
      have hmin : min 8 maxProviderReadLen = 8 := by decide
      simp only [FuseState.planRead, hmin, ofSystem, hentry, node, hplan, hcoalesced]
    have hrecord : (ofSystem t).recordCachedRead ((ofSystem s).newRequest plan).1 [0, 1, 2] =
        .ok (ofSystem t) := by
      simp [FuseState.recordCachedRead, Runtime.recordCachedRead, ofSystem, hpolicy,
        CachePolicy.chunkSize]
    have hgap : Run step unrecorded u [] u := rfl
    refine .answered hasked hrouted rfl (fun _ => ⟨3, le_rfl, rfl⟩) hrecord hrecords hgap
      (.skipped (Or.inr fun other hother => ?_))
    simp [Runtime.planSequentialPrefetch, hpolicy', CachePolicy.chunkSize] at hother
  have hstart : Runtime.withCachePolicy .noCache = .ok Runtime.new := rfl
  exact ⟨s, u, hmount, hread, mount_read_returns_content hstart hmount hentry rfl hread⟩

end System

end FusePromise
