import FusePromise.Fuse.ReadCorrect
import FusePromise.Ipc.LiveProvider
import FusePromise.Ipc.ReadMessages

/-!
# Providers that use the library

`fp_provider_register` opens a connection, registers a provider on it and leaves
the connection to a helper thread, which answers one request after the other
with what the C callback makes of it.  A `Served` daemon is the daemon of
`Ipc.System` with such a thread at the other end of some of its connections; on
the others anything may arrive.

Between the daemon and a helper are two streams.  `Linked` says how they stand:
the requests answered are the first ones that were written, and the responses
that have been read, followed by those still in the pipe, are the answers to
them in the same order.  With request ids that are not given out twice it follows
that a caller gets what the callback made of the caller's own request.
-/

namespace FusePromise

open Machine Transition

/-! ## The helper thread -/

/-- Where the library is with its connection. -/
inductive HelperPhase
  | connecting
  /-- `connect_provider` has sent its registration and waits for the reply. -/
  | registering
  | running
  | ended
  deriving DecidableEq

/-- The helper thread of a provider: where it is, and what it has done so far. -/
structure Helper where
  phase : HelperPhase
  /-- The requests that were answered, and what the callback did on each. -/
  handled : List (ProviderReadRequest × CallbackEffect)
  /-- The responses that were written and that the daemon has not read. -/
  pipe : List ProviderReadResponse

def Helper.connecting : Helper := ⟨.connecting, [], []⟩

/-- The daemon reads a frame from the library, which must have sent it. -/
def Helper.send (helper : Helper) : Request → Option Helper
  | .hello _ _ => if helper.phase = .connecting then some helper else none
  | .providerRegister =>
      if helper.phase = .connecting then some { helper with phase := .registering } else none
  | .providerReadResponse response =>
      match helper.pipe with
      | next :: rest => if response = next then some { helper with pipe := rest } else none
      | [] => none
  | _ => none

/-- The library gets a reply.  The one to its registration starts the helper, unless a read
request has come before it or the registration has failed. -/
def Helper.replied (helper : Helper) (conn : Conn) : Helper :=
  if helper.phase = .registering then
    { helper with
      phase := if conn.registeredProviders ≠ [] ∧ conn.sent = [] then .running else .ended }
  else helper

/-- One turn of the loop in `spawn_provider_helper`, on the next frame of the connection. -/
def Helper.turn (helper : Helper) (sent : List ProviderReadRequest) (effect : CallbackEffect)
    (written : Bool) : Option Helper :=
  match helper.phase, sent[helper.handled.length]? with
  | .running, some body =>
      match ProviderReadRequest.fromBody body with
      | .error _ => some { helper with phase := .ended }
      | .ok request =>
          match (dispatchProviderRead request effect).intoBody, written with
          | .ok response, true =>
              some { helper with
                handled := helper.handled ++ [(request, effect)]
                pipe := helper.pipe ++ [response] }
          | _, _ => some { helper with phase := .ended }
  | _, _ => none

/-! ## The daemon with its helpers -/

/-- The daemon with the helper threads at the other end of its connections. -/
structure Served where
  system : System
  helpers : ConnId → Helper

inductive ServedAction
  | daemon (action : Action)
  | turn (conn : ConnId) (effect : CallbackEffect) (written : Bool)

namespace Served

def initial (start : Runtime) : Served where
  system := .initial start
  helpers := fun _ => .connecting

/-- The helpers after an action of the daemon, if they can take part in it. -/
def exchange (library : ConnId → Bool) (s : Served) : Action → Option (ConnId → Helper)
  | .frame k request =>
      if library k then ((s.helpers k).send request).map (Function.update s.helpers k)
      else some s.helpers
  | .reply k true =>
      if library k then
        some (Function.update s.helpers k ((s.helpers k).replied (s.system.conns k)))
      else some s.helpers
  | _ => some s.helpers

/-- The connections in `library` have a helper at their other end. -/
def step (library : ConnId → Bool) (s : Served) : ServedAction → Option Served
  | .daemon action => do
      let system ← s.system.step action
      let helpers ← s.exchange library action
      return ⟨system, helpers⟩
  | .turn k effect written =>
      if library k then
        ((s.helpers k).turn (s.system.conns k).sent effect written).map fun helper =>
          { s with helpers := Function.update s.helpers k helper }
      else none

variable {library : ConnId → Bool} {s t : Served} {k : ConnId}

/-- What an action of the daemon does to the helper of one connection. -/
inductive Exchanged (conn : Conn) (helper : Helper) (k : ConnId) : Action → Helper → Prop
  | frame {request : Request} {next : Helper} (h : helper.send request = some next) :
      Exchanged conn helper k (.frame k request) next
  | reply : Exchanged conn helper k (.reply k true) (helper.replied conn)
  | other {action : Action} (hframe : ∀ request, action ≠ .frame k request)
      (hreply : action ≠ .reply k true) : Exchanged conn helper k action helper

theorem exchanged {action : Action} {helpers : ConnId → Helper}
    (h : s.exchange library action = some helpers) (hlib : library k) :
    Exchanged (s.system.conns k) (s.helpers k) k action (helpers k) := by
  unfold exchange at h
  split at h
  · rename_i k' request
    split at h
    · obtain ⟨next, hsend, rfl⟩ := Option.map_eq_some_iff.mp h
      by_cases hk : k = k'
      · subst hk
        rw [Function.update_self]
        exact .frame hsend
      · rw [Function.update_of_ne hk]
        exact .other (fun _ heq => hk (Action.frame.inj heq).1.symm) (by simp)
    · rename_i hnot
      obtain rfl := Option.some.inj h
      refine .other (fun _ heq => hnot ?_) (by simp)
      rw [(Action.frame.inj heq).1]
      exact hlib
  · rename_i k'
    split at h
    · obtain rfl := Option.some.inj h
      by_cases hk : k = k'
      · subst hk
        rw [Function.update_self]
        exact .reply
      · rw [Function.update_of_ne hk]
        exact .other (by simp) fun heq => hk (Action.reply.inj heq).1.symm
    · rename_i hnot
      obtain rfl := Option.some.inj h
      refine .other (by simp) fun heq => hnot ?_
      rw [(Action.reply.inj heq).1]
      exact hlib
  · rename_i hframe hreply
    obtain rfl := Option.some.inj h
    exact .other (fun request heq => hframe k request heq) fun heq => hreply k heq

/-- A step is one of the daemon, in which the helpers take part, or a turn of one helper. -/
inductive Step (library : ConnId → Bool) (s t : Served) : ServedAction → Prop
  | daemon {action : Action} (hstep : System.Step s.system action t.system)
      (hhelper : ∀ k, library k →
        Exchanged (s.system.conns k) (s.helpers k) k action (t.helpers k)) :
      Step library s t (.daemon action)
  | turn {k : ConnId} {effect : CallbackEffect} {written : Bool} {helper : Helper}
      (hlib : library k) (hsystem : t.system = s.system)
      (hturn : (s.helpers k).turn (s.system.conns k).sent effect written = some helper)
      (hhelpers : t.helpers = Function.update s.helpers k helper) :
      Step library s t (.turn k effect written)

theorem Step.of_step {action : ServedAction} (h : s.step library action = some t) :
    Step library s t action := by
  cases action with
  | daemon action =>
      obtain ⟨system, hsystem, h⟩ := Option.bind_eq_some_iff.mp h
      obtain ⟨helpers, hhelpers, h⟩ := Option.bind_eq_some_iff.mp h
      obtain rfl := Option.some.inj h
      exact .daemon (.of_step hsystem) fun k hlib => exchanged hhelpers hlib
  | turn k effect written =>
      simp only [step] at h
      split at h
      · rename_i hlib
        obtain ⟨helper, hturn, rfl⟩ := Option.map_eq_some_iff.mp h
        exact .turn hlib rfl hturn rfl
      · simp at h

end Served

/-! ## The two streams of a connection -/

/-- The response a frame carries. -/
def Request.response? : Request → Option ProviderReadResponse
  | .providerReadResponse response => some response
  | _ => none

/-- The responses that were read from a connection. -/
def Conn.responses (conn : Conn) : List ProviderReadResponse :=
  conn.received.filterMap Request.response?

/-- The responses a helper has written. -/
def Helper.answers (helper : Helper) : List ProviderReadResponse :=
  helper.handled.map fun (request, effect) => dispatchProviderRead request effect

/-- A helper has handled a part of what was sent to it, and what it has answered is received or on
its way. -/
structure Linked (conn : Conn) (helper : Helper) : Prop where
  asked : helper.handled.map Prod.fst <+: conn.sent
  answered : conn.responses ++ helper.pipe = helper.answers

/-- A frame that the library sends is the next response, or carries none. -/
theorem Helper.send_cases {helper next : Helper} {request : Request}
    (h : helper.send request = some next) :
    next.handled = helper.handled ∧ request.response?.toList ++ next.pipe = helper.pipe := by
  cases request with
  | hello | providerRegister =>
      simp only [send] at h
      split at h
      · obtain rfl := Option.some.inj h
        exact ⟨rfl, rfl⟩
      · simp at h
  | providerReadResponse response =>
      simp only [send] at h
      split at h
      · rename_i first rest hpipe
        split at h
        · rename_i heq
          obtain rfl := Option.some.inj h
          exact ⟨rfl, by simp [Request.response?, hpipe, heq]⟩
        · simp at h
      · simp at h
  | _ => simp [send] at h

@[simp] theorem Helper.replied_handled (helper : Helper) (conn : Conn) :
    (helper.replied conn).handled = helper.handled := by
  unfold replied
  split <;> rfl

@[simp] theorem Helper.replied_pipe (helper : Helper) (conn : Conn) :
    (helper.replied conn).pipe = helper.pipe := by
  unfold replied
  split <;> rfl

/-- A turn answers the next request, or ends the loop. -/
theorem Helper.turn_cases {helper next : Helper} {sent : List ProviderReadRequest}
    {effect : CallbackEffect} {written : Bool}
    (h : helper.turn sent effect written = some next) :
    next = { helper with phase := .ended } ∨ ∃ body request, helper.phase = .running ∧
      sent[helper.handled.length]? = some body ∧ body.intoBody = .ok request ∧
      next = { helper with
        handled := helper.handled ++ [(request, effect)]
        pipe := helper.pipe ++ [dispatchProviderRead request effect] } := by
  unfold turn at h
  split at h
  · rename_i body hrunning hbody
    split at h
    · exact Or.inl (Option.some.inj h).symm
    · rename_i request hrequest
      split at h
      · rename_i response hresponse
        obtain ⟨-, rfl⟩ : (dispatchProviderRead request effect).validate = .ok () ∧
            dispatchProviderRead request effect = response := by
          cases hvalid : (dispatchProviderRead request effect).validate with
          | ok => exact ⟨rfl, by simpa [ProviderReadResponse.intoBody, hvalid] using hresponse⟩
          | error => simp [ProviderReadResponse.intoBody, hvalid, bind, Except.bind] at hresponse
        exact Or.inr ⟨body, request, hrunning, hbody, hrequest, (Option.some.inj h).symm⟩
      · exact Or.inl (Option.some.inj h).symm
  · simp at h

namespace Linked

variable {conn conn' : Conn} {helper helper' : Helper}

theorem start : Linked .unopened .connecting :=
  ⟨List.prefix_refl _, rfl⟩

/-- The daemon writes more requests and reads no response. -/
theorem write (h : Linked conn helper) (hsent : conn.sent <+: conn'.sent)
    (hreceived : conn'.received = conn.received) (hhandled : helper'.handled = helper.handled)
    (hpipe : helper'.pipe = helper.pipe) : Linked conn' helper' := by
  refine ⟨hhandled ▸ h.asked.trans hsent, ?_⟩
  simp only [Conn.responses, Helper.answers, hreceived, hhandled, hpipe]
  exact h.answered

/-- The daemon reads what is at the front of the pipe. -/
theorem read (h : Linked conn helper) {request : Request} (hsent : conn'.sent = conn.sent)
    (hreceived : conn'.received = conn.received ++ [request])
    (hsend : helper.send request = some helper') : Linked conn' helper' := by
  obtain ⟨hhandled, hpipe⟩ := Helper.send_cases hsend
  refine ⟨by rw [hhandled, hsent]; exact h.asked, ?_⟩
  have hresponses : conn'.responses = conn.responses ++ request.response?.toList := by
    cases hresponse : request.response? <;> simp [Conn.responses, hreceived, hresponse]
  rw [hresponses, List.append_assoc, hpipe, h.answered, Helper.answers, Helper.answers, hhandled]

/-- The helper answers the next request, which passes its checks unchanged. -/
theorem turn (h : Linked conn helper) (hbodies : ∀ body ∈ conn.sent, body.intoBody = .ok body)
    {effect : CallbackEffect} {written : Bool}
    (hturn : helper.turn conn.sent effect written = some helper') : Linked conn helper' := by
  rcases Helper.turn_cases hturn with rfl | ⟨body, request, -, hbody, hrequest, rfl⟩
  · exact ⟨h.asked, h.answered⟩
  · obtain rfl : body = request :=
      Except.ok.inj ((hbodies body (List.mem_of_getElem? hbody)).symm.trans hrequest)
    refine ⟨?_, ?_⟩
    · obtain ⟨later, hlater⟩ := h.asked
      rw [← hlater] at hbody ⊢
      rw [List.getElem?_append_right (by simp)] at hbody
      cases later with
      | nil => simp at hbody
      | cons first later =>
          obtain rfl : first = body := by simpa using hbody
          exact ⟨later, by simp⟩
    · simp only [Helper.answers, List.map_append, List.map_cons, List.map_nil]
      rw [← List.append_assoc, h.answered, Helper.answers]

/-- A response that was read is the answer to a request that was written. -/
theorem mem_handled (h : Linked conn helper) {response : ProviderReadResponse}
    (hmem : .providerReadResponse response ∈ conn.received) :
    ∃ request effect, (request, effect) ∈ helper.handled ∧ request ∈ conn.sent ∧
      response = dispatchProviderRead request effect := by
  have hresponse : response ∈ helper.answers := by
    rw [← h.answered]
    exact List.mem_append_left _ (List.mem_filterMap.mpr ⟨_, hmem, rfl⟩)
  obtain ⟨⟨request, effect⟩, hhandled, rfl⟩ := List.mem_map.mp hresponse
  exact ⟨request, effect, hhandled, h.asked.subset (List.mem_map.mpr ⟨_, hhandled, rfl⟩), rfl⟩

end Linked

/-! ## Request ids -/

/-- The id a call has been given. -/
def Call.id? (call : Call) : Option ℕ :=
  match call.phase with
  | .absent => none
  | .ready requestId => some requestId
  | _ => some call.request.requestId

namespace System

variable {s t : System} {action : Action}

/-- Callers use the ids they are given, as `fuse_adapter` and `materialize` do, and there are
enough of them. -/
def Numbered (s : System) : Action → Prop
  | .allocate _ => s.nextReadRequestId < u64Max
  | .begin c request => (s.calls c).phase = .ready request.requestId
  | _ => True

/-- Every id in use was taken from the counter, by one call. -/
structure Allocated (s : System) : Prop where
  below : ∀ {c id}, (s.calls c).id? = some id → id < s.nextReadRequestId
  distinct : ∀ {c c' id}, (s.calls c).id? = some id → (s.calls c').id? = some id → c = c'

theorem id?_of_started {c : CallId} (h : (s.calls c).phase.started) :
    (s.calls c).id? = some (s.calls c).request.requestId := by
  unfold Call.id?
  split <;> simp_all [CallPhase.started]

theorem Allocated.distinctIds (h : Allocated s) : DistinctIds s := by
  intro c c' hc hc' hid
  exact h.distinct (id?_of_started hc) (by rw [id?_of_started hc', hid])

theorem Step.nextReadRequestId (h : Step s action t) :
    (∀ c, action ≠ .allocate c) ∧ t.nextReadRequestId = s.nextReadRequestId ∨
      ∃ c, action = .allocate c ∧
        t.nextReadRequestId = wrappingAdd s.nextReadRequestId 1 := by
  cases h with
  | allocate => exact Or.inr ⟨_, rfl, rfl⟩
  | begin =>
      unfold System.begin
      split <;> exact Or.inl ⟨by simp, rfl⟩
  | @disconnectCall c stage error =>
      refine Or.inl ⟨by simp, ?_⟩
      cases stage with
      | failing reads => cases reads <;> rfl
      | _ => rfl
  | @disconnectConn k providerId stage rest =>
      refine Or.inl ⟨by simp, ?_⟩
      cases stage with
      | failing reads => cases reads <;> rfl
      | _ => rfl
  | _ => exact Or.inl ⟨by simp, rfl⟩

theorem Step.ready (h : Step s action t) {c : CallId} {id : ℕ}
    (hready : (t.calls c).phase = .ready id) :
    (s.calls c).phase = .ready id ∨ action = .allocate c ∧ id = s.nextReadRequestId := by
  cases h with
  | @allocate c' hphase =>
      by_cases hc : c = c'
      · subst hc
        exact Or.inr ⟨rfl, by simpa using hready.symm⟩
      · exact Or.inl (by simpa [hc] using hready)
  | begin =>
      unfold System.begin at hready
      split at hready <;> simp only [setCall_calls] at hready <;> split at hready <;> simp_all
  | insertPending =>
      simp only [System.insertPending, enter, setCall_calls] at hready
      split at hready
      · dsimp only at hready
        split at hready <;> simp at hready
      · exact Or.inl (by simpa using hready)
  | disconnectCall =>
      simp only [setPhase, setCall_calls] at hready
      split at hready
      · unfold CallPhase.afterDisconnect at hready
        split at hready <;> simp at hready
      · exact Or.inl (disconnectStep_phase c ▸ hready)
  | disconnectConn => exact Or.inl (disconnectStep_phase c ▸ hready)
  | noRoute | route | written | writeFailed | removeFailed | removeTimedOut | receive | timeout
  | channelClosed | takePending | answer =>
      refine Or.inl ?_
      simp at hready
      split at hready <;> simp_all
  | _ => exact Or.inl hready

/-- A call keeps its id, and gets it when it is allocated. -/
theorem Step.id? (h : Step s action t) (hok : Numbered s action) {c : CallId} {id : ℕ}
    (hid : (t.calls c).id? = some id) :
    (s.calls c).id? = some id ∨ action = .allocate c ∧ id = s.nextReadRequestId := by
  by_cases hstarted : (t.calls c).phase.started
  · refine Or.inl ?_
    rw [id?_of_started hstarted] at hid
    rcases (h.call c).started hstarted with rfl | ⟨hbefore, hrequest⟩
    · rw [Call.id?, hok]
      exact hid
    · rw [id?_of_started hbefore, ← hrequest]
      exact hid
  · cases hphase : (t.calls c).phase with
    | ready requestId =>
        obtain rfl : requestId = id := by simpa [Call.id?, hphase] using hid
        rcases h.ready hphase with hbefore | hnew
        · exact Or.inl (by simp [Call.id?, hbefore])
        · exact Or.inr hnew
    | absent => simp [Call.id?, hphase] at hid
    | _ => simp [CallPhase.started, hphase] at hstarted

theorem Allocated.step (h : Allocated s) (hok : Numbered s action) (hstep : Step s action t) :
    Allocated t := by
  have hnext : s.nextReadRequestId ≤ t.nextReadRequestId ∧ ∀ c, action = .allocate c →
      s.nextReadRequestId < t.nextReadRequestId := by
    rcases hstep.nextReadRequestId with ⟨hnot, hsame⟩ | ⟨c, rfl, hnext⟩
    · exact ⟨hsame.ge, fun c haction => absurd haction (hnot c)⟩
    · have hlt : s.nextReadRequestId < u64Max := hok
      simp only [wrappingAdd, u64Max] at hnext hlt
      refine ⟨?_, fun _ _ => ?_⟩ <;> omega
  constructor
  · intro c id hid
    rcases hstep.id? hok hid with hbefore | ⟨haction, rfl⟩
    · exact (h.below hbefore).trans_le hnext.1
    · exact hnext.2 c haction
  · intro c c' id hid hid'
    rcases hstep.id? hok hid with hbefore | ⟨haction, hnew⟩ <;>
      rcases hstep.id? hok hid' with hbefore' | ⟨haction', hnew'⟩
    · exact h.distinct hbefore hbefore'
    · exact absurd (h.below hbefore) hnew'.not_lt
    · exact absurd (h.below hbefore') hnew.not_lt
    · exact Action.allocate.inj (haction.symm.trans haction')

/-! ## Requests on their way -/

/-- What was written to a connection is what calls to its providers asked for. -/
def Addressed (s : System) : Prop :=
  ∀ k, ∀ body ∈ (s.conns k).sent, ∃ c, (s.calls c).phase.unsent = false ∧
    (s.calls c).request.intoBody = .ok body ∧ s.RegisteredOn k (s.calls c).request.providerId

theorem Addressed.step (h : Addressed s) (hsessions : Sessions s) (hstep : Step s action t) :
    Addressed t := by
  intro k body hmem
  have hold : body ∈ (s.conns k).sent → ∃ c, (t.calls c).phase.unsent = false ∧
      (t.calls c).request.intoBody = .ok body ∧
        t.RegisteredOn k (t.calls c).request.providerId := by
    intro hmem
    obtain ⟨c, hsent, hbody, hon⟩ := h k body hmem
    obtain ⟨hlater, hrequest⟩ := (hstep.call c).sent hsent
    exact ⟨c, hlater, hrequest ▸ hbody, hrequest ▸ hon.mono hstep.shared⟩
  rcases hstep.sent k with hsame | ⟨c, route, hphase, rfl, rfl⟩
  · exact hold (hsame ▸ hmem)
  · have hroute : (s.calls c).phase.route? = some route := by rw [hphase]; rfl
    have hon := hsessions.caller hroute
    cases hbody : (s.calls c).request.intoBody with
    | error error => exact hold (by simpa [frames, hbody] using hmem)
    | ok frame =>
        simp only [deliverRequest, setPhase, setCall_conns, setConn_conns, if_true, frames, hbody,
          List.mem_append, List.mem_singleton] at hmem
        rcases hmem with hmem | rfl
        · exact hold hmem
        · exact ⟨c, by simp [CallPhase.unsent], by simpa using hbody,
            by simpa using hon.mono hstep.shared⟩

theorem Addressed.intoBody (h : Addressed s) {k : ConnId} :
    ∀ body ∈ (s.conns k).sent, body.intoBody = .ok body := by
  intro body hmem
  obtain ⟨c, -, hbody, -⟩ := h k body hmem
  exact ProviderReadRequest.intoBody_intoBody hbody

theorem Step.sent_append (h : Step s action t) (k : ConnId) :
    (s.conns k).sent <+: (t.conns k).sent := by
  rcases h.sent k with hsame | ⟨c, route, -, rfl, rfl⟩
  · rw [hsame]
  · simp

/-- Only frames of the connection itself are read from it. -/
theorem Step.received (h : Step s action t) {k : ConnId}
    (haction : ∀ request, action ≠ .frame k request) :
    (t.conns k).received = (s.conns k).received := by
  cases h with
  | @frame k' request | @progressFrame k' request =>
      have hk : k ≠ k' := by
        rintro rfl
        exact haction request rfl
      simp [hk]
  | @written c route => by_cases hk : k = route.writer <;> simp [hk]
  | begin | disconnectCall => simp
  | @disconnectConn k' => by_cases hk : k = k' <;> simp [hk]
  | takePending | answer =>
      refine field_of_setConn Conn.received rfl ?_
      rfl
  | allocate | noRoute | route | insertPending | writeFailed | removeFailed | removeTimedOut
  | receive | timeout | channelClosed | setMountStatus | markNodeMaterialized
  | recordCachedRead => rfl
  | _ => exact field_of_setConn Conn.received rfl rfl

theorem sent_of_frame {k : ConnId} {request : Request} (h : Step s (.frame k request) t) :
    (t.conns k).sent = (s.conns k).sent := by
  cases h <;> simp

end System

/-! ## Every run -/

namespace Served

variable {library : ConnId → Bool} {s t : Served} {k : ConnId}

/-- What holds of the daemon and its helpers in every state. -/
structure Faithful (library : ConnId → Bool) (s : Served) : Prop where
  senders : s.system.Senders
  logged : s.system.Logged
  sessions : s.system.Sessions
  allocated : s.system.Allocated
  addressed : s.system.Addressed
  linked : ∀ k, library k → Linked (s.system.conns k) (s.helpers k)

/-- The condition on the daemon's own actions. -/
def numbered (s : Served) : ServedAction → Prop
  | .daemon action => s.system.Numbered action
  | .turn _ _ _ => True

theorem linked_daemon {action : Action} (hstep : System.Step s.system action t.system)
    (hhelper : Exchanged (s.system.conns k) (s.helpers k) k action (t.helpers k))
    (h : Linked (s.system.conns k) (s.helpers k)) :
    Linked (t.system.conns k) (t.helpers k) := by
  have hsent := hstep.sent_append k
  generalize t.helpers k = helper at hhelper
  cases hhelper with
  | frame hsend => exact h.read (System.sent_of_frame hstep) (System.received_of_frame hstep) hsend
  | reply => exact h.write hsent (hstep.received (by simp)) (by simp) (by simp)
  | other hframe => exact h.write hsent (hstep.received hframe) rfl rfl

theorem Faithful.step {action : ServedAction} (h : Faithful library s)
    (hok : numbered s action) (hstep : Step library s t action) : Faithful library t := by
  cases hstep with
  | daemon hstep hhelper =>
      exact ⟨h.senders.step hstep, h.logged.step h.senders hstep, h.sessions.step hstep,
        h.allocated.step hok hstep, h.addressed.step h.sessions hstep,
        fun k hlib => linked_daemon hstep (hhelper k hlib) (h.linked k hlib)⟩
  | @turn k effect written helper hlib hsystem hturn hhelpers =>
      obtain ⟨system, helpers⟩ := t
      subst hsystem hhelpers
      refine ⟨h.senders, h.logged, h.sessions, h.allocated, h.addressed, fun k' hlib' => ?_⟩
      by_cases hk : k' = k
      · subst hk
        simpa using (h.linked k' hlib').turn h.addressed.intoBody hturn
      · simpa [hk] using h.linked k' hlib'

theorem Faithful.initial {start : Runtime} (hnext : 0 < start.nextProviderId) :
    Faithful library (initial start) where
  senders := .initial start
  logged := .initial start
  sessions := .initial hnext
  allocated := by constructor <;> simp [Served.initial, System.initial, Call.id?, Call.unstarted]
  addressed := by intro k body hmem; simp [Served.initial, System.initial, Conn.unopened] at hmem
  linked := fun _ _ => Linked.start

/-- A response read from a helper answers the request of the one call that uses its id. -/
theorem Faithful.mem_received (h : Faithful library s) (hlib : library k) {c : CallId}
    (hstarted : (s.system.calls c).phase.started) {response : ProviderReadResponse}
    (hmem : .providerReadResponse response ∈ (s.system.conns k).received)
    (hid : response.requestId = (s.system.calls c).request.requestId) :
    ∃ body effect, (s.system.calls c).request.intoBody = .ok body ∧
      (body, effect) ∈ (s.helpers k).handled ∧ response = dispatchProviderRead body effect ∧
      s.system.RegisteredOn k (s.system.calls c).request.providerId := by
  obtain ⟨body, effect, hhandled, hsent, rfl⟩ := (h.linked k hlib).mem_handled hmem
  obtain ⟨c', hwritten, hbody, hon⟩ := h.addressed k body hsent
  have hsame : (s.system.calls c').request.requestId = (s.system.calls c).request.requestId := by
    obtain ⟨⟨path, -, rfl⟩, -⟩ := ProviderReadRequest.intoBody_eq_ok.mp hbody
    obtain ⟨status, bytes, hresponse, -⟩ := dispatchProviderRead_cases _ effect
    rw [hresponse] at hid
    exact hid
  obtain rfl := h.allocated.distinctIds c' c (CallPhase.started_of_sent hwritten) hstarted hsame
  exact ⟨body, effect, hbody, hhandled, rfl, hon⟩

/-- What a call returns is the answer of the helper to its request. -/
theorem Faithful.answer_of_done (h : Faithful library s) {c : CallId}
    {response : ProviderReadResponse} (hdone : (s.system.calls c).phase = .done (.ok response))
    (hlib : library k) (hon : s.system.RegisteredOn k (s.system.calls c).request.providerId) :
    ∃ body effect, (s.system.calls c).request.intoBody = .ok body ∧
      (body, effect) ∈ (s.helpers k).handled ∧ response = dispatchProviderRead body effect := by
  obtain ⟨delivery, hmem, hcall, hok⟩ := h.logged.calls (Or.inr hdone)
  have hgenuine := h.logged.genuine delivery hmem hok
  rw [hcall] at hgenuine
  -- the frame came in on a connection that registered the provider, and there is only one
  obtain ⟨registration, hregistration, hconn, hprovider, -⟩ := hgenuine.registered
  obtain rfl : delivery.conn = k :=
    h.sessions.unique ⟨registration, hregistration, hconn, hprovider⟩ hon
  have hid := (validateProviderReadResponseForRequest_eq_ok.mp hgenuine.accepted).1
  obtain ⟨body, effect, hbody, hhandled, hresponse, -⟩ :=
    h.mem_received hlib (by rw [hdone]; rfl) (List.mem_of_getElem? hgenuine.content) hid
  exact ⟨body, effect, hbody, hhandled, hresponse⟩

end Served

/-! ## What the callback puts into the buffer -/

/-- A callback that succeeds has written bytes of the content, as many as it says. -/
def CallbackEffect.Fills (effect : CallbackEffect) (content : Content)
    (request : ProviderReadRequest) : Prop :=
  effect.status = some 0 → ∀ i < min effect.bytesWritten request.length,
    effect.byte i = content ⟨request.promiseId, request.relativePath⟩ (request.offset + i)

theorem dispatchProviderRead_honest {effect : CallbackEffect} {content : Content}
    {request : ProviderReadRequest} (h : effect.Fills content request) :
    (dispatchProviderRead request effect).Honest content request := by
  intro hok
  unfold dispatchProviderRead at hok ⊢
  split_ifs at hok ⊢
  any_goals simp [providerReadError] at hok
  unfold CallbackEffect.response at hok ⊢
  dsimp only at hok ⊢
  split_ifs at hok ⊢ with hstatus hlength
  · exact absurd hok hstatus
  · simp [providerReadError] at hok
  · have hzero : effect.status = some 0 := by
      rw [not_not] at hstatus
      cases hvalue : effect.status with
      | none => simp [hvalue, fpErrIo, providerReadStatusFromFfi] at hstatus
      | some value =>
          unfold providerReadStatusFromFfi at hstatus
          split_ifs at hstatus with hzero
          simpa [hvalue] using hzero
    refine ⟨min effect.bytesWritten request.length, min_le_right _ _, ?_⟩
    refine List.ext_getElem (by simp) ?_
    intro i hi hi'
    simp only [List.getElem_take, List.getElem_map, List.getElem_range, ByteMap.slice]
    exact h hzero i (by simpa using hi')

namespace Served

/-- Whatever the other clients do, and however the threads are interleaved, as long as callers use
the ids they are given: what a call to a provider behind a helper returns is what the callback
made of the request of that call, and so bytes of the file and range it asks for whenever the
callback writes such bytes. -/
theorem routed_read_is_callback_answer {library : ConnId → Bool} {policy : CachePolicy}
    {start : Runtime} {s : Served} (hstart : Runtime.withCachePolicy policy = .ok start)
    (h : Reaches (step library) numbered (initial start) s) {c : CallId}
    {response : ProviderReadResponse} (hdone : (s.system.calls c).phase = .done (.ok response))
    {k : ConnId} (hlib : library k)
    (hon : s.system.RegisteredOn k (s.system.calls c).request.providerId) :
    ∃ body effect, (s.system.calls c).request.intoBody = .ok body ∧
      (body, effect) ∈ (s.helpers k).handled ∧ response = dispatchProviderRead body effect ∧
      ∀ content, effect.Fills content body → response.Honest content body := by
  have hfaithful : Faithful library s := by
    refine h.invariant (Faithful library) ?_
      (.initial (Runtime.wellFormed_of_withCachePolicy hstart).nextProvider)
    intro s action t hinv hok hstep
    exact hinv.step hok (.of_step hstep)
  obtain ⟨body, effect, hbody, hhandled, hresponse⟩ := hfaithful.answer_of_done hdone hlib hon
  exact ⟨body, effect, hbody, hhandled, hresponse,
    fun content hfills => hresponse ▸ dispatchProviderRead_honest hfills⟩

/-- A helper on connection 0 and one read. -/
theorem routed_read_is_callback_answer_one :
    ∃ s : Served, (s.system.calls 0).phase = .done (.ok ⟨1, .ok, [7]⟩) ∧
      ∃ effect, (⟨1, 1, ['p'], ['f'], ['n'], 0, 4⟩, effect) ∈ (s.helpers 0).handled ∧
        ⟨1, .ok, [7]⟩ = dispatchProviderRead ⟨1, 1, ['p'], ['f'], ['n'], 0, 4⟩ effect := by
  obtain ⟨s, hrun, hdone, hrequest, hon⟩ : ∃ s : Served,
      Run (step fun k => k = 0) numbered (initial Runtime.new)
        [.daemon (.connect 0), .daemon (.frame 0 (.hello 1 1)), .daemon (.reply 0 true),
          .daemon (.frame 0 .providerRegister), .daemon (.registerProvider 0),
          .daemon (.registerRoute 0 (some 5)), .daemon (.reply 0 true), .daemon (.allocate 0),
          .daemon (.begin 0 ⟨1, 1, ['p'], ['f'], ['n'], 0, 4⟩), .daemon (.lookupRoute 0),
          .daemon (.insertPending 0), .daemon (.writeRequest 0 none),
          .turn 0 ⟨fun _ => 7, 4, 1, some 0⟩ true,
          .daemon (.frame 0 (.providerReadResponse ⟨1, .ok, [7]⟩)), .daemon (.takePending 0),
          .daemon (.answer 0), .daemon (.receive 0)] s ∧
      (s.system.calls 0).phase = .done (.ok ⟨1, .ok, [7]⟩) ∧
      (s.system.calls 0).request = ⟨1, 1, ['p'], ['f'], ['n'], 0, 4⟩ ∧
      s.system.RegisteredOn 0 1 := by
    refine ⟨_, ⟨trivial, _, rfl, trivial, _, rfl, trivial, _, rfl, trivial, _, rfl, trivial, _, rfl,
      trivial, _, rfl, trivial, _, rfl, (by decide : (1 : ℕ) < u64Max), _, rfl, rfl, _, rfl,
        trivial, _, rfl, trivial,
      _, rfl, trivial, _, rfl, trivial, _, rfl, trivial, _, rfl, trivial, _, rfl, trivial, _, rfl,
      trivial, _, rfl, rfl⟩, rfl, rfl, ⟨⟨0, 2, 1⟩, List.mem_singleton_self _, rfl, rfl⟩⟩
  have hstart : Runtime.withCachePolicy .noCache = .ok Runtime.new := rfl
  obtain ⟨body, effect, hbody, hhandled, hresponse, -⟩ :=
    routed_read_is_callback_answer hstart ⟨_, hrun⟩ hdone (k := 0) rfl (by rw [hrequest]; exact hon)
  rw [hrequest] at hbody
  obtain rfl : (⟨1, 1, ['p'], ['f'], ['n'], 0, 4⟩ : ProviderReadRequest) = body :=
    Except.ok.inj hbody
  exact ⟨s, hdone, effect, hhandled, hresponse⟩

end Served

end FusePromise
