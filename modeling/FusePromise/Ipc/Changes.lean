import FusePromise.Ipc.Senders
import FusePromise.Ipc.Writers

/-!
# What a step does to each part of the system

One step moves one thread, and touches the shared state at one place.  The
relations here say how: `ConnChange` and `HandlerStep` for a connection,
`CallChange` and `PhaseStep` for a call, `SharedChange` for the maps and the
runtime.  The invariants of the later modules are proved from them, without
going back to the steps.
-/

namespace FusePromise

open Machine

/-- The phases in which a response frame is still in the hands of its handler. -/
def HandlerPhase.inFrame : HandlerPhase → Bool
  | .taking _ | .answering _ _ => true
  | _ => false

theorem Conn.Dispatched.inFrame {conn : Conn} {request : Request} {phase : HandlerPhase}
    (h : conn.Dispatched request phase) (hframe : phase.inFrame = true) :
    ∃ response, phase = .taking response ∧ request = .providerReadResponse response := by
  cases h with
  | taking => exact ⟨_, rfl, rfl⟩
  | _ => simp [HandlerPhase.inFrame] at hframe

namespace System

variable {s t : System} {action : Action}

/-! ## Connections -/

/-- What a step does to a connection. -/
inductive ConnChange (s t : System) (k : ConnId) : Prop
  | same (hphase : (t.conns k).phase = (s.conns k).phase)
      (hreceived : (t.conns k).received = (s.conns k).received)
      (hproviders : (t.conns k).registeredProviders = (s.conns k).registeredProviders)
  | quiet (hphase : (t.conns k).phase.inFrame = false)
      (hreceived : (t.conns k).received = (s.conns k).received)
      (hproviders : (t.conns k).registeredProviders ⊆ (s.conns k).registeredProviders)
  | frame {request : Request} (hreading : (s.conns k).phase.inFrame = false)
      (hphase : (t.conns k).phase.inFrame = true → ∃ response,
        (t.conns k).phase = .taking response ∧ request = .providerReadResponse response)
      (hreceived : (t.conns k).received = (s.conns k).received ++ [request])
      (hproviders : (t.conns k).registeredProviders = (s.conns k).registeredProviders)
  | take {response : ProviderReadResponse} (read : PendingRead)
      (htaking : (s.conns k).phase = .taking response)
      (hphase : (t.conns k).phase = .answering read ((s.conns k).outcome read response))
      (hreceived : (t.conns k).received = (s.conns k).received)
      (hproviders : (t.conns k).registeredProviders = (s.conns k).registeredProviders)
  | register (providerId : ProviderId) (hphase : (t.conns k).phase = .replying)
      (hreceived : (t.conns k).received = (s.conns k).received)
      (hproviders : (t.conns k).registeredProviders =
        (s.conns k).registeredProviders ++ [providerId])
      (hregistration : t.registrations =
        ⟨k, (s.conns k).received.length, providerId⟩ :: s.registrations)

theorem ConnChange.refl {k : ConnId} (h : t.conns k = s.conns k) : ConnChange s t k :=
  .same (by rw [h]) (by rw [h]) (by rw [h])

/-- A handler that goes on to a phase outside its frame. -/
theorem ConnChange.of_setHandler (k : ConnId) (phase : HandlerPhase)
    (hconns : t.conns = (s.setHandler k phase).conns) (hphase : phase.inFrame = false)
    (k' : ConnId) : ConnChange s t k' := by
  by_cases hk : k' = k
  · subst hk
    exact .quiet (by simpa [hconns] using hphase) (by simp [hconns]) (by simp [hconns])
  · exact .refl (by simp [hconns, hk])

theorem ConnChange.setHandler {k : ConnId} {phase : HandlerPhase}
    (hphase : phase.inFrame = false) (k' : ConnId) : ConnChange s (s.setHandler k phase) k' :=
  .of_setHandler k phase rfl hphase k'

theorem Step.conn (h : Step s action t) (k : ConnId) : ConnChange s t k := by
  cases h with
  | @written c route hphase =>
      by_cases hk : k = route.writer <;> exact .same (by simp [hk]) (by simp [hk]) (by simp [hk])
  | @frame k' request hphase =>
      by_cases hk : k = k'
      · subst hk
        refine .frame (by simp [hphase, HandlerPhase.inFrame]) ?_ (by simp; rfl) (by simp)
        simpa using ((s.conns k).dispatched request).inFrame
      · exact .refl (by simp [hk])
  | @progressFrame k' request hphase =>
      by_cases hk : k = k'
      · subst hk
        refine .frame (by simp [hphase, HandlerPhase.inFrame]) ?_ (by simp; rfl) (by simp)
        simp only [receiveFrame, setConn_conns, if_true]
        split <;> simp [HandlerPhase.inFrame]
      · exact .refl (by simp [hk])
  | @registerRoute k' providerId token hphase =>
      by_cases hk : k = k'
      · subst hk
        exact .register providerId (by simp) (by simp) (by simp) (by simp)
      · exact .refl (by simp [hk])
  -- the handler forgets the provider
  | @unregister k' providerId runtime hphase =>
      by_cases hk : k = k'
      · subst hk
        exact .quiet (by simp [HandlerPhase.inFrame]) (by simp) (by simp)
      · exact .refl (by simp [hk])
  | @takePending k' response read hphase =>
      by_cases hk : k = k'
      · subst hk
        exact .take read hphase (by simp) (by simp) (by simp)
      · exact .refl (by simp [hk])
  | @disconnectConn k' providerId stage rest hphase =>
      generalize hlater : (s.disconnectStep (.handler k') providerId stage).2 = later
      refine .of_setHandler k' (.afterDisconnect providerId rest later) ?_ ?_ k
      · simp [setConn]
      · cases later with
        | none => cases rest <;> rfl
        | some stage => rfl
  | begin | disconnectCall => exact .refl (by simp)
  | @owned k' providerId token request =>
      exact .setHandler (by cases request <;> rfl) k
  | @registerProvider k' =>
      refine .of_setHandler k' (.registered s.runtime.nextProviderId) ?_ rfl k
      rfl
  | @commit k' =>
      refine .of_setHandler k' .replying ?_ rfl k
      rfl
  | @answer k' =>
      refine .of_setHandler k' .reading ?_ rfl k
      rfl
  | connect | endOfStream | progressEnd | replied | replyFailed | noToken | notOwned
  | unregisterFailed | mounted | notMounted | endMaterialize | unmatched | closed | closeNext =>
      exact .setHandler rfl k
  | _ => exact .refl rfl

/-- How a handler goes from one phase to the next. -/
inductive HandlerStep (s : System) (action : Action) (k : ConnId) :
    HandlerPhase → HandlerPhase → Prop
  | connect : HandlerStep s action k .absent .reading
  | dispatch {request : Request} {phase : HandlerPhase} (h : action = .frame k request)
      (hphase : (s.conns k).Dispatched request phase) : HandlerStep s action k .reading phase
  | progress {phase : HandlerPhase} (h : phase = .materializing ∨ phase = .replying) :
      HandlerStep s action k .materializing phase
  /-- The session ends: the stream is over, a write failed, no token was made, or a
  response matched nothing. -/
  | endSession (phase : HandlerPhase)
      (h : phase = .reading ∧ action = .endOfStream k ∨
        phase = .replying ∧ action = .reply k false ∨
        (∃ providerId, phase = .registered providerId) ∧ action = .registerRoute k none ∨
        ∃ response, phase = .taking response ∧
          s.pendingReads[response.requestId]? = none) :
      HandlerStep s action k phase (.closing (s.conns k).registeredProviders)
  | replied : HandlerStep s action k .replying .reading
  | register (h : action = .registerProvider k) :
      HandlerStep s action k .registering (.registered s.runtime.nextProviderId)
  | registered (providerId : ProviderId) (token : ℕ)
      (h : action = .registerRoute k (some token)) :
      HandlerStep s action k (.registered providerId) .replying
  | owned {providerId : ProviderId} {token : ℕ} {request : OwnerRequest} {route : ProviderRoute}
      (hroute : s.providerRoutes[providerId]? = some route) (htoken : route.ownerToken = token) :
      HandlerStep s action k (.validating providerId token request) (request.next providerId)
  /-- A request is answered without effect, or a commit with it. -/
  | reply (phase : HandlerPhase)
      (h : (∃ providerId token request, phase = .validating providerId token request) ∨
        (∃ providerId, phase = .unregistering providerId) ∨
        (∃ providerId nodes, phase = .checkingMount providerId nodes) ∨
        ∃ providerId nodes, phase = .committing providerId nodes) :
      HandlerStep s action k phase .replying
  | unregister (providerId : ProviderId) (haction : action = .unregister k) :
      HandlerStep s action k (.unregistering providerId)
        (.disconnecting providerId .removeRoute none)
  | mounted (providerId : ProviderId) (nodes : List PromiseNodeBody) :
      HandlerStep s action k (.checkingMount providerId nodes) (.committing providerId nodes)
  | take {response : ProviderReadResponse} {read : PendingRead} (outcome : Outcome)
      (h : s.pendingReads[response.requestId]? = some read) :
      HandlerStep s action k (.taking response) (.answering read outcome)
  | answered (read : PendingRead) (outcome : Outcome) :
      HandlerStep s action k (.answering read outcome) .reading
  | disconnect (providerId : ProviderId) (stage : DisconnectStage)
      (rest : Option (List ProviderId)) (later : Option DisconnectStage)
      (h : action = .disconnectConn k) :
      HandlerStep s action k (.disconnecting providerId stage rest)
        (.afterDisconnect providerId rest later)
  | closed : HandlerStep s action k (.closing []) .closed
  | closeNext (providerId : ProviderId) (rest : List ProviderId) :
      HandlerStep s action k (.closing (providerId :: rest))
        (.disconnecting providerId .removeRoute (some rest))

theorem handler_of_setConn {k' : ConnId} {conn : Conn}
    (h : HandlerStep s action k' (s.conns k').phase conn.phase)
    (hconns : t.conns = (s.setConn k' conn).conns) (k : ConnId) :
    (t.conns k).phase = (s.conns k).phase ∨
      HandlerStep s action k (s.conns k).phase (t.conns k).phase := by
  by_cases hk : k = k'
  · subst hk
    exact Or.inr (by simpa [hconns] using h)
  · exact Or.inl (by simp [hconns, hk])

theorem Step.handler (h : Step s action t) (k : ConnId) :
    (t.conns k).phase = (s.conns k).phase ∨
      HandlerStep s action k (s.conns k).phase (t.conns k).phase := by
  cases h with
  | @written c route hphase => by_cases hk : k = route.writer <;> simp [hk]
  | connect hphase => exact handler_of_setConn (hphase ▸ .connect) rfl k
  | @frame k' request hphase =>
      exact handler_of_setConn (hphase ▸ .dispatch rfl ((s.conns k').dispatched request)) rfl k
  | progressFrame hphase =>
      refine handler_of_setConn ?_ rfl k
      rw [hphase]
      exact .progress (by simp only; split <;> simp)
  | endOfStream hphase => exact handler_of_setConn (.endSession _ (by simp [hphase])) rfl k
  | progressEnd hphase | endMaterialize hphase =>
      exact handler_of_setConn (hphase ▸ .progress (Or.inr rfl)) rfl k
  | replied hphase => exact handler_of_setConn (hphase ▸ .replied) rfl k
  | replyFailed hphase => exact handler_of_setConn (.endSession _ (by simp [hphase])) rfl k
  | registerProvider hphase => exact handler_of_setConn (hphase ▸ .register rfl) rfl k
  | @registerRoute k' providerId token hphase =>
      exact handler_of_setConn (hphase ▸ .registered providerId token rfl) rfl k
  | noToken hphase => exact handler_of_setConn (.endSession _ (by simp [hphase])) rfl k
  | owned hphase hroute htoken =>
      exact handler_of_setConn (hphase ▸ .owned hroute htoken) rfl k
  | notOwned hphase | unregisterFailed hphase | notMounted hphase | commit hphase =>
      exact handler_of_setConn (.reply _ (by simp [hphase])) rfl k
  | @unregister k' providerId runtime hphase =>
      exact handler_of_setConn (hphase ▸ .unregister providerId rfl) rfl k
  | @mounted k' providerId nodes hphase =>
      exact handler_of_setConn (hphase ▸ .mounted providerId nodes) rfl k
  | @takePending k' response read hphase hread =>
      by_cases hk : k = k'
      · subst hk
        refine Or.inr ?_
        simpa [hphase] using HandlerStep.take ((s.conns k).outcome read response) hread
      · simp [hk]
  | @unmatched k' response hphase hread =>
      exact handler_of_setConn (.endSession _ (Or.inr (Or.inr (Or.inr ⟨response, hphase, hread⟩))))
        rfl k
  | @answer k' read outcome hphase =>
      by_cases hk : k = k'
      · subst hk
        refine Or.inr ?_
        simpa [hphase] using HandlerStep.answered read outcome
      · simp [hk]
  | @disconnectConn k' providerId stage rest hphase =>
      generalize hlater : (s.disconnectStep (.handler k') providerId stage).2 = later
      have hmove : HandlerStep s (.disconnectConn k') k' (s.conns k').phase
          { s.conns k' with phase := .afterDisconnect providerId rest later }.phase :=
        hphase ▸ .disconnect providerId stage rest later rfl
      exact handler_of_setConn hmove (by simp [setConn]) k
  | closed hphase => exact handler_of_setConn (hphase ▸ .closed) rfl k
  | @closeNext k' providerId rest hphase =>
      exact handler_of_setConn (hphase ▸ .closeNext providerId rest) rfl k
  -- the disconnect of a call goes on in the thread of the call
  | begin | disconnectCall => exact Or.inl (by simp)
  | _ => exact Or.inl rfl

/-- A connection is changed by its own handler only, apart from what is written to it. -/
theorem Step.conn_of_other (h : Step s action t) {k : ConnId}
    (hagent : action.agent ≠ some (.handler k)) :
    t.conns k = { s.conns k with sent := (t.conns k).sent } := by
  have hother : ∀ k', action.agent = some (.handler k') → k ≠ k' := by
    rintro k' hown rfl
    exact hagent hown
  cases h with
  | @connect k' | @frame k' | @progressFrame k' | @endOfStream k' | @progressEnd k' | @replied k'
  | @replyFailed k' | @registerProvider k' | @registerRoute k' | @noToken k' | @owned k'
  | @notOwned k' | @unregister k' | @unregisterFailed k' | @mounted k' | @notMounted k'
  | @commit k' | @endMaterialize k' | @takePending k' | @unmatched k' | @answer k'
  | @disconnectConn k' | @closed k' | @closeNext k' => simp [hother k' rfl]
  | @written c route => by_cases hk : k = route.writer <;> simp [hk]
  | begin | disconnectCall => simp
  | _ => rfl

theorem field_of_setConn {β : Type} (field : Conn → β) {k k' : ConnId} {conn : Conn}
    (hconns : t.conns = (s.setConn k' conn).conns) (h : field conn = field (s.conns k')) :
    field (t.conns k) = field (s.conns k) := by
  by_cases hk : k = k'
  · subst hk
    simpa [hconns] using h
  · simp [hconns, hk]

theorem Step.sent (h : Step s action t) (k : ConnId) :
    (t.conns k).sent = (s.conns k).sent ∨
      ∃ c route, (s.calls c).phase = .writing route ∧ k = route.writer ∧
        t = s.deliverRequest c route.writer := by
  cases h with
  | @written c route hphase =>
      by_cases hk : k = route.writer
      · exact Or.inr ⟨c, route, hphase, hk, rfl⟩
      · exact Or.inl (by simp [hk])
  | begin | disconnectCall => exact Or.inl (by simp)
  | @disconnectConn k' =>
      refine Or.inl ?_
      by_cases hk : k = k' <;> simp [hk]
  | takePending | answer =>
      refine Or.inl (field_of_setConn Conn.sent rfl ?_)
      rfl
  | allocate | noRoute | route | insertPending | writeFailed | removeFailed | removeTimedOut
  | receive | timeout | channelClosed | setMountStatus | markNodeMaterialized
  | recordCachedRead => exact Or.inl rfl
  | _ => exact Or.inl (field_of_setConn Conn.sent rfl rfl)

/-! ## Calls -/

/-- How a call goes from one phase to the next. -/
inductive PhaseStep (s : System) (action : Action) (c : CallId) : CallPhase → CallPhase → Prop
  | allocate : PhaseStep s action c .absent (.ready s.nextReadRequestId)
  | route {route : ProviderRoute}
      (h : s.providerRoutes[(s.calls c).request.providerId]? = some route) :
      PhaseStep s action c .routing (.routed route)
  | insert (route : ProviderRoute) (haction : action = .insertPending c)
      (h : (s.calls c).request.requestId ∉ s.pendingReads) :
      PhaseStep s action c (.routed route) (.writing route)
  | written (route : ProviderRoute) : PhaseStep s action c (.writing route) .waiting
  | writeFailed (route : ProviderRoute) (error : IoError)
      (haction : action = .writeRequest c (some error)) :
      PhaseStep s action c (.writing route) (.writeFailed error)
  | removeFailed (error : IoError) :
      PhaseStep s action c (.writeFailed error) (.disconnecting .removeRoute error)
  | disconnect (stage : DisconnectStage) (error : IoError) (later : Option DisconnectStage)
      (h : action = .disconnectCall c) :
      PhaseStep s action c (.disconnecting stage error) (.afterDisconnect error later)
  | receive {outcome : Outcome} (h : outcome ∈ (s.calls c).inbox) :
      PhaseStep s action c .waiting (.done outcome)
  | timeout (haction : action = .timeout c) : PhaseStep s action c .waiting .timedOut
  /-- The returns that need no answer: no route, a duplicate id, a timeout, a closed channel. -/
  | fail (phase : CallPhase) (error : IoError)
      (h : phase = .routing ∨ (∃ route, phase = .routed route) ∨ phase = .timedOut ∨
        phase = .waiting) : PhaseStep s action c phase (.done (.error error))

/-- What a step does to a call.  Where its sender is may change as well. -/
inductive CallChange (s t : System) (action : Action) (c : CallId) : Prop
  | begin (hbegin : mayBegin (s.calls c).phase (t.calls c).request)
      (haction : action = .begin c (t.calls c).request)
      (hphase : (t.calls c).phase = .routing ∨ ∃ error, (t.calls c).phase = .done (.error error))
      (hinbox : (t.calls c).inbox = (s.calls c).inbox)
      (hplace : (t.calls c).place = (s.calls c).place)
  | move (hrequest : (t.calls c).request = (s.calls c).request)
      (hphase : (t.calls c).phase = (s.calls c).phase ∨
        PhaseStep s action c (s.calls c).phase (t.calls c).phase)
      (hinbox : ∃ errors : List IoError,
        (t.calls c).inbox = (s.calls c).inbox ++ errors.map .error)
      (hplace : (t.calls c).place = .unborn → (s.calls c).place = .unborn)
  | answer {k : ConnId} {read : PendingRead} {outcome : Outcome} (haction : action = .answer k)
      (hanswering : (s.conns k).phase = .answering read outcome) (hsender : read.sender = c)
      (hrequest : (t.calls c).request = (s.calls c).request)
      (hphase : (t.calls c).phase = (s.calls c).phase)
      (hinbox : (t.calls c).inbox = (s.calls c).inbox ++ [outcome])
      (hplace : (t.calls c).place = .unborn → (s.calls c).place = .unborn)

theorem CallChange.refl {c : CallId} (hrequest : (t.calls c).request = (s.calls c).request)
    (hphase : (t.calls c).phase = (s.calls c).phase)
    (hinbox : (t.calls c).inbox = (s.calls c).inbox)
    (hplace : (t.calls c).place = .unborn → (s.calls c).place = .unborn) :
    CallChange s t action c :=
  .move hrequest (Or.inl hphase) ⟨[], by simpa using hinbox⟩ hplace

theorem CallChange.setPhase {c : CallId} {phase : CallPhase}
    (h : PhaseStep s action c (s.calls c).phase phase) (c' : CallId) :
    CallChange s (s.setPhase c phase) action c' := by
  by_cases hc : c' = c
  · subst hc
    exact .move (by simp) (Or.inr (by simpa using h)) ⟨[], by simp⟩ (by simp)
  · exact .refl (by simp [hc]) (by simp [hc]) (by simp [hc]) (by simp [hc])

theorem CallChange.dropPending {c : CallId} {phase : CallPhase} {requestId : ℕ}
    (h : PhaseStep s action c (s.calls c).phase phase) (c' : CallId) :
    CallChange s ((s.dropPending requestId).setPhase c phase) action c' := by
  by_cases hc : c' = c
  · subst hc
    exact .move (by simp) (Or.inr (by simpa using h)) ⟨[], by simp⟩
      (by simpa using dropPending_unborn)
  · exact .refl (by simp [hc]) (by simp [hc]) (by simp [hc])
      (by simpa [hc] using dropPending_unborn)

/-- A section of `disconnect_provider_id` sends nothing but errors. -/
theorem disconnectStep_inbox {agent : Agent} {providerId : ℕ} {stage : DisconnectStage}
    (c : CallId) :
    ∃ errors : List IoError, ((s.disconnectStep agent providerId stage).1.calls c).inbox =
      (s.calls c).inbox ++ errors.map .error := by
  unfold disconnectStep
  split
  · exact ⟨[], by simp⟩
  · exact ⟨[], by simp⟩
  · refine ⟨[], ?_⟩
    simp only [takeReads]
    split <;> simp
  · exact ⟨[], by simp⟩
  · rename_i read rest
    by_cases hc : c = read.sender
    · exact ⟨[⟨.brokenPipe, "provider disconnected"⟩], by simp [hc]⟩
    · exact ⟨[], by simp [hc]⟩

theorem Step.call (h : Step s action t) (c : CallId) : CallChange s t action c := by
  -- a call moves when it is its own thread that steps; another thread can only fill its inbox
  cases h with
  | @allocate c' hphase =>
      by_cases hc : c = c'
      · subst hc
        exact .move (by simp) (Or.inr (by simp [hphase]; exact .allocate)) ⟨[], by simp⟩ (by simp)
      · exact .refl (by simp [hc]) (by simp [hc]) (by simp [hc]) (by simp [hc])
  | @begin c' request hphase =>
      unfold System.begin
      by_cases hc : c = c'
      · subst hc
        split
        · exact .begin (by simpa using hphase) (by simp) (Or.inr ⟨_, by simp; rfl⟩) (by simp)
            (by simp)
        · exact .begin (by simpa using hphase) (by simp) (Or.inl (by simp)) (by simp) (by simp)
      · split <;> exact .refl (by simp [hc]) (by simp [hc]) (by simp [hc]) (by simp [hc])
  | @noRoute c' hphase => exact .setPhase (.fail _ _ (by simp [hphase])) c
  | @route c' route hphase hroute => exact .setPhase (hphase ▸ .route hroute) c
  | @insertPending c' route hphase =>
      simp only [System.insertPending, enter]
      by_cases hc : c = c'
      · subst hc
        refine .move (by simp) (Or.inr ?_) ⟨[], by simp⟩ (by simp)
        rw [hphase]
        simp only [setCall_calls, if_true]
        split
        · exact .fail _ _ (by simp)
        · rename_i hfresh
          exact .insert route rfl hfresh
      · exact .refl (by simp [hc]) (by simp [hc]) (by simp [hc])
          (by simpa [hc] using dropPending_unborn)
  | @written c' route hphase =>
      by_cases hc : c = c'
      · subst hc
        exact .move (by simp) (Or.inr (by simp [hphase]; exact .written route)) ⟨[], by simp⟩
          (by simp)
      · exact .refl (by simp [hc]) (by simp [hc]) (by simp [hc]) (by simp [hc])
  | @writeFailed c' route error hphase => exact .setPhase (hphase ▸ .writeFailed route error rfl) c
  | @removeFailed c' error hphase => exact .dropPending (hphase ▸ .removeFailed error) c
  | removeTimedOut hphase => exact .dropPending (.fail _ _ (by simp [hphase])) c
  | @disconnectCall c' stage error hphase =>
      -- a disconnect may also send to other calls, which stay where they are
      by_cases hc : c = c'
      · subst hc
        refine .move (by simp) (Or.inr ?_) (by simpa using disconnectStep_inbox c)
          (by simpa using disconnectStep_unborn)
        simpa [hphase] using PhaseStep.disconnect stage error _ rfl
      · exact .move (by simp [hc]) (Or.inl (by simp [hc]))
          (by simpa [hc] using disconnectStep_inbox c) (by simpa [hc] using disconnectStep_unborn)
  | @receive c' outcome rest hphase hinbox =>
      exact .setPhase (hphase ▸ .receive (by simp [hinbox])) c
  | timeout hphase => exact .setPhase (hphase ▸ .timeout rfl) c
  | channelClosed hphase => exact .setPhase (.fail _ _ (by simp [hphase])) c
  | @takePending k response read hphase =>
      by_cases hc : c = read.sender <;>
        exact .refl (by simp [hc]) (by simp [hc]) (by simp [hc]) (by simp [hc])
  | @answer k read outcome hphase =>
      by_cases hc : c = read.sender
      · exact .answer rfl hphase hc.symm (by simp [hc]) (by simp [hc]) (by simp [hc]) (by simp [hc])
      · exact .refl (by simp [hc]) (by simp [hc]) (by simp [hc]) (by simp [hc])
  | @disconnectConn k providerId stage rest hphase =>
      exact .move (disconnectStep_request c) (Or.inl (disconnectStep_phase c))
        (disconnectStep_inbox c) disconnectStep_unborn
  | _ => exact .refl rfl rfl rfl id

/-- A call is moved on by its own actions only. -/
theorem Step.phase_of_other (h : Step s action t) {c : CallId}
    (hagent : action.agent ≠ some (.caller c)) : (t.calls c).phase = (s.calls c).phase := by
  have hother : ∀ c', action.agent = some (.caller c') → c ≠ c' := by
    rintro c' hown rfl
    exact hagent hown
  cases h with
  | @begin c' =>
      unfold System.begin
      split <;> simp [hother c' rfl]
  | @insertPending c' => simp [System.insertPending, enter, hother c' rfl]
  | @allocate c' | @noRoute c' | @route c' | @written c' | @writeFailed c' | @removeFailed c'
  | @removeTimedOut c' | @disconnectCall c' | @receive c' | @timeout c' | @channelClosed c' =>
      simp [hother c' rfl]
  | @takePending k response read | @answer k read =>
      by_cases hc : c = read.sender <;> simp [hc]
  | disconnectConn => simp
  | _ => rfl

/-- Only the thread of a call gives it a request, when it begins. -/
theorem Step.request (h : Step s action t) {c : CallId}
    (hother : ∀ request, action ≠ .begin c request) :
    (t.calls c).request = (s.calls c).request := by
  cases h.call c with
  | begin _ haction => exact absurd haction (hother _)
  | move hrequest => exact hrequest
  | answer _ _ _ hrequest => exact hrequest

/-! ## The shared state -/

/-- Where an agent is in `disconnect_provider_id`. -/
def task (s : System) : Agent → Option (ProviderId × DisconnectStage)
  | .caller c =>
      match (s.calls c).phase with
      | .disconnecting stage _ => some ((s.calls c).request.providerId, stage)
      | _ => none
  | .handler k =>
      match (s.conns k).phase with
      | .disconnecting providerId stage _ => some (providerId, stage)
      | _ => none

/-- The action with which an agent goes on with a disconnect. -/
def Agent.disconnects : Agent → Action
  | .caller c => .disconnectCall c
  | .handler k => .disconnectConn k

/-- The operations on the runtime, with what they are done for. -/
inductive RuntimeCause (s : System) : Action → RuntimeOp → Prop
  | register (k : ConnId) : RuntimeCause s (.registerProvider k) .registerProvider
  | unregister {k : ConnId} {providerId : ProviderId}
      (h : (s.conns k).phase = .unregistering providerId) :
      RuntimeCause s (.unregister k) (.unregisterProvider providerId)
  | commit {k : ConnId} {providerId : ProviderId} {nodes : List PromiseNodeBody}
      (h : (s.conns k).phase = .committing providerId nodes) :
      RuntimeCause s (.commit k) (.commitPromise providerId nodes)
  | mark (promiseId relativePath materializedPath : Text) :
      RuntimeCause s (.markNodeMaterialized promiseId relativePath materializedPath)
        (.markNodeMaterialized promiseId relativePath materializedPath)
  | record (promiseId relativePath : Text) (offset : ℕ) (bytes : List UInt8) :
      RuntimeCause s (.recordCachedRead promiseId relativePath offset bytes)
        (.recordCachedRead promiseId relativePath offset bytes)

/-- The shared maps are the same in both states. -/
structure SameMaps (s t : System) : Prop where
  providerRoutes : t.providerRoutes = s.providerRoutes
  registrations : t.registrations = s.registrations
  disconnected : t.disconnected = s.disconnected

/-- What a step does to the state the threads share. -/
inductive SharedChange (s t : System) (action : Action) : Prop
  | quiet (hmaps : SameMaps s t) (hruntime : t.runtime = s.runtime)
      (hpending : t.pendingReads = s.pendingReads)
  | runtime {op : RuntimeOp} (hcause : RuntimeCause s action op) (hmaps : SameMaps s t)
      (hruntime : t.runtime = s.runtime.apply op) (hpending : t.pendingReads = s.pendingReads)
  | insert {c : CallId} {route : ProviderRoute} (hphase : (s.calls c).phase = .routed route)
      (haction : action = .insertPending c) (hmaps : SameMaps s t)
      (hruntime : t.runtime = s.runtime)
      (hpending : t.pendingReads =
        (s.pendingReads.erase (s.calls c).request.requestId).insert
          (s.calls c).request.requestId (s.entry c))
  | remove {c : CallId}
      (hphase : (∃ error, (s.calls c).phase = .writeFailed error) ∨
        (s.calls c).phase = .timedOut)
      (haction : action = .removePending c) (hmaps : SameMaps s t)
      (hruntime : t.runtime = s.runtime)
      (hpending : t.pendingReads = s.pendingReads.erase (s.calls c).request.requestId)
  | take {k : ConnId} {response : ProviderReadResponse}
      (hphase : (s.conns k).phase = .taking response) (haction : action = .takePending k)
      (hmaps : SameMaps s t) (hruntime : t.runtime = s.runtime)
      (hpending : t.pendingReads = s.pendingReads.erase response.requestId)
  | addRoute {k : ConnId} {providerId : ProviderId} {token : ℕ}
      (hphase : (s.conns k).phase = .registered providerId)
      (haction : action = .registerRoute k (some token))
      (hroutes : t.providerRoutes = s.providerRoutes.insert providerId ⟨k, token⟩)
      (hregistrations : t.registrations =
        ⟨k, (s.conns k).received.length, providerId⟩ :: s.registrations)
      (hdisconnected : t.disconnected = s.disconnected) (hruntime : t.runtime = s.runtime)
      (hpending : t.pendingReads = s.pendingReads)
  | disconnect {agent : Agent} {providerId : ProviderId} {stage : DisconnectStage}
      {next : System} {later : Option DisconnectStage}
      (htask : s.task agent = some (providerId, stage))
      (haction : action = Agent.disconnects agent)
      (hnext : s.disconnectStep agent providerId stage = (next, later))
      (hroutes : t.providerRoutes = next.providerRoutes)
      (hregistrations : t.registrations = s.registrations)
      (hdisconnected : t.disconnected = next.disconnected)
      (hruntime : t.runtime = next.runtime) (hpending : t.pendingReads = next.pendingReads)

theorem Step.shared (h : Step s action t) : SharedChange s t action := by
  cases h with
  | begin =>
      unfold System.begin
      split <;> exact .quiet ⟨rfl, rfl, rfl⟩ rfl rfl
  | @insertPending c route hphase =>
      refine .insert hphase rfl ⟨rfl, rfl, rfl⟩ rfl ?_
      simp only [System.insertPending, enter, System.entry, dropPending_request]
      rfl
  | removeFailed hphase => exact .remove (Or.inl ⟨_, hphase⟩) rfl ⟨rfl, rfl, rfl⟩ rfl rfl
  | removeTimedOut hphase => exact .remove (Or.inr hphase) rfl ⟨rfl, rfl, rfl⟩ rfl rfl
  | @disconnectCall c stage error hphase =>
      have htask : s.task (.caller c) = some ((s.calls c).request.providerId, stage) := by
        simp [task, hphase]
      exact .disconnect htask rfl Prod.mk.eta.symm rfl disconnectStep_registrations rfl rfl rfl
  | registerProvider => exact .runtime (.register _) ⟨rfl, rfl, rfl⟩ rfl rfl
  | registerRoute hphase => exact .addRoute hphase rfl rfl rfl rfl rfl rfl
  | @unregister k providerId runtime hphase hruntime =>
      refine .runtime (.unregister hphase) ⟨rfl, rfl, rfl⟩ ?_ rfl
      simp [Runtime.apply, hruntime, Runtime.orKeep]
  | commit hphase => exact .runtime (.commit hphase) ⟨rfl, rfl, rfl⟩ rfl rfl
  | takePending hphase => exact .take hphase rfl ⟨rfl, rfl, rfl⟩ rfl rfl
  | @disconnectConn k providerId stage rest hphase =>
      have htask : s.task (.handler k) = some (providerId, stage) := by simp [task, hphase]
      exact .disconnect htask rfl Prod.mk.eta.symm rfl disconnectStep_registrations rfl rfl rfl
  | markNodeMaterialized => exact .runtime (.mark ..) ⟨rfl, rfl, rfl⟩ rfl rfl
  | recordCachedRead => exact .runtime (.record ..) ⟨rfl, rfl, rfl⟩ rfl rfl
  | _ => exact .quiet ⟨rfl, rfl, rfl⟩ rfl rfl

section Disconnect

variable {agent : Agent} {providerId : ℕ} {stage : DisconnectStage} {next : System}
  {later : Option DisconnectStage}

theorem disconnectStep_runtime (h : s.disconnectStep agent providerId stage = (next, later)) :
    next.runtime = s.runtime ∨ stage = .unregister ∧
      next.runtime = s.runtime.apply (.unregisterProvider providerId) := by
  unfold disconnectStep at h
  split at h <;> obtain ⟨rfl, rfl⟩ := Prod.mk.inj h
  case h_2 => exact Or.inr ⟨rfl, rfl⟩
  all_goals exact Or.inl rfl

theorem disconnectStep_providerRoutes
    (h : s.disconnectStep agent providerId stage = (next, later)) :
    next.providerRoutes = s.providerRoutes ∨ stage = .removeRoute ∧
      next.providerRoutes = s.providerRoutes.erase providerId := by
  unfold disconnectStep at h
  split at h <;> obtain ⟨rfl, rfl⟩ := Prod.mk.inj h
  case h_1 => exact Or.inr ⟨rfl, rfl⟩
  all_goals exact Or.inl rfl

theorem disconnectStep_disconnected
    (h : s.disconnectStep agent providerId stage = (next, later)) :
    next.disconnected = s.disconnected ∨ stage = .failing [] ∧
      next.disconnected = providerId :: s.disconnected := by
  unfold disconnectStep at h
  split at h <;> obtain ⟨rfl, rfl⟩ := Prod.mk.inj h
  case h_4 => exact Or.inr ⟨rfl, rfl⟩
  all_goals exact Or.inl rfl

theorem disconnectStep_pendingReads
    (h : s.disconnectStep agent providerId stage = (next, later)) :
    next.pendingReads = s.pendingReads ∨ stage = .sweep ∧
      next.pendingReads = s.pendingReads.filter fun _ read => read.providerId ≠ providerId := by
  unfold disconnectStep at h
  split at h <;> obtain ⟨rfl, rfl⟩ := Prod.mk.inj h
  case h_3 => exact Or.inr ⟨rfl, rfl⟩
  all_goals exact Or.inl rfl

end Disconnect

end System

end FusePromise
