import FusePromise.Ipc.System

/-!
# What a step does

`Step s action t` says the same as `step s action = some t`, one constructor for
each thing a thread can do.  The invariants of the daemon are proved by cases on
it.
-/

namespace FusePromise

open Machine

/-- Where a frame can lead its handler. -/
inductive Conn.Dispatched (conn : Conn) : Request → HandlerPhase → Prop
  | replying (request : Request) : Dispatched conn request .replying
  | registering : Dispatched conn .providerRegister .registering
  | unregister (providerId ownerToken : ℕ) :
      Dispatched conn (.providerUnregister providerId ownerToken)
        (.validating providerId ownerToken .unregister)
  | commit (providerId ownerToken : ℕ) (nodes : List PromiseNodeBody) :
      Dispatched conn (.promiseCommit providerId ownerToken nodes)
        (.validating providerId ownerToken (.commit nodes))
  | materializing : Dispatched conn .materialize .materializing
  | taking {response : ProviderReadResponse} (h : response.validate = .ok ()) :
      Dispatched conn (.providerReadResponse response) (.taking response)
  | closing {response : ProviderReadResponse} {error : IoError}
      (h : response.validate = .error error) :
      Dispatched conn (.providerReadResponse response) (.closing conn.registeredProviders)

theorem Conn.dispatched (conn : Conn) (request : Request) :
    conn.Dispatched request (conn.dispatch request) := by
  cases request with
  | providerReadResponse response =>
      simp only [dispatch]
      split
      · split
        · rename_i hvalid
          exact .taking hvalid
        · rename_i hvalid
          exact .closing hvalid
      · exact .replying _
  | providerRegister =>
      simp only [dispatch]
      split
      · exact .registering
      · exact .replying _
  | providerUnregister providerId ownerToken =>
      simp only [dispatch]
      split
      · exact .unregister _ _
      · exact .replying _
  | promiseCommit providerId ownerToken nodes =>
      simp only [dispatch]
      split
      · exact .commit _ _ _
      · exact .replying _
  | materialize =>
      simp only [dispatch]
      split
      · exact .materializing
      · exact .replying _
  | _ => exact .replying _

namespace System

variable {s t : System}

/-- The steps as a relation, one constructor for each way a step can go. -/
inductive Step (s : System) : Action → System → Prop
  | allocate {c : CallId} (h : (s.calls c).phase = .absent) :
      Step s (.allocate c) { s.setPhase c (.ready s.nextReadRequestId) with
        nextReadRequestId := wrappingAdd s.nextReadRequestId 1 }
  | begin {c : CallId} {request : ProviderReadRequest} (h : mayBegin (s.calls c).phase request) :
      Step s (.begin c request) (s.begin c request)
  | noRoute {c : CallId} (h : (s.calls c).phase = .routing)
      (hroute : s.providerRoutes[(s.calls c).request.providerId]? = none) :
      Step s (.lookupRoute c) (s.setPhase c (.done (.error ⟨.notFound, "provider not connected"⟩)))
  | route {c : CallId} {route : ProviderRoute} (h : (s.calls c).phase = .routing)
      (hroute : s.providerRoutes[(s.calls c).request.providerId]? = some route) :
      Step s (.lookupRoute c) (s.setPhase c (.routed route))
  | insertPending {c : CallId} {route : ProviderRoute} (h : (s.calls c).phase = .routed route) :
      Step s (.insertPending c) (s.insertPending c route)
  | written {c : CallId} {route : ProviderRoute} (h : (s.calls c).phase = .writing route) :
      Step s (.writeRequest c none) (s.deliverRequest c route.writer)
  | writeFailed {c : CallId} {route : ProviderRoute} {error : IoError}
      (h : (s.calls c).phase = .writing route) :
      Step s (.writeRequest c (some error)) (s.setPhase c (.writeFailed error))
  | removeFailed {c : CallId} {error : IoError} (h : (s.calls c).phase = .writeFailed error) :
      Step s (.removePending c) ((s.dropPending (s.calls c).request.requestId).setPhase c
        (.disconnecting .removeRoute error))
  | removeTimedOut {c : CallId} (h : (s.calls c).phase = .timedOut) :
      Step s (.removePending c) ((s.dropPending (s.calls c).request.requestId).setPhase c
        (.done (.error ⟨.timedOut, "provider read response timed out"⟩)))
  | disconnectCall {c : CallId} {stage : DisconnectStage} {error : IoError}
      (h : (s.calls c).phase = .disconnecting stage error) :
      Step s (.disconnectCall c)
        ((s.disconnectStep (.caller c) (s.calls c).request.providerId stage).1.setPhase c
          (.afterDisconnect error
            (s.disconnectStep (.caller c) (s.calls c).request.providerId stage).2))
  | receive {c : CallId} {outcome : Outcome} {rest : List Outcome}
      (h : (s.calls c).phase = .waiting)
      (hinbox : (s.calls c).inbox = outcome :: rest) :
      Step s (.receive c) (s.setPhase c (.done outcome))
  | timeout {c : CallId} (h : (s.calls c).phase = .waiting) (hinbox : (s.calls c).inbox = []) :
      Step s (.timeout c) (s.setPhase c .timedOut)
  | channelClosed {c : CallId} (h : (s.calls c).phase = .waiting) (hinbox : (s.calls c).inbox = [])
      (hplace : (s.calls c).place = .gone) :
      Step s (.channelClosed c) (s.setPhase c
        (.done (.error ⟨.brokenPipe, "provider read response channel closed"⟩)))
  | connect {k : ConnId} (h : (s.conns k).phase = .absent) :
      Step s (.connect k) (s.setHandler k .reading)
  | frame {k : ConnId} {request : Request} (h : (s.conns k).phase = .reading) :
      Step s (.frame k request) (s.receiveFrame k request ((s.conns k).dispatch request))
  | progressFrame {k : ConnId} {request : Request} (h : (s.conns k).phase = .materializing) :
      Step s (.frame k request) (s.receiveFrame k request
        (if request = .materializeContinue then .materializing else .replying))
  | endOfStream {k : ConnId} (h : (s.conns k).phase = .reading) :
      Step s (.endOfStream k) (s.endSession k)
  | progressEnd {k : ConnId} (h : (s.conns k).phase = .materializing) :
      Step s (.endOfStream k) (s.setHandler k .replying)
  | replied {k : ConnId} (h : (s.conns k).phase = .replying) :
      Step s (.reply k true) (s.setHandler k .reading)
  | replyFailed {k : ConnId} (h : (s.conns k).phase = .replying) :
      Step s (.reply k false) (s.endSession k)
  | registerProvider {k : ConnId} (h : (s.conns k).phase = .registering) :
      Step s (.registerProvider k) { s.setHandler k (.registered s.runtime.nextProviderId) with
        runtime := s.runtime.apply .registerProvider }
  | registerRoute {k : ConnId} {providerId : ProviderId} {token : ℕ}
      (h : (s.conns k).phase = .registered providerId) :
      Step s (.registerRoute k (some token)) (s.registerRoute k providerId token)
  | noToken {k : ConnId} {providerId : ProviderId}
      (h : (s.conns k).phase = .registered providerId) :
      Step s (.registerRoute k none) (s.endSession k)
  | owned {k : ConnId} {providerId : ProviderId} {token : ℕ} {request : OwnerRequest}
      {route : ProviderRoute}
      (h : (s.conns k).phase = .validating providerId token request)
      (hroute : s.providerRoutes[providerId]? = some route) (htoken : route.ownerToken = token) :
      Step s (.validateOwner k) (s.setHandler k (request.next providerId))
  | notOwned {k : ConnId} {providerId : ProviderId} {token : ℕ} {request : OwnerRequest}
      (h : (s.conns k).phase = .validating providerId token request) :
      Step s (.validateOwner k) (s.setHandler k .replying)
  | unregister {k : ConnId} {providerId : ProviderId} {runtime : Runtime}
      (h : (s.conns k).phase = .unregistering providerId)
      (hruntime : s.runtime.unregisterProvider providerId = .ok runtime) :
      Step s (.unregister k) { s.forgetProvider k providerId with runtime }
  | unregisterFailed {k : ConnId} {providerId : ProviderId}
      (h : (s.conns k).phase = .unregistering providerId) :
      Step s (.unregister k) (s.setHandler k .replying)
  | mounted {k : ConnId} {providerId : ProviderId} {nodes : List PromiseNodeBody}
      (h : (s.conns k).phase = .checkingMount providerId nodes) :
      Step s (.checkMount k) (s.setHandler k (.committing providerId nodes))
  | notMounted {k : ConnId} {providerId : ProviderId} {nodes : List PromiseNodeBody}
      (h : (s.conns k).phase = .checkingMount providerId nodes) :
      Step s (.checkMount k) (s.setHandler k .replying)
  | commit {k : ConnId} {providerId : ProviderId} {nodes : List PromiseNodeBody}
      (h : (s.conns k).phase = .committing providerId nodes) :
      Step s (.commit k) { s.setHandler k .replying with
        runtime := s.runtime.apply (.commitPromise providerId nodes) }
  | endMaterialize {k : ConnId} (h : (s.conns k).phase = .materializing) :
      Step s (.endMaterialize k) (s.setHandler k .replying)
  | takePending {k : ConnId} {response : ProviderReadResponse} {read : PendingRead}
      (h : (s.conns k).phase = .taking response)
      (hread : s.pendingReads[response.requestId]? = some read) :
      Step s (.takePending k)
        { (s.setPlace read.sender (.held (.handler k))).setHandler k
            (.answering read ((s.conns k).outcome read response)) with
          pendingReads := s.pendingReads.erase response.requestId }
  | unmatched {k : ConnId} {response : ProviderReadResponse}
      (h : (s.conns k).phase = .taking response)
      (hread : s.pendingReads[response.requestId]? = none) :
      Step s (.takePending k) (s.endSession k)
  | answer {k : ConnId} {read : PendingRead} {outcome : Outcome}
      (h : (s.conns k).phase = .answering read outcome) :
      Step s (.answer k) (s.answer k read outcome)
  | disconnectConn {k : ConnId} {providerId : ProviderId} {stage : DisconnectStage}
      {rest : Option (List ProviderId)}
      (h : (s.conns k).phase = .disconnecting providerId stage rest) :
      Step s (.disconnectConn k)
        ((s.disconnectStep (.handler k) providerId stage).1.setHandler k
          (.afterDisconnect providerId rest
            (s.disconnectStep (.handler k) providerId stage).2))
  | closed {k : ConnId} (h : (s.conns k).phase = .closing []) :
      Step s (.close k) (s.setHandler k .closed)
  | closeNext {k : ConnId} {providerId : ProviderId} {rest : List ProviderId}
      (h : (s.conns k).phase = .closing (providerId :: rest)) :
      Step s (.close k) (s.setHandler k (.disconnecting providerId .removeRoute (some rest)))
  | setMountStatus (ready : Bool) :
      Step s (.setMountStatus ready) { s with readyForCommits := ready }
  | markNodeMaterialized (promiseId relativePath materializedPath : Text) :
      Step s (.markNodeMaterialized promiseId relativePath materializedPath) { s with
        runtime := s.runtime.apply
          (.markNodeMaterialized promiseId relativePath materializedPath) }
  | recordCachedRead (promiseId relativePath : Text) (offset : ℕ) (bytes : List UInt8) :
      Step s (.recordCachedRead promiseId relativePath offset bytes) { s with
        runtime := s.runtime.apply (.recordCachedRead promiseId relativePath offset bytes) }

theorem Step.of_callStep {action : Action} (h : s.callStep action = some t) :
    Step s action t := by
  -- each branch that does not fail is a constructor of `Step`
  cases action with
  | allocate c =>
      simp only [callStep] at h
      split at h
      · rename_i hphase
        exact Option.some.inj h ▸ .allocate hphase
      · simp at h
  | begin c request =>
      simp only [callStep] at h
      split at h
      · rename_i hphase
        exact Option.some.inj h ▸ .begin hphase
      · simp at h
  | lookupRoute c =>
      simp only [callStep] at h
      split at h
      · rename_i hphase
        split at h
        · rename_i hroute
          exact Option.some.inj h ▸ .noRoute hphase hroute
        · rename_i route hroute
          exact Option.some.inj h ▸ .route hphase hroute
      · simp at h
  | insertPending c =>
      simp only [callStep] at h
      split at h
      · rename_i route hphase
        exact Option.some.inj h ▸ .insertPending hphase
      · simp at h
  | writeRequest c failure =>
      simp only [callStep] at h
      split at h
      · rename_i route hphase
        exact Option.some.inj h ▸ .written hphase
      · rename_i error hphase
        exact Option.some.inj h ▸ .writeFailed hphase
      · simp at h
  | removePending c =>
      simp only [callStep] at h
      split at h
      · rename_i error hphase
        exact Option.some.inj h ▸ .removeFailed hphase
      · rename_i hphase
        exact Option.some.inj h ▸ .removeTimedOut hphase
      · simp at h
  | disconnectCall c =>
      simp only [callStep] at h
      split at h
      · rename_i stage error hphase
        exact Option.some.inj h ▸ .disconnectCall hphase
      · simp at h
  | receive c =>
      simp only [callStep] at h
      split at h
      · rename_i outcome rest hphase hinbox
        exact Option.some.inj h ▸ .receive hphase hinbox
      · simp at h
  | timeout c =>
      simp only [callStep] at h
      split at h
      · rename_i hphase hinbox
        exact Option.some.inj h ▸ .timeout hphase hinbox
      · simp at h
  | channelClosed c =>
      simp only [callStep] at h
      split at h
      · rename_i hphase hinbox hplace
        exact Option.some.inj h ▸ .channelClosed hphase hinbox hplace
      · simp at h
  | _ => simp [callStep] at h

/-- Every branch of the handler's function is a step.  The cases are its actions; each splits on
the phase the handler is in, and a phase that does not take the action gives nothing. -/
theorem Step.of_connStep {action : Action} (h : s.connStep action = some t) :
    Step s action t := by
  cases action with
  | connect k =>
      simp only [connStep] at h
      split at h
      · rename_i hphase
        exact Option.some.inj h ▸ .connect hphase
      · simp at h
  | frame k request =>
      simp only [connStep] at h
      split at h
      -- a frame is a request, or the answer to a progress report
      · rename_i hphase
        exact Option.some.inj h ▸ .frame hphase
      · rename_i hphase
        exact Option.some.inj h ▸ .progressFrame hphase
      · simp at h
  | endOfStream k =>
      simp only [connStep] at h
      split at h
      · rename_i hphase
        exact Option.some.inj h ▸ .endOfStream hphase
      · rename_i hphase
        exact Option.some.inj h ▸ .progressEnd hphase
      · simp at h
  | reply k written =>
      simp only [connStep] at h
      split at h
      · rename_i hphase
        cases written with
        | false => exact Option.some.inj h ▸ .replyFailed hphase
        | true => exact Option.some.inj h ▸ .replied hphase
      · simp at h
  | registerProvider k =>
      simp only [connStep] at h
      split at h
      · rename_i hphase
        exact Option.some.inj h ▸ .registerProvider hphase
      · simp at h
  | registerRoute k token =>
      simp only [connStep] at h
      split at h
      · rename_i hphase
        exact Option.some.inj h ▸ .registerRoute hphase
      · rename_i hphase
        exact Option.some.inj h ▸ .noToken hphase
      · simp at h
  | validateOwner k =>
      simp only [connStep] at h
      split at h
      · rename_i providerId token request hphase
        -- the token has to be that of the route
        split at h
        · rename_i htoken
          obtain ⟨route, hroute, htoken⟩ := Option.map_eq_some_iff.mp htoken
          exact Option.some.inj h ▸ .owned hphase hroute htoken
        · exact Option.some.inj h ▸ .notOwned hphase
      · simp at h
  | unregister k =>
      simp only [connStep] at h
      split at h
      · rename_i hphase
        split at h
        · rename_i hruntime
          exact Option.some.inj h ▸ .unregister hphase hruntime
        · exact Option.some.inj h ▸ .unregisterFailed hphase
      · simp at h
  | checkMount k =>
      simp only [connStep] at h
      split at h
      · rename_i hphase
        split at h
        · exact Option.some.inj h ▸ .mounted hphase
        · exact Option.some.inj h ▸ .notMounted hphase
      · simp at h
  | commit k =>
      simp only [connStep] at h
      split at h
      · rename_i hphase
        exact Option.some.inj h ▸ .commit hphase
      · simp at h
  | endMaterialize k =>
      simp only [connStep] at h
      split at h
      · rename_i hphase
        exact Option.some.inj h ▸ .endMaterialize hphase
      · simp at h
  | takePending k =>
      simp only [connStep] at h
      split at h
      · rename_i response hphase
        -- an answer whose request is not in the table is dropped
        simp only [System.takePending] at h
        split at h
        · rename_i hread
          exact Option.some.inj h ▸ .unmatched hphase hread
        · rename_i hread
          exact Option.some.inj h ▸ .takePending hphase hread
      · simp at h
  | answer k =>
      simp only [connStep] at h
      split at h
      · rename_i hphase
        exact Option.some.inj h ▸ .answer hphase
      · simp at h
  | disconnectConn k =>
      simp only [connStep] at h
      split at h
      · rename_i hphase
        exact Option.some.inj h ▸ .disconnectConn hphase
      · simp at h
  | close k =>
      simp only [connStep] at h
      split at h
      · rename_i hphase
        exact Option.some.inj h ▸ .closed hphase
      · rename_i hphase
        exact Option.some.inj h ▸ .closeNext hphase
      · simp at h
  | _ => simp [connStep] at h

theorem Step.of_step {action : Action} (h : s.step action = some t) : Step s action t := by
  unfold step at h
  rcases Option.or_eq_some_iff.mp h with h | ⟨-, h⟩
  · rcases Option.or_eq_some_iff.mp h with h | ⟨-, h⟩
    · exact .of_callStep h
    · exact .of_connStep h
  · cases action with
    | setMountStatus ready => exact Option.some.inj h ▸ .setMountStatus ready
    | markNodeMaterialized promiseId relativePath materializedPath =>
        exact Option.some.inj h ▸ .markNodeMaterialized ..
    | recordCachedRead promiseId relativePath offset bytes =>
        exact Option.some.inj h ▸ .recordCachedRead ..
    | _ => simp [otherStep] at h

end System

end FusePromise
