import FusePromise.Foundation.Transition
import FusePromise.Ipc.Messages
import FusePromise.Runtime.History

/-!
# The daemon's threads

The threads that share `IpcState`: the callers of `route_provider_read` and one
handler per client connection.  An action is what one thread does between two
points where another one can run, which is one lock-protected section, one frame
read or written, or one channel operation; so a run of actions is an interleaving
of the threads at that grain.  Locks are never poisoned here, since no thread
panics while it holds one.

What the environment decides is part of the action: the frames clients send,
which writes fail, the owner tokens, when a read times out.  The materialize
handler is reduced to the frames it reads; its provider reads are calls like any
other and what it records in the runtime is an action of its own.

The state also holds the history that the properties are about: the frames of
each connection, the registrations, the answers handed to callers, the completed
disconnects, and where the sending half of each caller's channel is.
-/

namespace FusePromise

open Machine

/-- A thread of `route_provider_read`. -/
abbrev CallId := ℕ
/-- A connection, and the thread that handles it. -/
abbrev ConnId := ℕ

def ipcProtocolVersion : ℕ := 1

/-! ## Frames -/

/-- A frame from a client. -/
inductive Request
  | hello (protocolVersion apiVersion : ℕ)
  | status
  | inspect
  | providerRegister
  | providerUnregister (providerId ownerToken : ℕ)
  | promiseCommit (providerId ownerToken : ℕ) (nodes : List PromiseNodeBody)
  | materialize
  | materializeContinue
  | materializeCancel
  | providerReadResponse (response : ProviderReadResponse)
  deriving DecidableEq

/-- The request a response frame names. -/
def Request.answeredId : Request → Option ℕ
  | .providerReadResponse response => some response.requestId
  | _ => none

/-! ## Threads -/

/-- What `route_provider_read` returns, and what its channel carries. -/
abbrev Outcome := IoResult ProviderReadResponse

/-- Where a provider is written to, and the token that shows its owner. -/
structure ProviderRoute where
  writer : ConnId
  ownerToken : ℕ
  deriving DecidableEq

/-- An entry of the table of reads that wait for an answer. -/
structure PendingRead where
  providerId : ℕ
  request : ProviderReadRequest
  sender : CallId
  deriving DecidableEq

/-- Where a thread is in `disconnect_provider_id`: the next lock-protected
section, or the reads it has taken out of the table and still has to fail. -/
inductive DisconnectStage
  | removeRoute
  | unregister
  | sweep
  | failing (reads : List PendingRead)
  deriving DecidableEq

/-- Where a caller is in `route_provider_read`. -/
inductive CallPhase
  /-- The thread has not started. -/
  | absent
  /-- It holds an id from `next_provider_read_request_id`. -/
  | ready (requestId : ℕ)
  | routing
  | routed (route : ProviderRoute)
  | writing (route : ProviderRoute)
  | writeFailed (error : IoError)
  | disconnecting (stage : DisconnectStage) (error : IoError)
  | waiting
  | timedOut
  | done (outcome : Outcome)
  deriving DecidableEq

/-- A thread that can hold the sending half of a caller's channel. -/
inductive Agent
  | caller (call : CallId)
  | handler (conn : ConnId)
  deriving DecidableEq

/-- Where the sending half of a caller's channel is. -/
inductive SenderPlace
  | unborn
  | table
  | held (agent : Agent)
  | gone
  deriving DecidableEq

/-- A thread of `route_provider_read` with its end of the channel. -/
structure Call where
  request : ProviderReadRequest
  phase : CallPhase
  inbox : List Outcome
  place : SenderPlace

/-- The requests that `validate_provider_owner` guards. -/
inductive OwnerRequest
  | unregister
  | commit (nodes : List PromiseNodeBody)
  deriving DecidableEq

/-- Where a handler is in `handle_client_with_state`. -/
inductive HandlerPhase
  | absent
  | reading
  | replying
  | registering
  | registered (providerId : ProviderId)
  | validating (providerId : ProviderId) (ownerToken : ℕ) (request : OwnerRequest)
  | unregistering (providerId : ProviderId)
  | checkingMount (providerId : ProviderId) (nodes : List PromiseNodeBody)
  | committing (providerId : ProviderId) (nodes : List PromiseNodeBody)
  | materializing
  | taking (response : ProviderReadResponse)
  | answering (read : PendingRead) (outcome : Outcome)
  /-- In `disconnect_provider_id`, with the providers to disconnect after this
  one when the session is over, and nothing when it goes on. -/
  | disconnecting (providerId : ProviderId) (stage : DisconnectStage)
      (rest : Option (List ProviderId))
  | closing (providerIds : List ProviderId)
  | closed
  deriving DecidableEq

/-- A connection: what its handler knows and does, and what has come in and gone out. -/
structure Conn where
  negotiated : Bool
  registeredProviders : List ProviderId
  phase : HandlerPhase
  received : List Request
  sent : List ProviderReadRequest

/-! ## The shared state and its history -/

/-- A provider registered on a connection, by the frame with this number. -/
structure Registration where
  conn : ConnId
  frame : ℕ
  providerId : ProviderId
  deriving DecidableEq

/-- The outcome handed to a caller for the response frame with this number. -/
structure Delivery where
  conn : ConnId
  frame : ℕ
  call : CallId
  outcome : Outcome
  deriving DecidableEq

/-- The state the threads share, the threads, and a record of what they have done. -/
structure System where
  runtime : Runtime
  readyForCommits : Bool
  providerRoutes : BTreeMap ℕ ProviderRoute
  pendingReads : BTreeMap ℕ PendingRead
  nextReadRequestId : ℕ
  calls : CallId → Call
  conns : ConnId → Conn
  registrations : List Registration
  deliveries : List Delivery
  disconnected : List ProviderId

/-- A thread that is not there yet. -/
def Call.unstarted : Call where
  request := ⟨0, 0, [], [], [], 0, 0⟩
  phase := .absent
  inbox := []
  place := .unborn

/-- A connection that is not there yet. -/
def Conn.unopened : Conn where
  negotiated := false
  registeredProviders := []
  phase := .absent
  received := []
  sent := []

/-- One step of one thread.  What it depends on from outside is part of the action. -/
inductive Action
  | allocate (call : CallId)
  | begin (call : CallId) (request : ProviderReadRequest)
  | lookupRoute (call : CallId)
  | insertPending (call : CallId)
  | writeRequest (call : CallId) (failure : Option IoError)
  | removePending (call : CallId)
  | disconnectCall (call : CallId)
  | receive (call : CallId)
  | timeout (call : CallId)
  | channelClosed (call : CallId)
  | connect (conn : ConnId)
  | frame (conn : ConnId) (request : Request)
  | endOfStream (conn : ConnId)
  | reply (conn : ConnId) (written : Bool)
  | registerProvider (conn : ConnId)
  | registerRoute (conn : ConnId) (ownerToken : Option ℕ)
  | validateOwner (conn : ConnId)
  | unregister (conn : ConnId)
  | checkMount (conn : ConnId)
  | commit (conn : ConnId)
  | endMaterialize (conn : ConnId)
  | takePending (conn : ConnId)
  | answer (conn : ConnId)
  | disconnectConn (conn : ConnId)
  | close (conn : ConnId)
  | setMountStatus (ready : Bool)
  | markNodeMaterialized (promiseId relativePath materializedPath : Text)
  | recordCachedRead (promiseId relativePath : Text) (offset : ℕ) (bytes : List UInt8)

namespace System

/-- `IpcState::new`, with no thread started. -/
def initial (runtime : Runtime) : System where
  runtime
  readyForCommits := false
  providerRoutes := ∅
  pendingReads := ∅
  nextReadRequestId := 1
  calls := fun _ => .unstarted
  conns := fun _ => .unopened
  registrations := []
  deliveries := []
  disconnected := []

/-! ## Updates

The updates unfold under `simp` to `setCall` and `setConn`, which are read one
thread at a time. -/

def setCall (s : System) (c : CallId) (call : Call) : System :=
  { s with calls := Function.update s.calls c call }

@[simp] def setPhase (s : System) (c : CallId) (phase : CallPhase) : System :=
  s.setCall c { s.calls c with phase }

@[simp] def setPlace (s : System) (c : CallId) (place : SenderPlace) : System :=
  s.setCall c { s.calls c with place }

def setConn (s : System) (k : ConnId) (conn : Conn) : System :=
  { s with conns := Function.update s.conns k conn }

@[simp] theorem setCall_calls (s : System) (c c' : CallId) (call : Call) :
    (s.setCall c call).calls c' = if c' = c then call else s.calls c' :=
  Function.update_apply ..

@[simp] theorem setCall_conns (s : System) (c : CallId) (call : Call) :
    (s.setCall c call).conns = s.conns := rfl

@[simp] theorem setConn_calls (s : System) (k : ConnId) (conn : Conn) :
    (s.setConn k conn).calls = s.calls := rfl

@[simp] theorem setConn_conns (s : System) (k k' : ConnId) (conn : Conn) :
    (s.setConn k conn).conns k' = if k' = k then conn else s.conns k' :=
  Function.update_apply ..

@[simp] theorem setCall_runtime (s : System) (c : CallId) (call : Call) :
    (s.setCall c call).runtime = s.runtime := rfl

@[simp] theorem setCall_providerRoutes (s : System) (c : CallId) (call : Call) :
    (s.setCall c call).providerRoutes = s.providerRoutes := rfl

@[simp] theorem setCall_pendingReads (s : System) (c : CallId) (call : Call) :
    (s.setCall c call).pendingReads = s.pendingReads := rfl

@[simp] theorem setCall_nextReadRequestId (s : System) (c : CallId) (call : Call) :
    (s.setCall c call).nextReadRequestId = s.nextReadRequestId := rfl

@[simp] theorem setCall_registrations (s : System) (c : CallId) (call : Call) :
    (s.setCall c call).registrations = s.registrations := rfl

@[simp] theorem setCall_deliveries (s : System) (c : CallId) (call : Call) :
    (s.setCall c call).deliveries = s.deliveries := rfl

@[simp] theorem setCall_disconnected (s : System) (c : CallId) (call : Call) :
    (s.setCall c call).disconnected = s.disconnected := rfl

@[simp] theorem setConn_runtime (s : System) (k : ConnId) (conn : Conn) :
    (s.setConn k conn).runtime = s.runtime := rfl

@[simp] theorem setConn_readyForCommits (s : System) (k : ConnId) (conn : Conn) :
    (s.setConn k conn).readyForCommits = s.readyForCommits := rfl

@[simp] theorem setConn_providerRoutes (s : System) (k : ConnId) (conn : Conn) :
    (s.setConn k conn).providerRoutes = s.providerRoutes := rfl

@[simp] theorem setConn_pendingReads (s : System) (k : ConnId) (conn : Conn) :
    (s.setConn k conn).pendingReads = s.pendingReads := rfl

@[simp] theorem setConn_nextReadRequestId (s : System) (k : ConnId) (conn : Conn) :
    (s.setConn k conn).nextReadRequestId = s.nextReadRequestId := rfl

@[simp] theorem setConn_registrations (s : System) (k : ConnId) (conn : Conn) :
    (s.setConn k conn).registrations = s.registrations := rfl

@[simp] theorem setConn_deliveries (s : System) (k : ConnId) (conn : Conn) :
    (s.setConn k conn).deliveries = s.deliveries := rfl

@[simp] theorem setConn_disconnected (s : System) (k : ConnId) (conn : Conn) :
    (s.setConn k conn).disconnected = s.disconnected := rfl

@[simp] def setHandler (s : System) (k : ConnId) (phase : HandlerPhase) : System :=
  s.setConn k { s.conns k with phase }

/-- `Sender::send`: the sending half is used up. -/
@[simp] def send (s : System) (c : CallId) (outcome : Outcome) : System :=
  s.setCall c { s.calls c with inbox := (s.calls c).inbox ++ [outcome], place := .gone }

/-- The entry for an id leaves the table and is dropped, its channel with it. -/
def dropPending (s : System) (requestId : ℕ) : System :=
  { s with
    calls := fun c =>
      if s.pendingReads[requestId]?.map PendingRead.sender = some c then
        { s.calls c with place := .gone }
      else s.calls c
    pendingReads := s.pendingReads.erase requestId }

/-- The end of a session: every provider still registered on it is disconnected. -/
@[simp] def endSession (s : System) (k : ConnId) : System :=
  s.setHandler k (.closing (s.conns k).registeredProviders)

/-- The reads of a provider, in table order. -/
def readsOf (s : System) (providerId : ℕ) : List PendingRead :=
  s.pendingReads.valueList.filter fun read => read.providerId = providerId

/-- The channels of the reads are now in the hands of an agent. -/
def takeReads (s : System) (agent : Agent) (reads : List PendingRead) : System :=
  { s with
    calls := fun c =>
      if c ∈ reads.map PendingRead.sender then { s.calls c with place := .held agent }
      else s.calls c }

/-- The next section of `disconnect_provider_id`, and the stage after it. -/
def disconnectStep (s : System) (agent : Agent) (providerId : ℕ) :
    DisconnectStage → System × Option DisconnectStage
  | .removeRoute =>
      ({ s with providerRoutes := s.providerRoutes.erase providerId },
        if (ProviderId.fromRaw providerId).isSome then some .unregister else none)
  | .unregister =>
      ({ s with runtime := s.runtime.apply (.unregisterProvider providerId) }, some .sweep)
  | .sweep =>
      let reads := s.readsOf providerId
      ({ s.takeReads agent reads with
          pendingReads := s.pendingReads.filter fun _ read => read.providerId ≠ providerId },
        some (.failing reads))
  | .failing [] => ({ s with disconnected := providerId :: s.disconnected }, none)
  | .failing (read :: rest) =>
      (s.send read.sender (.error ⟨.brokenPipe, "provider disconnected"⟩), some (.failing rest))

end System

/-- A failed write ends the call once its provider is disconnected. -/
def CallPhase.afterDisconnect (error : IoError) : Option DisconnectStage → CallPhase
  | some stage => .disconnecting stage error
  | none => .done (.error error)

/-- A disconnected provider was unregistered by a request, or is one of a session
that is over. -/
def HandlerPhase.afterDisconnect (providerId : ProviderId) (rest : Option (List ProviderId)) :
    Option DisconnectStage → HandlerPhase
  | some stage => .disconnecting providerId stage rest
  | none =>
      match rest with
      | some providerIds => .closing providerIds
      | none => .replying

/-! ## Handling a frame -/

/-- Where the handler goes with a frame it has read. -/
def Conn.dispatch (conn : Conn) : Request → HandlerPhase
  | .hello _ _ | .status | .inspect | .materializeContinue | .materializeCancel => .replying
  | .providerRegister => if conn.negotiated then .registering else .replying
  | .providerUnregister providerId ownerToken =>
      if conn.negotiated ∧ (ProviderId.fromRaw providerId).isSome then
        .validating providerId ownerToken .unregister
      else .replying
  | .promiseCommit providerId ownerToken nodes =>
      if conn.negotiated ∧ (ProviderId.fromRaw providerId).isSome then
        .validating providerId ownerToken (.commit nodes)
      else .replying
  | .materialize => if conn.negotiated then .materializing else .replying
  | .providerReadResponse response =>
      if conn.negotiated then
        match response.validate with
        | .ok () => .taking response
        | .error _ => .closing conn.registeredProviders
      else .replying

/-- The versions are agreed on by a matching hello. -/
def Conn.negotiate (conn : Conn) : Request → Bool
  | .hello protocolVersion version =>
      conn.negotiated || (protocolVersion = ipcProtocolVersion ∧ version = apiVersion)
  | _ => conn.negotiated

/-- What a pending read is answered with by a response on this connection. -/
def Conn.outcome (conn : Conn) (read : PendingRead) (response : ProviderReadResponse) : Outcome :=
  if read.providerId ∈ conn.registeredProviders then
    match validateProviderReadResponseForRequest read.request response with
    | .ok () => .ok response
    | .error error => .error error
  else
    .error ⟨.permissionDenied, "provider read response came from the wrong provider connection"⟩

/-- Where the handler goes after `validate_provider_owner`. -/
def OwnerRequest.next (providerId : ProviderId) : OwnerRequest → HandlerPhase
  | .unregister => .unregistering providerId
  | .commit nodes => .checkingMount providerId nodes

namespace System

/-! ## Steps -/

/-- A thread may start a call with any request, or with the id it was given. -/
def mayBegin (phase : CallPhase) (request : ProviderReadRequest) : Bool :=
  match phase with
  | .absent => true
  | .ready requestId => request.requestId = requestId
  | _ => false

/-- `route_provider_read`, up to the lookup of the route. -/
def begin (s : System) (c : CallId) (request : ProviderReadRequest) : System :=
  match request.intoBody with
  | .error error => s.setCall c { s.calls c with request, phase := .done (.error error) }
  | .ok _ => s.setCall c { s.calls c with request, phase := .routing }

@[simp] theorem begin_conns (s : System) (c : CallId) (request : ProviderReadRequest) :
    (s.begin c request).conns = s.conns := by
  unfold begin
  split <;> rfl

/-- The entry of a call. -/
def entry (s : System) (c : CallId) : PendingRead :=
  ⟨(s.calls c).request.providerId, (s.calls c).request, c⟩

/-- The channel of a call is made and its entry goes into the table. -/
def enter (s : System) (c : CallId) (phase : CallPhase) : System :=
  { s.setCall c { s.calls c with phase, place := .table } with
    pendingReads := s.pendingReads.insert (s.calls c).request.requestId (s.entry c) }

/-- The insertion into the table.  An entry it finds under the same id is
replaced, and the caller returns although its own entry stays. -/
def insertPending (s : System) (c : CallId) (route : ProviderRoute) : System :=
  let requestId := (s.calls c).request.requestId
  (s.dropPending requestId).enter c
    (if requestId ∈ s.pendingReads then
      .done (.error (invalidData "duplicate provider read request id"))
    else .writing route)

/-- The frame of a call's request, with the body made when the call began. -/
def frames (s : System) (c : CallId) : List ProviderReadRequest :=
  match (s.calls c).request.intoBody with
  | .ok body => [body]
  | .error _ => []

/-- The request frame reaches the connection. -/
@[simp] def deliverRequest (s : System) (c : CallId) (k : ConnId) : System :=
  (s.setConn k { s.conns k with sent := (s.conns k).sent ++ s.frames c }).setPhase c .waiting

/-- The sections of `route_provider_read`.  A thread that waits for a lock, or writes to a peer
that does not read, is at a step it has not taken yet: `write_all` has no time limit, and replies
are written with the runtime locked.  That a step can be taken does not say that it ever is. -/
def callStep (s : System) : Action → Option System
  | .allocate c =>
      match (s.calls c).phase with
      | .absent =>
          some { s.setPhase c (.ready s.nextReadRequestId) with
            nextReadRequestId := wrappingAdd s.nextReadRequestId 1 }
      | _ => none
  | .begin c request =>
      if mayBegin (s.calls c).phase request then some (s.begin c request) else none
  | .lookupRoute c =>
      match (s.calls c).phase with
      | .routing =>
          match s.providerRoutes[(s.calls c).request.providerId]? with
          | none => some (s.setPhase c (.done (.error ⟨.notFound, "provider not connected"⟩)))
          | some route => some (s.setPhase c (.routed route))
      | _ => none
  | .insertPending c =>
      match (s.calls c).phase with
      | .routed route => some (s.insertPending c route)
      | _ => none
  | .writeRequest c failure =>
      match (s.calls c).phase, failure with
      | .writing route, none => some (s.deliverRequest c route.writer)
      | .writing _, some error => some (s.setPhase c (.writeFailed error))
      | _, _ => none
  | .removePending c =>
      match (s.calls c).phase with
      | .writeFailed error =>
          some ((s.dropPending (s.calls c).request.requestId).setPhase c
            (.disconnecting .removeRoute error))
      | .timedOut =>
          some ((s.dropPending (s.calls c).request.requestId).setPhase c
            (.done (.error ⟨.timedOut, "provider read response timed out"⟩)))
      | _ => none
  | .disconnectCall c =>
      match (s.calls c).phase with
      | .disconnecting stage error =>
          let (next, later) := s.disconnectStep (.caller c) (s.calls c).request.providerId stage
          some (next.setPhase c (.afterDisconnect error later))
      | _ => none
  | .receive c =>
      match (s.calls c).phase, (s.calls c).inbox with
      | .waiting, outcome :: _ => some (s.setPhase c (.done outcome))
      | _, _ => none
  | .timeout c =>
      match (s.calls c).phase, (s.calls c).inbox with
      | .waiting, [] => some (s.setPhase c .timedOut)
      | _, _ => none
  | .channelClosed c =>
      match (s.calls c).phase, (s.calls c).inbox, (s.calls c).place with
      | .waiting, [], .gone =>
          some (s.setPhase c
            (.done (.error ⟨.brokenPipe, "provider read response channel closed"⟩)))
      | _, _, _ => none
  | _ => none

/-- The handler has read a frame. -/
@[simp] def receiveFrame (s : System) (k : ConnId) (request : Request) (phase : HandlerPhase) :
    System :=
  let conn := s.conns k
  s.setConn k { conn with
    negotiated := conn.negotiate request
    phase
    received := conn.received ++ [request] }

/-- `register_provider_route`, and the provider joins the session. -/
@[simp] def registerRoute (s : System) (k : ConnId) (providerId : ProviderId) (ownerToken : ℕ) :
    System :=
  let conn := s.conns k
  let next := s.setConn k { conn with
    registeredProviders := conn.registeredProviders ++ [providerId]
    phase := .replying }
  { next with
    providerRoutes := s.providerRoutes.insert providerId ⟨k, ownerToken⟩
    registrations := ⟨k, conn.received.length, providerId⟩ :: s.registrations }

/-- `complete_provider_read`, up to the answer. -/
def takePending (s : System) (k : ConnId) (response : ProviderReadResponse) : System :=
  match s.pendingReads[response.requestId]? with
  | none => s.endSession k
  | some read =>
      { (s.setPlace read.sender (.held (.handler k))).setHandler k
          (.answering read ((s.conns k).outcome read response)) with
        pendingReads := s.pendingReads.erase response.requestId }

/-- The caller of a read gets its outcome. -/
@[simp] def answer (s : System) (k : ConnId) (read : PendingRead) (outcome : Outcome) : System :=
  { (s.send read.sender outcome).setHandler k .reading with
    deliveries := ⟨k, (s.conns k).received.length, read.sender, outcome⟩ :: s.deliveries }

/-- The session of a provider that was unregistered forgets it. -/
@[simp] def forgetProvider (s : System) (k : ConnId) (providerId : ProviderId) : System :=
  let conn := s.conns k
  s.setConn k { conn with
    registeredProviders := conn.registeredProviders.filter fun id => id ≠ providerId
    phase := .disconnecting providerId .removeRoute none }

/-- The sections of a handler. -/
def connStep (s : System) : Action → Option System
  | .connect k =>
      match (s.conns k).phase with
      | .absent => some (s.setHandler k .reading)
      | _ => none
  | .frame k request =>
      match (s.conns k).phase with
      | .reading => some (s.receiveFrame k request ((s.conns k).dispatch request))
      | .materializing =>
          -- a frame between two progress reports either lets the run go on or ends it
          some (s.receiveFrame k request
            (if request = .materializeContinue then .materializing else .replying))
      | _ => none
  | .endOfStream k =>
      match (s.conns k).phase with
      | .reading => some (s.endSession k)
      | .materializing => some (s.setHandler k .replying)
      | _ => none
  | .reply k written =>
      match (s.conns k).phase with
      | .replying => some (if written then s.setHandler k .reading else s.endSession k)
      | _ => none
  | .registerProvider k =>
      match (s.conns k).phase with
      | .registering =>
          some { s.setHandler k (.registered s.runtime.nextProviderId) with
            runtime := s.runtime.apply .registerProvider }
      | _ => none
  | .registerRoute k ownerToken =>
      match (s.conns k).phase, ownerToken with
      | .registered providerId, some token => some (s.registerRoute k providerId token)
      | .registered _, none => some (s.endSession k)
      | _, _ => none
  | .validateOwner k =>
      match (s.conns k).phase with
      | .validating providerId ownerToken request =>
          some (s.setHandler k
            (if s.providerRoutes[providerId]?.map ProviderRoute.ownerToken = some ownerToken then
              request.next providerId
            else .replying))
      | _ => none
  | .unregister k =>
      match (s.conns k).phase with
      | .unregistering providerId =>
          match s.runtime.unregisterProvider providerId with
          | .ok runtime => some { s.forgetProvider k providerId with runtime }
          | .error _ => some (s.setHandler k .replying)
      | _ => none
  | .checkMount k =>
      match (s.conns k).phase with
      | .checkingMount providerId nodes =>
          some (s.setHandler k
            (if s.readyForCommits then .committing providerId nodes else .replying))
      | _ => none
  | .commit k =>
      match (s.conns k).phase with
      | .committing providerId nodes =>
          some { s.setHandler k .replying with
            runtime := s.runtime.apply (.commitPromise providerId nodes) }
      | _ => none
  | .endMaterialize k =>
      match (s.conns k).phase with
      | .materializing => some (s.setHandler k .replying)
      | _ => none
  | .takePending k =>
      match (s.conns k).phase with
      | .taking response => some (s.takePending k response)
      | _ => none
  | .answer k =>
      match (s.conns k).phase with
      | .answering read outcome => some (s.answer k read outcome)
      | _ => none
  | .disconnectConn k =>
      match (s.conns k).phase with
      | .disconnecting providerId stage rest =>
          let (next, later) := s.disconnectStep (.handler k) providerId stage
          some (next.setHandler k (.afterDisconnect providerId rest later))
      | _ => none
  | .close k =>
      match (s.conns k).phase with
      | .closing [] => some (s.setHandler k .closed)
      | .closing (providerId :: rest) =>
          some (s.setHandler k (.disconnecting providerId .removeRoute (some rest)))
      | _ => none
  | _ => none

/-- What the rest of the daemon does to the shared state. -/
def otherStep (s : System) : Action → Option System
  | .setMountStatus ready => some { s with readyForCommits := ready }
  | .markNodeMaterialized promiseId relativePath materializedPath =>
      some { s with
        runtime := s.runtime.apply
          (.markNodeMaterialized promiseId relativePath materializedPath) }
  | .recordCachedRead promiseId relativePath offset bytes =>
      some { s with
        runtime := s.runtime.apply (.recordCachedRead promiseId relativePath offset bytes) }
  | _ => none

/-- At most one of the three takes the action. -/
def step (s : System) (action : Action) : Option System :=
  ((s.callStep action).or (s.connStep action)).or (s.otherStep action)

end System

end FusePromise
