import FusePromise.Ipc.Messages
import FusePromise.Runtime.History

/-!
# Reading through the mount

`PromiseFilesystem::read` with its planning, cache recording, prefetch and reply
slicing.  The mount serves one request at a time, while the other threads of the
daemon keep changing the runtime between the lock-protected sections of a read;
`Interference` is what they do in one such gap.  No other thread records in the
cache, so a gap consists of operations that do not.

`ReadTurn` is everything a read depends on besides the state: what happens in its
gaps, the provider's answer to each of its two requests, and the files of the
target filesystem.
-/

namespace FusePromise

open Machine

/-! ## Error numbers -/

/-- The errors the adapter replies with. -/
inductive Errno
  | eio
  | einval
  | eacces
  | enoent
  | eexist
  | etimedout
  | ecanceled
  | eisdir
  deriving DecidableEq

/-- `status_to_errno`. -/
def statusToErrno : Status → Errno
  | .ok => .eio
  | .invalidArgument | .versionMismatch => .einval
  | .unavailable | .providerGone | .io => .eio
  | .permission => .eacces
  | .notFound => .enoent
  | .alreadyExists => .eexist
  | .timeout => .etimedout
  | .cancelled => .ecanceled

def providerStatusToErrno : ProviderReadStatus → Errno
  | .ok => .eio
  | .invalidArgument => .einval
  | .permission => .eacces
  | .notFound => .enoent
  | .providerGone | .io => .eio
  | .timeout => .etimedout
  | .cancelled => .ecanceled

def ioErrorToErrno (error : IoError) : Errno :=
  match error.kind with
  | .invalidInput | .invalidData => .einval
  | .notFound => .enoent
  | .permissionDenied => .eacces
  | .timedOut => .etimedout
  | .interrupted => .ecanceled
  | _ => .eio

/-! ## The other threads -/

/-- An operation of a thread other than the one that serves the mount. -/
abbrev OtherOp := { op : RuntimeOp // op.isRecord = false }

/-- What the other threads do in a gap: runtime operations, and request ids
taken from the shared counter. -/
structure Interference where
  ops : List OtherOp
  idsTaken : ℕ

/-- What happens while a provider read is routed, and its outcome. -/
structure Routing where
  during : Interference
  answer : ProviderReadRequest → IoResult ProviderReadResponse

/-- What the rest of the daemon does during one read. -/
structure ReadTurn where
  main : Routing
  gap : Interference
  prefetch : Routing
  openFile : Text → IoResult (List UInt8)

/-- The part of the daemon's state that reads use. -/
structure FuseState where
  runtime : Runtime
  nextReadRequestId : ℕ

namespace FuseState

def interfere (state : FuseState) (other : Interference) : FuseState where
  runtime := state.runtime.run (other.ops.map Subtype.val)
  nextReadRequestId := wrappingAdd state.nextReadRequestId other.idsTaken

/-- The request of a plan, under the next request id. -/
def newRequest (state : FuseState) (plan : ProviderReadPlan) : ProviderReadRequest × FuseState :=
  ({ requestId := state.nextReadRequestId
     providerId := plan.providerId
     promiseId := plan.promiseId
     relativePath := plan.relativePath
     providerNodeId := plan.providerNodeId
     offset := plan.offset
     length := plan.length },
    { state with nextReadRequestId := wrappingAdd state.nextReadRequestId 1 })

/-- `route_provider_read` as its caller sees it: a request that fails its own
checks is not sent, and an answer that fails the response check is an error. -/
def routeProviderRead (state : FuseState) (routing : Routing) (request : ProviderReadRequest) :
    IoResult ProviderReadResponse × FuseState :=
  match request.intoBody with
  | .error error => (.error error, state)
  | .ok _ =>
      let checked := do
        let response ← routing.answer request
        validateProviderReadResponseForRequest request response
        return response
      (checked, state.interfere routing.during)

/-! ## The read -/

/-- A plan with the request it makes, if it makes one. -/
inductive FuseReadPlan
  | provider (request : ProviderReadRequest) (responseOffset responseLength : ℕ)
  | materialized (path : Text) (offset length : ℕ)
  | cached (bytes : List UInt8)
  deriving DecidableEq

/-- The plan under the lock of the runtime.  A provider read takes the next request id. -/
def planRead (state : FuseState) (inode offset size : ℕ) :
    Except Errno (Option FuseReadPlan) × FuseState :=
  match state.runtime.lookupInode inode with
  | .error status => (.error (statusToErrno status), state)
  | .ok .mountRoot => (.error .eisdir, state)
  | .ok (.promiseNode promiseId node) =>
      match state.runtime.planRead promiseId node.relativePath offset size with
      | .error status => (.error (statusToErrno status), state)
      | .ok .eof => (.ok none, state)
      | .ok (.request plan) =>
          match state.runtime.planCoalescedProviderRead plan with
          | .error status => (.error (statusToErrno status), state)
          | .ok coalesced =>
              let (request, next) := state.newRequest coalesced.provider
              (.ok (some (.provider request coalesced.responseOffset coalesced.responseLength)),
                next)
      | .ok (.materialized plan) =>
          (.ok (some (.materialized plan.path plan.offset plan.length)), state)
      | .ok (.cached bytes) => (.ok (some (.cached bytes)), state)

def recordCachedRead (state : FuseState) (request : ProviderReadRequest) (bytes : List UInt8) :
    Except Errno FuseState :=
  match state.runtime.recordCachedRead request.promiseId request.relativePath request.offset
      bytes with
  | .error status => .error (statusToErrno status)
  | .ok runtime => .ok { state with runtime }

/-- The prefetch sends its own request and drops every error. -/
def prefetchAfterProviderRead (state : FuseState) (routing : Routing)
    (request : ProviderReadRequest) (bytesRead : ℕ) : FuseState :=
  if bytesRead ≠ request.length then state
  else
    match state.runtime.planSequentialPrefetch request.promiseId request.relativePath
        request.offset bytesRead with
    | .ok (some plan) =>
        let (prefetchRequest, next) := state.newRequest plan
        match next.routeProviderRead routing prefetchRequest with
        | (.error _, after) => after
        | (.ok response, after) =>
            if response.status = .ok then
              match after.recordCachedRead prefetchRequest response.bytes with
              | .ok recorded => recorded
              | .error _ => after
            else after
    | _ => state

/-- The part of the answer that was asked for; a short answer is an error. -/
def providerReplyBytes (bytes : List UInt8) (responseOffset responseLength : ℕ) :
    Except Errno (List UInt8) :=
  if responseOffset = 0 ∧ bytes.length ≤ responseLength then .ok bytes
  else
    match checkedAdd responseOffset responseLength with
    | none => .error .eio
    | some stop =>
        if bytes.length < stop then .error .eio
        else .ok ((bytes.take stop).drop responseOffset)

/-- A copy that is too short is an error. -/
def readMaterializedFile (openFile : Text → IoResult (List UInt8)) (path : Text)
    (offset length : ℕ) : Except Errno (List UInt8) :=
  match openFile path with
  | .error error => .error (ioErrorToErrno error)
  | .ok content =>
      let bytes := (content.drop offset).take length
      if bytes.length ≠ length then .error .eio else .ok bytes

/-- The part of a read that asks the provider. -/
def providerRead (state : FuseState) (turn : ReadTurn) (request : ProviderReadRequest)
    (responseOffset responseLength : ℕ) : Except Errno (List UInt8) × FuseState :=
  match state.routeProviderRead turn.main request with
  | (.error error, after) => (.error (ioErrorToErrno error), after)
  | (.ok response, after) =>
      if response.status = .ok then
        match after.recordCachedRead request response.bytes with
        | .error errno => (.error errno, after)
        | .ok recorded =>
            (providerReplyBytes response.bytes responseOffset responseLength,
              (recorded.interfere turn.gap).prefetchAfterProviderRead turn.prefetch request
                response.bytes.length)
      else (.error (providerStatusToErrno response.status), after)

/-- A read of the kernel, cut at the most a provider may be asked for. -/
def read (state : FuseState) (turn : ReadTurn) (inode offset size : ℕ) :
    Except Errno (List UInt8) × FuseState :=
  match state.planRead inode offset (min size maxProviderReadLen) with
  | (.error errno, next) => (.error errno, next)
  | (.ok none, next) => (.ok [], next)
  | (.ok (some (.provider request responseOffset responseLength)), next) =>
      next.providerRead turn request responseOffset responseLength
  | (.ok (some (.materialized path offset length)), next) =>
      (readMaterializedFile turn.openFile path offset length, next)
  | (.ok (some (.cached bytes)), next) => (.ok bytes, next)

/-! ## Histories -/

/-- One read of the mount, or one gap between reads. -/
inductive Event
  | read (turn : ReadTurn) (inode offset size : ℕ)
  | other (interference : Interference)

def apply (state : FuseState) : Event → FuseState
  | .read turn inode offset size => (state.read turn inode offset size).2
  | .other interference => state.interfere interference

def run (state : FuseState) (events : List Event) : FuseState :=
  events.foldl apply state

end FuseState

end FusePromise
