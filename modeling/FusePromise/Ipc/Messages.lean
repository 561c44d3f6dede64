import FusePromise.Runtime.Path

/-!
# Provider read messages

The request and the response of a provider read, with the checks they pass
through on their way, and the conversions between I/O errors, statuses and the
codes of error replies.  The wire bodies have the fields of the messages, so
`ProviderReadRequest.intoBody` returns a request again, with its path in normal
form.
-/

namespace FusePromise

open Machine

/-! ## I/O errors -/

/-- The kinds of `std::io::Error` the daemon makes or tells apart. -/
inductive ErrorKind
  | invalidInput
  | invalidData
  | notFound
  | alreadyExists
  | permissionDenied
  | timedOut
  | interrupted
  | connectionRefused
  | connectionReset
  | brokenPipe
  | other
  deriving DecidableEq

/-- An `io::Error`, of which the kind and the text are read. -/
structure IoError where
  kind : ErrorKind
  message : String
  deriving DecidableEq

abbrev IoResult (α : Type) := Except IoError α

def invalidData (message : String) : IoError :=
  ⟨.invalidData, message⟩

/-- `io_error_to_status`. -/
def ioErrorToStatus (error : IoError) : Status :=
  match error.kind with
  | .invalidInput | .invalidData => .invalidArgument
  | .notFound => .notFound
  | .alreadyExists => .alreadyExists
  | .permissionDenied => .permission
  | .timedOut => .timeout
  | .interrupted => .cancelled
  | .connectionRefused | .connectionReset | .brokenPipe => .providerGone
  | .other => .io

def statusToIo (status : Status) : IoError :=
  ⟨.other, status.asStr⟩

/-- The code of an error reply. -/
inductive ErrorCode
  | invalidRequest
  | versionMismatch
  | unavailable
  | notFound
  | alreadyExists
  | providerGone
  | permission
  | cancelled
  | internal
  deriving DecidableEq

/-- The code a status has on the wire. -/
def statusToErrorCode : Status → ErrorCode
  | .invalidArgument => .invalidRequest
  | .unavailable => .unavailable
  | .permission => .permission
  | .notFound => .notFound
  | .alreadyExists => .alreadyExists
  | .providerGone => .providerGone
  | .cancelled => .cancelled
  | .versionMismatch => .versionMismatch
  | .ok | .io | .timeout => .internal

/-- What a client makes of a code. -/
def errorCodeToIoKind : ErrorCode → ErrorKind
  | .invalidRequest | .versionMismatch => .invalidData
  | .unavailable | .notFound => .notFound
  | .providerGone => .brokenPipe
  | .alreadyExists => .alreadyExists
  | .permission => .permissionDenied
  | .cancelled => .interrupted
  | .internal => .other

/-! ## Messages -/

/-- The most bytes one read may ask for. -/
def maxProviderReadLen : ℕ := 256 * 1024

/-- How a provider answers a read. -/
inductive ProviderReadStatus
  | ok
  | invalidArgument
  | permission
  | notFound
  | providerGone
  | io
  | timeout
  | cancelled
  deriving DecidableEq

def providerReadStatusToStatus : ProviderReadStatus → Status
  | .ok => .ok
  | .invalidArgument => .invalidArgument
  | .permission => .permission
  | .notFound => .notFound
  | .providerGone => .providerGone
  | .io => .io
  | .timeout => .timeout
  | .cancelled => .cancelled

/-- What a provider is asked for. -/
structure ProviderReadRequest where
  requestId : ℕ
  providerId : ℕ
  promiseId : Text
  relativePath : Text
  providerNodeId : Text
  offset : ℕ
  length : ℕ
  deriving DecidableEq

/-- What a provider answers. -/
structure ProviderReadResponse where
  requestId : ℕ
  status : ProviderReadStatus
  bytes : List UInt8
  deriving DecidableEq

/-! ## Checks -/

def validateNonzero (name : String) (value : ℕ) : IoResult Unit :=
  if value = 0 then .error (invalidData (name ++ " must be nonzero")) else .ok ()

def validateProviderId (providerId : ℕ) : IoResult Unit :=
  if (ProviderId.fromRaw providerId).isSome then .ok ()
  else .error (invalidData "provider id must be nonzero")

def validateToken (name : String) (value : Text) : IoResult Unit :=
  if value = [] then .error (invalidData (name ++ " must not be empty"))
  else if Char.ofNat 0 ∈ value then .error (invalidData (name ++ " must not contain NUL"))
  else .ok ()

def validateRelativePath (path : Text) : IoResult Text :=
  match normalizeRelativePath path with
  | .ok normalized => .ok normalized
  | .error status => .error (invalidData status.asStr)

/-- A read is not empty, not too long, and its end fits into 64 bits. -/
def validateReadRange (offset length : ℕ) : IoResult Unit :=
  if length = 0 then .error (invalidData "provider read length must be nonzero")
  else if maxProviderReadLen < length then
    .error (invalidData "provider read length exceeds maximum")
  else
    match checkedAdd offset length with
    | none => .error (invalidData "provider read range overflows")
    | some _ => .ok ()

/-- Every field is checked before the request is sent.  The path goes out in normal form. -/
def ProviderReadRequest.intoBody (request : ProviderReadRequest) :
    IoResult ProviderReadRequest := do
  let normalizedPath ← validateRelativePath request.relativePath
  validateNonzero "provider read request id" request.requestId
  validateProviderId request.providerId
  validateToken "promise id" request.promiseId
  validateToken "provider node id" request.providerNodeId
  validateReadRange request.offset request.length
  return { request with relativePath := normalizedPath }

/-- The id is not zero, the bytes are not too many, and an error comes without bytes. -/
def ProviderReadResponse.validate (response : ProviderReadResponse) : IoResult Unit := do
  validateNonzero "provider read response id" response.requestId
  if maxProviderReadLen < response.bytes.length then
    .error (invalidData "provider read response exceeds maximum read length")
  else if response.status ≠ .ok ∧ response.bytes ≠ [] then
    .error (invalidData "provider read error response must not include bytes")
  else .ok ()

/-- The response has the id of the request and no more bytes than it asks for. -/
def validateProviderReadResponseForRequest (request : ProviderReadRequest)
    (response : ProviderReadResponse) : IoResult Unit :=
  if response.requestId ≠ request.requestId then
    .error (invalidData "provider read response id mismatch")
  else if response.status = .ok ∧ request.length < response.bytes.length then
    .error (invalidData "provider read response exceeds requested length")
  else response.validate

/-! ## What the checks let through -/

theorem validateNonzero_eq_ok {name : String} {value : ℕ} {u : Unit} :
    validateNonzero name value = .ok u ↔ value ≠ 0 := by
  unfold validateNonzero
  split <;> simp_all

theorem validateProviderId_eq_ok {providerId : ℕ} {u : Unit} :
    validateProviderId providerId = .ok u ↔ providerId ≠ 0 := by
  unfold validateProviderId ProviderId.fromRaw
  split <;> simp_all

theorem validateToken_eq_ok {name : String} {value : Text} {u : Unit} :
    validateToken name value = .ok u ↔ value ≠ [] ∧ Char.ofNat 0 ∉ value := by
  unfold validateToken
  split
  · simp_all
  · split <;> simp_all

theorem validateReadRange_eq_ok {offset length : ℕ} {u : Unit} :
    validateReadRange offset length = .ok u ↔
      0 < length ∧ length ≤ maxProviderReadLen ∧ offset + length ≤ u64Max := by
  unfold validateReadRange
  split
  · simp_all
  · split
    · simp
      omega
    · cases hadd : checkedAdd offset length with
      | none =>
          rw [checkedAdd_eq_none] at hadd
          simp
          omega
      | some stop =>
          rw [checkedAdd_eq_some] at hadd
          simp
          omega

theorem validateRelativePath_eq_ok {path normalized : Text} :
    validateRelativePath path = .ok normalized ↔ normalizeRelativePath path = .ok normalized := by
  unfold validateRelativePath
  split <;> simp_all

/-- A request that passes its checks, and its body. -/
theorem ProviderReadRequest.intoBody_eq_ok {request body : ProviderReadRequest} :
    request.intoBody = .ok body ↔
      (∃ path, normalizeRelativePath request.relativePath = .ok path ∧
        body = { request with relativePath := path }) ∧
      request.requestId ≠ 0 ∧ request.providerId ≠ 0 ∧
      validateToken "promise id" request.promiseId = .ok () ∧
      validateToken "provider node id" request.providerNodeId = .ok () ∧
      0 < request.length ∧ request.length ≤ maxProviderReadLen ∧
      request.offset + request.length ≤ u64Max := by
  unfold intoBody
  simp only [bind_eq_ok, validateRelativePath_eq_ok, validateNonzero_eq_ok,
    validateProviderId_eq_ok, validateReadRange_eq_ok]
  constructor
  · rintro ⟨path, hpath, _, hid, _, hprovider, _, hpromise, _, hnode, _, hrange, hbody⟩
    exact ⟨⟨path, hpath, (Except.ok.inj hbody).symm⟩, hid, hprovider, hpromise, hnode, hrange⟩
  · rintro ⟨⟨path, hpath, rfl⟩, hid, hprovider, hpromise, hnode, hrange⟩
    exact ⟨path, hpath, (), hid, (), hprovider, (), hpromise, (), hnode, (), hrange, rfl⟩

theorem ProviderReadResponse.validate_eq_ok {response : ProviderReadResponse} :
    response.validate = .ok () ↔
      response.requestId ≠ 0 ∧ response.bytes.length ≤ maxProviderReadLen ∧
        (response.status = .ok ∨ response.bytes = []) := by
  unfold validate
  simp only [bind_eq_ok, validateNonzero_eq_ok]
  constructor
  · rintro ⟨_, hid, h⟩
    split at h
    · simp at h
    · split at h
      · simp at h
      · rename_i hlen hstatus
        refine ⟨hid, by omega, ?_⟩
        by_contra hboth
        push Not at hboth
        exact hstatus hboth
  · rintro ⟨hid, hlen, hstatus⟩
    refine ⟨(), hid, ?_⟩
    rw [if_neg (by omega), if_neg]
    rintro ⟨hnot, hne⟩
    rcases hstatus with h | h
    · exact hnot h
    · exact hne h

theorem validateProviderReadResponseForRequest_eq_ok {request : ProviderReadRequest}
    {response : ProviderReadResponse} :
    validateProviderReadResponseForRequest request response = .ok () ↔
      response.requestId = request.requestId ∧ response.requestId ≠ 0 ∧
        response.bytes.length ≤ maxProviderReadLen ∧
        (response.status = .ok ∧ response.bytes.length ≤ request.length ∨
          response.status ≠ .ok ∧ response.bytes = []) := by
  unfold validateProviderReadResponseForRequest
  by_cases hid : response.requestId = request.requestId
  · rw [if_neg (not_not.mpr hid)]
    by_cases hok : response.status = .ok
    · by_cases hlen : request.length < response.bytes.length
      · simp [hok, hlen]
      · rw [if_neg (by simp [hlen]), ProviderReadResponse.validate_eq_ok]
        simp [hid, hok]
        omega
    · rw [if_neg (by simp [hok]), ProviderReadResponse.validate_eq_ok]
      simp [hid, hok]
  · simp [hid]

end FusePromise
