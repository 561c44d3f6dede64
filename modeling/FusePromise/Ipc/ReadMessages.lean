import FusePromise.Ipc.Replies

/-!
# Read messages between the daemon and the provider library

The daemon writes a read request, the library reads it, hands it to the C callback
of the provider and writes the response, and the daemon checks the response against
the request.  Every side checks for itself.  What one side lets through the next one
accepts, whatever the callback does.

Of bincode it is also known here how long a response gets: its bytes are sent as they
are, behind a few bytes of tags, id and length.  Ids are 64-bit words.
-/

namespace FusePromise

open Framing Machine Program

/-- bincode for both directions. -/
structure ReadCodec where
  response : Codec Response
  request : Codec Request
  short : ∀ message : ProviderReadResponse, message.requestId ≤ u64Max → ∃ body,
    request.encode (.providerReadResponse message) = .ok body ∧
      body.length ≤ message.bytes.length + 32

/-! ## The four sides -/

/-- `ProviderReadRequest::from_body`, which validates like `into_body`. -/
def ProviderReadRequest.fromBody (body : ProviderReadRequest) : IoResult ProviderReadRequest :=
  body.intoBody

def ProviderReadResponse.intoBody (response : ProviderReadResponse) :
    IoResult ProviderReadResponse := do
  response.validate
  return response

def ProviderReadResponse.fromBody (body : ProviderReadResponse) :
    IoResult ProviderReadResponse := do
  body.validate
  return body

variable (codec : ReadCodec)

/-- A request is checked before it is written. -/
def writeProviderReadRequest (request : ProviderReadRequest) : Writer Unit := do
  let body ← Prog.ofExcept request.intoBody
  writeFrame codec.response (.providerReadRequest body)

/-- What a provider reads in its loop: a request, or an error that ends it. -/
def readProviderReadRequest : Reader (Option ProviderReadRequest) := do
  match ← readFrame codec.response with
  | some (.providerReadRequest body) => do
      let request ← Prog.ofExcept (ProviderReadRequest.fromBody body)
      return some request
  | some (.error code message) => Prog.fail (errorToIo code message)
  | some _ =>
      Prog.fail (invalidData "non-provider-read response received where request was expected")
  | none => return none

/-- A response is checked before it is written. -/
def writeProviderReadResponse (response : ProviderReadResponse) : Writer Unit := do
  let body ← Prog.ofExcept response.intoBody
  writeFrame codec.request (.providerReadResponse body)

/-- A response is checked again when it is read. -/
def readProviderReadResponse : Reader (Option ProviderReadResponse) := do
  match ← readFrame codec.request with
  | some (.providerReadResponse body) => do
      let response ← Prog.ofExcept (ProviderReadResponse.fromBody body)
      return some response
  | some _ =>
      Prog.fail (invalidData "non-provider-read request received where response was expected")
  | none => return none

/-! ## The callback -/

/-- `provider_read_status_from_ffi` on the value of an `fp_status_t`. -/
def providerReadStatusFromFfi (status : ℤ) : ProviderReadStatus :=
  if status = 0 then .ok
  else if status = 1 ∨ status = 10 then .invalidArgument
  else if status = 3 then .permission
  else if status = 4 ∨ status = 5 then .notFound
  else if status = 6 ∨ status = 2 then .providerGone
  else if status = 8 then .timeout
  else if status = 9 then .cancelled
  else .io

def fpErrIo : ℤ := 7

/-- What a call of the C callback does: the bytes it leaves in the buffer, the two lengths it
leaves in the response, and the status it returns, unless it panics. -/
structure CallbackEffect where
  byte : ℕ → UInt8
  bufferLen : ℕ
  bytesWritten : ℕ
  status : Option ℤ

def providerReadError (requestId : ℕ) (status : ProviderReadStatus) : ProviderReadResponse :=
  ⟨requestId, status, []⟩

/-- `CString::new` accepts a text without NUL. -/
def isCString (text : Text) : Bool :=
  Char.ofNat 0 ∉ text

/-- What is made of a callback that was called on a buffer of the requested length.
`bytes.truncate` never makes the buffer longer. -/
def CallbackEffect.response (effect : CallbackEffect) (request : ProviderReadRequest) :
    ProviderReadResponse :=
  let status := providerReadStatusFromFfi (effect.status.getD fpErrIo)
  if status ≠ .ok then providerReadError request.requestId status
  else if effect.bufferLen < effect.bytesWritten then
    providerReadError request.requestId .invalidArgument
  else
    let bytes := (List.range request.length).map effect.byte
    ⟨request.requestId, .ok, bytes.take effect.bytesWritten⟩

/-- The texts of a request are handed to C, so none may contain a NUL. -/
def dispatchProviderRead (request : ProviderReadRequest) (read : CallbackEffect) :
    ProviderReadResponse :=
  if ¬ isCString request.promiseId then providerReadError request.requestId .invalidArgument
  else if ¬ isCString request.providerNodeId then
    providerReadError request.requestId .invalidArgument
  else if ¬ isCString request.relativePath then
    providerReadError request.requestId .invalidArgument
  else read.response request

/-! ## Requests -/

/-- What every side asks of a request. -/
structure ProviderReadRequest.Valid (request : ProviderReadRequest) : Prop where
  requestId : request.requestId ≠ 0
  providerId : request.providerId ≠ 0
  promiseId : request.promiseId ≠ [] ∧ Char.ofNat 0 ∉ request.promiseId
  providerNodeId : request.providerNodeId ≠ [] ∧ Char.ofNat 0 ∉ request.providerNodeId
  path : ∃ path, normalizeRelativePath request.relativePath = .ok path
  length : 0 < request.length ∧ request.length ≤ maxProviderReadLen
  range : request.offset + request.length ≤ u64Max

theorem ProviderReadRequest.exists_intoBody_iff_valid {request : ProviderReadRequest} :
    (∃ body, request.intoBody = .ok body) ↔ request.Valid := by
  simp only [intoBody_eq_ok, validateToken_eq_ok]
  constructor
  · rintro ⟨body, ⟨path, hpath, -⟩, hid, hprovider, hpromise, hnode, hpos, hmax, hrange⟩
    exact ⟨hid, hprovider, hpromise, hnode, ⟨path, hpath⟩, ⟨hpos, hmax⟩, hrange⟩
  · rintro ⟨hid, hprovider, hpromise, hnode, ⟨path, hpath⟩, ⟨hpos, hmax⟩, hrange⟩
    exact ⟨_, ⟨path, hpath, rfl⟩, hid, hprovider, hpromise, hnode, hpos, hmax, hrange⟩

/-- A body passes the checks it came through once more, and does not change. -/
theorem ProviderReadRequest.intoBody_intoBody {request body : ProviderReadRequest}
    (h : request.intoBody = .ok body) : body.intoBody = .ok body := by
  rw [intoBody_eq_ok] at h ⊢
  obtain ⟨⟨path, hpath, rfl⟩, hrest⟩ := h
  obtain ⟨hnormal, rfl⟩ := normalizeRelativePath_ok hpath
  exact ⟨⟨_, normalizeRelativePath_joinNames hnormal, rfl⟩, hrest⟩

variable {codec} {request body : ProviderReadRequest}

theorem writeProviderReadRequest_eq (h : request.intoBody = .ok body)
    (writes : List (List UInt8)) :
    writeProviderReadRequest codec request writes =
      writeFrame codec.response (.providerReadRequest body) writes := by
  have hbody : (Prog.ofExcept request.intoBody : Writer ProviderReadRequest) writes =
      (.ok body, writes) := by
    rw [h]
    rfl
  rw [writeProviderReadRequest, Prog.bind_ok hbody]

/-- What is written is read as the body that passed the checks. -/
theorem request_round_trip (h : request.intoBody = .ok body)
    (hfits : Fits codec.response (.providerReadRequest body)) (rest : List UInt8) :
    ∃ writes, writeProviderReadRequest codec request [] = (.ok (), writes) ∧
      readProviderReadRequest codec (writes.flatten ++ rest) = (.ok (some body), rest) := by
  obtain ⟨encoded, hencode, hlength⟩ := hfits
  refine ⟨_, (writeProviderReadRequest_eq h []).trans (writeFrame_eq hencode hlength []), ?_⟩
  have hstream : ([] ++ [littleEndian 4 encoded.length, encoded]).flatten ++ rest =
      frameBytes codec.response (.providerReadRequest body) ++ rest := by
    rw [frameBytes_eq hencode hlength]
    simp
  have hread : (Prog.ofExcept (ProviderReadRequest.fromBody body) :
      Reader ProviderReadRequest) rest = (.ok body, rest) := by
    rw [ProviderReadRequest.fromBody, ProviderReadRequest.intoBody_intoBody h]
    rfl
  rw [hstream, readProviderReadRequest, Prog.bind_ok (readFrame_append hencode hlength rest)]
  exact Prog.bind_ok hread

/-- A request is written exactly when it is valid, if its frame is not too long. -/
theorem exists_writeProviderReadRequest_iff
    (hfits : ∀ body, request.intoBody = .ok body →
      Fits codec.response (.providerReadRequest body)) :
    (∃ writes, writeProviderReadRequest codec request [] = (.ok (), writes)) ↔ request.Valid := by
  rw [← ProviderReadRequest.exists_intoBody_iff_valid]
  constructor
  · rintro ⟨writes, hwrites⟩
    cases h : request.intoBody with
    | ok body => exact ⟨body, rfl⟩
    | error error =>
        have hbody : (Prog.ofExcept request.intoBody : Writer ProviderReadRequest) [] =
            (.error error, []) := by
          rw [h]
          rfl
        rw [writeProviderReadRequest, Prog.bind_error hbody] at hwrites
        simp at hwrites
  · rintro ⟨body, h⟩
    obtain ⟨writes, hwrites, -⟩ := request_round_trip h (hfits body h) []
    exact ⟨writes, hwrites⟩

/-! ## Responses -/

/-- The callback never yields more bytes than were asked for, and an error has none. -/
theorem dispatchProviderRead_cases (request : ProviderReadRequest) (read : CallbackEffect) :
    ∃ status bytes, dispatchProviderRead request read = ⟨request.requestId, status, bytes⟩ ∧
      (status = .ok ∧ bytes.length ≤ request.length ∨ status ≠ .ok ∧ bytes = []) := by
  unfold dispatchProviderRead
  split
  · exact ⟨_, _, rfl, Or.inr ⟨by simp, rfl⟩⟩
  split
  · exact ⟨_, _, rfl, Or.inr ⟨by simp, rfl⟩⟩
  split
  · exact ⟨_, _, rfl, Or.inr ⟨by simp, rfl⟩⟩
  unfold CallbackEffect.response
  dsimp only
  split
  · rename_i hstatus
    exact ⟨_, _, rfl, Or.inr ⟨hstatus, rfl⟩⟩
  split
  · exact ⟨_, _, rfl, Or.inr ⟨by simp, rfl⟩⟩
  · refine ⟨_, _, rfl, Or.inl ⟨rfl, ?_⟩⟩
    rw [List.length_take, List.length_map, List.length_range]
    exact Nat.min_le_right _ _

/-- The response to a valid request passes the check against the request. -/
theorem dispatchProviderRead_valid (request : ProviderReadRequest) (hid : request.requestId ≠ 0)
    (hlength : request.length ≤ maxProviderReadLen) (read : CallbackEffect) :
    validateProviderReadResponseForRequest request (dispatchProviderRead request read) =
      .ok () := by
  obtain ⟨status, bytes, heq, hcases⟩ := dispatchProviderRead_cases request read
  rw [validateProviderReadResponseForRequest_eq_ok, heq]
  refine ⟨rfl, hid, ?_, hcases⟩
  rcases hcases with ⟨-, hle⟩ | ⟨-, hnil⟩
  · exact hle.trans hlength
  · rw [hnil]
    exact Nat.zero_le _

theorem validate_of_forRequest {response : ProviderReadResponse}
    (h : validateProviderReadResponseForRequest request response = .ok ()) :
    response.validate = .ok () := by
  rw [validateProviderReadResponseForRequest_eq_ok] at h
  rw [ProviderReadResponse.validate_eq_ok]
  exact ⟨h.2.1, h.2.2.1, h.2.2.2.imp (fun hok => hok.1) fun hnot => hnot.2⟩

/-- A response that is valid in itself is written, and read as it is. -/
theorem response_round_trip (codec : ReadCodec) {response : ProviderReadResponse}
    (h : response.validate = .ok ()) (hword : response.requestId ≤ u64Max) (rest : List UInt8) :
    ∃ writes, writeProviderReadResponse codec response [] = (.ok (), writes) ∧
      readProviderReadResponse codec (writes.flatten ++ rest) = (.ok (some response), rest) := by
  obtain ⟨encoded, hencode, hshort⟩ := codec.short response hword
  have hlength : encoded.length ≤ maxFrameLen := by
    have hbytes := (ProviderReadResponse.validate_eq_ok.mp h).2.1
    simp only [maxProviderReadLen, maxFrameLen] at hbytes ⊢
    omega
  have hbody : (Prog.ofExcept response.intoBody : Writer ProviderReadResponse) [] =
      (.ok response, []) := by
    rw [ProviderReadResponse.intoBody, h]
    rfl
  have hread : (Prog.ofExcept (ProviderReadResponse.fromBody response) :
      Reader ProviderReadResponse) rest = (.ok response, rest) := by
    rw [ProviderReadResponse.fromBody, h]
    rfl
  have hwrite : writeProviderReadResponse codec response [] =
      writeFrame codec.request (.providerReadResponse response) [] := by
    rw [writeProviderReadResponse, Prog.bind_ok hbody]
  refine ⟨_, hwrite.trans (writeFrame_eq hencode hlength []), ?_⟩
  have hstream : ([] ++ [littleEndian 4 encoded.length, encoded]).flatten ++ rest =
      frameBytes codec.request (.providerReadResponse response) ++ rest := by
    rw [frameBytes_eq hencode hlength]
    simp
  rw [hstream, readProviderReadResponse, Prog.bind_ok (readFrame_append hencode hlength rest)]
  exact Prog.bind_ok hread

/-! ## Agreement -/

/-- A request is sent exactly when it is valid; it arrives with its path in normal form and
can be sent on unchanged; and whatever the callback does with it, the response is sent,
arrives, and passes the check against the request on both sides. -/
theorem read_messages_agree (codec : ReadCodec) (request : ProviderReadRequest)
    (hword : request.requestId ≤ u64Max)
    (hfits : ∀ body, request.intoBody = .ok body →
      Fits codec.response (.providerReadRequest body)) :
    ((∃ writes, writeProviderReadRequest codec request [] = (.ok (), writes)) ↔ request.Valid) ∧
    ∀ writes, writeProviderReadRequest codec request [] = (.ok (), writes) →
      ∃ path, normalizeRelativePath request.relativePath = .ok path ∧
        let received := { request with relativePath := path }
        (∀ rest, readProviderReadRequest codec (writes.flatten ++ rest) =
          (.ok (some received), rest)) ∧
        (∃ again, writeProviderReadRequest codec received [] = (.ok (), again) ∧
          readProviderReadRequest codec again.flatten = (.ok (some received), [])) ∧
        ∀ read : CallbackEffect,
          let response := dispatchProviderRead received read
          (∃ replies, writeProviderReadResponse codec response [] = (.ok (), replies) ∧
            readProviderReadResponse codec replies.flatten = (.ok (some response), [])) ∧
          ProviderReadResponse.fromBody response = .ok response ∧
          validateProviderReadResponseForRequest received response = .ok () ∧
          validateProviderReadResponseForRequest request response = .ok () := by
  refine ⟨exists_writeProviderReadRequest_iff hfits, fun writes hwrites => ?_⟩
  obtain ⟨body, hbody⟩ := ProviderReadRequest.exists_intoBody_iff_valid.mpr
    ((exists_writeProviderReadRequest_iff hfits).mp ⟨writes, hwrites⟩)
  have hparts := ProviderReadRequest.intoBody_eq_ok.mp hbody
  obtain ⟨⟨path, hpath, rfl⟩, hid, -, -, -, -, hmax, -⟩ := hparts
  refine ⟨path, hpath, fun rest => ?_, ?_, fun read => ?_⟩
  · obtain ⟨writes', hwrites', hread⟩ := request_round_trip hbody (hfits _ hbody) rest
    rw [hwrites] at hwrites'
    obtain rfl := (Prod.mk.inj hwrites').2
    exact hread
  · have hagain := ProviderReadRequest.intoBody_intoBody hbody
    obtain ⟨again, hwrite, hread⟩ := request_round_trip hagain (hfits _ hbody) []
    rw [List.append_nil] at hread
    exact ⟨again, hwrite, hread⟩
  · have hvalid := dispatchProviderRead_valid { request with relativePath := path } hid hmax read
    have hself := validate_of_forRequest hvalid
    have hsame := (validateProviderReadResponseForRequest_eq_ok.mp hvalid).1
    obtain ⟨replies, hwrite, hread⟩ :=
      response_round_trip codec hself (by rw [hsame]; exact hword) []
    rw [List.append_nil] at hread
    refine ⟨⟨replies, hwrite, hread⟩, ?_, hvalid, hvalid⟩
    rw [ProviderReadResponse.fromBody, hself]
    rfl

/-! ## A codec -/

def ProviderReadStatus.tag : ProviderReadStatus → UInt8
  | .ok => 0
  | .invalidArgument => 1
  | .permission => 2
  | .notFound => 3
  | .providerGone => 4
  | .io => 5
  | .timeout => 6
  | .cancelled => 7

def ProviderReadStatus.ofTag (tag : UInt8) : Option ProviderReadStatus :=
  [.ok, .invalidArgument, .permission, .notFound, .providerGone, .io, .timeout, .cancelled].find?
    fun status => status.tag = tag

/-- A response as the eight bytes of its id, its status and its bytes. -/
def plainResponseCodec : Codec Request where
  encode
    | .providerReadResponse message =>
        if message.requestId ≤ u64Max then
          .ok (littleEndian 8 message.requestId ++ message.status.tag :: message.bytes)
        else .error "id"
    | _ => .error "kind"
  decode body :=
    match body.drop 8 with
    | tag :: bytes =>
        match ProviderReadStatus.ofTag tag with
        | some status =>
            .ok (.providerReadResponse ⟨ofLittleEndian (body.take 8), status, bytes⟩, body.length)
        | none => .error "status"
    | [] => .error "length"
  decode_encode := by
    intro message body h
    cases message with
    | providerReadResponse message =>
        dsimp only at h
        split at h
        · rename_i hword
          obtain rfl := Except.ok.inj h
          have hid : ofLittleEndian (littleEndian 8 message.requestId) = message.requestId :=
            ofLittleEndian_littleEndian (by simp only [u64Max] at hword; omega)
          have htag : ProviderReadStatus.ofTag message.status.tag = some message.status := by
            cases message.status <;> rfl
          simp only [List.drop_left' (length_littleEndian 8 _),
            List.take_left' (length_littleEndian 8 _), htag, hid]
        · simp at h
    | _ => simp at h

/-- One message and its encoding. -/
def oneMessageCodec (message : Response) : Codec Response where
  encode other := if other = message then .ok [1] else .error "message"
  decode body := if body = [1] then .ok (message, 1) else .error "message"
  decode_encode := by
    intro other body h
    split at h
    · rename_i heq
      obtain rfl := Except.ok.inj h
      rw [heq]
      rfl
    · simp at h

/-- A codec for the requests with this body and for all responses. -/
def plainReadCodec (body : ProviderReadRequest) : ReadCodec where
  response := oneMessageCodec (.providerReadRequest body)
  request := plainResponseCodec
  short := by
    intro message hword
    refine ⟨_, if_pos hword, ?_⟩
    rw [List.length_append, length_littleEndian, List.length_cons]
    omega

/-- A request for `./a`, which arrives as a request for `a`. -/
theorem read_messages_agree_dot :
    let request : ProviderReadRequest := ⟨1, 1, ['p'], "./a".toList, ['n'], 0, 4⟩
    let received := { request with relativePath := ['a'] }
    ∃ writes, writeProviderReadRequest (plainReadCodec received) request [] = (.ok (), writes) := by
  intro request received
  have hbody : request.intoBody = .ok received := by decide
  refine (read_messages_agree (plainReadCodec received) request (by decide) ?_).1.mpr ?_
  · intro body h
    obtain rfl := Except.ok.inj (hbody.symm.trans h)
    exact ⟨[1], by decide, by decide⟩
  · exact ProviderReadRequest.exists_intoBody_iff_valid.mp ⟨received, hbody⟩

end FusePromise
