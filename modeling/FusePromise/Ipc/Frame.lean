import FusePromise.Foundation.Framing
import FusePromise.Ipc.Messages

/-!
# Frames

`read_frame` and `write_frame`: a message travels as its encoding, after the length of
the encoding in four bytes.  A reader works on the bytes that are left in its stream,
a writer on the list of the writes it has made, since a frame is two of them.

Of bincode it is only known that decoding the encoding of a message gives the message
back and uses up all its bytes; a `Codec` carries that along.
-/

namespace FusePromise

open Framing Program

/-- The most bytes a body may have. -/
def maxFrameLen : ℕ := 1024 * 1024

/-- bincode, for the messages of one type. -/
structure Codec (T : Type) where
  encode : T → Except String (List UInt8)
  decode : List UInt8 → Except String (T × ℕ)
  decode_encode : ∀ {message : T} {body : List UInt8}, encode message = .ok body →
    decode body = .ok (message, body.length)

/-- A program that takes bytes from a stream. -/
abbrev Reader := Prog (List UInt8) IoError
/-- A program that makes calls of `write_all`. -/
abbrev Writer := Prog (List (List UInt8)) IoError

/-- `read` into a buffer of one byte. -/
def readByte : Reader (Option UInt8)
  | [] => (.ok none, [])
  | byte :: rest => (.ok (some byte), rest)

/-- A stream that is too short is used up, and that is an error. -/
def readExact (length : ℕ) : Reader (List UInt8) := fun stream =>
  if length ≤ stream.length then (.ok (stream.take length), stream.drop length)
  else (.error ⟨.other, "failed to fill whole buffer"⟩, [])

def writeAll (bytes : List UInt8) : Writer Unit :=
  Prog.modify fun writes => writes ++ [bytes]

variable {T : Type} (codec : Codec T)

/-- What follows the first byte of a frame. -/
def readFrameFrom (first : UInt8) : Reader (Option T) := do
  let rest ← readExact 3
  let len := ofLittleEndian (first :: rest)
  if maxFrameLen < len then Prog.fail (invalidData "IPC frame exceeds maximum length")
  else do
    let body ← readExact len
    let (message, bytesRead) ← Prog.ofExcept ((codec.decode body).mapError invalidData)
    if bytesRead ≠ body.length then Prog.fail (invalidData "IPC frame has trailing bytes")
    else return some message

/-- The end of the stream before the first byte is no error. -/
def readFrame : Reader (Option T) := do
  match ← readByte with
  | none => return none
  | some first => readFrameFrom codec first

/-- The length goes first, in a call of its own. -/
def writeFrame (message : T) : Writer Unit := do
  let body ← Prog.ofExcept ((codec.encode message).mapError invalidData)
  if maxFrameLen < body.length then Prog.fail (invalidData "IPC frame exceeds maximum length")
  else do
    writeAll (littleEndian 4 body.length)
    writeAll body

def writeFrames : List T → Writer Unit
  | [] => return
  | message :: rest => do
      writeFrame codec message
      writeFrames rest

/-- The bytes `write_frame` emits for a message. -/
def frameBytes (message : T) : List UInt8 :=
  (writeFrame codec message []).2.flatten

/-- A message with an encoding that may be sent. -/
def Fits (message : T) : Prop :=
  ∃ body, codec.encode message = .ok body ∧ body.length ≤ maxFrameLen

/-! ## Writing -/

variable {codec} {message : T} {body : List UInt8}

theorem run_encode (hencode : codec.encode message = .ok body) (writes : List (List UInt8)) :
    (Prog.ofExcept ((codec.encode message).mapError invalidData) : Writer (List UInt8)) writes =
      (.ok body, writes) := by
  rw [hencode]
  rfl

theorem writeAll_eq (bytes : List UInt8) (writes : List (List UInt8)) :
    writeAll bytes writes = (.ok (), writes ++ [bytes]) :=
  rfl

theorem writeFrame_eq (hencode : codec.encode message = .ok body)
    (hfits : body.length ≤ maxFrameLen) (writes : List (List UInt8)) :
    writeFrame codec message writes =
      (.ok (), writes ++ [littleEndian 4 body.length, body]) := by
  rw [writeFrame, Prog.bind_ok (run_encode hencode writes)]
  split
  · omega
  · rw [Prog.bind_ok (writeAll_eq _ _), writeAll_eq, List.append_assoc]
    rfl

/-- A message that is too long is refused before anything is written. -/
theorem writeFrame_refuses (hencode : codec.encode message = .ok body)
    (hlong : maxFrameLen < body.length) (writes : List (List UInt8)) :
    writeFrame codec message writes =
      (.error (invalidData "IPC frame exceeds maximum length"), writes) := by
  rw [writeFrame, Prog.bind_ok (run_encode hencode writes)]
  split
  · rfl
  · omega

theorem writeFrame_of_not_fits (h : ¬ Fits codec message) (writes : List (List UInt8)) :
    ∃ error, writeFrame codec message writes = (.error error, writes) := by
  cases hencode : codec.encode message with
  | ok body =>
      refine ⟨_, writeFrame_refuses hencode (Nat.lt_of_not_le fun hle => ?_) writes⟩
      exact h ⟨body, hencode, hle⟩
  | error text =>
      have hrun : (Prog.ofExcept ((codec.encode message).mapError invalidData) :
          Writer (List UInt8)) writes = (.error (invalidData text), writes) := by
        rw [hencode]
        rfl
      exact ⟨_, by rw [writeFrame, Prog.bind_error hrun]⟩

theorem frameBytes_eq (hencode : codec.encode message = .ok body)
    (hfits : body.length ≤ maxFrameLen) :
    frameBytes codec message = littleEndian 4 body.length ++ body := by
  rw [frameBytes, writeFrame_eq hencode hfits]
  simp

theorem writeFrames_eq {messages : List T} (hmessages : ∀ message ∈ messages, Fits codec message)
    (writes : List (List UInt8)) :
    ∃ last, writeFrames codec messages writes = (.ok (), last) ∧
      last.flatten = writes.flatten ++ messages.flatMap (frameBytes codec) := by
  induction messages generalizing writes with
  | nil => exact ⟨writes, rfl, by simp⟩
  | cons message messages ih =>
      obtain ⟨body, hencode, hfits⟩ := hmessages message List.mem_cons_self
      obtain ⟨last, hlast, hflatten⟩ :=
        ih (fun other hother => hmessages other (List.mem_cons_of_mem _ hother))
          (writes ++ [littleEndian 4 body.length, body])
      refine ⟨last, ?_, ?_⟩
      · rw [writeFrames, Prog.bind_ok (writeFrame_eq hencode hfits writes), hlast]
      · rw [hflatten, List.flatMap_cons, frameBytes_eq hencode hfits]
        simp

/-! ## Reading -/

theorem readExact_append (bytes rest : List UInt8) :
    readExact bytes.length (bytes ++ rest) = (.ok bytes, rest) := by
  simp [readExact]

theorem readExact_short {length : ℕ} {stream : List UInt8} (h : stream.length < length) :
    readExact length stream = (.error ⟨.other, "failed to fill whole buffer"⟩, []) := by
  rw [readExact, if_neg (by omega)]

/-- The four bytes of a length, of which the reader takes the first one alone. -/
theorem littleEndian_four (value : ℕ) : ∃ first rest, littleEndian 4 value = first :: rest ∧
    rest.length = 3 :=
  ⟨_, _, rfl, rfl⟩

theorem ofLittleEndian_length (hfits : body.length ≤ maxFrameLen) :
    ofLittleEndian (littleEndian 4 body.length) = body.length := by
  refine ofLittleEndian_littleEndian (lt_of_le_of_lt hfits ?_)
  decide

theorem readFrame_cons (first : UInt8) (rest : List UInt8) :
    readFrame codec (first :: rest) = readFrameFrom codec first rest :=
  rfl

/-- The body of a frame is read once its length is known. -/
theorem readFrameFrom_eq {first : UInt8} {three : List UInt8} (hthree : three.length = 3)
    (hlen : ofLittleEndian (first :: three) = body.length) (hfits : body.length ≤ maxFrameLen)
    (rest : List UInt8) :
    readFrameFrom codec first (three ++ rest) = (do
      let body ← readExact body.length
      let (message, bytesRead) ← Prog.ofExcept ((codec.decode body).mapError invalidData)
      if bytesRead ≠ body.length then Prog.fail (invalidData "IPC frame has trailing bytes")
      else return some message : Reader (Option T)) rest := by
  have hhead : readExact 3 (three ++ rest) = (.ok three, rest) := by
    rw [← hthree]
    exact readExact_append three _
  rw [readFrameFrom, Prog.bind_ok hhead, hlen]
  split
  · omega
  · rfl

theorem readFrame_append (hencode : codec.encode message = .ok body)
    (hfits : body.length ≤ maxFrameLen) (rest : List UInt8) :
    readFrame codec (frameBytes codec message ++ rest) = (.ok (some message), rest) := by
  obtain ⟨first, three, hfour, hthree⟩ := littleEndian_four body.length
  have hlen : ofLittleEndian (first :: three) = body.length := by
    rw [← hfour]
    exact ofLittleEndian_length hfits
  have hdecode : (Prog.ofExcept ((codec.decode body).mapError invalidData) : Reader (T × ℕ)) rest =
      (.ok (message, body.length), rest) := by
    rw [codec.decode_encode hencode]
    rfl
  have hstream : frameBytes codec message ++ rest = first :: (three ++ (body ++ rest)) := by
    rw [frameBytes_eq hencode hfits, hfour, List.cons_append, List.cons_append, List.append_assoc]
  rw [hstream, readFrame_cons, readFrameFrom_eq hthree hlen hfits,
    Prog.bind_ok (readExact_append body rest), Prog.bind_ok hdecode]
  dsimp only
  split
  · contradiction
  · rfl

/-- A cut inside the length or inside the body makes the reader fail. -/
theorem readFrame_part (hencode : codec.encode message = .ok body)
    (hfits : body.length ≤ maxFrameLen) {cut : List UInt8}
    (hcut : cut <+: frameBytes codec message) (hne : cut ≠ [])
    (hpart : cut ≠ frameBytes codec message) :
    ∃ error rest, readFrame codec cut = (.error error, rest) := by
  obtain ⟨first, three, hfour, hthree⟩ := littleEndian_four body.length
  rw [frameBytes_eq hencode hfits, hfour, List.cons_append] at hcut hpart
  obtain ⟨head, tail, rfl⟩ := List.exists_cons_of_ne_nil hne
  rw [List.cons_prefix_cons] at hcut
  obtain ⟨rfl, htail⟩ := hcut
  have htailNe : tail ≠ three ++ body := fun heq => hpart (by rw [heq])
  rw [readFrame_cons]
  by_cases hbegins : three <+: tail
  · obtain ⟨later, rfl⟩ := hbegins
    rw [List.prefix_append_right_inj] at htail
    have hlater : later.length < body.length := by
      refine lt_of_le_of_ne htail.length_le fun heq => htailNe ?_
      rw [htail.eq_of_length heq]
    have hlen : ofLittleEndian (head :: three) = body.length := by
      rw [← hfour]
      exact ofLittleEndian_length hfits
    rw [readFrameFrom_eq hthree hlen hfits, Prog.bind_error (readExact_short hlater)]
    exact ⟨_, _, rfl⟩
  · have hshort : tail.length < 3 := by
      have hshorter := (List.prefix_or_prefix_of_prefix htail
        (List.prefix_append three body)).resolve_right hbegins
      rw [← hthree]
      refine lt_of_le_of_ne hshorter.length_le fun heq => hbegins ?_
      rw [hshorter.eq_of_length heq]
    rw [readFrameFrom, Prog.bind_error (readExact_short hshort)]
    exact ⟨_, _, rfl⟩

theorem framed_readFrame : Framed (readFrame codec) (frameBytes codec) (Fits codec) where
  stop := ⟨[], rfl⟩
  whole := by
    rintro message rest ⟨body, hencode, hfits⟩
    exact readFrame_append hencode hfits rest
  part := by
    rintro message cut ⟨body, hencode, hfits⟩ hcut hne hpart
    exact readFrame_part hencode hfits hcut hne hpart

/-! ## Framing is exact -/

/-- Messages that are written are read back in order; a stream that is cut gives the messages
with a complete frame, and then its end or an error; a message that is too long is not
written at all. -/
theorem framing_exact (codec : Codec T) :
    (∀ messages : List T, (∀ message ∈ messages, Fits codec message) →
      ∃ writes, writeFrames codec messages [] = (.ok (), writes) ∧
        Reads (readFrame codec) writes.flatten messages (.ok ()) ∧
        ∀ cut, cut <+: writes.flatten → ∃ count ending,
          Framed.Complete (frameBytes codec) messages cut count ∧
          Reads (readFrame codec) cut (messages.take count) ending ∧
          (cut = (messages.take count).flatMap (frameBytes codec) ∧ ending = .ok () ∨
            cut ≠ (messages.take count).flatMap (frameBytes codec) ∧
              ∃ error, ending = .error error)) ∧
    ∀ message body writes, codec.encode message = .ok body → maxFrameLen < body.length →
      ∃ error, writeFrame codec message writes = (.error error, writes) := by
  refine ⟨fun messages hmessages => ?_, fun message body writes hencode hlong =>
    ⟨_, writeFrame_refuses hencode hlong writes⟩⟩
  obtain ⟨writes, hwrites, hflatten⟩ := writeFrames_eq hmessages []
  rw [List.flatten_nil, List.nil_append] at hflatten
  refine ⟨writes, hwrites, ?_, fun cut hcut => ?_⟩
  · rw [hflatten]
    exact framed_readFrame.reads_all hmessages
  · rw [hflatten] at hcut
    exact framed_readFrame.reads_cut hmessages hcut

/-- Bodies that are sent as they are. -/
def rawCodec : Codec (List UInt8) where
  encode body := .ok body
  decode body := .ok (body, body.length)
  decode_encode h := by rw [Except.ok.inj h]

/-- An empty message between two others. -/
theorem framing_exact_three : ∃ writes,
    writeFrames rawCodec [[7], [], [1, 2]] [] = (.ok (), writes) ∧
      Reads (readFrame rawCodec) writes.flatten [[7], [], [1, 2]] (.ok ()) := by
  obtain ⟨writes, hwrites, hreads, -⟩ := (framing_exact rawCodec).1 [[7], [], [1, 2]] (by
    intro message hmem
    refine ⟨message, rfl, ?_⟩
    revert message
    decide)
  exact ⟨writes, hwrites, hreads⟩

end FusePromise
