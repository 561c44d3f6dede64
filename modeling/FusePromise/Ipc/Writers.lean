import FusePromise.Ipc.Frame
import FusePromise.Ipc.System

/-!
# The writers of a connection

`write_frame` writes a frame in two parts, and between them another thread can write.
Two kinds of threads write to a connection: its handler, through its own handle and
under no lock, and the callers of `route_provider_read`, each through the handle of
the provider's route and under the lock of that route.  So the callers of one
provider exclude each other, and nothing else does.

The model has the threads of `System` and the writes they make.  The body of a frame
is any encoding.  A write that fails may have written a part of its bytes; after
that nothing can be written to the connection.

A connection is tidy while no thread has begun a frame in the middle of another
one's; then what has reached it is a sequence of complete frames with at most one
incomplete frame at its end.  Which threads can do that is said in `Ipc.Exclusion`.
-/

namespace FusePromise

open Framing Transition

/-! ## Writes -/

/-- A frame, and the thread that writes it. -/
structure SentFrame where
  writer : Agent
  body : List UInt8
  deriving DecidableEq

namespace SentFrame

/-- The length of the body, in four bytes. -/
def head (frame : SentFrame) : List UInt8 :=
  littleEndian 4 frame.body.length

def bytes (frame : SentFrame) : List UInt8 :=
  frame.head ++ frame.body

end SentFrame

/-- One write to a connection; a failed write has written a part of its bytes. -/
inductive Write
  | head (frame : SentFrame)
  | body (frame : SentFrame)
  | part (frame : SentFrame) (bytes : List UInt8)
  deriving DecidableEq

def Write.bytes : Write → List UInt8
  | .head frame => frame.head
  | .body frame => frame.body
  | .part _ bytes => bytes

/-- The writes of a complete frame. -/
def SentFrame.writes (frame : SentFrame) : List Write :=
  [.head frame, .body frame]

/-- The writes of at most one incomplete frame. -/
inductive Incomplete : List Write → Prop
  | none : Incomplete []
  | head (frame : SentFrame) : Incomplete [.head frame]
  | partHead {frame : SentFrame} {bytes : List UInt8} (h : bytes <+: frame.head) :
      Incomplete [.part frame bytes]
  | partBody {frame : SentFrame} {bytes : List UInt8} (h : bytes <+: frame.body) :
      Incomplete [.head frame, .part frame bytes]

/-- Complete frames and at most one incomplete frame after them. -/
def Unmixed (writes : List Write) : Prop :=
  ∃ (frames : List SentFrame) (last : List Write),
    writes = frames.flatMap SentFrame.writes ++ last ∧ Incomplete last

/-! ## The threads and their writes -/

/-- The thread an action belongs to. -/
def Action.agent : Action → Option Agent
  | .allocate c | .begin c _ | .lookupRoute c | .insertPending c | .writeRequest c _
  | .removePending c | .disconnectCall c | .receive c | .timeout c | .channelClosed c =>
      some (.caller c)
  | .connect k | .frame k _ | .endOfStream k | .reply k _ | .registerProvider k
  | .registerRoute k _ | .validateOwner k | .unregister k | .checkMount k | .commit k
  | .endMaterialize k | .takePending k | .answer k | .disconnectConn k | .close k =>
      some (.handler k)
  | .setMountStatus _ | .markNodeMaterialized _ _ _ | .recordCachedRead _ _ _ _ => none

/-- The actions that write a frame. -/
def Action.isWrite : Action → Bool
  | .writeRequest _ _ | .reply _ _ => true
  | _ => false

namespace System

/-- The connection a thread is about to write to.  While it materializes, a handler writes
progress frames. -/
def target (s : System) : Agent → Option ConnId
  | .caller c =>
      match (s.calls c).phase with
      | .writing route => some route.writer
      | _ => none
  | .handler k =>
      match (s.conns k).phase with
      | .replying | .materializing => some k
      | _ => none

/-- The provider whose route has the lock a thread writes under. -/
def writerLock (s : System) : Agent → Option ℕ
  | .caller c => some (s.calls c).request.providerId
  | .handler _ => none

/-- Two threads that no lock keeps from writing at once: a handler and a caller, and callers of
different providers. -/
def Rivals (s : System) : Agent → Agent → Prop
  | .caller c, .caller c' => (s.calls c).request.providerId ≠ (s.calls c').request.providerId
  | .caller _, .handler _ | .handler _, .caller _ => True
  | .handler _, .handler _ => False

/-- The thread has written its frame. -/
def written (s : System) : Agent → Option System
  | .caller c => s.step (.writeRequest c none)
  | .handler k =>
      match (s.conns k).phase with
      | .replying => s.step (.reply k true)
      | .materializing => some s
      | _ => none

/-- A write of the thread has failed.  A materialize run whose progress cannot be written is
over like one whose client is gone. -/
def writeFailed (s : System) (error : IoError) : Agent → Option System
  | .caller c => s.step (.writeRequest c (some error))
  | .handler k =>
      match (s.conns k).phase with
      | .replying => s.step (.reply k false)
      | .materializing => s.step (.endOfStream k)
      | _ => none

end System

/-- The threads, the writes to each connection, the frames of which only the first part is
written, the routes whose writers are locked, and the connections on which a write has
failed. -/
structure Wired where
  system : System
  writes : ConnId → List Write
  half : Agent → Option (ConnId × SentFrame)
  locked : ℕ → Bool
  down : ConnId → Bool

/-- What can happen at the wire; a write can break after a part of its bytes. -/
inductive WireAction
  | begin (agent : Agent) (body : List UInt8)
  | finish (agent : Agent)
  /-- `write_frame` fails before it writes anything. -/
  | refuse (agent : Agent) (error : IoError)
  | breakHead (agent : Agent) (body bytes : List UInt8) (error : IoError)
  | breakBody (agent : Agent) (bytes : List UInt8) (error : IoError)
  | other (action : Action)

namespace Wired

def initial (runtime : Runtime) : Wired where
  system := .initial runtime
  writes := fun _ => []
  half := fun _ => none
  locked := fun _ => false
  down := fun _ => false

/-- The lock a thread writes under is free. -/
def free (s : Wired) (agent : Agent) : Bool :=
  match s.system.writerLock agent with
  | some providerId => !s.locked providerId
  | none => true

/-- A caller has the lock of its route while it writes; a handler has none. -/
def setLock (s : Wired) (agent : Agent) (value : Bool) : ℕ → Bool :=
  match s.system.writerLock agent with
  | some providerId => Function.update s.locked providerId value
  | none => s.locked

/-- One more write to a connection. -/
def append (s : Wired) (k : ConnId) (write : Write) : ConnId → List Write :=
  Function.update s.writes k (s.writes k ++ [write])

/-- Where a thread that is not in the middle of a frame can write. -/
def ready (s : Wired) (agent : Agent) : Option ConnId :=
  if s.half agent = none ∧ s.free agent = true then s.system.target agent else none

/-- The two parts of a frame are two steps. -/
def step (s : Wired) : WireAction → Option Wired
  | .begin agent body =>
      match s.ready agent with
      | some k =>
          if s.down k = false ∧ body.length ≤ maxFrameLen then
            some { s with
              writes := s.append k (.head ⟨agent, body⟩)
              half := Function.update s.half agent (some (k, ⟨agent, body⟩))
              locked := s.setLock agent true }
          else none
      | none => none
  | .finish agent =>
      match s.half agent with
      | some (k, frame) =>
          if s.down k then none
          else (s.system.written agent).map fun system => { s with
            system
            writes := s.append k (.body frame)
            half := Function.update s.half agent none
            locked := s.setLock agent false }
      | none => none
  | .refuse agent error =>
      match s.ready agent with
      | some _ => (s.system.writeFailed error agent).map fun system => { s with system }
      | none => none
  | .breakHead agent body bytes error =>
      match s.ready agent with
      | some k =>
          if s.down k = false ∧ bytes <+: (SentFrame.mk agent body).head then
            (s.system.writeFailed error agent).map fun system => { s with
              system
              writes := s.append k (.part ⟨agent, body⟩ bytes)
              down := Function.update s.down k true }
          else none
      | none => none
  | .breakBody agent bytes error =>
      match s.half agent with
      | some (k, frame) =>
          if bytes <+: frame.body then
            (s.system.writeFailed error agent).map fun system => { s with
              system
              writes := if s.down k then s.writes else s.append k (.part frame bytes)
              half := Function.update s.half agent none
              locked := s.setLock agent false
              down := Function.update s.down k true }
          else none
      | none => none
  | .other action =>
      if action.isWrite = false ∧ (∀ agent ∈ action.agent, s.half agent = none) then
        (s.system.step action).map fun system => { s with system }
      else none

/-- The steps, each with what it finds. -/
inductive Step (s : Wired) : WireAction → Wired → Prop
  | begin {agent : Agent} {body : List UInt8} {k : ConnId} (hready : s.ready agent = some k)
      (hdown : s.down k = false) :
      Step s (.begin agent body) { s with
        writes := s.append k (.head ⟨agent, body⟩)
        half := Function.update s.half agent (some (k, ⟨agent, body⟩))
        locked := s.setLock agent true }
  | finish {agent : Agent} {k : ConnId} {frame : SentFrame} {system : System}
      (hhalf : s.half agent = some (k, frame)) (hdown : s.down k = false)
      (hsystem : s.system.written agent = some system) :
      Step s (.finish agent) { s with
        system
        writes := s.append k (.body frame)
        half := Function.update s.half agent none
        locked := s.setLock agent false }
  | refuse {agent : Agent} {error : IoError} {system : System}
      (hsystem : s.system.writeFailed error agent = some system) :
      Step s (.refuse agent error) { s with system }
  | breakHead {agent : Agent} {body bytes : List UInt8} {error : IoError} {k : ConnId}
      {system : System} (hready : s.ready agent = some k) (hdown : s.down k = false)
      (hbytes : bytes <+: (SentFrame.mk agent body).head)
      (hsystem : s.system.writeFailed error agent = some system) :
      Step s (.breakHead agent body bytes error) { s with
        system
        writes := s.append k (.part ⟨agent, body⟩ bytes)
        down := Function.update s.down k true }
  | breakBody {agent : Agent} {bytes : List UInt8} {error : IoError} {k : ConnId}
      {frame : SentFrame} {system : System} (hhalf : s.half agent = some (k, frame))
      (hbytes : bytes <+: frame.body) (hsystem : s.system.writeFailed error agent = some system) :
      Step s (.breakBody agent bytes error) { s with
        system
        writes := if s.down k then s.writes else s.append k (.part frame bytes)
        half := Function.update s.half agent none
        locked := s.setLock agent false
        down := Function.update s.down k true }
  | other {action : Action} {system : System}
      (hidle : ∀ agent ∈ action.agent, s.half agent = none)
      (hsystem : s.system.step action = some system) : Step s (.other action) { s with system }

theorem Step.of_step {s t : Wired} {action : WireAction} (h : s.step action = some t) :
    Step s action t := by
  unfold step at h
  split at h
  · split at h
    · split at h
      · rename_i hready hguard
        exact Option.some.inj h ▸ .begin hready hguard.1
      · simp at h
    · simp at h
  · split at h
    · split at h
      · simp at h
      · rename_i hhalf hdown
        obtain ⟨system, hsystem, rfl⟩ := Option.map_eq_some_iff.mp h
        exact .finish hhalf (by simpa using hdown) hsystem
    · simp at h
  · split at h
    · obtain ⟨system, hsystem, rfl⟩ := Option.map_eq_some_iff.mp h
      exact .refuse hsystem
    · simp at h
  · split at h
    · split at h
      · rename_i hready hguard
        obtain ⟨system, hsystem, rfl⟩ := Option.map_eq_some_iff.mp h
        exact .breakHead hready hguard.1 hguard.2 hsystem
      · simp at h
    · simp at h
  · split at h
    · split at h
      · rename_i hhalf hbytes
        obtain ⟨system, hsystem, rfl⟩ := Option.map_eq_some_iff.mp h
        exact .breakBody hhalf hbytes hsystem
      · simp at h
    · simp at h
  · split at h
    · rename_i hguard
      obtain ⟨system, hsystem, rfl⟩ := Option.map_eq_some_iff.mp h
      exact .other hguard.2 hsystem
    · simp at h

/-- A thread begins a frame only while none of its rivals has written half of a frame to the
same connection. -/
def Apart (s : Wired) : WireAction → Prop
  | .begin agent _ | .breakHead agent _ _ _ =>
      ∀ k, s.system.target agent = some k → ∀ other frame, s.half other = some (k, frame) →
        ¬ s.system.Rivals agent other
  | _ => True

/-- A thread begins a frame only while no other one at all has written half of a frame to the
same connection. -/
def Alone (s : Wired) : WireAction → Prop
  | .begin agent _ | .breakHead agent _ _ _ =>
      ∀ k, s.system.target agent = some k → ∀ other frame, s.half other ≠ some (k, frame)
  | _ => True

end Wired

/-! ## Sequences of writes -/

theorem Incomplete.bytes {last : List Write} (h : Incomplete last) :
    last = [] ∨ ∃ frame : SentFrame, last.flatMap Write.bytes <+: frame.bytes := by
  cases h with
  | none => exact Or.inl rfl
  | head frame => exact Or.inr ⟨frame, by simp [Write.bytes, SentFrame.bytes]⟩
  | @partHead frame bytes h =>
      refine Or.inr ⟨frame, ?_⟩
      simpa [Write.bytes, SentFrame.bytes] using h.trans (List.prefix_append _ _)
  | @partBody frame bytes h =>
      refine Or.inr ⟨frame, ?_⟩
      simpa [Write.bytes, SentFrame.bytes] using h

theorem flatMap_bytes_writes (frames : List SentFrame) :
    (frames.flatMap SentFrame.writes).flatMap Write.bytes = frames.flatMap SentFrame.bytes := by
  induction frames with
  | nil => rfl
  | cons frame frames ih => simp [SentFrame.writes, SentFrame.bytes, Write.bytes, ih]

namespace Unmixed

theorem of_frames (frames : List SentFrame) {last : List Write} (h : Incomplete last) :
    Unmixed (frames.flatMap SentFrame.writes ++ last) :=
  ⟨frames, last, rfl, h⟩

/-- The bytes of the writes: those of complete frames, and a part of one more. -/
theorem bytes {writes : List Write} (h : Unmixed writes) :
    ∃ frames : List SentFrame, ∃ part, writes.flatMap Write.bytes =
      frames.flatMap SentFrame.bytes ++ part ∧
        (part = [] ∨ ∃ frame : SentFrame, part <+: frame.bytes) := by
  obtain ⟨frames, last, rfl, hlast⟩ := h
  refine ⟨frames, last.flatMap Write.bytes, ?_, ?_⟩
  · rw [List.flatMap_append, flatMap_bytes_writes]
  · rcases hlast.bytes with rfl | hpart
    · exact Or.inl rfl
    · exact Or.inr hpart

/-- A complete frame can be taken off the front. -/
theorem of_cons {frame : SentFrame} {writes : List Write}
    (h : Unmixed (frame.writes ++ writes)) : Unmixed writes := by
  obtain ⟨frames, last, heq, hlast⟩ := h
  cases frames with
  | nil =>
      rw [List.flatMap_nil, List.nil_append] at heq
      subst heq
      cases hlast
  | cons other frames =>
      simp only [SentFrame.writes, List.flatMap_cons, List.cons_append, List.nil_append,
        List.cons.injEq] at heq
      exact ⟨frames, last, heq.2.2, hlast⟩

theorem of_append {frames : List SentFrame} {writes : List Write}
    (h : Unmixed (frames.flatMap SentFrame.writes ++ writes)) : Unmixed writes := by
  induction frames with
  | nil => exact h
  | cons frame frames ih =>
      rw [List.flatMap_cons, List.append_assoc] at h
      exact ih h.of_cons

/-- After the first part of a frame nothing but the rest of it may come. -/
theorem not_after_head (frames : List SentFrame) {frame : SentFrame} {write : Write}
    (hbody : write ≠ .body frame) (hpart : ∀ bytes, write ≠ .part frame bytes) :
    ¬ Unmixed (frames.flatMap SentFrame.writes ++ [.head frame] ++ [write]) := by
  intro h
  rw [List.append_assoc] at h
  obtain ⟨frames, last, heq, hlast⟩ := h.of_append
  cases frames with
  | nil =>
      rw [List.flatMap_nil, List.nil_append] at heq
      subst heq
      cases hlast
      exact hpart _ rfl
  | cons first frames =>
      simp only [SentFrame.writes, List.flatMap_cons, List.cons_append, List.nil_append,
        List.cons.injEq, Write.head.injEq] at heq
      obtain ⟨rfl, rfl, -⟩ := heq
      exact hbody rfl

end Unmixed

/-! ## One thread at a time -/

namespace Wired

variable {s t : Wired} {k : ConnId} {action : WireAction}

/-- A connection on which no two threads have written at once. -/
inductive Tidy (s : Wired) (k : ConnId) : Prop
  | idle (frames : List SentFrame) (hdown : s.down k = false)
      (hwrites : s.writes k = frames.flatMap SentFrame.writes)
      (hhalf : ∀ agent frame, s.half agent ≠ some (k, frame))
  | busy (frames : List SentFrame) (agent : Agent) (frame : SentFrame) (hdown : s.down k = false)
      (hwrites : s.writes k = frames.flatMap SentFrame.writes ++ [.head frame])
      (hhalf : s.half agent = some (k, frame)) (hwriter : frame.writer = agent)
      (hone : ∀ other other', s.half other = some (k, other') → other = agent)
  | broken (hdown : s.down k = true) (hwrites : Unmixed (s.writes k))
      (hhalf : ∀ agent frame, s.half agent ≠ some (k, frame))

theorem Tidy.unmixed (h : Tidy s k) : Unmixed (s.writes k) := by
  cases h with
  | idle frames _ hwrites _ =>
      rw [hwrites, ← List.append_nil (frames.flatMap SentFrame.writes)]
      exact .of_frames frames .none
  | busy frames agent frame _ hwrites =>
      rw [hwrites]
      exact .of_frames frames (.head frame)
  | broken _ hwrites => exact hwrites

theorem tidy_initial (runtime : Runtime) (k : ConnId) : Tidy (initial runtime) k :=
  .idle [] rfl rfl (by simp [initial])

/-- A step that leaves the writes to a connection alone, and the threads in the middle of a
frame for it. -/
theorem Tidy.congr (h : Tidy s k) (hwrites : t.writes k = s.writes k)
    (hdown : t.down k = s.down k)
    (hhalf : ∀ agent frame, t.half agent = some (k, frame) ↔ s.half agent = some (k, frame)) :
    Tidy t k := by
  cases h with
  | idle frames hd hw hh =>
      exact .idle frames (hdown.trans hd) (hwrites.trans hw) fun agent frame ht =>
        hh agent frame ((hhalf agent frame).mp ht)
  | busy frames agent frame hd hw hh hwriter hone =>
      exact .busy frames agent frame (hdown.trans hd) (hwrites.trans hw) ((hhalf _ _).mpr hh)
        hwriter fun other other' ht => hone other other' ((hhalf _ _).mp ht)
  | broken hd hw hh =>
      exact .broken (hdown.trans hd) (hwrites ▸ hw) fun agent frame ht =>
        hh agent frame ((hhalf agent frame).mp ht)

theorem ready_eq_some {agent : Agent} (h : s.ready agent = some k) :
    s.half agent = none ∧ s.system.target agent = some k := by
  unfold ready at h
  split at h
  · rename_i hfree
    exact ⟨hfree.1, h⟩
  · simp at h

/-- Where a thread begins a frame nothing is half-written, or frames get mixed. -/
theorem Tidy.begin_iff (htidy : Tidy s k) {agent : Agent} {frame : SentFrame} {write : Write}
    (hready : s.half agent = none) (hdown : s.down k = false) (hwriter : frame.writer = agent)
    (hwrite : write = .head frame ∨ ∃ bytes, bytes <+: frame.head ∧ write = .part frame bytes) :
    Unmixed (s.writes k ++ [write]) ↔ ∀ other other', s.half other ≠ some (k, other') := by
  cases htidy with
  | idle frames _ hwrites hhalf =>
      refine iff_of_true ?_ hhalf
      rw [hwrites]
      rcases hwrite with rfl | ⟨bytes, hbytes, rfl⟩
      · exact .of_frames frames (.head frame)
      · exact .of_frames frames (.partHead hbytes)
  | busy frames other first _ hwrites hhalf hfirst _ =>
      refine iff_of_false ?_ fun hnone => hnone other first hhalf
      have hne : first ≠ frame := by
        rintro rfl
        rw [← hwriter, hfirst, hhalf] at hready
        simp at hready
      rw [hwrites]
      rcases hwrite with rfl | ⟨bytes, -, rfl⟩ <;>
        exact Unmixed.not_after_head frames (by simp) (by simp [Ne.symm hne])
  | broken hbroken => simp [hbroken] at hdown

/-- A write to another connection. -/
theorem append_of_ne (s : Wired) {k k' : ConnId} (hne : k' ≠ k) (write : Write) :
    s.append k write k' = s.writes k' :=
  Function.update_of_ne hne ..

theorem append_self (s : Wired) (k : ConnId) (write : Write) :
    s.append k write k = s.writes k ++ [write] :=
  Function.update_self ..

/-- What the other connections see of a thread that begins or ends a frame. -/
theorem half_update_iff {half : Agent → Option (ConnId × SentFrame)} {agent : Agent}
    {value : Option (ConnId × SentFrame)} {k' : ConnId}
    (hold : ∀ frame, half agent ≠ some (k', frame)) (hnew : ∀ frame, value ≠ some (k', frame))
    (other : Agent) (frame : SentFrame) :
    Function.update half agent value other = some (k', frame) ↔ half other = some (k', frame) := by
  by_cases heq : other = agent
  · subst heq
    rw [Function.update_self]
    exact iff_of_false (hnew frame) (hold frame)
  · rw [Function.update_of_ne heq]

section

variable {agent : Agent} {frame : SentFrame} {system : System} {locked : ℕ → Bool}

/-- Where nothing is half-written there are only complete frames. -/
theorem Tidy.frames_of_alone (h : Tidy s k) (hdown : s.down k = false)
    (halone : ∀ other other', s.half other ≠ some (k, other')) :
    ∃ frames : List SentFrame, s.writes k = frames.flatMap SentFrame.writes := by
  cases h with
  | idle frames _ hwrites => exact ⟨frames, hwrites⟩
  | busy frames other first _ _ hfirst => exact absurd hfirst (halone other first)
  | broken hbroken => simp [hbroken] at hdown

/-- A frame that is half-written comes last, and no other one is. -/
theorem Tidy.frames_of_half (h : Tidy s k) (hhalf : s.half agent = some (k, frame)) :
    s.down k = false ∧
      (∃ frames : List SentFrame,
        s.writes k = frames.flatMap SentFrame.writes ++ [.head frame]) ∧
      ∀ other other', Function.update s.half agent none other ≠ some (k, other') := by
  cases h with
  | idle _ _ _ hnone => exact absurd hhalf (hnone agent frame)
  | busy frames other first hdown hwrites hfirst _ hone =>
      obtain rfl := hone agent frame hhalf
      obtain rfl : frame = first := by simpa [hhalf] using hfirst
      refine ⟨hdown, ⟨frames, hwrites⟩, fun other other' hother => ?_⟩
      by_cases heq : other = agent
      · simp [heq] at hother
      · rw [Function.update_of_ne heq] at hother
        exact heq (hone other other' hother)
  | broken _ _ hnone => exact absurd hhalf (hnone agent frame)

theorem tidy_begin (htidy : ∀ k, Tidy s k) (hhalf : s.half agent = none)
    (hdown : s.down k = false) (hwriter : frame.writer = agent)
    (halone : ∀ other other', s.half other ≠ some (k, other')) (k' : ConnId) :
    Tidy ⟨system, s.append k (.head frame), Function.update s.half agent (some (k, frame)),
      locked, s.down⟩ k' := by
  by_cases hk : k' = k
  · subst hk
    obtain ⟨frames, hwrites⟩ := (htidy k').frames_of_alone hdown halone
    refine .busy frames agent frame hdown ?_ (Function.update_self ..) hwriter
      fun other other' hother => ?_
    · rw [← hwrites]
      exact append_self ..
    · by_contra hne
      dsimp only at hother
      rw [Function.update_of_ne hne] at hother
      exact halone other other' hother
  · refine (htidy k').congr (append_of_ne s hk _) rfl (half_update_iff ?_ ?_)
    · simp [hhalf]
    · simp [Ne.symm hk]

theorem tidy_finish (htidy : ∀ k, Tidy s k) (hhalf : s.half agent = some (k, frame))
    (k' : ConnId) :
    Tidy ⟨system, s.append k (.body frame), Function.update s.half agent none, locked, s.down⟩
      k' := by
  by_cases hk : k' = k
  · subst hk
    obtain ⟨hdown, ⟨frames, hwrites⟩, hnone⟩ := (htidy k').frames_of_half hhalf
    refine .idle (frames ++ [frame]) hdown ((append_self ..).trans ?_) hnone
    rw [hwrites]
    simp [SentFrame.writes]
  · refine (htidy k').congr (append_of_ne s hk _) rfl (half_update_iff ?_ (by simp))
    simp [hhalf, Ne.symm hk]

theorem tidy_breakHead (htidy : ∀ k, Tidy s k) {bytes : List UInt8}
    (hbytes : bytes <+: frame.head) (hdown : s.down k = false)
    (halone : ∀ other other', s.half other ≠ some (k, other')) (k' : ConnId) :
    Tidy ⟨system, s.append k (.part frame bytes), s.half, locked,
      Function.update s.down k true⟩ k' := by
  by_cases hk : k' = k
  · subst hk
    obtain ⟨frames, hwrites⟩ := (htidy k').frames_of_alone hdown halone
    refine .broken (Function.update_self ..) ?_ halone
    dsimp only
    rw [append_self, hwrites]
    exact .of_frames frames (.partHead hbytes)
  · exact (htidy k').congr (append_of_ne s hk _) (Function.update_of_ne hk ..) fun _ _ => Iff.rfl

theorem tidy_breakBody (htidy : ∀ k, Tidy s k) {bytes : List UInt8}
    (hbytes : bytes <+: frame.body) (hhalf : s.half agent = some (k, frame)) (k' : ConnId) :
    Tidy ⟨system, if s.down k then s.writes else s.append k (.part frame bytes),
      Function.update s.half agent none, locked, Function.update s.down k true⟩ k' := by
  by_cases hk : k' = k
  · subst hk
    obtain ⟨hdown, ⟨frames, hwrites⟩, hnone⟩ := (htidy k').frames_of_half hhalf
    refine .broken (Function.update_self ..) ?_ hnone
    simp only [hdown, Bool.false_eq_true, if_false]
    rw [append_self, hwrites, List.append_assoc]
    exact .of_frames frames (.partBody hbytes)
  · refine (htidy k').congr ?_ (Function.update_of_ne hk ..) (half_update_iff ?_ (by simp))
    · show (if s.down k then s.writes else s.append k (.part frame bytes)) k' = s.writes k'
      split
      · rfl
      · exact append_of_ne s hk _
    · simp [hhalf, Ne.symm hk]

end

/-- A step with which no thread writes into the frame of another one keeps the connections
tidy. -/
theorem tidy_step (htidy : ∀ k, Tidy s k) (halone : Alone s action)
    (hstep : s.step action = some t) (k : ConnId) : Tidy t k := by
  -- every kind of write has a lemma of its own; the rest writes nothing
  cases Step.of_step hstep with
  | @begin _ _ target hready hdown =>
      obtain ⟨hhalf, htarget⟩ := ready_eq_some hready
      exact tidy_begin htidy hhalf hdown rfl (halone target htarget) k
  | finish hhalf => exact tidy_finish htidy hhalf k
  | @breakHead _ _ _ _ target _ hready hdown hbytes =>
      exact tidy_breakHead htidy hbytes hdown (halone target (ready_eq_some hready).2) k
  | breakBody hhalf hbytes => exact tidy_breakBody htidy hbytes hhalf k
  | refuse | other => exact (htidy k).congr rfl rfl fun _ _ => Iff.rfl

/-- A thread that writes into the frame of another one mixes the two. -/
theorem alone_of_unmixed (htidy : ∀ k, Tidy s k) (hstep : s.step action = some t)
    (hunmixed : ∀ k, Unmixed (t.writes k)) : Alone s action := by
  cases Step.of_step hstep with
  | begin hready hdown =>
      intro k htarget
      obtain ⟨hhalf, hsame⟩ := ready_eq_some hready
      obtain rfl := Option.some.inj (htarget.symm.trans hsame)
      have hwrites := hunmixed k
      dsimp only at hwrites
      rw [append_self] at hwrites
      exact ((htidy k).begin_iff hhalf hdown rfl (Or.inl rfl)).mp hwrites
  | @breakHead _ _ bytes _ _ _ hready hdown hbytes =>
      intro k htarget
      obtain ⟨hhalf, hsame⟩ := ready_eq_some hready
      obtain rfl := Option.some.inj (htarget.symm.trans hsame)
      have hwrites := hunmixed k
      dsimp only at hwrites
      rw [append_self] at hwrites
      exact ((htidy k).begin_iff hhalf hdown rfl (Or.inr ⟨bytes, hbytes, rfl⟩)).mp hwrites
  | _ => trivial

end Wired

end FusePromise
