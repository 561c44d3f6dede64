import FusePromise.Ipc.Changes
import FusePromise.Ipc.Writers

/-!
# Who can write into a frame

The lock of a provider's route keeps the callers of that provider from writing at
once: this is an invariant of every run (`Excluding`).  So the only ones that can
begin a frame in the middle of another one's are a handler and a caller, and callers
of different providers, and what reaches a connection is a sequence of complete
frames with at most one incomplete frame at its end as long as these take turns, and
no longer.
-/

namespace FusePromise

open Transition

namespace Wired

variable {s t : Wired} {k : ConnId} {action : WireAction}

/-! ## Under the lock of a route -/

/-- Threads that write under one lock are never in the middle of a frame at once, and a handler
writes only to its own connection. -/
structure Excluding (s : Wired) : Prop where
  handler : ∀ {j k : ConnId} {frame : SentFrame}, s.half (.handler j) = some (k, frame) → j = k
  locked : ∀ {agent : Agent} {providerId : ℕ}, s.half agent ≠ none →
    s.system.writerLock agent = some providerId → s.locked providerId = true
  one : ∀ {agent other : Agent} {providerId : ℕ}, s.half agent ≠ none → s.half other ≠ none →
    s.system.writerLock agent = some providerId → s.system.writerLock other = some providerId →
    agent = other

theorem excluding_initial (runtime : Runtime) : Excluding (initial runtime) where
  handler h := by simp [initial] at h
  locked h := by simp [initial] at h
  one h := by simp [initial] at h

/-- What a step does to the frames that are half-written and to the locks. -/
inductive HalfStep (s t : Wired) : Prop
  | same (hhalf : t.half = s.half) (hlocked : t.locked = s.locked)
  | begin (agent : Agent) (k : ConnId) (frame : SentFrame) (hready : s.ready agent = some k)
      (hsystem : t.system = s.system)
      (hhalf : t.half = Function.update s.half agent (some (k, frame)))
      (hlocked : t.locked = s.setLock agent true)
  | finish (agent : Agent) (hbusy : s.half agent ≠ none)
      (hhalf : t.half = Function.update s.half agent none)
      (hlocked : t.locked = s.setLock agent false)

theorem halfStep (hstep : s.step action = some t) : HalfStep s t := by
  cases Step.of_step hstep with
  | begin hready => exact .begin _ _ _ hready rfl rfl rfl
  | finish hhalf | breakBody hhalf => exact .finish _ (by simp [hhalf]) rfl rfl
  | refuse | breakHead | other => exact .same rfl rfl

theorem request_of_written {s t : System} {agent : Agent} (h : s.written agent = some t)
    (c : CallId) : (t.calls c).request = (s.calls c).request := by
  unfold System.written at h
  split at h
  · exact (System.Step.of_step h).request (by simp)
  · split at h
    · exact (System.Step.of_step h).request (by simp)
    · rw [Option.some.inj h]
    · simp at h

theorem request_of_writeFailed {s t : System} {agent : Agent} {error : IoError}
    (h : s.writeFailed error agent = some t) (c : CallId) :
    (t.calls c).request = (s.calls c).request := by
  unfold System.writeFailed at h
  split at h
  · exact (System.Step.of_step h).request (by simp)
  · split at h
    · exact (System.Step.of_step h).request (by simp)
    · exact (System.Step.of_step h).request (by simp)
    · simp at h

/-- A thread in the middle of a frame writes under the lock it began with. -/
theorem writerLock_of_half (hstep : s.step action = some t) {agent : Agent}
    (hhalf : s.half agent ≠ none) : t.system.writerLock agent = s.system.writerLock agent := by
  cases agent with
  | handler k => rfl
  | caller c =>
      -- the lock is the one of the provider in the request, and only `begin` sets that
      suffices hrequest : (t.system.calls c).request = (s.system.calls c).request by
        simp only [System.writerLock, hrequest]
      cases Step.of_step hstep with
      | begin => rfl
      | finish _ _ hsystem => exact request_of_written hsystem c
      | refuse hsystem => exact request_of_writeFailed hsystem c
      | breakHead _ _ _ hsystem => exact request_of_writeFailed hsystem c
      | breakBody _ _ hsystem => exact request_of_writeFailed hsystem c
      | other hidle hsystem =>
          -- the threads that are in the middle of a frame take no other step
          refine (System.Step.of_step hsystem).request ?_
          rintro request rfl
          exact hhalf (hidle (.caller c) rfl)

/-- A thread that can begin a frame finds its lock free. -/
theorem locked_of_ready {agent : Agent} {providerId : ℕ} (hready : s.ready agent = some k)
    (hlock : s.system.writerLock agent = some providerId) : s.locked providerId = false := by
  unfold ready at hready
  split at hready
  · rename_i hfree
    simpa [free, hlock] using hfree.2
  · simp at hready

theorem target_handler {s : System} {j k : ConnId} (h : s.target (.handler j) = some k) :
    j = k := by
  unfold System.target at h
  dsimp only at h
  split at h
  · exact Option.some.inj h
  · exact Option.some.inj h
  · simp at h

theorem setLock_of_eq {agent : Agent} {providerId : ℕ} (value : Bool)
    (hlock : s.system.writerLock agent = some providerId) :
    s.setLock agent value providerId = value := by
  simp [setLock, hlock]

theorem setLock_of_ne {agent : Agent} {providerId : ℕ} (value : Bool)
    (hlock : s.system.writerLock agent ≠ some providerId) :
    s.setLock agent value providerId = s.locked providerId := by
  cases hother : s.system.writerLock agent with
  | none => simp [setLock, hother]
  | some other =>
      have hne : providerId ≠ other := by
        rintro rfl
        exact hlock hother
      simp [setLock, hother, hne]

/-- The lock of a route is free when a caller begins, taken until it has written its frame, and
nobody else's. -/
theorem Excluding.step (h : Excluding s) (hstep : s.step action = some t) : Excluding t := by
  have hlock {agent : Agent} (hbusy : s.half agent ≠ none) := writerLock_of_half hstep hbusy
  cases halfStep hstep with
  | same hhalf hlocked =>
      refine ⟨fun hj => h.handler (hhalf ▸ hj), fun hbusy heq => ?_,
        fun hbusy hbusy' heq heq' => ?_⟩
      · rw [hhalf] at hbusy
        rw [hlocked]
        exact h.locked hbusy (hlock hbusy ▸ heq)
      · rw [hhalf] at hbusy hbusy'
        exact h.one hbusy hbusy' (hlock hbusy ▸ heq) (hlock hbusy' ▸ heq')
  | begin writer k frame hready hsystem hhalf hlocked =>
      have hother {agent : Agent} (hne : agent ≠ writer) : t.half agent = s.half agent := by
        rw [hhalf, Function.update_of_ne hne]
      -- a thread with the lock of the writer would have found it taken
      have hfresh {agent : Agent} {providerId : ℕ} (hbusy : s.half agent ≠ none)
          (heq : s.system.writerLock agent = some providerId) :
          s.system.writerLock writer ≠ some providerId := by
        intro hwriter
        have := h.locked hbusy heq
        simp [locked_of_ready hready hwriter] at this
      refine ⟨fun {j k' frame'} hj => ?_, fun {agent providerId} hbusy heq => ?_,
        fun {agent other providerId} hbusy hbusy' heq heq' => ?_⟩
      · by_cases hwriter : (.handler j : Agent) = writer
        · subst hwriter
          rw [hhalf, Function.update_self] at hj
          obtain ⟨rfl, rfl⟩ := Prod.mk.inj (Option.some.inj hj)
          exact target_handler (ready_eq_some hready).2
        · exact h.handler (hother hwriter ▸ hj)
      · rw [hsystem] at heq
        rw [hlocked]
        by_cases hwriter : agent = writer
        · exact setLock_of_eq true (hwriter ▸ heq)
        · rw [hother hwriter] at hbusy
          rw [setLock_of_ne true (hfresh hbusy heq)]
          exact h.locked hbusy heq
      · rw [hsystem] at heq heq'
        by_cases hwriter : agent = writer <;> by_cases hwriter' : other = writer
        · rw [hwriter, hwriter']
        · rw [hother hwriter'] at hbusy'
          exact absurd (hwriter ▸ heq) (hfresh hbusy' heq')
        · rw [hother hwriter] at hbusy
          exact absurd (hwriter' ▸ heq') (hfresh hbusy heq)
        · rw [hother hwriter] at hbusy
          rw [hother hwriter'] at hbusy'
          exact h.one hbusy hbusy' heq heq'
  | finish writer hwriting hhalf hlocked =>
      have hother {agent : Agent} (hbusy : t.half agent ≠ none) :
          agent ≠ writer ∧ s.half agent ≠ none := by
        by_cases hwriter : agent = writer
        · simp [hhalf, hwriter] at hbusy
        · rw [hhalf, Function.update_of_ne hwriter] at hbusy
          exact ⟨hwriter, hbusy⟩
      refine ⟨fun {j k' frame'} hj => ?_, fun {agent providerId} hbusy heq => ?_,
        fun {agent other providerId} hbusy hbusy' heq heq' => ?_⟩
      · have hne := (@hother (.handler j) (by simp [hj])).1
        rw [hhalf, Function.update_of_ne hne] at hj
        exact h.handler hj
      · obtain ⟨hne, hbusy⟩ := hother hbusy
        rw [hlock hbusy] at heq
        rw [hlocked, setLock_of_ne false fun hwriter => hne (h.one hbusy hwriting heq hwriter)]
        exact h.locked hbusy heq
      · obtain ⟨-, hbusy⟩ := hother hbusy
        obtain ⟨-, hbusy'⟩ := hother hbusy'
        exact h.one hbusy hbusy' (hlock hbusy ▸ heq) (hlock hbusy' ▸ heq')

/-- Threads that are no rivals are kept apart by a lock, or are the same one. -/
theorem Excluding.alone (h : Excluding s) {agent : Agent} (hready : s.ready agent = some k)
    (hapart : ∀ other frame, s.half other = some (k, frame) → ¬ s.system.Rivals agent other)
    (other : Agent) (frame : SentFrame) : s.half other ≠ some (k, frame) := by
  intro hother
  have hrivals := hapart other frame hother
  obtain ⟨hhalf, htarget⟩ := ready_eq_some hready
  cases agent with
  | caller c =>
      cases other with
      | caller c' =>
          have hsame : (s.system.calls c).request.providerId =
              (s.system.calls c').request.providerId := by
            simpa [System.Rivals] using hrivals
          have hlocked := @Excluding.locked s h (.caller c') _ (by simp [hother]) rfl
          rw [← hsame, locked_of_ready hready rfl] at hlocked
          simp at hlocked
      | handler j => exact hrivals trivial
  | handler j =>
      cases other with
      | caller c' => exact hrivals trivial
      | handler j' =>
          obtain rfl := target_handler htarget
          obtain rfl := h.handler hother
          simp [hhalf] at hother

/-- The lock does the rest: who is apart from its rivals is alone. -/
theorem alone_of_apart (h : Excluding s) (hstep : s.step action = some t)
    (hapart : Apart s action) : Alone s action := by
  cases Step.of_step hstep with
  | begin hready | breakHead hready =>
      intro k htarget
      obtain rfl := Option.some.inj (htarget.symm.trans (ready_eq_some hready).2)
      exact h.alone hready (hapart k htarget)
  | _ => trivial

theorem Alone.apart (h : Alone s action) : Apart s action := by
  cases action with
  | begin agent body =>
      exact fun k htarget other frame hother => absurd hother (h k htarget other frame)
  | breakHead agent body bytes error =>
      exact fun k htarget other frame hother => absurd hother (h k htarget other frame)
  | _ => trivial

theorem excluding_of_reaches {runtime : Runtime} {ok : Wired → WireAction → Prop}
    (h : Reaches step ok (initial runtime) s) : Excluding s :=
  h.invariant Excluding (fun hexcluding _ hstep => hexcluding.step hstep)
    (excluding_initial runtime)

/-! ## Complete frames -/

theorem tidy_of_reaches {runtime : Runtime} (h : Reaches step Apart (initial runtime) s)
    (k : ConnId) : Tidy s k := by
  refine (h.invariant (fun s => Excluding s ∧ ∀ k, Tidy s k) ?_ ?_).2 k
  · rintro s action t ⟨hexcluding, htidy⟩ hapart hstep
    exact ⟨hexcluding.step hstep, tidy_step htidy (alone_of_apart hexcluding hstep hapart) hstep⟩
  · exact ⟨excluding_initial runtime, tidy_initial runtime⟩

/-- While a handler and a caller, or callers of different providers, take turns, every
connection gets complete frames and at most one incomplete frame after them; and the next step
keeps it so exactly if it does not begin a frame in the middle of a rival's either.  The callers
of one provider need no such condition: they never write at once. -/
theorem unmixed_iff_apart {runtime : Runtime}
    (hreach : Reaches step Apart (initial runtime) s) :
    (∀ k, Unmixed (s.writes k) ∧
      ∃ frames : List SentFrame, ∃ part, (s.writes k).flatMap Write.bytes =
        frames.flatMap SentFrame.bytes ++ part ∧
          (part = [] ∨ ∃ frame : SentFrame, part <+: frame.bytes)) ∧
    (∀ action t, s.step action = some t →
      ((∀ k, Unmixed (t.writes k)) ↔ Apart s action)) ∧
    ∀ c c', s.half (.caller c) ≠ none → s.half (.caller c') ≠ none →
      (s.system.calls c).request.providerId = (s.system.calls c').request.providerId →
      c = c' := by
  have htidy := tidy_of_reaches hreach
  have hexcluding := excluding_of_reaches hreach
  refine ⟨fun k => ⟨(htidy k).unmixed, (htidy k).unmixed.bytes⟩, fun action t hstep =>
    ⟨fun hunmixed => (alone_of_unmixed htidy hstep hunmixed).apart, fun hapart k => ?_⟩,
    fun c c' hbusy hbusy' hsame => ?_⟩
  · exact (tidy_step htidy (alone_of_apart hexcluding hstep hapart) hstep k).unmixed
  · exact Agent.caller.inj (hexcluding.one hbusy hbusy' (congrArg some hsame) rfl)

/-- Two callers of one provider: while the first is in the middle of its frame the second cannot
begin, and after both have written the frames are complete. -/
theorem unmixed_two_callers : ∃ s t u, Reaches step Apart (initial Runtime.new) s ∧
    s.half (.caller 0) ≠ none ∧ s.system.target (.caller 1) = some 0 ∧
    s.step (.begin (.caller 1) [9]) = none ∧ s.step (.finish (.caller 0)) = some t ∧
    t.step (.begin (.caller 1) [9]) = some u ∧ ∀ k, Unmixed (u.writes k) := by
  have hidle {s : Wired} {action : WireAction} (h : ∀ other, s.half other = none) :
      Apart s action := by
    cases action <;> simp [Apart, h]
  have hfinished (half : Agent → Option (ConnId × SentFrame)) (writer : Agent)
      (value : ConnId × SentFrame) (h : ∀ other, half other = none) (other : Agent) :
      Function.update (Function.update half writer (some value)) writer none other = none := by
    rw [Function.update_idem, Function.update_apply]
    split
    · rfl
    · exact h other
  have hone : ∀ other, Function.update (Function.update (initial Runtime.new).half (.handler 0)
      (some (0, ⟨.handler 0, [7]⟩))) (.handler 0) none other = none :=
    hfinished _ _ _ fun _ => rfl
  have htwo : ∀ other, Function.update (Function.update (Function.update (Function.update
      (initial Runtime.new).half (.handler 0) (some (0, ⟨.handler 0, [7]⟩))) (.handler 0) none)
      (.handler 0) (some (0, ⟨.handler 0, [8]⟩))) (.handler 0) none other = none :=
    hfinished _ _ _ hone
  have hreach : Reaches step Apart (initial Runtime.new) _ :=
    ⟨[.other (.connect 0), .other (.frame 0 (.hello 1 1)), .begin (.handler 0) [7],
      .finish (.handler 0), .other (.frame 0 .providerRegister), .other (.registerProvider 0),
      .other (.registerRoute 0 (some 5)), .begin (.handler 0) [8], .finish (.handler 0),
      .other (.begin 0 ⟨1, 1, ['p'], ['f'], ['n'], 0, 4⟩), .other (.lookupRoute 0),
      .other (.insertPending 0), .other (.begin 1 ⟨2, 1, ['p'], ['f'], ['n'], 4, 4⟩),
      .other (.lookupRoute 1), .other (.insertPending 1), .begin (.caller 0) [8]],
      trivial, _, rfl, trivial, _, rfl, hidle fun _ => rfl, _, rfl, trivial, _, rfl, trivial, _,
      rfl, trivial, _, rfl, trivial, _, rfl, hidle hone, _, rfl, trivial, _, rfl, trivial, _, rfl,
      trivial, _, rfl, trivial, _, rfl, trivial, _, rfl, trivial, _, rfl, trivial, _, rfl,
      hidle htwo, _, rfl, rfl⟩
  have hnext : Reaches step Apart (initial Runtime.new) _ :=
    hreach.trans ⟨[.finish (.caller 0)], trivial, _, rfl, rfl⟩
  refine ⟨_, _, _, hreach, by decide, rfl, rfl, rfl, rfl, ?_⟩
  exact ((unmixed_iff_apart hnext).2.1 (.begin (.caller 1) [9]) _ rfl).mpr
    (hidle (hfinished _ _ _ htwo))

/-- A read is routed to a provider whose registration is being answered: the two frames get
mixed. -/
theorem registered_reply_mixes_with_read :
    ∃ s, Reaches step always (initial Runtime.new) s ∧ ¬ Unmixed (s.writes 0) := by
  have hrun : ([.other (.connect 0), .other (.frame 0 (.hello 1 1)), .begin (.handler 0) [7],
      .finish (.handler 0), .other (.frame 0 .providerRegister), .other (.registerProvider 0),
      .other (.registerRoute 0 (some 5)), .begin (.handler 0) [8],
      .other (.begin 0 ⟨1, 1, ['p'], ['f'], ['n'], 0, 4⟩), .other (.lookupRoute 0),
      .other (.insertPending 0), .begin (.caller 0) [9]].foldlM step
        (initial Runtime.new)).map (fun s => s.writes 0) =
      some ([⟨.handler 0, [7]⟩].flatMap SentFrame.writes ++ [.head ⟨.handler 0, [8]⟩] ++
        [.head ⟨.caller 0, [9]⟩]) := by
    decide +kernel
  obtain ⟨s, hs, hwrites⟩ := Option.map_eq_some_iff.mp hrun
  refine ⟨s, Reaches.of_foldlM hs, ?_⟩
  rw [hwrites]
  exact Unmixed.not_after_head _ (by simp) (by simp)

end Wired

end FusePromise
