import FusePromise.Ipc.Poison

/-!
# Request ids and the table of pending reads

All calls leave the table of pending reads in order as long as no call enters an id
that another call in progress holds, the table is not locked out while it has
entries, and no call comes to write under a poisoned lock with its entry in the
table.  The condition is exact: after the first action that breaks it, some call goes
on to leave an entry behind or to remove the entry of another call.
-/

namespace FusePromise

open Machine Transition

namespace Guarded

open FusePromise.System

/-- The call can still come to remove its id from the table: it has yet to write its request,
its write has failed, or it has no answer yet. -/
def mayRemove (s : Guarded) (c : CallId) : Bool :=
  match (s.system.calls c).phase with
  | .writing route => !s.poisoned (.writer route)
  | .writeFailed _ | .timedOut => true
  | .waiting => (s.system.calls c).inbox.isEmpty
  | _ => false

/-- A call in progress holds its request id. -/
def Holds (s : Guarded) (c : CallId) : Prop :=
  s.system.HasEntry c ∨ s.mayRemove c = true

/-- An id is entered only while no other call in progress holds it, the lock of the table is
poisoned only while the table is empty, and a call that writes under a poisoned lock has no entry
in the table any more. -/
def InOrder (s : Guarded) : GuardedAction → Prop
  | .act (.insertPending c) =>
      s.poisoned .pendingReads = true ∨ ∀ c', c' ≠ c → s.Holds c' →
        (s.system.calls c').request.requestId ≠ (s.system.calls c).request.requestId
  | .act (.writeRequest c _) => s.blocked (.writeRequest c none) = true → ¬ s.system.HasEntry c
  | .poison .pendingReads => ∀ c, ¬ s.system.HasEntry c
  | _ => True

/-- A step, if it is one of the call, leaves the table in order. -/
def Leaves (c : CallId) (s : Guarded) (action : GuardedAction) (t : Guarded) : Prop :=
  ∀ own, action = .act own → own.agent = some (.caller c) → s.system.LeavesTable t.system c

variable {s t : Guarded} {action : Action} {c c' : CallId}

/-! ## Steps of a call -/

theorem step_act_free {next : System} (hnext : s.system.step action = some next)
    (hfree : s.blocked action = false) : s.step (.act action) = some { s with system := next } := by
  simp [Guarded.step, hnext, hfree]

theorem step_act_blocked {next : System} (hnext : s.system.step action = some next)
    (hblocked : s.blocked action = true) :
    s.step (.act action) = some { s with system := s.system.giveUp action } := by
  simp [Guarded.step, hnext, hblocked]

/-- The only step of a call that has its route. -/
theorem of_routed {s t : System} (h : Step s action t) (hagent : action.agent = some (.caller c))
    {route : ProviderRoute} (hphase : (s.calls c).phase = .routed route) :
    action = .insertPending c ∧ t = s.insertPending c route := by
  cases h <;> simp_all [Action.agent, mayBegin]

theorem leaves_iff_safe (h : Orderly s) (hagent : action.agent = some (.caller c))
    (hstep : s.step (.act action) = some t) : Leaves c s (.act action) t ↔ s.Safe action := by
  have hleaves : Leaves c s (.act action) t ↔ s.system.LeavesTable t.system c :=
    ⟨fun h => h action rfl hagent, fun h _ _ _ => h⟩
  rw [hleaves]
  obtain ⟨next, hnext, rfl⟩ := Option.map_eq_some_iff.mp hstep
  cases hblocked : s.blocked action with
  | true => exact leavesTable_giveUp_iff h hagent (.of_step hnext) hblocked
  | false => exact leavesTable_act_iff h hagent (.of_step hnext) hblocked

/-! ## What calls hold -/

/-- An entry was there before, unless the call has just made it. -/
theorem hasEntry_before (h : Orderly s) (hstep : s.step (.act action) = some t)
    (hentry : t.system.HasEntry c) :
    s.system.HasEntry c ∨ action = .insertPending c ∧ s.poisoned .pendingReads = false ∧
      ∃ route, (s.system.calls c).phase = .routed route ∧
        t.system = s.system.insertPending c route := by
  obtain ⟨next, hnext, rfl⟩ := Option.map_eq_some_iff.mp hstep
  cases hblocked : s.blocked action with
  | true =>
      simp only [hblocked, if_true, hasEntry_congr (giveUp_pendingReads _ _)] at hentry
      exact Or.inl hentry
  | false =>
      simp only [hblocked, Bool.false_eq_true, if_false] at hentry ⊢
      have hnext := Step.of_step hnext
      refine (hentry.before hnext).imp_right ?_
      rintro ⟨route, hrouted⟩
      by_cases hagent : action.agent = some (.caller c)
      · obtain ⟨rfl, rfl⟩ := of_routed hnext hagent hrouted
        exact ⟨rfl, by simpa [blocked, locks] using hblocked, route, hrouted, rfl⟩
      · -- the call has not moved, and has no entry yet
        have hearly : (next.calls c).phase.early := by
          rw [hnext.phase_of_other hagent, hrouted]
          rfl
        exact absurd hentry ((h.senders.step hnext).not_hasEntry_of_early hearly)

/-- What a call can do with its id depends on its phase, its inbox and the lock it writes under. -/
theorem mayRemove_mono (h : t.mayRemove c = true)
    (hphase : (t.system.calls c).phase = (s.system.calls c).phase)
    (hinbox : (t.system.calls c).inbox = [] → (s.system.calls c).inbox = [])
    (hpoisoned : ∀ lock, s.poisoned lock = true → t.poisoned lock = true) :
    s.mayRemove c = true := by
  unfold mayRemove at h ⊢
  rw [hphase] at h
  generalize (s.system.calls c).phase = phase at h ⊢
  cases phase with
  | writing route =>
      have := hpoisoned (.writer route)
      cases hlock : s.poisoned (.writer route) <;> simp_all
  | waiting => simpa using hinbox (by simpa using h)
  | writeFailed | timedOut => rfl
  | _ => simp at h

theorem mayRemove_giveUp
    (h : Guarded.mayRemove { s with system := s.system.giveUp action } c = true) :
    s.mayRemove c = true := by
  by_cases hagent : action.agent = some (.caller c)
  · have hphase := giveUp_phase_of_caller s.system hagent
    have hinbox : ((s.system.giveUp action).calls c).inbox = (s.system.calls c).inbox := by
      simp [giveUp, hagent]
    unfold mayRemove at h ⊢
    dsimp only at h
    rw [hphase, hinbox] at h
    generalize (s.system.calls c).phase = phase at h ⊢
    cases phase with
    | disconnecting stage error => cases stage <;> simp [CallPhase.afterPoison] at h
    | _ => simp_all [CallPhase.afterPoison]
  · refine mayRemove_mono h (giveUp_phase_of_other _ hagent) ?_ fun _ hlock => hlock
    dsimp only [giveUp]
    split
    · rename_i c' hcaller
      have hne : c ≠ c' := by
        rintro rfl
        exact hagent hcaller
      simp [hne]
    · exact id
    · exact id

/-- A call comes to hold its id when it enters it. -/
theorem mayRemove_before (hstep : s.step (.act action) = some t) (h : t.mayRemove c = true) :
    s.mayRemove c = true ∨ action = .insertPending c ∧ s.poisoned .pendingReads = false := by
  obtain ⟨next, hnext, rfl⟩ := Option.map_eq_some_iff.mp hstep
  -- a blocked step gives up, which takes no id; a free one is a step of the system
  cases hblocked : s.blocked action with
  | true =>
      simp only [hblocked, if_true] at h
      exact Or.inl (mayRemove_giveUp h)
  | false =>
      simp only [hblocked, Bool.false_eq_true, if_false] at h
      have hnext := Step.of_step hnext
      by_cases hagent : action.agent = some (.caller c)
      · cases hnext with
        | @insertPending c' route hphase =>
            obtain rfl : c' = c := Agent.caller.inj (Option.some.inj hagent)
            exact Or.inr ⟨rfl, by simpa [blocked, locks] using hblocked⟩
        | @written c' route hphase | @writeFailed c' route _ hphase =>
            obtain rfl : c' = c := Agent.caller.inj (Option.some.inj hagent)
            have hlock : s.poisoned (.writer route) = false := by
              simpa [blocked, locks, hphase] using hblocked
            simp [mayRemove, hphase, hlock]
        | @timeout c' hphase hinbox =>
            obtain rfl : c' = c := Agent.caller.inj (Option.some.inj hagent)
            simp [mayRemove, hphase, hinbox]
        | @begin c' request =>
            obtain rfl : c' = c := Agent.caller.inj (Option.some.inj hagent)
            simp only [mayRemove, System.begin] at h
            cases hbody : request.intoBody <;> simp [hbody] at h
        | @disconnectCall c' stage error hphase =>
            obtain rfl : c' = c := Agent.caller.inj (Option.some.inj hagent)
            generalize hresult : s.system.disconnectStep _ _ _ = result at h
            obtain ⟨next, later⟩ := result
            cases later <;> simp [mayRemove, CallPhase.afterDisconnect] at h
        | @allocate c' | @noRoute c' | @route c' | @removeFailed c' | @removeTimedOut c'
        | @receive c' | @channelClosed c' =>
            obtain rfl : c' = c := Agent.caller.inj (Option.some.inj hagent)
            simp [mayRemove] at h
        | _ => simp [Action.agent] at hagent
      -- another thread moves no call and only adds to its inbox
      · refine Or.inl (mayRemove_mono h (hnext.phase_of_other hagent) ?_ fun _ hlock => hlock)
        dsimp only
        intro hempty
        cases hnext.call c with
        | begin _ _ _ hinbox => exact hinbox ▸ hempty
        | move _ _ hinbox =>
            obtain ⟨errors, hinbox⟩ := hinbox
            rw [hinbox] at hempty
            exact (List.append_eq_nil_iff.mp hempty).1
        | answer _ _ _ _ _ hinbox => simp [hinbox] at hempty

theorem holds_before (h : Orderly s) (hstep : s.step (.act action) = some t) (hholds : t.Holds c) :
    s.Holds c ∨ action = .insertPending c ∧ s.poisoned .pendingReads = false := by
  rcases hholds with hentry | hmay
  · rcases hasEntry_before h hstep hentry with hentry | ⟨haction, hfree, -⟩
    · exact Or.inl (Or.inl hentry)
    · exact Or.inr ⟨haction, hfree⟩
  · exact (mayRemove_before hstep hmay).imp_left Or.inr

theorem request_of_holds (h : Orderly s) (hstep : s.step (.act action) = some t)
    (hholds : t.Holds c) : (t.system.calls c).request = (s.system.calls c).request := by
  obtain ⟨next, hnext, rfl⟩ := Option.map_eq_some_iff.mp hstep
  by_cases hbegin : ∃ request, action = .begin c request
  · -- a call that begins holds nothing
    obtain ⟨request, rfl⟩ := hbegin
    exfalso
    have hphase : mayBegin (s.system.calls c).phase request := by
      cases Step.of_step hnext with
      | begin hphase => exact hphase
    rcases holds_before h hstep hholds with hentry | ⟨haction, -⟩
    · rcases hentry with hentry | hmay
      · refine h.senders.not_hasEntry_of_early ?_ hentry
        cases hbefore : (s.system.calls c).phase <;> simp_all [mayBegin, CallPhase.early]
      · cases hbefore : (s.system.calls c).phase <;> simp_all [mayBegin, mayRemove]
    · simp at haction
  · split
    · unfold giveUp
      split
      · rename_i c' _
        by_cases hc : c = c' <;> simp [hc]
      · rfl
      · rfl
    · exact (Step.of_step hnext).request fun request haction => hbegin ⟨request, haction⟩

/-! ## Runs in order -/

/-- No two calls in progress hold one id, and an entry is that of a call in progress. -/
structure Settled (s : Guarded) : Prop where
  orderly : Orderly s
  entry : ∀ {c : CallId}, s.system.HasEntry c →
    s.poisoned .pendingReads = false ∧ ∀ outcome, (s.system.calls c).phase ≠ .done outcome
  distinct : ∀ {c c' : CallId}, s.Holds c → s.Holds c' →
    (s.system.calls c).request.requestId = (s.system.calls c').request.requestId → c = c'

theorem settled_initial (runtime : Runtime) : Settled (Guarded.initial runtime) where
  orderly := orderly_of_reaches (.refl _)
  entry := by
    rintro c ⟨id, read, hread, -⟩
    simp [Guarded.initial, System.initial] at hread
  distinct := by
    rintro c c' (⟨id, read, hread, -⟩ | hmay)
    · simp [Guarded.initial, System.initial] at hread
    · simp [mayRemove, Guarded.initial, System.initial, Call.unstarted] at hmay

/-- The steps of a call in a run that is in order. -/
theorem Settled.safe (h : Settled s) (horder : s.InOrder (.act action))
    (hagent : action.agent = some (.caller c)) {next : System} (hstep : Step s.system action next) :
    s.Safe action := by
  have hentry {id : ℕ} {read : PendingRead} (hread : s.system.pendingReads[id]? = some read) :
      s.Holds read.sender ∧ (s.system.calls read.sender).request.requestId = id := by
    refine ⟨Or.inl ⟨id, read, hread, rfl⟩, ?_⟩
    obtain ⟨c', -, rfl, rfl⟩ := h.orderly.senders.table.mp hread
    rfl
  cases hstep with
  | @insertPending c' route hphase =>
      obtain rfl : c' = c := Agent.caller.inj (Option.some.inj hagent)
      refine horder.imp_right fun hfree hmem => ?_
      obtain ⟨read, hread⟩ :=
        Option.isSome_iff_exists.mp (Std.ExtTreeMap.isSome_getElem?_iff_mem.mpr hmem)
      obtain ⟨hholds, hid⟩ := hentry hread
      refine hfree read.sender ?_ hholds hid
      rintro heq
      refine h.orderly.senders.not_hasEntry_of_early (c := c') ?_ ⟨_, read, hread, heq⟩
      rw [hphase]
      rfl
  | written | writeFailed => exact horder
  | @removeFailed c' _ hphase | @removeTimedOut c' hphase =>
      obtain rfl : c' = c := Agent.caller.inj (Option.some.inj hagent)
      simp only [Safe]
      split
      · rename_i hpoisoned
        intro _ hentry
        simp [(h.entry hentry).1] at hpoisoned
      · intro read hread
        obtain ⟨hholds, hid⟩ := hentry hread
        exact h.distinct hholds (Or.inr (by simp [mayRemove, hphase])) hid
  | @disconnectCall c' =>
      obtain rfl : c' = c := Agent.caller.inj (Option.some.inj hagent)
      intro _ hpoisoned hentry
      simp [(h.entry hentry).1] at hpoisoned
  | _ => trivial

/-- A call whose entry is in the table gets no answer. -/
theorem not_ok_of_hasEntry (h : Senders s.system) (hstep : s.step (.act action) = some t)
    (hentry : s.system.HasEntry c)
    (hbefore : ∀ outcome, (s.system.calls c).phase ≠ .done outcome)
    (response : ProviderReadResponse) : (t.system.calls c).phase ≠ .done (.ok response) := by
  intro hdone
  obtain ⟨next, hnext, rfl⟩ := Option.map_eq_some_iff.mp hstep
  split at hdone
  · by_cases hagent : action.agent = some (.caller c)
    · rw [giveUp_phase_of_caller _ hagent] at hdone
      generalize (s.system.calls c).phase = phase at hdone hbefore
      cases phase with
      | disconnecting stage error => cases stage <;> simp [CallPhase.afterPoison] at hdone
      | done outcome => exact hbefore outcome rfl
      | _ => simp [CallPhase.afterPoison] at hdone
    · exact hbefore _ (giveUp_phase_of_other _ hagent ▸ hdone)
  · cases (Step.of_step hnext).call c with
    | begin _ _ hphase => rcases hphase with hphase | ⟨error, hphase⟩ <;> simp [hphase] at hdone
    | answer _ _ _ _ hphase => exact hbefore _ (hphase ▸ hdone)
    | move _ hphase =>
        rcases hphase with hphase | hphase
        · exact hbefore _ (hphase ▸ hdone)
        · rw [hdone] at hphase
          generalize (s.system.calls c).phase = phase at hphase
          generalize hafter : CallPhase.done (.ok response) = after at hphase
          cases hphase with
          | receive hmem =>
              -- an answer has used up the channel
              have hinbox := (h.inbox c).resolve_left (List.ne_nil_of_mem hmem)
              rw [h.hasEntry_iff, hinbox.1] at hentry
              simp at hentry
          | disconnect stage error later =>
              cases later <;> simp [CallPhase.afterDisconnect] at hafter
          | _ => simp at hafter

theorem Settled.step (h : Settled s) {action : GuardedAction} (horder : s.InOrder action)
    (hstep : s.step action = some t) : Settled t ∧ ∀ c, Leaves c s action t := by
  have horderly := h.orderly.step hstep
  cases action with
  | poison lock =>
      obtain rfl := Option.some.inj hstep
      refine ⟨⟨horderly, fun {c} hentry => ?_, fun {c c'} hc hc' => ?_⟩, fun c own haction => ?_⟩
      · by_cases hlock : lock = .pendingReads
        · subst hlock
          exact absurd hentry (horder c)
        · exact ⟨by simpa [Ne.symm hlock] using (h.entry hentry).1, (h.entry hentry).2⟩
      · -- a poisoned lock only keeps calls from removing their ids
        have hless {c : CallId} (hholds : Guarded.Holds
            { s with poisoned := Function.update s.poisoned lock true } c) : s.Holds c := by
          rcases hholds with hentry | hmay
          · exact Or.inl hentry
          · refine Or.inr (mayRemove_mono hmay rfl id fun other hother => ?_)
            by_cases hlock : other = lock <;> simp [hlock, hother]
        exact h.distinct (hless hc) (hless hc')
      · simp at haction
  | act action =>
      have hsafe {c : CallId} (hagent : action.agent = some (.caller c)) : s.Safe action := by
        obtain ⟨next, hnext, -⟩ := Option.map_eq_some_iff.mp hstep
        exact h.safe horder hagent (.of_step hnext)
      have hleaves (c : CallId) : Leaves c s (.act action) t := by
        intro own hown hagent
        obtain rfl := GuardedAction.act.inj hown
        exact (leaves_iff_safe h.orderly hagent hstep).mpr (hsafe hagent) action rfl hagent
      have hpoisoned : t.poisoned = s.poisoned := by
        obtain ⟨next, -, rfl⟩ := Option.map_eq_some_iff.mp hstep
        rfl
      refine ⟨⟨horderly, fun {c} hentry => ?_, fun {c c'} hc hc' hid => ?_⟩, hleaves⟩
      · rw [hpoisoned]
        rcases hasEntry_before h.orderly hstep hentry with
          hbefore | ⟨rfl, hfree, route, hphase, hinsert⟩
        · refine ⟨(h.entry hbefore).1, fun outcome hdone => ?_⟩
          cases outcome with
          | ok response =>
              exact not_ok_of_hasEntry h.orderly.senders hstep hbefore (h.entry hbefore).2 _ hdone
          | error error =>
              by_cases hagent : action.agent = some (.caller c)
              · exact (hleaves c action rfl hagent).own error hdone hentry
              · obtain ⟨next, hnext, rfl⟩ := Option.map_eq_some_iff.mp hstep
                refine (h.entry hbefore).2 _ (Eq.trans (Eq.symm ?_) hdone)
                split
                · exact giveUp_phase_of_other _ hagent
                · exact (Step.of_step hnext).phase_of_other hagent
        · have hfresh := (hsafe rfl).resolve_left (by simp [hfree])
          refine ⟨hfree, fun outcome hdone => ?_⟩
          simp [hinsert, System.insertPending, enter, hfresh] at hdone
      · rw [request_of_holds h.orderly hstep hc, request_of_holds h.orderly hstep hc'] at hid
        rcases holds_before h.orderly hstep hc with hold | ⟨rfl, hfree⟩
        · rcases holds_before h.orderly hstep hc' with hold' | ⟨rfl, hfree⟩
          · exact h.distinct hold hold' hid
          · by_contra hne
            exact horder.resolve_left (by simp [hfree]) c hne hold hid
        · rcases holds_before h.orderly hstep hc' with hold' | ⟨heq, -⟩
          · by_contra hne
            exact horder.resolve_left (by simp [hfree]) c' (Ne.symm hne) hold' hid.symm
          · exact Action.insertPending.inj heq

/-! ## After the first action out of order -/

/-- Some run from here has a step of the call that does not leave the table in order. -/
def Spoiled (c : CallId) (s : Guarded) : Prop :=
  ∃ later, ¬ Along Guarded.step (Leaves c) s later

theorem Spoiled.after {action : GuardedAction} (hstep : s.step action = some t)
    (h : Spoiled c t) : Spoiled c s := by
  obtain ⟨later, hlater⟩ := h
  exact ⟨action :: later, fun halong => hlater (halong t hstep).2⟩

theorem not_along_of_not_safe (h : Orderly s) (hagent : action.agent = some (.caller c))
    (hstep : s.step (.act action) = some t) (hnot : ¬ s.Safe action) :
    ¬ Along Guarded.step (Leaves c) s [.act action] :=
  fun halong => hnot ((leaves_iff_safe h hagent hstep).mp (halong t hstep).1)

theorem step_timeout (hphase : (s.system.calls c).phase = .waiting)
    (hinbox : (s.system.calls c).inbox = []) :
    s.step (.act (.timeout c)) = some { s with system := s.system.setPhase c .timedOut } :=
  step_act_free (by simp [System.step, callStep, hphase, hinbox]) (by simp [blocked, locks])

/-- A call that can remove its id does it while the entry is that of another call. -/
theorem spoiled_of_mayRemove (h : Orderly s) (hfree : s.poisoned .pendingReads = false)
    (hmay : s.mayRemove c = true) {read : PendingRead}
    (hread : s.system.pendingReads[(s.system.calls c).request.requestId]? = some read)
    (hother : read.sender ≠ c) : Spoiled c s := by
  -- the removal itself, once the call has come to it
  have hremove : ∀ {s : Guarded}, Orderly s → s.poisoned .pendingReads = false →
      ((∃ error, (s.system.calls c).phase = .writeFailed error) ∨
        (s.system.calls c).phase = .timedOut) →
      s.system.pendingReads[(s.system.calls c).request.requestId]? = some read → Spoiled c s := by
    intro s h hfree hphase hread
    obtain ⟨next, hnext⟩ : ∃ next, s.system.step (.removePending c) = some next := by
      rcases hphase with ⟨error, hphase⟩ | hphase <;>
        simp [System.step, callStep, hphase]
    refine ⟨_, not_along_of_not_safe h rfl
      (step_act_free hnext (by simp [blocked, locks, hfree])) ?_⟩
    simp only [Safe, hfree, Bool.false_eq_true, if_false]
    exact fun hown => hother (hown read hread)
  cases hphase : (s.system.calls c).phase with
  | writeFailed error => exact hremove h hfree (Or.inl ⟨error, hphase⟩) hread
  | timedOut => exact hremove h hfree (Or.inr hphase) hread
  | writing route =>
      have hlock : s.poisoned (.writer route) = false := by simpa [mayRemove, hphase] using hmay
      let error : IoError := ⟨.brokenPipe, "closed"⟩
      have hstep : s.step (.act (.writeRequest c (some error))) =
          some { s with system := s.system.setPhase c (.writeFailed error) } :=
        step_act_free (by simp [System.step, callStep, hphase])
          (by simp [blocked, locks, hphase, hlock])
      refine .after hstep (hremove (h.step hstep) hfree (Or.inl ⟨error, by simp⟩) ?_)
      simpa using hread
  | waiting =>
      have hinbox : (s.system.calls c).inbox = [] := by simpa [mayRemove, hphase] using hmay
      have hstep := step_timeout hphase hinbox
      refine .after hstep (hremove (h.step hstep) hfree (Or.inr (by simp)) ?_)
      simpa using hread
  | _ => simp [mayRemove, hphase] at hmay

/-- A section of `disconnect_provider_id` from which the call returns with its entry in the
table. -/
theorem spoiled_of_returning (h : Orderly s) (hpoisoned : s.poisoned .pendingReads = true)
    (hentry : s.system.HasEntry c) {stage : DisconnectStage} {error : IoError}
    (hphase : (s.system.calls c).phase = .disconnecting stage error)
    (hreturning : s.returning c = true) : Spoiled c s := by
  obtain ⟨next, hnext⟩ : ∃ next, s.system.step (.disconnectCall c) = some next := by
    simp [System.step, callStep, hphase]
  have hnot : ¬ s.Safe (.disconnectCall c) := fun hsafe => hsafe hreturning hpoisoned hentry
  cases hblocked : s.blocked (.disconnectCall c) with
  | true => exact ⟨_, not_along_of_not_safe h rfl (step_act_blocked hnext hblocked) hnot⟩
  | false => exact ⟨_, not_along_of_not_safe h rfl (step_act_free hnext hblocked) hnot⟩

/-- Where the table is locked out, disconnecting the provider does not remove the entry. -/
theorem spoiled_of_disconnecting (h : Orderly s) (hpoisoned : s.poisoned .pendingReads = true)
    (hentry : s.system.HasEntry c) {error : IoError}
    (hphase : (s.system.calls c).phase = .disconnecting .removeRoute error) : Spoiled c s := by
  have hsweep : ∀ {s : Guarded}, Orderly s → s.poisoned .pendingReads = true →
      s.system.HasEntry c → (s.system.calls c).phase = .disconnecting .sweep error →
      Spoiled c s := by
    intro s h hpoisoned hentry hphase
    exact spoiled_of_returning h hpoisoned hentry hphase (by simp [returning, hphase, hpoisoned])
  have hunregister : ∀ {s : Guarded}, Orderly s → s.poisoned .pendingReads = true →
      s.system.HasEntry c → (s.system.calls c).phase = .disconnecting .unregister error →
      Spoiled c s := by
    intro s h hpoisoned hentry hphase
    cases hruntime : s.poisoned .runtime with
    | true =>
        exact spoiled_of_returning h hpoisoned hentry hphase (by simp [returning, hphase, hruntime])
    | false =>
        obtain ⟨next, hnext⟩ : ∃ next, s.system.step (.disconnectCall c) = some next ∧
            next.pendingReads = s.system.pendingReads ∧
            (next.calls c).phase = .disconnecting .sweep error := by
          simp [System.step, callStep, hphase, disconnectStep, CallPhase.afterDisconnect]
        have hstep := step_act_free hnext.1
          (by simp [blocked, locks, hphase, DisconnectStage.locks, hruntime])
        exact .after hstep (hsweep (h.step hstep) hpoisoned
          ((hasEntry_congr hnext.2.1).mpr hentry) hnext.2.2)
  cases hreturning : s.returning c with
  | true => exact spoiled_of_returning h hpoisoned hentry hphase hreturning
  | false =>
      obtain ⟨hroutes, hvalid⟩ : s.poisoned .providerRoutes = false ∧
          (ProviderId.fromRaw (s.system.calls c).request.providerId).isSome := by
        simpa [returning, hphase, Option.isSome_iff_ne_none] using hreturning
      obtain ⟨next, hnext⟩ : ∃ next, s.system.step (.disconnectCall c) = some next ∧
          next.pendingReads = s.system.pendingReads ∧
          (next.calls c).phase = .disconnecting .unregister error := by
        simp [System.step, callStep, hphase, disconnectStep, CallPhase.afterDisconnect, hvalid]
      have hstep := step_act_free hnext.1
        (by simp [blocked, locks, hphase, DisconnectStage.locks, hroutes])
      exact .after hstep (hunregister (h.step hstep) hpoisoned
        ((hasEntry_congr hnext.2.1).mpr hentry) hnext.2.2)

/-- Where the table is locked out, a call that has an entry cannot remove it any more. -/
theorem spoiled_of_hasEntry (h : Orderly s) (hpoisoned : s.poisoned .pendingReads = true)
    (hentry : s.system.HasEntry c)
    (hdone : ∀ outcome, (s.system.calls c).phase ≠ .done outcome)
    (hgone : ∀ stage error, (s.system.calls c).phase ≠ .disconnecting stage error) :
    Spoiled c s := by
  have hblocked {s : Guarded} (hpoisoned : s.poisoned .pendingReads = true) :
      s.blocked (.removePending c) = true := by
    simp [blocked, locks, hpoisoned]
  -- a call that has timed out returns without its entry being removed
  have htimedOut : ∀ {s : Guarded}, Orderly s → s.poisoned .pendingReads = true →
      s.system.HasEntry c → (s.system.calls c).phase = .timedOut → Spoiled c s := by
    intro s h hpoisoned hentry hphase
    obtain ⟨next, hnext⟩ : ∃ next, s.system.step (.removePending c) = some next := by
      simp [System.step, callStep, hphase]
    refine ⟨_, not_along_of_not_safe h rfl (step_act_blocked hnext (hblocked hpoisoned)) ?_⟩
    simp [Safe, hpoisoned, hphase, hentry]
  have hwaiting : ∀ {s : Guarded}, Orderly s → s.poisoned .pendingReads = true →
      s.system.HasEntry c → (s.system.calls c).phase = .waiting → Spoiled c s := by
    intro s h hpoisoned hentry hphase
    have hplace := h.senders.hasEntry_iff.mp hentry
    have hinbox := (h.senders.inbox c).resolve_right (by simp [hplace])
    have hstep := step_timeout hphase hinbox
    exact .after hstep (htimedOut (h.step hstep) hpoisoned
      ((hasEntry_congr rfl).mpr hentry) (by simp))
  -- from every other phase the call can be brought there
  cases hphase : (s.system.calls c).phase with
  | timedOut => exact htimedOut h hpoisoned hentry hphase
  | waiting => exact hwaiting h hpoisoned hentry hphase
  | writing route =>
      have hnext : s.system.step (.writeRequest c none) =
          some (s.system.deliverRequest c route.writer) := by
        simp [System.step, callStep, hphase]
      cases hwriter : s.blocked (.writeRequest c none) with
      | true =>
          exact ⟨_, not_along_of_not_safe h rfl (step_act_blocked hnext hwriter)
            fun hsafe => hsafe hwriter hentry⟩
      | false =>
          have hstep := step_act_free hnext hwriter
          exact .after hstep (hwaiting (h.step hstep) hpoisoned
            ((hasEntry_congr rfl).mpr hentry) (by simp))
  | writeFailed error =>
      obtain ⟨next, hnext⟩ : ∃ next, s.system.step (.removePending c) = some next := by
        simp [System.step, callStep, hphase]
      have hstep := step_act_blocked hnext (hblocked hpoisoned)
      have hnext : ((s.system.giveUp (.removePending c)).calls c).phase =
          .disconnecting .removeRoute error := by
        rw [giveUp_phase_of_caller _ rfl, hphase]
        rfl
      exact .after hstep (spoiled_of_disconnecting (h.step hstep) hpoisoned
        ((hasEntry_congr (giveUp_pendingReads _ _)).mpr hentry) hnext)
  | disconnecting stage error => exact absurd hphase (hgone stage error)
  | done outcome => exact absurd hphase (hdone outcome)
  | absent | ready | routing | routed =>
      refine absurd hentry (h.senders.not_hasEntry_of_early ?_)
      rw [hphase]
      rfl

/-- A call that enters an id another one holds. -/
theorem spoiled_of_insertPending (h : Settled s) {route : ProviderRoute}
    (hstep : s.step (.act (.insertPending c)) =
      some { s with system := s.system.insertPending c route })
    (hfree : s.poisoned .pendingReads = false) (hholds : s.Holds c') (hne : c' ≠ c)
    (hid : (s.system.calls c').request.requestId = (s.system.calls c).request.requestId)
    (hfresh : (s.system.calls c).request.requestId ∉ s.system.pendingReads) :
    Spoiled c' { s with system := s.system.insertPending c route } := by
  have hmay : s.mayRemove c' = true := by
    refine hholds.resolve_left ?_
    rintro ⟨id, read, hread, rfl⟩
    obtain ⟨c', -, rfl, rfl⟩ := h.orderly.senders.table.mp hread
    exact hfresh (hid ▸ BTreeMap.mem_of_getElem? hread)
  have hread : (s.system.insertPending c route).pendingReads[
      ((s.system.insertPending c route).calls c').request.requestId]? =
        some (s.system.entry c) := by
    simp [System.insertPending, enter, System.entry, hne, hid]
  refine spoiled_of_mayRemove (h.orderly.step hstep) hfree ?_ hread (Ne.symm hne)
  refine mayRemove_mono hmay ?_ ?_ fun _ hlock => hlock
  · simp [System.insertPending, enter, hne]
  · simp [System.insertPending, enter, hne]

/-- After an action out of order some call comes to leave the table in disorder. -/
theorem Settled.spoiled (h : Settled s) {action : GuardedAction} (hstep : s.step action = some t)
    (hout : ¬ s.InOrder action) :
    ∃ c later, ¬ Along Guarded.step (Leaves c) s (action :: later) := by
  have hlater {c : CallId} (hspoiled : Spoiled c t) :
      ∃ c later, ¬ Along Guarded.step (Leaves c) s (action :: later) := by
    obtain ⟨later, hlater⟩ := hspoiled
    exact ⟨c, later, fun halong => hlater (halong t hstep).2⟩
  cases action with
  | poison lock =>
      obtain rfl := Option.some.inj hstep
      cases lock with
      | pendingReads =>
          obtain ⟨c, hentry⟩ : ∃ c, s.system.HasEntry c := by simpa [InOrder] using hout
          obtain ⟨hfree, hdone⟩ := h.entry hentry
          refine hlater (spoiled_of_hasEntry (h.orderly.step hstep) (by simp) hentry hdone ?_)
          intro stage error hphase
          simp [h.orderly.removed hphase hentry] at hfree
      | _ => exact absurd trivial hout
  | act action =>
      cases action with
      | insertPending c =>
          obtain ⟨hfree, c', hne, hholds, hid⟩ : s.poisoned .pendingReads = false ∧ ∃ c', c' ≠ c ∧
              s.Holds c' ∧ (s.system.calls c').request.requestId =
                (s.system.calls c).request.requestId := by
            simpa [InOrder] using hout
          by_cases hmem : (s.system.calls c).request.requestId ∈ s.system.pendingReads
          · -- a duplicate
            refine ⟨c, [], not_along_of_not_safe h.orderly rfl hstep ?_⟩
            simp [Safe, hfree, hmem]
          · obtain ⟨next, hnext, rfl⟩ := Option.map_eq_some_iff.mp hstep
            have hblocked : s.blocked (.insertPending c) = false := by
              simp [blocked, locks, hfree]
            cases Step.of_step hnext with
            | @insertPending _ route hphase =>
                simp only [hblocked, Bool.false_eq_true, if_false] at hstep hlater
                exact hlater (spoiled_of_insertPending h hstep hfree hholds hne hid hmem)
      | writeRequest c failure =>
          obtain ⟨hblocked, hentry⟩ : s.blocked (.writeRequest c none) = true ∧
              s.system.HasEntry c := by
            simpa [InOrder] using hout
          exact ⟨c, [], not_along_of_not_safe h.orderly rfl hstep
            fun hsafe => hsafe hblocked hentry⟩
      | _ => exact absurd trivial hout

/-- As long as its actions are in order, a run has no call that leaves an entry behind when it
returns an error, or takes the entry of another call out of the table other than by
disconnecting the provider; and an action out of order is followed by one that does. -/
theorem calls_leave_table {runtime : Runtime} {actions : List GuardedAction}
    (hrun : Run Guarded.step InOrder (Guarded.initial runtime) actions s) :
    (∀ c, Along Guarded.step (Leaves c) (Guarded.initial runtime) actions ∧
      ∀ error, (s.system.calls c).phase = .done (.error error) → ¬ s.system.HasEntry c) ∧
    ∀ action t, s.step action = some t → ¬ s.InOrder action →
      ∃ c later, ¬ Along Guarded.step (Leaves c) (Guarded.initial runtime)
        (actions ++ action :: later) := by
  have hsettled (c : CallId) := hrun.along Settled (P := Leaves c)
    (fun h horder hstep => ⟨(h.step horder hstep).1, (h.step horder hstep).2 c⟩)
    (settled_initial runtime)
  refine ⟨fun c => ⟨(hsettled c).2, fun error hdone hentry => ?_⟩, fun action t hstep hout => ?_⟩
  · exact ((hsettled c).1.entry hentry).2 _ hdone
  · obtain ⟨c, later, hlater⟩ := (hsettled 0).1.spoiled hstep hout
    exact ⟨c, later, fun halong => hlater (hrun.along_append.mp halong).2⟩

/-- While a read with id 7 waits, one with id 8 times out: no entry is left of it, and that of
the first is still there. -/
theorem calls_leave_table_timeout : ∃ s : Guarded, ∃ error,
    (s.system.calls 1).phase = .done (.error error) ∧ ¬ s.system.HasEntry 1 ∧
      s.system.HasEntry 0 := by
  -- the ids of the calls that have not begun are 0
  have hids {s : Guarded} {c : CallId} {id : ℕ}
      (hzero : 0 ≠ c → (s.system.calls 0).request.requestId ≠ id)
      (hone : 1 ≠ c → (s.system.calls 1).request.requestId ≠ id)
      (hrest : ∀ n, (s.system.calls (n + 2)).request.requestId = 0) (hid : 0 ≠ id)
      (c' : CallId) (hne : c' ≠ c) (_ : s.Holds c') :
      (s.system.calls c').request.requestId ≠ id :=
    match c' with
    | 0 => hzero hne
    | 1 => hone hne
    | n + 2 => hrest n ▸ hid
  have hfree {s : Guarded} {c : CallId} (h : s.blocked (.writeRequest c none) = false) :
      s.blocked (.writeRequest c none) = true → ¬ s.system.HasEntry c := by
    simp [h]
  have hrun : Run Guarded.step InOrder (Guarded.initial Runtime.new)
      (afterRoutedRead ⟨7, 1, ['p'], ['f'], ['n'], 0, 4⟩ [.writeRequest 0 none,
        .begin 1 ⟨8, 1, ['p'], ['g'], ['m'], 0, 4⟩, .lookupRoute 1, .insertPending 1,
        .writeRequest 1 none, .timeout 1, .removePending 1]) _ :=
    ⟨trivial, _, rfl, trivial, _, rfl, trivial, _, rfl, trivial, _, rfl, trivial, _, rfl,
      trivial, _, rfl, trivial, _, rfl, trivial, _, rfl, trivial, _, rfl,
      Or.inr (hids (fun h => absurd rfl h) (fun _ => by decide) (fun _ => rfl) (by decide)), _, rfl,
      hfree rfl, _, rfl, trivial, _, rfl, trivial, _, rfl,
      Or.inr (hids (fun _ => by decide) (fun h => absurd rfl h) (fun _ => rfl) (by decide)), _,
      rfl,
      hfree rfl, _, rfl, trivial, _, rfl, trivial, _, rfl, rfl⟩
  refine ⟨_, _, rfl, ((calls_leave_table hrun).1 1).2 _ rfl, 7, _, rfl, rfl⟩

end Guarded

end FusePromise
