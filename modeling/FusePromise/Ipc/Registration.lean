import FusePromise.Ipc.Disconnect
import FusePromise.Runtime.Lifecycle

/-!
# The providers of a connection

A provider is given its id, then its token and its route, and then it joins the
list of its session, which is disconnected when the session is over.  The steps
are separate and each of them can fail.  What is followed here is the list of the
providers that a session has still to disconnect, `Conn.due`: a provider leaves it
when its disconnect is complete, and in one other way.  If no token is made or the
stream cannot be cloned, the session ends with a provider that is in no list.
-/

namespace FusePromise

open Machine Transition

/-- The providers that a session has still to disconnect. -/
def Conn.due (conn : Conn) : List ProviderId :=
  match conn.phase with
  | .registered providerId => providerId :: conn.registeredProviders
  | .disconnecting providerId _ none => providerId :: conn.registeredProviders
  | .disconnecting providerId _ (some rest) => providerId :: rest
  | .closing providerIds => providerIds
  | .closed => []
  | _ => conn.registeredProviders

namespace System

variable {s t : System} {action : Action} {k : ConnId} {providerId : ProviderId}

/-! ## What is due -/

theorem due_of_setConn {k' : ConnId} {conn : Conn} (hconns : t.conns = (s.setConn k' conn).conns)
    (hconn : k = k' → providerId ∈ conn.due) (hdue : providerId ∈ (s.conns k).due) :
    providerId ∈ (t.conns k).due := by
  rw [hconns, setConn_conns]
  split
  · exact hconn ‹_›
  · exact hdue

/-- A provider is due until its disconnect is complete, or its session ends before it has a
route. -/
theorem Step.due (h : Step s action t) (hdue : providerId ∈ (s.conns k).due) :
    providerId ∈ (t.conns k).due ∨ action = .registerRoute k none ∨
      ∃ stage next, s.task (.handler k) = some (providerId, stage) ∧
        s.disconnectStep (.handler k) providerId stage = (next, none) := by
  cases h with
  | @written c route hphase =>
      refine Or.inl ?_
      by_cases hk : k = route.writer <;> simpa [hk, Conn.due] using hdue
  | @frame k' request hphase =>
      refine Or.inl (due_of_setConn rfl ?_ hdue)
      rintro rfl
      rw [Conn.due, hphase] at hdue
      generalize hnext : (s.conns k).dispatch request = phase
      have hdispatched := (s.conns k).dispatched request
      rw [hnext] at hdispatched
      cases hdispatched <;> exact hdue
  | @progressFrame k' request hphase =>
      refine Or.inl (due_of_setConn rfl ?_ hdue)
      rintro rfl
      rw [Conn.due, hphase] at hdue
      split <;> exact hdue
  | @noToken k' _ hphase =>
      by_cases hk : k = k'
      · exact Or.inr (Or.inl (by rw [hk]))
      · exact Or.inl (by simpa [hk] using hdue)
  | @registerRoute k' _ token hphase =>
      refine Or.inl (due_of_setConn rfl ?_ hdue)
      rintro rfl
      simpa [Conn.due, hphase, or_comm] using hdue
  | registerProvider hphase =>
      refine Or.inl (due_of_setConn rfl ?_ hdue)
      rintro rfl
      rw [Conn.due, hphase] at hdue
      exact List.mem_cons_of_mem _ hdue
  | @owned k' _ _ request _ hphase =>
      refine Or.inl (due_of_setConn rfl ?_ hdue)
      rintro rfl
      cases request <;> simpa [Conn.due, hphase, OwnerRequest.next] using hdue
  | @unregister k' gone runtime hphase =>
      refine Or.inl (due_of_setConn rfl ?_ hdue)
      rintro rfl
      have hdue : providerId ∈ (s.conns k).registeredProviders := by
        simpa [Conn.due, hphase] using hdue
      by_cases hgone : providerId = gone <;> simp [Conn.due, hgone, hdue]
  | begin | disconnectCall => exact Or.inl (by simpa using hdue)
  | @disconnectConn k' gone stage rest hphase =>
      generalize hnext : s.disconnectStep (.handler k') gone stage = result
      obtain ⟨next, later⟩ := result
      have hconns : next.conns = s.conns := by rw [← disconnectStep_conns (s := s), hnext]
      by_cases hk : k = k'
      · subst hk
        by_cases hover : later = none ∧ providerId = gone
        · obtain ⟨rfl, rfl⟩ := hover
          exact Or.inr (Or.inr ⟨stage, next, task_handler.mpr ⟨rest, hphase⟩, hnext⟩)
        · refine Or.inl ?_
          -- the others of the list are still on it, and so is this one at a later stage
          cases later <;> cases rest <;>
            simp_all [Conn.due, HandlerPhase.afterDisconnect]
      · exact Or.inl (by simpa [hk, hconns] using hdue)
  | connect hphase | endOfStream hphase | progressEnd hphase | replied hphase
  | replyFailed hphase | notOwned hphase | unregisterFailed hphase
  | mounted hphase | notMounted hphase | commit hphase | endMaterialize hphase
  | takePending hphase | unmatched hphase | answer hphase | closeNext hphase =>
      refine Or.inl (due_of_setConn rfl ?_ hdue)
      rintro rfl
      simpa [Conn.due, hphase] using hdue
  | closed hphase =>
      refine Or.inl (due_of_setConn rfl ?_ hdue)
      rintro rfl
      simp [Conn.due, hphase] at hdue
  | _ => exact Or.inl hdue

/-! ## Providers that are gone -/

/-- The provider is disconnected and cannot be routed to. -/
def Gone (s : System) (providerId : ProviderId) : Prop :=
  s.Cut providerId ∧ s.runtime.hasProvider providerId = false

/-- No provider that was known comes back. -/
theorem Step.not_live (hstep : Step s action t) (hsessions : Sessions s)
    (hknown : s.Known providerId) (hdead : s.runtime.hasProvider providerId = false) :
    t.runtime.hasProvider providerId = false := by
  rcases hstep.shared.runtime_cases with hsame | ⟨op, happly, -⟩
  · exact hsame ▸ hdead
  · refine Bool.eq_false_iff.mpr fun hlive => ?_
    rw [happly] at hlive
    have hbefore := (s.runtime.effect_apply op).live (hsessions.bound hknown).2.ne hlive
    simp [hdead] at hbefore

theorem Gone.step (h : s.Gone providerId) (hsessions : Sessions s) (hstep : Step s action t) :
    t.Gone providerId :=
  ⟨h.1.step hsessions hstep, hstep.not_live hsessions h.1.1 h.2⟩

/-- The disconnects that are under way. -/
structure Departing (s : System) : Prop where
  cut : ∀ {providerId : ProviderId} {agent : Agent} {stage : DisconnectStage},
    s.task agent = some (providerId, stage) → stage ≠ .removeRoute → s.Cut providerId
  dead : ∀ {providerId : ProviderId} {agent : Agent} {stage : DisconnectStage},
    s.task agent = some (providerId, stage) → stage ≠ .removeRoute → stage ≠ .unregister →
    s.runtime.hasProvider providerId = false

theorem Departing.dead_step (h : Departing s) (hsessions : Sessions s) (hstep : Step s action t)
    {agent : Agent} {stage : DisconnectStage} (htask : t.task agent = some (providerId, stage))
    (hfirst : stage ≠ .removeRoute) (hsecond : stage ≠ .unregister) :
    t.runtime.hasProvider providerId = false := by
  rcases hstep.task htask hfirst with hold | ⟨before, next, hbefore, -, hnext, -, -, hruntime⟩
  · exact hstep.not_live hsessions (hsessions.task hold) (h.dead hold hfirst hsecond)
  · cases before with
    | removeRoute =>
        -- this section leads to the second one only
        simp only [disconnectStep, Prod.mk.injEq] at hnext
        have hlater := hnext.2
        split at hlater <;> simp_all
    | unregister =>
        obtain ⟨rfl, -⟩ := Prod.mk.inj hnext
        rw [hruntime]
        exact s.runtime.hasProvider_apply_unregister providerId
    | sweep | failing =>
        exact hstep.not_live hsessions (hsessions.task hbefore)
          (h.dead hbefore (by simp) (by simp))

theorem Departing.step (h : Departing s) (hsessions : Sessions s) (hstep : Step s action t) :
    Departing t :=
  ⟨fun htask hstage => hstep.cut hsessions h.cut htask hstage,
    fun htask hfirst hsecond => h.dead_step hsessions hstep htask hfirst hsecond⟩

/-- A disconnect ends after its last section; only the id zero ends it before. -/
theorem disconnectStep_over {agent : Agent} {stage : DisconnectStage} {next : System}
    (h : s.disconnectStep agent providerId stage = (next, none)) :
    stage = .failing [] ∨ providerId = 0 := by
  unfold disconnectStep at h
  split at h <;> obtain ⟨-, hlater⟩ := Prod.mk.inj h
  case h_1 =>
    refine Or.inr ?_
    by_contra hne
    simp [ProviderId.fromRaw, hne] at hlater
  case h_4 => exact Or.inl rfl
  all_goals simp at hlater

/-! ## Accounting for every provider of a connection -/

/-- What the accounts below rest on. -/
structure Tidy (s : System) : Prop where
  sessions : Sessions s
  departing : Departing s
  wellFormed : s.runtime.WellFormed
  tracked : s.runtime.Tracked
  /-- A provider without a route is one that nothing can disconnect. -/
  fresh : ∀ {k : ConnId} {providerId : ProviderId},
    (s.conns k).phase = .registered providerId → s.runtime.Serves providerId

/-- Only a provider that was known is disconnected. -/
theorem Step.serves_unknown (hstep : Step s action t) (hsessions : Sessions s)
    (hserves : s.runtime.Serves providerId) (hlt : providerId < s.runtime.nextProviderId)
    (hunknown : ¬ s.Known providerId) : t.runtime.Serves providerId := by
  refine hstep.serves hserves hlt (fun k hphase => ?_) fun _ _ htask =>
    hunknown (hsessions.task htask)
  refine hunknown (hsessions.handler (k := k) providerId ?_)
  rw [hphase]
  exact List.mem_singleton_self _

theorem Tidy.step (h : Tidy s) (hstep : Step s action t) : Tidy t := by
  have hsessions := h.sessions
  constructor
  case sessions => exact hsessions.step hstep
  case departing => exact h.departing.step hsessions hstep
  case wellFormed =>
    rcases hstep.shared.runtime_cases with hsame | ⟨op, happly, -⟩
    · exact hsame ▸ h.wellFormed
    · exact happly ▸ h.wellFormed.effect (s.runtime.effect_apply op)
  case tracked =>
    rcases hstep.shared.runtime_cases with hsame | ⟨op, happly, -⟩
    · exact hsame ▸ h.tracked
    · exact happly ▸ h.tracked.effect h.wellFormed (s.runtime.effect_apply op)
  case fresh =>
    intro k providerId hphase
    rcases hstep.handler k with hsame | hmove
    · have hbefore : (s.conns k).phase = .registered providerId := hsame ▸ hphase
      obtain ⟨-, hlt, hunknown⟩ := hsessions.fresh hbefore
      exact hstep.serves_unknown hsessions (h.fresh hbefore) hlt hunknown
    · obtain ⟨rfl, rfl⟩ := (hphase ▸ hmove).reached
      cases hstep
      exact h.wellFormed.serves_registerProvider

/-- A provider that the connection was given is due, or gone. -/
structure Accounted (s : System) (k : ConnId) (providerId : ProviderId) : Prop where
  mem : providerId ∈ s.runtime.providers
  due : providerId ∈ (s.conns k).due ∨ s.Gone providerId

theorem Accounted.step (h : s.Accounted k providerId) (htidy : Tidy s) (hstep : Step s action t)
    (hroute : action ≠ .registerRoute k none) : t.Accounted k providerId := by
  refine ⟨?_, ?_⟩
  · rcases hstep.shared.runtime_cases with hsame | ⟨op, happly, -⟩
    · exact hsame ▸ h.mem
    · exact happly ▸ (s.runtime.effect_apply op).mem_providers h.mem
  · rcases h.due with hdue | hgone
    · rcases hstep.due hdue with hdue | hfailed | ⟨stage, next, htask, hover⟩
      · exact Or.inl hdue
      · exact absurd hfailed hroute
      · have hknown := htidy.sessions.task htask
        obtain rfl := (disconnectStep_over hover).resolve_right (htidy.sessions.bound hknown).1
        have hgone : s.Gone providerId := ⟨htidy.departing.cut htask (by simp),
          htidy.departing.dead htask (by simp) (by simp)⟩
        exact Or.inr (hgone.step htidy.sessions hstep)
    · exact Or.inr (hgone.step htidy.sessions hstep)

/-- A provider that no session knows and that no handler is about to give a route. -/
structure Leaked (s : System) (providerId : ProviderId) : Prop where
  serves : s.runtime.Serves providerId
  old : providerId < s.runtime.nextProviderId
  unknown : ¬ s.Known providerId
  unrouted : ∀ k, (s.conns k).phase ≠ .registered providerId

theorem Leaked.step (h : s.Leaked providerId) (hsessions : Sessions s) (hstep : Step s action t) :
    t.Leaked providerId where
  serves := hstep.serves_unknown hsessions h.serves h.old h.unknown
  old := h.old.trans_le hstep.shared.nextProviderId
  unknown := by
    rintro ⟨k, hon⟩
    rcases hstep.shared.registeredOn hon with hon | ⟨hphase, -⟩
    · exact h.unknown ⟨k, hon⟩
    · exact h.unrouted k hphase
  unrouted := by
    intro k hphase
    rcases hstep.handler k with hsame | hmove
    · exact h.unrouted k (hsame ▸ hphase)
    · exact absurd (hphase ▸ hmove).reached.2 h.old.ne

/-- A session that ends before its new provider has a route leaves it behind. -/
theorem Step.leaked (hstep : Step s (.registerRoute k none) t) (htidy : Tidy s) :
    ∃ providerId, (s.conns k).phase = .registered providerId ∧ t.Leaked providerId := by
  cases hstep with
  | @noToken _ providerId hphase =>
      obtain ⟨-, hlt, hunknown⟩ := htidy.sessions.fresh hphase
      refine ⟨providerId, hphase, htidy.fresh hphase, hlt, hunknown, ?_⟩
      intro k' hphase'
      by_cases hk : k' = k
      · simp [hk] at hphase'
      · simp only [endSession, setHandler, setConn_conns, if_neg hk] at hphase'
        exact hk (htidy.sessions.apart hphase' hphase)

/-! ## Whole runs -/

/-- The provider that the connection is given by an action. -/
def given (k : ConnId) (s : System) : Action → List ProviderId
  | .registerProvider k' => if k' = k then [s.runtime.nextProviderId] else []
  | _ => []

/-- The providers that the connection is given in a run. -/
def allocated (k : ConnId) : System → List Action → List ProviderId
  | _, [] => []
  | s, action :: rest =>
      s.given k action ++
        match s.step action with
        | some t => allocated k t rest
        | none => []

theorem mem_given : providerId ∈ s.given k action ↔
    action = .registerProvider k ∧ providerId = s.runtime.nextProviderId := by
  unfold given
  split
  · split <;> simp_all
  · simp_all

theorem Step.accounted (hstep : Step s action t) (hgiven : providerId ∈ s.given k action) :
    t.Accounted k providerId := by
  obtain ⟨rfl, rfl⟩ := mem_given.mp hgiven
  cases hstep
  refine ⟨Std.ExtTreeMap.mem_insert_self, Or.inl ?_⟩
  simp [Conn.due]

theorem Step.registered (hstep : Step s action t)
    (hphase : (t.conns k).phase = .registered providerId) :
    (s.conns k).phase = .registered providerId ∨ providerId ∈ s.given k action := by
  rcases hstep.handler k with hsame | hmove
  · exact Or.inl (hsame ▸ hphase)
  · exact Or.inr (mem_given.mpr (hphase ▸ hmove).reached)

/-- If every provider of the connection gets its route, all of them are accounted for. -/
theorem accounted_of_run {actions : List Action} (htidy : Tidy s)
    (hrun : Run step always s actions t) (hroutes : Action.registerRoute k none ∉ actions)
    (ids : List ProviderId) (hids : ∀ providerId ∈ ids, s.Accounted k providerId) :
    Tidy t ∧ ∀ providerId ∈ ids ++ s.allocated k actions, t.Accounted k providerId := by
  induction actions generalizing s ids with
  | nil =>
      obtain rfl : s = t := hrun
      exact ⟨htidy, by simpa [allocated] using hids⟩
  | cons action rest ih =>
      obtain ⟨-, middle, hmiddle, hrun⟩ := hrun
      have hstep := Step.of_step hmiddle
      rw [List.mem_cons, not_or] at hroutes
      have hnow : ∀ providerId ∈ ids ++ s.given k action, middle.Accounted k providerId := by
        intro providerId hmem
        rcases List.mem_append.mp hmem with hold | hnew
        · exact (hids providerId hold).step htidy hstep (Ne.symm hroutes.1)
        · exact hstep.accounted hnew
      simpa [allocated, hmiddle, List.append_assoc] using
        ih (htidy.step hstep) hrun hroutes.2 _ hnow

theorem Leaked.reaches (h : s.Leaked providerId) (htidy : Tidy s)
    (hrun : Reaches System.step always s t) : t.Leaked providerId := by
  refine (hrun.invariant (fun s => Tidy s ∧ s.Leaked providerId) ?_ ⟨htidy, h⟩).2
  rintro s action t ⟨htidy, h⟩ - hstep
  have hstep := Step.of_step hstep
  exact ⟨htidy.step hstep, h.step htidy.sessions hstep⟩

/-- If one of them does not, it is left behind. -/
theorem leaked_of_run {actions : List Action} (htidy : Tidy s)
    (hrun : Run step always s actions t) (hfailed : Action.registerRoute k none ∈ actions)
    (ids : List ProviderId)
    (hids : ∀ providerId, (s.conns k).phase = .registered providerId → providerId ∈ ids) :
    ∃ providerId ∈ ids ++ s.allocated k actions, t.Leaked providerId := by
  induction actions generalizing s ids with
  | nil => simp at hfailed
  | cons action rest ih =>
      obtain ⟨-, middle, hmiddle, hrun⟩ := hrun
      have hstep := Step.of_step hmiddle
      rcases List.mem_cons.mp hfailed with rfl | hfailed
      · obtain ⟨providerId, hphase, hleaked⟩ := hstep.leaked htidy
        exact ⟨providerId, List.mem_append_left _ (hids providerId hphase),
          hleaked.reaches (htidy.step hstep) ⟨rest, hrun⟩⟩
      · have hnow : ∀ providerId, (middle.conns k).phase = .registered providerId →
            providerId ∈ ids ++ s.given k action := by
          intro providerId hphase
          rcases hstep.registered hphase with hold | hnew
          · exact List.mem_append_left _ (hids providerId hold)
          · exact List.mem_append_right _ hnew
        simpa [allocated, hmiddle, List.append_assoc] using
          ih (htidy.step hstep) hrun hfailed _ hnow

theorem Tidy.initial {policy : CachePolicy} {start : Runtime}
    (hstart : Runtime.withCachePolicy policy = .ok start) : Tidy (initial start) := by
  have hwf := Runtime.wellFormed_of_withCachePolicy hstart
  refine ⟨.initial hwf.nextProvider, ⟨?_, ?_⟩, hwf, Runtime.tracked_of_withCachePolicy hstart, ?_⟩
  · intro providerId agent stage htask
    cases agent <;> simp [task, System.initial, Call.unstarted, Conn.unopened] at htask
  · intro providerId agent stage htask
    cases agent <;> simp [task, System.initial, Call.unstarted, Conn.unopened] at htask
  · simp [System.initial, Conn.unopened]

/-- Nothing is left of the provider. -/
structure Released (s : System) (providerId : ProviderId) : Prop where
  disconnected : ∃ provider, s.runtime.providers[providerId]? = some provider ∧
    provider.state = .disconnected
  route : s.providerRoutes[providerId]? = none
  promises : ∀ (promiseId : Text) (tree : PromiseTree),
    s.runtime.promises[promiseId]? = some tree → tree.providerId = providerId →
    tree.state ≠ .available

theorem Released.not_live (h : s.Released providerId) :
    s.runtime.hasProvider providerId = false := by
  obtain ⟨provider, hprovider, hstate⟩ := h.disconnected
  simp [Runtime.hasProvider, hprovider, hstate]

theorem Accounted.released (h : s.Accounted k providerId) (htracked : s.runtime.Tracked)
    (hclosed : (s.conns k).phase = .closed) : s.Released providerId := by
  obtain ⟨⟨-, hroute⟩, hdead⟩ : s.Gone providerId := by
    refine h.due.resolve_left ?_
    simp [Conn.due, hclosed]
  refine ⟨?_, hroute, ?_⟩
  · obtain ⟨provider, hprovider⟩ :=
      Option.isSome_iff_exists.mp (Std.ExtTreeMap.mem_iff_isSome_getElem?.mp h.mem)
    refine ⟨provider, hprovider, ?_⟩
    cases hstate : provider.state with
    | disconnected => rfl
    | live => simp [Runtime.hasProvider, hprovider, hstate] at hdead
  · rintro promiseId tree htree rfl havailable
    have hlive := (htracked promiseId tree htree).mp havailable
    simp [hdead] at hlive

/-- When a connection is closed, nothing is left of the providers it was given, if and only
if each of them got its token and its route. -/
theorem closed_releases_iff {policy : CachePolicy} {start : Runtime} {actions : List Action}
    (hstart : Runtime.withCachePolicy policy = .ok start)
    (hrun : Run step always (initial start) actions s)
    (hclosed : (s.conns k).phase = .closed) :
    (∀ providerId ∈ (initial start).allocated k actions, s.Released providerId) ↔
      Action.registerRoute k none ∉ actions := by
  have htidy := Tidy.initial hstart
  constructor
  · intro hreleased hfailed
    obtain ⟨providerId, hmem, hleaked⟩ := leaked_of_run htidy hrun hfailed []
      (by simp [System.initial, Conn.unopened])
    have hdead := (hreleased providerId hmem).not_live
    simp [hleaked.serves.live] at hdead
  · intro hroutes providerId hmem
    obtain ⟨htidy, haccounted⟩ := accounted_of_run htidy hrun hroutes [] (by simp)
    exact (haccounted providerId hmem).released htidy.tracked hclosed

/-- A provider is registered and its connection closes. -/
theorem closed_releases_provider :
    ∃ s : System, (s.conns 0).phase = .closed ∧ s.Released 1 := by
  have hrun : ∃ s, Run step always (initial Runtime.new) [.connect 0, .frame 0 (.hello 1 1),
      .reply 0 true, .frame 0 .providerRegister, .registerProvider 0, .registerRoute 0 (some 5),
      .reply 0 true, .endOfStream 0, .close 0, .disconnectConn 0, .disconnectConn 0,
      .disconnectConn 0, .disconnectConn 0, .close 0] s ∧ (s.conns 0).phase = .closed :=
    ⟨_, ⟨trivial, _, rfl, trivial, _, rfl, trivial, _, rfl, trivial, _, rfl, trivial, _, rfl,
      trivial, _, rfl, trivial, _, rfl, trivial, _, rfl, trivial, _, rfl, trivial, _, rfl,
      trivial, _, rfl, trivial, _, rfl, trivial, _, rfl, trivial, _, rfl, rfl⟩, rfl⟩
  obtain ⟨s, hrun, hclosed⟩ := hrun
  have hstart : Runtime.withCachePolicy .noCache = .ok Runtime.new := rfl
  exact ⟨s, hclosed, (closed_releases_iff hstart hrun hclosed).mpr (by simp) 1 (by decide)⟩

/-- No token can be made for provider 1.  Its connection is closed, and it is still live. -/
theorem closed_leaves_live_provider :
    ∃ (actions : List Action) (s : System), Run step always (initial Runtime.new) actions s ∧
      (s.conns 0).phase = .closed ∧ 1 ∈ (initial Runtime.new).allocated 0 actions ∧
      s.runtime.hasProvider 1 = true :=
  ⟨[.connect 0, .frame 0 (.hello 1 1), .reply 0 true, .frame 0 .providerRegister,
      .registerProvider 0, .registerRoute 0 none, .close 0], _,
    ⟨trivial, _, rfl, trivial, _, rfl, trivial, _, rfl, trivial, _, rfl, trivial, _, rfl,
      trivial, _, rfl, trivial, _, rfl, rfl⟩, rfl, by decide, by decide⟩

end System

end FusePromise
