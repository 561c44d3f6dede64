import FusePromise.Ipc.Outcomes

/-!
# Disconnecting a provider

`disconnect_provider_id` removes the route, marks the provider in the runtime
and sweeps the table of pending reads, each under its own lock.  A caller that
found the route before and has not inserted its entry yet escapes the sweep, and
its entry stays behind.  When no caller of the provider is in that gap while the
table is swept, no read of the provider is pending when the disconnect is over,
nor ever after.
-/

namespace FusePromise

open Machine Transition

/-- The route a caller holds before its request is written. -/
def CallPhase.route? : CallPhase → Option ProviderRoute
  | .routed route | .writing route => some route
  | _ => none

/-- A caller that has tried to write its request. -/
def CallPhase.tried : CallPhase → Bool
  | .writeFailed _ | .disconnecting _ _ | .waiting | .timedOut => true
  | _ => false

/-- The providers a handler is going to disconnect. -/
def HandlerPhase.leaving : HandlerPhase → List ProviderId
  | .unregistering providerId => [providerId]
  | .disconnecting providerId _ rest => providerId :: rest.getD []
  | .closing providerIds => providerIds
  | _ => []

namespace System

variable {s t : System} {action : Action}

/-- The provider was registered, on this connection. -/
def RegisteredOn (s : System) (k : ConnId) (providerId : ProviderId) : Prop :=
  ∃ registration ∈ s.registrations, registration.conn = k ∧ registration.providerId = providerId

/-- The provider was registered. -/
def Known (s : System) (providerId : ProviderId) : Prop :=
  ∃ k, s.RegisteredOn k providerId

/-- Provider ids are given out once, and only providers that were registered are
routed to or disconnected. -/
structure Sessions (s : System) : Prop where
  next : 0 < s.runtime.nextProviderId
  bound : ∀ {providerId : ProviderId}, s.Known providerId →
    providerId ≠ 0 ∧ providerId < s.runtime.nextProviderId
  unique : ∀ {k k' : ConnId} {providerId : ProviderId}, s.RegisteredOn k providerId →
    s.RegisteredOn k' providerId → k = k'
  fresh : ∀ {k : ConnId} {providerId : ProviderId},
    (s.conns k).phase = .registered providerId →
    providerId ≠ 0 ∧ providerId < s.runtime.nextProviderId ∧ ¬ s.Known providerId
  apart : ∀ {k k' : ConnId} {providerId : ProviderId},
    (s.conns k).phase = .registered providerId → (s.conns k').phase = .registered providerId →
    k = k'
  route : ∀ {providerId : ProviderId} {route : ProviderRoute},
    s.providerRoutes[providerId]? = some route → s.RegisteredOn route.writer providerId
  caller : ∀ {c : CallId} {route : ProviderRoute}, (s.calls c).phase.route? = some route →
    s.RegisteredOn route.writer (s.calls c).request.providerId
  tried : ∀ {c : CallId}, (s.calls c).phase.tried → s.Known (s.calls c).request.providerId
  sent : ∀ {k : ConnId}, (s.conns k).sent ≠ [] → ∃ providerId, s.RegisteredOn k providerId
  session : ∀ {k : ConnId}, ∀ providerId ∈ (s.conns k).registeredProviders,
    s.RegisteredOn k providerId
  handler : ∀ {k : ConnId}, ∀ providerId ∈ (s.conns k).phase.leaving, s.Known providerId
  disconnected : ∀ providerId ∈ s.disconnected, s.Known providerId

/-! ## What a step does to the providers -/

/-- A handler disconnects the providers of its session, or one whose token it was shown. -/
theorem HandlerStep.leaving {k : ConnId} {phase phase' : HandlerPhase}
    (h : HandlerStep s action k phase phase') {providerId : ProviderId}
    (hleaving : providerId ∈ phase'.leaving) :
    providerId ∈ phase.leaving ∨ providerId ∈ (s.conns k).registeredProviders ∨
      (∃ token, phase = .validating providerId token .unregister ∧
        ∃ route, s.providerRoutes[providerId]? = some route ∧ route.ownerToken = token) := by
  cases h with
  | dispatch _ hphase =>
      cases hphase with
      | closing => exact Or.inr (Or.inl hleaving)
      | _ => simp [HandlerPhase.leaving] at hleaving
  | progress hphase => rcases hphase with rfl | rfl <;> simp [HandlerPhase.leaving] at hleaving
  | endSession => exact Or.inr (Or.inl hleaving)
  | @owned providerId' token request route hroute htoken =>
      cases request with
      | unregister =>
          obtain rfl : providerId = providerId' := by
            simpa [OwnerRequest.next, HandlerPhase.leaving] using hleaving
          exact Or.inr (Or.inr ⟨token, rfl, route, hroute, htoken⟩)
      | commit nodes => simp [OwnerRequest.next, HandlerPhase.leaving] at hleaving
  | unregister => exact Or.inl (by simpa [HandlerPhase.leaving] using hleaving)
  | disconnect providerId' stage rest later =>
      refine Or.inl ?_
      cases later with
      | some stage => exact hleaving
      | none =>
          cases rest with
          | none => simp [HandlerPhase.afterDisconnect, HandlerPhase.leaving] at hleaving
          | some providerIds => exact List.mem_cons_of_mem _ hleaving
  | closeNext => exact Or.inl (by simpa [HandlerPhase.leaving] using hleaving)
  | _ => simp [HandlerPhase.leaving] at hleaving

/-- The phases that a handler enters for one reason only, and the reason. -/
theorem HandlerStep.reached {k : ConnId} {phase phase' : HandlerPhase}
    (h : HandlerStep s action k phase phase') :
    match phase' with
    | .registered providerId =>
        action = .registerProvider k ∧ providerId = s.runtime.nextProviderId
    | .taking response => action = .frame k (.providerReadResponse response)
    | .validating providerId token .unregister =>
        action = .frame k (.providerUnregister providerId token)
    | .unregistering providerId => ∃ route, s.providerRoutes[providerId]? = some route ∧
        phase = .validating providerId route.ownerToken .unregister
    | .disconnecting _ stage _ => stage = .removeRoute ∨ action = .disconnectConn k
    | _ => True := by
  cases h with
  | register haction => exact ⟨haction, rfl⟩
  | dispatch haction hdispatched =>
      cases hdispatched with
      | taking | unregister => exact haction
      | _ => trivial
  | progress hprogress => rcases hprogress with rfl | rfl <;> trivial
  | @owned _ _ request route hroute htoken =>
      cases request with
      | unregister => exact ⟨route, hroute, by rw [htoken]⟩
      | commit nodes => trivial
  | unregister | closeNext => exact Or.inl rfl
  | disconnect _ _ rest later haction =>
      cases later with
      | some stage => exact Or.inr haction
      | none => cases rest <;> trivial
  | _ => trivial

theorem SharedChange.registrations (h : SharedChange s t action) :
    t.registrations = s.registrations ∨ ∃ k providerId token,
      (s.conns k).phase = .registered providerId ∧ action = .registerRoute k (some token) ∧
        t.registrations = ⟨k, (s.conns k).received.length, providerId⟩ :: s.registrations := by
  cases h with
  | quiet hmaps | runtime _ hmaps | insert _ _ hmaps | remove _ _ hmaps | take _ _ hmaps =>
      exact Or.inl hmaps.registrations
  | disconnect _ _ _ _ hregistrations => exact Or.inl hregistrations
  | addRoute hphase haction _ hregistrations =>
      exact Or.inr ⟨_, _, _, hphase, haction, hregistrations⟩

theorem SharedChange.registeredOn (h : SharedChange s t action) {k : ConnId}
    {providerId : ProviderId} (hon : t.RegisteredOn k providerId) :
    s.RegisteredOn k providerId ∨
      (s.conns k).phase = .registered providerId ∧
        ∃ token, action = .registerRoute k (some token) := by
  obtain ⟨registration, hmem, rfl, rfl⟩ := hon
  rcases h.registrations with hsame | ⟨k, providerId, token, hphase, haction, hnew⟩
  · exact Or.inl ⟨registration, hsame ▸ hmem, rfl, rfl⟩
  · rw [hnew, List.mem_cons] at hmem
    rcases hmem with rfl | hmem
    · exact Or.inr ⟨hphase, token, haction⟩
    · exact Or.inl ⟨registration, hmem, rfl, rfl⟩

theorem RegisteredOn.mono (h : SharedChange s t action) {k : ConnId} {providerId : ProviderId}
    (hon : s.RegisteredOn k providerId) : t.RegisteredOn k providerId := by
  obtain ⟨registration, hmem, hrest⟩ := hon
  rcases h.registrations with hsame | ⟨_, _, _, -, -, hnew⟩
  · exact ⟨registration, hsame ▸ hmem, hrest⟩
  · exact ⟨registration, hnew ▸ List.mem_cons_of_mem _ hmem, hrest⟩

theorem Known.mono (h : SharedChange s t action) {providerId : ProviderId}
    (hknown : s.Known providerId) : t.Known providerId := by
  obtain ⟨k, hon⟩ := hknown
  exact ⟨k, hon.mono h⟩

theorem apply_nextProviderId (runtime : Runtime) (op : RuntimeOp) :
    runtime.nextProviderId ≤ (runtime.apply op).nextProviderId := by
  by_cases hop : op = .registerProvider
  · subst hop
    exact Nat.le_succ _
  · exact ((runtime.effect_apply op).nextProviderId hop).ge

theorem SharedChange.nextProviderId (h : SharedChange s t action) :
    s.runtime.nextProviderId ≤ t.runtime.nextProviderId := by
  cases h with
  | runtime _ _ hruntime =>
      rw [hruntime]
      exact apply_nextProviderId _ _
  | disconnect _ _ hnext _ _ _ hruntime =>
      rw [hruntime]
      rcases disconnectStep_runtime hnext with hsame | ⟨-, hnext⟩
      · rw [hsame]
      · rw [hnext]
        exact apply_nextProviderId _ _
  | quiet _ hruntime | insert _ _ _ hruntime | remove _ _ _ hruntime | take _ _ _ hruntime
  | addRoute _ _ _ _ _ hruntime => rw [hruntime]

/-- The operation a step does on the runtime, and the disconnect it is part of. -/
theorem SharedChange.runtime_cases (h : SharedChange s t action) :
    t.runtime = s.runtime ∨ ∃ op, t.runtime = s.runtime.apply op ∧
      ∀ other, op = .unregisterProvider other →
        (∃ k, (s.conns k).phase = .unregistering other) ∨
          ∃ agent stage, s.task agent = some (other, stage) := by
  cases h with
  | quiet _ hruntime | insert _ _ _ hruntime | remove _ _ _ hruntime | take _ _ _ hruntime
  | addRoute _ _ _ _ _ hruntime => exact Or.inl hruntime
  | @runtime op hcause _ hruntime =>
      refine Or.inr ⟨op, hruntime, ?_⟩
      rintro other rfl
      cases hcause with
      | unregister hphase => exact Or.inl ⟨_, hphase⟩
  | disconnect htask _ hnext _ _ _ hruntime =>
      rcases disconnectStep_runtime hnext with hsame | ⟨-, happly⟩
      · exact Or.inl (hruntime.trans hsame)
      · refine Or.inr ⟨_, hruntime.trans happly, ?_⟩
        rintro other hop
        obtain rfl := RuntimeOp.unregisterProvider.inj hop
        exact Or.inr ⟨_, _, htask⟩

/-- Only a disconnect that is under way takes a provider out of service. -/
theorem Step.serves (hstep : Step s action t) (hserves : s.runtime.Serves providerId)
    (hlt : providerId < s.runtime.nextProviderId)
    (hphase : ∀ k, (s.conns k).phase ≠ .unregistering providerId)
    (htask : ∀ agent stage, s.task agent ≠ some (providerId, stage)) :
    t.runtime.Serves providerId := by
  rcases hstep.shared.runtime_cases with hsame | ⟨op, happly, hcause⟩
  · exact hsame ▸ hserves
  · rw [happly]
    refine (s.runtime.effect_apply op).serves hserves ?_ (ne_of_lt hlt)
    rintro rfl
    rcases hcause providerId rfl with ⟨k, hk⟩ | ⟨agent, stage, hagent⟩
    · exact hphase k hk
    · exact htask agent stage hagent

theorem SharedChange.route (h : SharedChange s t action) {providerId : ProviderId}
    {route : ProviderRoute} (hroute : t.providerRoutes[providerId]? = some route) :
    s.providerRoutes[providerId]? = some route ∨
      ∃ k token, (s.conns k).phase = .registered providerId ∧ route = ⟨k, token⟩ ∧
        t.RegisteredOn k providerId := by
  cases h with
  | quiet hmaps | runtime _ hmaps | insert _ _ hmaps | remove _ _ hmaps | take _ _ hmaps =>
      exact Or.inl (hmaps.providerRoutes ▸ hroute)
  | disconnect _ _ hnext hroutes =>
      rw [hroutes] at hroute
      rcases disconnectStep_providerRoutes hnext with hsame | ⟨-, herase⟩
      · exact Or.inl (hsame ▸ hroute)
      · rw [herase, Std.ExtTreeMap.getElem?_erase] at hroute
        split at hroute
        · simp at hroute
        · exact Or.inl hroute
  | @addRoute k providerId' token hphase _ hroutes hregistrations =>
      rw [hroutes, Std.ExtTreeMap.getElem?_insert] at hroute
      split at hroute
      · rename_i heq
        rw [Std.LawfulEqCmp.compare_eq_iff_eq] at heq
        subst heq
        exact Or.inr ⟨k, token, hphase, (Option.some.inj hroute).symm, _,
          hregistrations ▸ List.mem_cons_self, rfl, rfl⟩
      · exact Or.inl hroute

theorem task_caller {c : CallId} {providerId : ProviderId} {stage : DisconnectStage} :
    s.task (.caller c) = some (providerId, stage) ↔
      (s.calls c).request.providerId = providerId ∧
        ∃ error, (s.calls c).phase = .disconnecting stage error := by
  simp only [System.task]
  split
  · rename_i stage' error hphase
    simp only [Option.some.injEq, Prod.mk.injEq, hphase, CallPhase.disconnecting.injEq,
      exists_and_left, exists_eq', and_true]
  · rename_i hphase
    refine iff_of_false (by simp) ?_
    rintro ⟨-, error, h⟩
    exact hphase _ _ h

theorem task_handler {k : ConnId} {providerId : ProviderId} {stage : DisconnectStage} :
    s.task (.handler k) = some (providerId, stage) ↔
      ∃ rest, (s.conns k).phase = .disconnecting providerId stage rest := by
  simp only [System.task]
  split
  · rename_i providerId' stage' rest hphase
    simp only [Option.some.injEq, Prod.mk.injEq, hphase, HandlerPhase.disconnecting.injEq]
    simp
  · rename_i hphase
    refine iff_of_false (by simp) ?_
    rintro ⟨rest, h⟩
    exact hphase _ _ _ h

/-- What a provider disconnect was begun for stays known. -/
theorem Sessions.task (h : Sessions s) {agent : Agent} {providerId : ProviderId}
    {stage : DisconnectStage} (htask : s.task agent = some (providerId, stage)) :
    s.Known providerId := by
  cases agent with
  | caller c =>
      obtain ⟨rfl, error, hphase⟩ := task_caller.mp htask
      exact h.tried (by rw [hphase]; rfl)
  | handler k =>
      obtain ⟨rest, hphase⟩ := task_handler.mp htask
      exact h.handler _ (by rw [hphase]; exact List.mem_cons_self)

theorem PhaseStep.route_cases {c : CallId} {phase phase' : CallPhase}
    (h : PhaseStep s action c phase phase') {route : ProviderRoute}
    (hroute : phase'.route? = some route) :
    phase.route? = some route ∨
      s.providerRoutes[(s.calls c).request.providerId]? = some route := by
  cases h with
  | route hfound => exact Or.inr (Option.some.inj hroute ▸ hfound)
  | insert => exact Or.inl hroute
  | disconnect stage error later =>
      cases later <;> simp [CallPhase.afterDisconnect, CallPhase.route?] at hroute
  | _ => simp [CallPhase.route?] at hroute

theorem PhaseStep.tried_cases {c : CallId} {phase phase' : CallPhase}
    (h : PhaseStep s action c phase phase') (htried : phase'.tried) :
    phase.tried ∨ ∃ route, phase.route? = some route := by
  cases h with
  | writeFailed route | written route => exact Or.inr ⟨route, rfl⟩
  | removeFailed | disconnect | timeout => exact Or.inl rfl
  | _ => simp [CallPhase.tried] at htried

/-- A caller's route leads to a connection that registered the provider. -/
theorem Sessions.caller_step (h : Sessions s) (hstep : Step s action t) {c : CallId}
    {route : ProviderRoute} (hroute : (t.calls c).phase.route? = some route) :
    t.RegisteredOn route.writer (t.calls c).request.providerId := by
  have hshared := hstep.shared
  cases hstep.call c with
  | begin _ _ hphase =>
      rcases hphase with hphase | ⟨_, hphase⟩ <;> simp [hphase, CallPhase.route?] at hroute
  | move hrequest hphase =>
      rw [hrequest]
      rcases hphase with hphase | hphase
      · exact (h.caller (hphase ▸ hroute)).mono hshared
      · rcases hphase.route_cases hroute with hold | hfound
        · exact (h.caller hold).mono hshared
        · exact (h.route hfound).mono hshared
  | answer _ _ _ hrequest hphase =>
      rw [hrequest]
      exact (h.caller (hphase ▸ hroute)).mono hshared

theorem Sessions.tried_step (h : Sessions s) (hstep : Step s action t) {c : CallId}
    (htried : (t.calls c).phase.tried) : t.Known (t.calls c).request.providerId := by
  have hshared := hstep.shared
  cases hstep.call c with
  | begin _ _ hphase =>
      rcases hphase with hphase | ⟨_, hphase⟩ <;> simp [hphase, CallPhase.tried] at htried
  | move hrequest hphase =>
      rw [hrequest]
      rcases hphase with hphase | hphase
      · exact (h.tried (hphase ▸ htried)).mono hshared
      · rcases hphase.tried_cases htried with hold | ⟨route, hroute⟩
        · exact (h.tried hold).mono hshared
        · exact ⟨_, (h.caller hroute).mono hshared⟩
  | answer _ _ _ hrequest hphase =>
      rw [hrequest]
      exact (h.tried (hphase ▸ htried)).mono hshared

theorem Sessions.session_step (h : Sessions s) (hstep : Step s action t) {k : ConnId}
    {providerId : ProviderId} (hmem : providerId ∈ (t.conns k).registeredProviders) :
    t.RegisteredOn k providerId := by
  have hshared := hstep.shared
  cases hstep.conn k with
  | same _ _ hproviders | frame _ _ _ hproviders | take _ _ _ _ hproviders =>
      exact (h.session providerId (hproviders ▸ hmem)).mono hshared
  | quiet _ _ hproviders => exact (h.session providerId (hproviders hmem)).mono hshared
  | register providerId' _ _ hproviders hregistration =>
      rw [hproviders, List.mem_append, List.mem_singleton] at hmem
      rcases hmem with hmem | rfl
      · exact (h.session providerId hmem).mono hshared
      · exact ⟨_, hregistration ▸ List.mem_cons_self, rfl, rfl⟩

/-- A provider id that was given out and not used yet. -/
theorem Sessions.fresh_step (h : Sessions s) (hstep : Step s action t) {k : ConnId}
    {providerId : ProviderId} (hphase : (t.conns k).phase = .registered providerId) :
    providerId ≠ 0 ∧ providerId < t.runtime.nextProviderId ∧ ¬ t.Known providerId := by
  have hshared := hstep.shared
  rcases hstep.handler k with hsame | hmove
  · obtain ⟨hne, hlt, hunknown⟩ := h.fresh (hsame ▸ hphase)
    refine ⟨hne, hlt.trans_le hshared.nextProviderId, ?_⟩
    rintro ⟨k', hon⟩
    rcases hshared.registeredOn hon with hon | ⟨hphase', token, rfl⟩
    · exact hunknown ⟨k', hon⟩
    · -- the handler that has just used the id is not waiting to use it
      obtain rfl : k = k' := h.apart (hsame ▸ hphase) hphase'
      cases hstep
      simp at hphase
  · obtain ⟨rfl, rfl⟩ := (hphase ▸ hmove).reached
    have hnext : t.runtime.nextProviderId = s.runtime.nextProviderId + 1 := by
      cases hstep
      rfl
    refine ⟨h.next.ne', hnext ▸ Nat.lt_succ_self _, ?_⟩
    rintro ⟨k', hon⟩
    rcases hshared.registeredOn hon with hon | ⟨-, token, haction⟩
    · exact absurd (h.bound ⟨k', hon⟩).2 (lt_irrefl _)
    · simp at haction

theorem Sessions.apart_step (h : Sessions s) (hstep : Step s action t) {k k' : ConnId}
    {providerId : ProviderId} (hphase : (t.conns k).phase = .registered providerId)
    (hphase' : (t.conns k').phase = .registered providerId) : k = k' := by
  rcases hstep.handler k with hsame | hmove <;> rcases hstep.handler k' with hsame' | hmove'
  · exact h.apart (hsame ▸ hphase) (hsame' ▸ hphase')
  · obtain ⟨-, rfl⟩ := (hphase' ▸ hmove').reached
    exact absurd (h.fresh (hsame ▸ hphase)).2.1 (lt_irrefl _)
  · obtain ⟨-, rfl⟩ := (hphase ▸ hmove).reached
    exact absurd (h.fresh (hsame' ▸ hphase')).2.1 (lt_irrefl _)
  · obtain ⟨haction, -⟩ := (hphase ▸ hmove).reached
    obtain ⟨haction', -⟩ := (hphase' ▸ hmove').reached
    exact Action.registerProvider.inj (haction.symm.trans haction')

theorem SharedChange.mem_disconnected (h : SharedChange s t action) {providerId : ProviderId}
    (hmem : providerId ∈ t.disconnected) :
    providerId ∈ s.disconnected ∨ ∃ agent, s.task agent = some (providerId, .failing []) := by
  cases h with
  | quiet hmaps | runtime _ hmaps | insert _ _ hmaps | remove _ _ hmaps | take _ _ hmaps =>
      exact Or.inl (hmaps.disconnected ▸ hmem)
  | addRoute _ _ _ _ hdisconnected => exact Or.inl (hdisconnected ▸ hmem)
  | @disconnect agent providerId' _ _ _ htask _ hnext _ _ hdisconnected =>
      rw [hdisconnected] at hmem
      rcases disconnectStep_disconnected hnext with hsame | ⟨rfl, hnew⟩
      · exact Or.inl (hsame ▸ hmem)
      · rw [hnew, List.mem_cons] at hmem
        rcases hmem with rfl | hmem
        · exact Or.inr ⟨agent, htask⟩
        · exact Or.inl hmem

theorem Sessions.step (h : Sessions s) (hstep : Step s action t) : Sessions t := by
  have hshared := hstep.shared
  constructor
  case next => exact h.next.trans_le hshared.nextProviderId
  case bound =>
    rintro providerId ⟨k, hon⟩
    rcases hshared.registeredOn hon with hon | ⟨hphase, -⟩
    · obtain ⟨hne, hlt⟩ := h.bound ⟨k, hon⟩
      exact ⟨hne, hlt.trans_le hshared.nextProviderId⟩
    · obtain ⟨hne, hlt, -⟩ := h.fresh hphase
      exact ⟨hne, hlt.trans_le hshared.nextProviderId⟩
  -- a provider that registers now is fresh, so it is on no other connection
  case unique =>
    intro k k' providerId hon hon'
    rcases hshared.registeredOn hon with hon | ⟨hphase, -⟩ <;>
      rcases hshared.registeredOn hon' with hon' | ⟨hphase', -⟩
    · exact h.unique hon hon'
    · exact absurd ⟨k, hon⟩ (h.fresh hphase').2.2
    · exact absurd ⟨k', hon'⟩ (h.fresh hphase).2.2
    · exact h.apart hphase hphase'
  case fresh => exact fun hphase => h.fresh_step hstep hphase
  case apart => exact fun hphase hphase' => h.apart_step hstep hphase hphase'
  case route =>
    intro providerId route hroute
    rcases hshared.route hroute with hold | ⟨k, token, -, rfl, hon⟩
    · exact (h.route hold).mono hshared
    · exact hon
  case caller => exact fun hroute => h.caller_step hstep hroute
  case tried => exact fun htried => h.tried_step hstep htried
  case sent =>
    intro k hsent
    rcases hstep.sent k with hsame | ⟨c, route, hphase, rfl, -⟩
    · obtain ⟨providerId, hon⟩ := h.sent (hsame ▸ hsent)
      exact ⟨providerId, hon.mono hshared⟩
    · exact ⟨_, (h.caller (by rw [hphase]; rfl)).mono hshared⟩
  case session => exact fun providerId hmem => h.session_step hstep hmem
  case handler =>
    intro k providerId hleaving
    rcases hstep.handler k with hsame | hmove
    · exact (h.handler providerId (hsame ▸ hleaving)).mono hshared
    · rcases hmove.leaving hleaving with hold | hsession | ⟨_, -, route, hroute, -⟩
      · exact (h.handler providerId hold).mono hshared
      · exact ⟨k, (h.session providerId hsession).mono hshared⟩
      · exact ⟨_, (h.route hroute).mono hshared⟩
  case disconnected =>
    intro providerId hmem
    rcases hshared.mem_disconnected hmem with hold | ⟨agent, htask⟩
    · exact (h.disconnected providerId hold).mono hshared
    · exact (h.task htask).mono hshared

theorem Sessions.initial {runtime : Runtime} (hnext : 0 < runtime.nextProviderId) :
    Sessions (initial runtime) := by
  constructor <;>
    simp [System.initial, Known, RegisteredOn, Call.unstarted, Conn.unopened, CallPhase.route?,
      CallPhase.tried, HandlerPhase.leaving, hnext]

/-! ## The table after a disconnect -/

/-- The provider cannot be routed to any more. -/
def Cut (s : System) (providerId : ProviderId) : Prop :=
  s.Known providerId ∧ s.providerRoutes[providerId]? = none

/-- Nothing of the provider is pending, and no caller is about to insert a read for it. -/
structure Clean (s : System) (providerId : ProviderId) : Prop where
  cut : s.Cut providerId
  notRouted : ∀ {c : CallId} {route : ProviderRoute}, (s.calls c).phase = .routed route →
    (s.calls c).request.providerId ≠ providerId
  notPending : ∀ {id : ℕ} {read : PendingRead}, s.pendingReads[id]? = some read →
    read.providerId ≠ providerId

/-- No route comes back, since no id is given out twice. -/
theorem Cut.step (hsessions : Sessions s) (hstep : Step s action t) {providerId : ProviderId}
    (h : s.Cut providerId) : t.Cut providerId := by
  have hshared := hstep.shared
  refine ⟨h.1.mono hshared, ?_⟩
  cases hroute : t.providerRoutes[providerId]? with
  | none => rfl
  | some route =>
      rcases hshared.route hroute with hold | ⟨k, token, hphase, -⟩
      · exact absurd (h.2.symm.trans hold) (by simp)
      · exact absurd h.1 (hsessions.fresh hphase).2.2

theorem PhaseStep.routed_cases {c : CallId} {phase phase' : CallPhase}
    (h : PhaseStep s action c phase phase') {route : ProviderRoute}
    (hrouted : phase' = .routed route) :
    s.providerRoutes[(s.calls c).request.providerId]? = some route := by
  cases h with
  | route hfound => exact CallPhase.routed.inj hrouted ▸ hfound
  | disconnect stage error later => cases later <;> simp [CallPhase.afterDisconnect] at hrouted
  | _ => simp at hrouted

/-- An entry of the table was there before, or is the one of a routed caller. -/
theorem SharedChange.pending (h : SharedChange s t action) {id : ℕ} {read : PendingRead}
    (hread : t.pendingReads[id]? = some read) :
    s.pendingReads[id]? = some read ∨
      ∃ c route, (s.calls c).phase = .routed route ∧ read = s.entry c := by
  have herase : ∀ removed : ℕ, (s.pendingReads.erase removed)[id]? = some read →
      s.pendingReads[id]? = some read := by
    intro removed hsome
    rw [Std.ExtTreeMap.getElem?_erase] at hsome
    split at hsome
    · simp at hsome
    · exact hsome
  cases h with
  | quiet _ _ hpending | runtime _ _ _ hpending | addRoute _ _ _ _ _ _ hpending =>
      exact Or.inl (hpending ▸ hread)
  | remove _ _ _ _ hpending | take _ _ _ _ hpending =>
      exact Or.inl (herase _ (hpending ▸ hread))
  | @insert c route hphase _ _ _ hpending =>
      rw [hpending, Std.ExtTreeMap.getElem?_insert] at hread
      split at hread
      · exact Or.inr ⟨c, route, hphase, (Option.some.inj hread).symm⟩
      · exact Or.inl (herase _ hread)
  | disconnect _ _ hnext _ _ _ _ hpending =>
      rw [hpending] at hread
      rcases disconnectStep_pendingReads hnext with hsame | ⟨-, hfilter⟩
      · exact Or.inl (hsame ▸ hread)
      · rw [hfilter, Std.ExtTreeMap.getElem?_filter', Option.filter_eq_some_iff] at hread
        exact Or.inl hread.1

/-- Without a route no caller gets to the point of inserting a read. -/
theorem Cut.notRouted_step {providerId : ProviderId} (h : s.Cut providerId)
    (hstep : Step s action t)
    (hnone : ∀ {c : CallId} {route : ProviderRoute}, (s.calls c).phase = .routed route →
      (s.calls c).request.providerId ≠ providerId)
    {c : CallId} {route : ProviderRoute} (hrouted : (t.calls c).phase = .routed route) :
    (t.calls c).request.providerId ≠ providerId := by
  cases hstep.call c with
  | begin _ _ hphase => rcases hphase with hphase | ⟨_, hphase⟩ <;> simp [hphase] at hrouted
  | move hrequest hphase =>
      rw [hrequest]
      rcases hphase with hphase | hphase
      · exact hnone (hphase ▸ hrouted)
      · rintro rfl
        have hfound := hphase.routed_cases hrouted
        simp [h.2] at hfound
  | answer _ _ _ hrequest hphase =>
      rw [hrequest]
      exact hnone (hphase ▸ hrouted)

theorem Clean.step (hsessions : Sessions s) (hstep : Step s action t) {providerId : ProviderId}
    (h : s.Clean providerId) : t.Clean providerId := by
  refine ⟨h.cut.step hsessions hstep, h.cut.notRouted_step hstep h.notRouted, ?_⟩
  intro id read hread
  rcases hstep.shared.pending hread with hold | ⟨c, route, hphase, rfl⟩
  · exact h.notPending hold
  · exact h.notRouted hphase

theorem PhaseStep.disconnecting_cases {c : CallId} {phase phase' : CallPhase}
    (h : PhaseStep s action c phase phase') {stage : DisconnectStage} {error : IoError}
    (hphase : phase' = .disconnecting stage error) (hstage : stage ≠ .removeRoute) :
    action = .disconnectCall c := by
  cases h with
  | removeFailed => exact absurd (CallPhase.disconnecting.inj hphase).1.symm hstage
  | disconnect before error' later haction => exact haction
  | _ => simp at hphase

/-- A disconnect that is past its first section was so before, or has just been taken a
section further. -/
theorem Step.task (h : Step s action t) {agent : Agent} {providerId : ProviderId}
    {stage : DisconnectStage} (htask : t.task agent = some (providerId, stage))
    (hstage : stage ≠ .removeRoute) :
    s.task agent = some (providerId, stage) ∨
      ∃ before next, s.task agent = some (providerId, before) ∧
        action = Agent.disconnects agent ∧
        s.disconnectStep agent providerId before = (next, some stage) ∧
        t.providerRoutes = next.providerRoutes ∧ t.pendingReads = next.pendingReads ∧
        t.runtime = next.runtime := by
  -- a thread gets past the first section only by its own `disconnectStep`
  cases agent with
  | caller c =>
      obtain ⟨rfl, error, hphase⟩ := task_caller.mp htask
      cases h.call c with
      | begin _ _ hbegin => rcases hbegin with hbegin | ⟨_, hbegin⟩ <;> simp [hbegin] at hphase
      | answer _ _ _ hrequest hsame =>
          exact Or.inl (task_caller.mpr ⟨by rw [hrequest], error, hsame ▸ hphase⟩)
      | move hrequest hmove =>
          rcases hmove with hsame | hmove
          · exact Or.inl (task_caller.mpr ⟨by rw [hrequest], error, hsame ▸ hphase⟩)
          · obtain rfl := hmove.disconnecting_cases hphase hstage
            cases h with
            | @disconnectCall _ before error' hbefore =>
                generalize hnext : s.disconnectStep (.caller c) (s.calls c).request.providerId
                  before = result at hphase hrequest
                obtain ⟨next, later⟩ := result
                obtain rfl : later = some stage := by
                  cases later <;> simp_all [CallPhase.afterDisconnect]
                rw [hrequest]
                exact Or.inr ⟨before, next, task_caller.mpr ⟨rfl, error', hbefore⟩, rfl, hnext,
                  rfl, rfl, rfl⟩
  | handler k =>
      obtain ⟨rest, hphase⟩ := task_handler.mp htask
      rcases h.handler k with hsame | hmove
      · exact Or.inl (task_handler.mpr ⟨rest, hsame ▸ hphase⟩)
      · obtain rfl := (hphase ▸ hmove).reached.resolve_left hstage
        cases h with
        | @disconnectConn _ providerId' before rest' hbefore =>
            generalize hnext : s.disconnectStep (.handler k) providerId' before = result at hphase
            obtain ⟨next, later⟩ := result
            obtain ⟨rfl, rfl⟩ : providerId = providerId' ∧ later = some stage := by
              cases later with
              | none => cases rest' <;> simp [HandlerPhase.afterDisconnect] at hphase
              | some later => simp_all [HandlerPhase.afterDisconnect]
            exact Or.inr ⟨before, next, task_handler.mpr ⟨rest', hbefore⟩, rfl, hnext, rfl, rfl,
              rfl⟩

/-- The first section of a disconnect cuts the route. -/
theorem Step.cut (hstep : Step s action t) (hsessions : Sessions s) {providerId : ProviderId}
    (hcut : ∀ {agent : Agent} {stage : DisconnectStage},
      s.task agent = some (providerId, stage) → stage ≠ .removeRoute → s.Cut providerId)
    {agent : Agent} {stage : DisconnectStage} (htask : t.task agent = some (providerId, stage))
    (hstage : stage ≠ .removeRoute) : t.Cut providerId := by
  rcases hstep.task htask hstage with hold | ⟨before, next, hbefore, -, hnext, hroutes, -⟩
  · exact (hcut hold hstage).step hsessions hstep
  · by_cases hfirst : before = .removeRoute
    · subst hfirst
      refine ⟨(hsessions.task hbefore).mono hstep.shared, ?_⟩
      obtain ⟨rfl, -⟩ := Prod.mk.inj hnext
      rw [hroutes]
      exact Std.ExtTreeMap.getElem?_erase_self
    · exact (hcut hbefore hfirst).step hsessions hstep

/-- The disconnects of a provider that are under way or over. -/
structure Draining (s : System) (providerId : ProviderId) : Prop where
  cut : ∀ {agent : Agent} {stage : DisconnectStage}, s.task agent = some (providerId, stage) →
    stage ≠ .removeRoute → s.Cut providerId
  swept : ∀ {agent : Agent} {reads : List PendingRead},
    s.task agent = some (providerId, .failing reads) → s.Clean providerId
  completed : providerId ∈ s.disconnected → s.Clean providerId

/-- When the table is swept for the provider, no caller of it is between its route
lookup and its insertion. -/
def SweepsAll (providerId : ProviderId) (s : System) (action : Action) : Prop :=
  ∀ agent, action = Agent.disconnects agent → s.task agent = some (providerId, .sweep) →
    ∀ c route, (s.calls c).phase = .routed route → (s.calls c).request.providerId ≠ providerId

theorem Draining.step {providerId : ProviderId} (h : s.Draining providerId)
    (hsessions : Sessions s) (hsweeps : SweepsAll providerId s action) (hstep : Step s action t) :
    t.Draining providerId := by
  constructor
  · exact fun htask hstage => hstep.cut hsessions h.cut htask hstage
  · intro agent reads htask
    rcases hstep.task htask (by simp) with
      hold | ⟨before, next, hbefore, haction, hnext, -, hpending, -⟩
    · exact (h.swept hold).step hsessions hstep
    · cases before with
      | removeRoute =>
          simp only [disconnectStep, Prod.mk.injEq] at hnext
          have hlater := hnext.2
          split at hlater <;> simp at hlater
      | unregister => simp [disconnectStep] at hnext
      | sweep =>
          have hcut := h.cut hbefore (by simp)
          refine ⟨hcut.step hsessions hstep,
            hcut.notRouted_step hstep (hsweeps agent haction hbefore _ _), ?_⟩
          intro id read hread
          obtain ⟨rfl, -⟩ := Prod.mk.inj hnext
          rw [hpending, Std.ExtTreeMap.getElem?_filter', Option.filter_eq_some_iff] at hread
          simpa using hread.2
      | failing rest => exact (h.swept hbefore).step hsessions hstep
  · intro hmem
    rcases hstep.shared.mem_disconnected hmem with hold | ⟨agent, htask⟩
    · exact (h.completed hold).step hsessions hstep
    · exact (h.swept htask).step hsessions hstep

/-- A caller waits only after its channel was made. -/
def Entered (s : System) : Prop :=
  ∀ c, (∃ route, (s.calls c).phase = .writing route) ∨ (s.calls c).phase = .waiting →
    (s.calls c).place ≠ .unborn

theorem PhaseStep.entered_cases {c : CallId} {phase phase' : CallPhase}
    (h : PhaseStep s action c phase phase')
    (hphase : (∃ route, phase' = .writing route) ∨ phase' = .waiting) :
    (∃ route, phase = .writing route) ∨ action = .insertPending c := by
  cases h with
  | insert _ haction => exact Or.inr haction
  | written route => exact Or.inl ⟨route, rfl⟩
  | disconnect stage error later => cases later <;> simp [CallPhase.afterDisconnect] at hphase
  | _ => simp at hphase

theorem Entered.step (h : Entered s) (hstep : Step s action t) : Entered t := by
  intro c hphase hunborn
  cases hstep.call c with
  | begin _ _ hbegin => rcases hbegin with hbegin | ⟨_, hbegin⟩ <;> simp [hbegin] at hphase
  | answer _ _ _ _ hsame _ hplace => exact h c (hsame ▸ hphase) (hplace hunborn)
  | move _ hmove _ hplace =>
      rcases hmove with hsame | hmove
      · exact h c (hsame ▸ hphase) (hplace hunborn)
      · rcases hmove.entered_cases hphase with hwriting | rfl
        · exact h c (Or.inl hwriting) (hplace hunborn)
        · cases hstep
          simp [System.insertPending, enter] at hunborn

/-- What holds in every state of a run in which the provider is swept completely. -/
structure Drained (s : System) (providerId : ProviderId) : Prop where
  sessions : Sessions s
  senders : Senders s
  entered : Entered s
  draining : s.Draining providerId

theorem Drained.reaches {providerId : ProviderId} (h : s.Drained providerId)
    (hrun : Reaches step (SweepsAll providerId) s t) : t.Drained providerId := by
  refine hrun.invariant (fun s => s.Drained providerId) ?_ h
  intro s action t h hsweeps hstep
  have hstep := Step.of_step hstep
  exact ⟨h.sessions.step hstep, h.senders.step hstep, h.entered.step hstep,
    h.draining.step h.sessions hsweeps hstep⟩

theorem Drained.initial {runtime : Runtime} (hnext : 0 < runtime.nextProviderId)
    (providerId : ProviderId) : (initial runtime).Drained providerId := by
  refine ⟨.initial hnext, .initial runtime, ?_, ?_, ?_, ?_⟩
  · simp [Entered, System.initial, Call.unstarted]
  · intro agent stage htask
    cases agent <;> simp [task, System.initial, Call.unstarted, Conn.unopened] at htask
  · intro agent reads htask
    cases agent <;> simp [task, System.initial, Call.unstarted, Conn.unopened] at htask
  · simp [System.initial]

/-- In every run in which the table is never swept for the provider while one of its
callers is between the route lookup and the insertion: once a disconnect of the
provider is over, none of its reads is pending, then or later, and a caller that
waits for it has its outcome, has lost its channel, or is about to be answered. -/
theorem disconnect_leaves_no_pending_read {policy : CachePolicy} {start : Runtime}
    {providerId : ProviderId} (hstart : Runtime.withCachePolicy policy = .ok start)
    (hrun : Reaches step (SweepsAll providerId) (initial start) s)
    (hover : providerId ∈ s.disconnected) (hlater : Reaches step (SweepsAll providerId) s t) :
    (∀ (id : ℕ) (read : PendingRead), t.pendingReads[id]? = some read →
        read.providerId ≠ providerId) ∧
      ∀ c, (t.calls c).request.providerId = providerId → (t.calls c).phase = .waiting →
        (t.calls c).place = .gone ∨ ∃ agent, t.entry c ∈ t.held agent := by
  have hnext := (Runtime.wellFormed_of_withCachePolicy hstart).nextProvider
  have hdrained := (Drained.initial hnext providerId).reaches hrun
  have hclean : t.Clean providerId := by
    refine (hlater.invariant (fun t => t.Drained providerId ∧ t.Clean providerId) ?_
      ⟨hdrained, hdrained.draining.completed hover⟩).2
    rintro s action t ⟨hdrained, hclean⟩ hsweeps hstep
    have hone : Reaches step (SweepsAll providerId) s t := ⟨[action], hsweeps, t, hstep, rfl⟩
    exact ⟨hdrained.reaches hone, hclean.step hdrained.sessions (.of_step hstep)⟩
  have hlast := hdrained.reaches hlater
  refine ⟨fun id read hread => hclean.notPending hread, ?_⟩
  intro c hprovider hwaiting
  cases hplace : (t.calls c).place with
  | unborn => exact absurd hplace (hlast.entered c (Or.inr hwaiting))
  | table =>
      exact absurd hprovider (hclean.notPending (hlast.senders.table.mpr ⟨c, hplace, rfl, rfl⟩))
  | held agent => exact Or.inr ⟨agent, hlast.senders.held.mpr ⟨c, hplace, rfl⟩⟩
  | gone => exact Or.inl rfl

/-- A read waits for provider 1 when its connection closes; the sweep fails it. -/
theorem disconnect_leaves_no_pending_read_of_waiting :
    ∃ s : System, 1 ∈ s.disconnected ∧ (s.calls 0).phase = .waiting ∧
      (∀ (id : ℕ) (read : PendingRead), s.pendingReads[id]? = some read → read.providerId ≠ 1) ∧
      ((s.calls 0).place = .gone ∨ ∃ agent, s.entry 0 ∈ s.held agent) := by
  -- only a disconnect sweeps, and no caller is before its insertion when this one does
  have hquiet : ∀ {s : System} {action : Action},
      (match action with
        | .disconnectCall _ | .disconnectConn _ => false
        | _ => true) = true → SweepsAll 1 s action := by
    rintro s action hother (c | k) rfl <;> simp [Agent.disconnects] at hother
  have hstill : ∀ {s : System} {action : Action},
      (∀ c, (s.calls c).phase.route? = none) → SweepsAll 1 s action := by
    intro s action hnone agent _ _ c route hrouted
    have := hnone c
    simp [hrouted, CallPhase.route?] at this
  have hrun : ∃ s, Run step (SweepsAll 1) (initial Runtime.new) [.connect 0,
      .frame 0 (.hello 1 1), .reply 0 true, .frame 0 .providerRegister, .registerProvider 0,
      .registerRoute 0 (some 5), .reply 0 true, .begin 0 ⟨1, 1, ['p'], ['f'], ['n'], 0, 4⟩,
      .lookupRoute 0, .insertPending 0, .writeRequest 0 none, .endOfStream 0, .close 0,
      .disconnectConn 0, .disconnectConn 0, .disconnectConn 0, .disconnectConn 0,
      .disconnectConn 0] s ∧ 1 ∈ s.disconnected ∧ (s.calls 0).request.providerId = 1 ∧
      (s.calls 0).phase = .waiting := by
    have hroute : ∀ {f : CallId → Call}, (f 0).phase.route? = none →
        (∀ c, (f (c + 1)).phase.route? = none) → ∀ c, (f c).phase.route? = none :=
      fun hzero hsucc c => Nat.casesOn c hzero hsucc
    exact ⟨_, ⟨hquiet rfl, _, rfl, hquiet rfl, _, rfl, hquiet rfl, _, rfl, hquiet rfl, _, rfl,
      hquiet rfl, _, rfl, hquiet rfl, _, rfl, hquiet rfl, _, rfl, hquiet rfl, _, rfl, hquiet rfl, _,
      rfl, hquiet rfl, _, rfl, hquiet rfl, _, rfl, hquiet rfl, _, rfl, hquiet rfl, _, rfl,
      hstill (hroute rfl fun _ => rfl), _, rfl, hstill (hroute rfl fun _ => rfl), _, rfl,
      hstill (hroute rfl fun _ => rfl), _, rfl, hstill (hroute rfl fun _ => rfl), _, rfl,
      hstill (hroute rfl fun _ => rfl), _, rfl, rfl⟩, by decide, rfl, rfl⟩
  obtain ⟨s, hrun, hover, hprovider, hwaiting⟩ := hrun
  have hstart : Runtime.withCachePolicy .noCache = .ok Runtime.new := rfl
  have hfinal := disconnect_leaves_no_pending_read hstart ⟨_, hrun⟩ hover (.refl s)
  exact ⟨s, hover, hwaiting, hfinal.1, hfinal.2 0 hprovider hwaiting⟩

/-- A caller looks up the route, the provider's connection closes and is disconnected
completely, and then the caller inserts its read: the entry stays in the table. -/
theorem disconnect_misses_routed_read :
    ∃ s : System, Reaches step always (initial Runtime.new) s ∧ 1 ∈ s.disconnected ∧
      ∃ read : PendingRead, s.pendingReads[1]? = some read ∧ read.providerId = 1 := by
  have hrun : ∃ s, [Action.connect 0, .frame 0 (.hello 1 1), .reply 0 true,
      .frame 0 .providerRegister, .registerProvider 0, .registerRoute 0 (some 5), .reply 0 true,
      .begin 0 ⟨1, 1, ['p'], ['f'], ['n'], 0, 4⟩, .lookupRoute 0, .endOfStream 0, .close 0,
      .disconnectConn 0, .disconnectConn 0, .disconnectConn 0, .disconnectConn 0,
      .insertPending 0].foldlM step (initial Runtime.new) = some s ∧ 1 ∈ s.disconnected ∧
      s.pendingReads[1]? = some ⟨1, ⟨1, 1, ['p'], ['f'], ['n'], 0, 4⟩, 0⟩ :=
    ⟨_, rfl, by decide, by rfl⟩
  obtain ⟨s, hrun, hover, hread⟩ := hrun
  exact ⟨s, Reaches.of_foldlM hrun, hover, _, hread, rfl⟩

end System

end FusePromise
