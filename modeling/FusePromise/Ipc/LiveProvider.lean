import FusePromise.Ipc.Disconnect

/-!
# A provider that keeps its side

A provider whose connection stays open, that answers each request frame once and
whose token nobody presents is not disconnected by the daemon, as long as no read
is taken out of the table while the provider still owes its response.  A timeout
does that, and so does a response that some other connection sends, a call that
uses the same request id, or the unregistration of another provider of the same
connection; the response then matches nothing and ends the session.

`Kept` is the invariant: every request frame written to the connection and not
answered yet has its entry in the table.
-/

namespace FusePromise

open Machine Transition

/-- A call that was begun. -/
def CallPhase.started : CallPhase → Bool
  | .absent | .ready _ => false
  | _ => true

/-- A call whose request is not written. -/
def CallPhase.unsent : CallPhase → Bool
  | .absent | .ready _ | .routing | .routed _ | .writing _ => true
  | _ => false

/-- A call that gives up, and takes its entry out of the table. -/
def CallPhase.failing : CallPhase → Bool
  | .writeFailed _ | .disconnecting _ _ | .timedOut => true
  | _ => false

/-- The providers a handler has begun to disconnect. -/
def HandlerPhase.cutting : HandlerPhase → List ProviderId
  | .disconnecting providerId _ rest => providerId :: rest.getD []
  | .closing providerIds => providerIds
  | _ => []

theorem CallPhase.started_of_sent {phase : CallPhase} (h : phase.unsent = false) :
    phase.started := by
  cases phase <;> simp_all [CallPhase.unsent, CallPhase.started]

theorem HandlerPhase.leaving_of_cutting {phase : HandlerPhase} {providerId : ProviderId}
    (h : providerId ∈ phase.cutting) : providerId ∈ phase.leaving := by
  cases phase <;> simp_all [HandlerPhase.cutting, HandlerPhase.leaving]

namespace System

variable {s t : System} {action : Action} {k : ConnId}

/-- The ids of the request frames written to a connection. -/
def sentIds (s : System) (k : ConnId) : List ℕ :=
  (s.conns k).sent.map ProviderReadRequest.requestId

/-- The ids of the response frames read from it. -/
def answeredIds (s : System) (k : ConnId) : List ℕ :=
  (s.conns k).received.filterMap Request.answeredId

/-- What the provider on connection `k` promises: it stays connected and answers each
request frame once, no write to it fails, and its token is not presented to
unregister it. -/
def WellBehaved (providerId : ProviderId) (k : ConnId) (token : ℕ) (s : System) :
    Action → Prop
  | .frame k' request =>
      (k' = k → ∀ response, request = .providerReadResponse response →
        response.validate = .ok () ∧
          (s.answeredIds k).count response.requestId < (s.sentIds k).count response.requestId) ∧
      request ≠ .providerUnregister providerId token
  | .endOfStream k' => k' ≠ k
  | .reply k' written => k' = k → written = true
  | .writeRequest c failure =>
      (s.calls c).phase.route?.map ProviderRoute.writer = some k → failure = none
  | _ => True

/-- No read of the connection is taken out of the table by anything but its response:
request ids are not reused, reads do not time out and are not answered by another
connection, and no other provider leaves the connection. -/
def Undisturbed (providerId : ProviderId) (k : ConnId) (s : System) : Action → Prop
  | .begin _ request => ∀ c, (s.calls c).phase.started →
      (s.calls c).request.requestId ≠ request.requestId
  | .timeout c => ¬ s.RegisteredOn k (s.calls c).request.providerId
  | .takePending k' => k' ≠ k → ∀ response, (s.conns k').phase = .taking response →
      ∀ read : PendingRead, s.pendingReads[response.requestId]? = some read →
        ¬ s.RegisteredOn k read.providerId
  | .unregister k' => ∀ other, (s.conns k').phase = .unregistering other →
      other ≠ providerId → ¬ s.RegisteredOn k other
  | .registerRoute k' token => k' = k → token ≠ none
  | _ => True

/-! ## Request ids -/

/-- No two calls have the same request id. -/
def DistinctIds (s : System) : Prop :=
  ∀ c c', (s.calls c).phase.started → (s.calls c').phase.started →
    (s.calls c).request.requestId = (s.calls c').request.requestId → c = c'

theorem PhaseStep.started {c : CallId} {phase phase' : CallPhase}
    (h : PhaseStep s action c phase phase') (hstarted : phase'.started) : phase.started := by
  cases h with
  | allocate => simp [CallPhase.started] at hstarted
  | fail phase error hphase => rcases hphase with rfl | ⟨_, rfl⟩ | rfl | rfl <;> rfl
  | _ => rfl

/-- A call is begun by its own action, and keeps its request from then on. -/
theorem CallChange.started {c : CallId} (h : CallChange s t action c)
    (hstarted : (t.calls c).phase.started) :
    action = .begin c (t.calls c).request ∨
      (s.calls c).phase.started ∧ (t.calls c).request = (s.calls c).request := by
  cases h with
  | begin _ haction => exact Or.inl haction
  | move hrequest hphase =>
      refine Or.inr ⟨?_, hrequest⟩
      rcases hphase with hphase | hphase
      · exact hphase ▸ hstarted
      · exact hphase.started hstarted
  | answer _ _ _ hrequest hphase => exact Or.inr ⟨hphase ▸ hstarted, hrequest⟩

theorem DistinctIds.step (h : DistinctIds s) {providerId : ProviderId}
    (hok : Undisturbed providerId k s action) (hstep : Step s action t) : DistinctIds t := by
  intro c c' hc hc' hid
  rcases (hstep.call c).started hc with haction | ⟨hold, hrequest⟩ <;>
    rcases (hstep.call c').started hc' with haction' | ⟨hold', hrequest'⟩
  · exact (Action.begin.inj (haction.symm.trans haction')).1
  · subst haction
    refine absurd ?_ (hok c' hold')
    rw [← hrequest', ← hid]
  · subst haction'
    refine absurd ?_ (hok c hold)
    rw [← hrequest, hid]
  · exact h c c' hold hold' (by rw [← hrequest, ← hrequest', hid])

/-- A written request stays written. -/
theorem CallChange.sent {c : CallId} (h : CallChange s t action c)
    (hsent : (s.calls c).phase.unsent = false) :
    (t.calls c).phase.unsent = false ∧ (t.calls c).request = (s.calls c).request := by
  cases h with
  | begin hbegin =>
      generalize (s.calls c).phase = phase at hbegin hsent
      cases phase <;> simp [mayBegin, CallPhase.unsent] at hbegin hsent
  | move hrequest hphase =>
      refine ⟨?_, hrequest⟩
      rcases hphase with hphase | hphase
      · exact hphase ▸ hsent
      · generalize (s.calls c).phase = phase, (t.calls c).phase = phase' at hphase hsent
        cases hphase with
        | disconnect stage error later => cases later <;> rfl
        | _ => first | rfl | simp [CallPhase.unsent] at hsent
  | answer _ _ _ hrequest hphase => exact ⟨hphase ▸ hsent, hrequest⟩

/-! ## The invariant -/

/-- A read under this id is pending for a provider of the connection. -/
def Awaits (s : System) (k : ConnId) (id : ℕ) : Prop :=
  ∃ read : PendingRead, s.pendingReads[id]? = some read ∧ s.RegisteredOn k read.providerId

/-- Nothing is under way that would disconnect the provider. -/
structure Kept (providerId : ProviderId) (k : ConnId) (token : ℕ) (s : System) : Prop where
  wellFormed : s.runtime.WellFormed
  senders : Senders s
  sessions : Sessions s
  distinct : DistinctIds s
  /-- Nobody is disconnecting a provider of the connection. -/
  handlers : ∀ {k' other}, s.RegisteredOn k other → other ∉ (s.conns k').phase.cutting
  callers : ∀ {c}, s.RegisteredOn k (s.calls c).request.providerId →
    (s.calls c).phase.failing = false
  writing : ∀ {c route}, (s.calls c).phase = .writing route → route.writer = k →
    s.Awaits k (s.calls c).request.requestId
  sent : ∀ id ∈ s.sentIds k, ∃ c, (s.calls c).phase.unsent = false ∧
    (s.calls c).request.requestId = id
  nodup : (s.sentIds k).Nodup
  owed : ∀ id ∈ s.sentIds k, id ∉ s.answeredIds k → s.Awaits k id
  taking : ∀ {response}, (s.conns k).phase = .taking response →
    response.requestId ∈ s.sentIds k ∧ response.requestId ∈ s.answeredIds k ∧
      s.Awaits k response.requestId
  /-- Nobody has presented the provider's token. -/
  validating : ∀ k', (s.conns k').phase ≠ .validating providerId token .unregister
  unregistering : ∀ k', (s.conns k').phase ≠ .unregistering providerId
  fresh : ∀ {k'}, (s.conns k').phase = .registered providerId → s.runtime.Serves providerId
  serves : s.Known providerId → s.runtime.Serves providerId
  route : s.Known providerId → s.providerRoutes[providerId]? = some ⟨k, token⟩

section Step

variable {providerId : ProviderId} {token : ℕ}

/-- A provider that a session registered earlier than this step. -/
theorem Sessions.registeredOn_of_known (h : Sessions s) (hshared : SharedChange s t action)
    {other : ProviderId} (hon : t.RegisteredOn k other) (hknown : s.Known other) :
    s.RegisteredOn k other := by
  rcases hshared.registeredOn hon with hon | ⟨hphase, -⟩
  · exact hon
  · exact absurd hknown (h.fresh hphase).2.2

theorem Kept.not_task (h : Kept providerId k token s) {agent : Agent} {other : ProviderId}
    {stage : DisconnectStage} (hon : s.RegisteredOn k other) :
    s.task agent ≠ some (other, stage) := by
  intro htask
  cases agent with
  | caller c =>
      obtain ⟨rfl, error, hphase⟩ := task_caller.mp htask
      have hfailing := h.callers hon
      simp [hphase, CallPhase.failing] at hfailing
  | handler k' =>
      obtain ⟨rest, hphase⟩ := task_handler.mp htask
      have hcutting : other ∉ (s.conns k').phase.cutting := h.handlers hon
      rw [hphase] at hcutting
      exact hcutting List.mem_cons_self

/-- A pending read of the connection stays in the table until its response is taken. -/
theorem Kept.awaits_step (h : Kept providerId k token s) (hok : Undisturbed providerId k s action)
    (hstep : Step s action t) {id : ℕ} (hawaits : s.Awaits k id) :
    t.Awaits k id ∨ action = .takePending k ∧
      ∃ response, (s.conns k).phase = .taking response ∧ response.requestId = id := by
  have hshared := hstep.shared
  obtain ⟨read, hread, hon⟩ := hawaits
  obtain ⟨c, hplace, rfl, rfl⟩ := h.senders.table.mp hread
  have hlate : (s.calls c).phase.early = false := by
    cases hearly : (s.calls c).phase.early with
    | false => rfl
    | true =>
        have hunborn := h.senders.early c hearly
        simp [hplace] at hunborn
  have hstarted : (s.calls c).phase.started := by
    generalize (s.calls c).phase = phase at hlate
    cases phase <;> first | rfl | simp [CallPhase.early] at hlate
  -- an entry that leaves the table under this id is the one of this call
  have hsame : ∀ c', (s.calls c').phase.started →
      (s.calls c').request.requestId = (s.calls c).request.requestId → c' = c :=
    fun c' hstarted' hid => h.distinct c' c hstarted' hstarted hid
  have hkeep : t.pendingReads[(s.calls c).request.requestId]? = some (s.entry c) →
      t.Awaits k (s.calls c).request.requestId :=
    fun hread => ⟨_, hread, hon.mono hshared⟩
  cases hshared with
  | quiet _ _ hpending | runtime _ _ _ hpending | addRoute _ _ _ _ _ _ hpending =>
      exact Or.inl (hkeep (hpending ▸ hread))
  | @insert c' route hphase _ _ _ hpending =>
      refine Or.inl (hkeep ?_)
      have hne : (s.calls c').request.requestId ≠ (s.calls c).request.requestId := by
        intro hid
        obtain rfl := hsame c' (by rw [hphase]; rfl) hid
        simp [hphase, CallPhase.early] at hlate
      simp only [hpending, Std.ExtTreeMap.getElem?_insert, Std.ExtTreeMap.getElem?_erase,
        Std.LawfulEqCmp.compare_eq_iff_eq, hne, if_false]
      exact hread
  | @remove c' hphase _ _ _ hpending =>
      refine Or.inl (hkeep ?_)
      have hne : (s.calls c').request.requestId ≠ (s.calls c).request.requestId := by
        intro hid
        have hfailing : (s.calls c').phase.failing := by
          rcases hphase with ⟨error, hphase⟩ | hphase <;> rw [hphase] <;> rfl
        have hstarted' : (s.calls c').phase.started := by
          rcases hphase with ⟨error, hphase⟩ | hphase <;> rw [hphase] <;> rfl
        obtain rfl := hsame c' hstarted' hid
        have hcaller := h.callers hon
        simp [hfailing] at hcaller
      simp only [hpending, Std.ExtTreeMap.getElem?_erase, Std.LawfulEqCmp.compare_eq_iff_eq, hne,
        if_false]
      exact hread
  | @take k' response hphase haction _ _ hpending =>
      by_cases hid : response.requestId = (s.calls c).request.requestId
      · by_cases hk : k' = k
        · subst hk
          exact Or.inr ⟨haction, response, hphase, hid⟩
        · subst haction
          exact absurd hon (hok hk response hphase _ (hid ▸ hread))
      · refine Or.inl (hkeep ?_)
        simp only [hpending, Std.ExtTreeMap.getElem?_erase, Std.LawfulEqCmp.compare_eq_iff_eq, hid,
          if_false]
        exact hread
  | @disconnect agent other stage next later htask _ hnext _ _ _ _ hpending =>
      refine Or.inl (hkeep ?_)
      rcases disconnectStep_pendingReads hnext with hkept | ⟨rfl, hfilter⟩
      · rw [hpending, hkept]
        exact hread
      · have hother : (s.entry c).providerId ≠ other := by
          rintro rfl
          exact h.not_task hon htask
        rw [hpending, hfilter, Std.ExtTreeMap.getElem?_filter', Option.filter_eq_some_iff]
        exact ⟨hread, by simpa using hother⟩

/-! ### Disconnects -/

/-- A session is ended by its client, by a failed write or token, or by a response that is
not valid or matches nothing. -/
inductive Ends (s : System) (k : ConnId) : Action → Prop
  | endOfStream : Ends s k (.endOfStream k)
  | reply : Ends s k (.reply k false)
  | noToken : Ends s k (.registerRoute k none)
  | invalid {response : ProviderReadResponse} {error : IoError}
      (h : response.validate = .error error) : Ends s k (.frame k (.providerReadResponse response))
  | unmatched {response : ProviderReadResponse} (action : Action)
      (hphase : (s.conns k).phase = .taking response)
      (hread : s.pendingReads[response.requestId]? = none) : Ends s k action

theorem HandlerStep.cutting {phase phase' : HandlerPhase} (h : HandlerStep s action k phase phase')
    (hphase : (s.conns k).phase = phase) {other : ProviderId} (hcutting : other ∈ phase'.cutting) :
    other ∈ phase.cutting ∨ (phase = .unregistering other ∧ action = .unregister k) ∨
      other ∈ (s.conns k).registeredProviders ∧ Ends s k action := by
  cases h with
  | dispatch haction hdispatched =>
      cases hdispatched with
      | closing herror => exact Or.inr (Or.inr ⟨hcutting, haction ▸ .invalid herror⟩)
      | _ => simp [HandlerPhase.cutting] at hcutting
  | progress hprogress =>
      rcases hprogress with rfl | rfl <;> simp [HandlerPhase.cutting] at hcutting
  | endSession _ hcause =>
      refine Or.inr (Or.inr ⟨hcutting, ?_⟩)
      rcases hcause with ⟨-, rfl⟩ | ⟨-, rfl⟩ | ⟨-, rfl⟩ | ⟨response, rfl, hread⟩
      · exact .endOfStream
      · exact .reply
      · exact .noToken
      · exact .unmatched action hphase hread
  | @owned providerId token request =>
      cases request <;> simp [OwnerRequest.next, HandlerPhase.cutting] at hcutting
  | unregister providerId haction =>
      obtain rfl : other = providerId := by simpa [HandlerPhase.cutting] using hcutting
      exact Or.inr (Or.inl ⟨rfl, haction⟩)
  | disconnect providerId stage rest later =>
      refine Or.inl ?_
      cases later with
      | some stage => exact hcutting
      | none =>
          cases rest with
          | none => simp [HandlerPhase.afterDisconnect, HandlerPhase.cutting] at hcutting
          | some providerIds => exact List.mem_cons_of_mem _ hcutting
  | closeNext => exact Or.inl (by simpa [HandlerPhase.cutting] using hcutting)
  | _ => simp [HandlerPhase.cutting] at hcutting

/-- The session of the connection does not end. -/
theorem Kept.not_ends (h : Kept providerId k token s)
    (hgood : WellBehaved providerId k token s action) (hok : Undisturbed providerId k s action) :
    ¬ Ends s k action := by
  intro hends
  cases hends with
  | endOfStream => exact hgood rfl
  | reply => simp [WellBehaved] at hgood
  | noToken => exact hok rfl rfl
  | invalid herror =>
      have hvalid := (hgood.1 rfl _ rfl).1
      simp [herror] at hvalid
  | unmatched _ hphase hread =>
      obtain ⟨-, -, read, hsome, -⟩ := h.taking hphase
      simp [hread] at hsome

theorem Kept.handlers_step (h : Kept providerId k token s)
    (hgood : WellBehaved providerId k token s action) (hok : Undisturbed providerId k s action)
    (hstep : Step s action t) {k' : ConnId} {other : ProviderId} (hon : t.RegisteredOn k other) :
    other ∉ (t.conns k').phase.cutting := by
  intro hcutting
  have hshared := hstep.shared
  rcases hstep.handler k' with hsame | hmove
  · rw [hsame] at hcutting
    have hknown := h.sessions.handler other (HandlerPhase.leaving_of_cutting hcutting)
    exact h.handlers (h.sessions.registeredOn_of_known hshared hon hknown) hcutting
  · rcases hmove.cutting rfl hcutting with hold | ⟨hphase, rfl⟩ | ⟨hsession, hends⟩
    · have hknown := h.sessions.handler other (HandlerPhase.leaving_of_cutting hold)
      exact h.handlers (h.sessions.registeredOn_of_known hshared hon hknown) hold
    · have hknown := h.sessions.handler other (by rw [hphase]; exact List.mem_singleton_self _)
      have hother : other ≠ providerId := by
        rintro rfl
        exact h.unregistering k' hphase
      exact hok other hphase hother (h.sessions.registeredOn_of_known hshared hon hknown)
    · have hhere := h.sessions.session other hsession
      have hbefore := h.sessions.registeredOn_of_known hshared hon ⟨k', hhere⟩
      obtain rfl := h.sessions.unique hbefore hhere
      exact h.not_ends hgood hok hends

theorem PhaseStep.failing_cases {c : CallId} {phase phase' : CallPhase}
    (h : PhaseStep s action c phase phase') (hfailing : phase'.failing) :
    phase.failing ∨ (phase = .waiting ∧ action = .timeout c) ∨
      ∃ route error, phase = .writing route ∧ action = .writeRequest c (some error) := by
  cases h with
  | writeFailed route error haction => exact Or.inr (Or.inr ⟨route, error, rfl, haction⟩)
  | timeout haction => exact Or.inr (Or.inl ⟨rfl, haction⟩)
  | removeFailed | disconnect => exact Or.inl rfl
  | _ => simp [CallPhase.failing] at hfailing

theorem Kept.callers_step (h : Kept providerId k token s)
    (hgood : WellBehaved providerId k token s action) (hok : Undisturbed providerId k s action)
    (hstep : Step s action t) {c : CallId}
    (hon : t.RegisteredOn k (t.calls c).request.providerId) :
    (t.calls c).phase.failing = false := by
  -- a call that was failing before had tried its provider, which was registered then
  have hold : ∀ {c}, t.RegisteredOn k (s.calls c).request.providerId →
      (s.calls c).phase.failing = false := by
    intro c hon
    cases hfailing : (s.calls c).phase.failing with
    | false => rfl
    | true =>
        have hknown : s.Known (s.calls c).request.providerId := by
          refine h.sessions.tried ?_
          generalize (s.calls c).phase = phase at hfailing
          cases phase <;> first | rfl | simp [CallPhase.failing] at hfailing
        have hfalse := h.callers (h.sessions.registeredOn_of_known hstep.shared hon hknown)
        simp [hfalse] at hfailing
  cases hstep.call c with
  | begin _ _ hphase => rcases hphase with hphase | ⟨_, hphase⟩ <;> rw [hphase] <;> rfl
  | answer _ _ _ hrequest hphase =>
      rw [hphase]
      exact hold (hrequest ▸ hon)
  | move hrequest hphase =>
      rw [hrequest] at hon
      rcases hphase with hphase | hphase
      · rw [hphase]
        exact hold hon
      · by_contra hfailing
        rw [Bool.not_eq_false] at hfailing
        rcases hphase.failing_cases hfailing with
          hbefore | ⟨hwaiting, rfl⟩ | ⟨route, error, hwriting, rfl⟩
        · simp [hold hon] at hbefore
        · have hknown := h.sessions.tried (c := c) (by rw [hwaiting]; rfl)
          exact hok (h.sessions.registeredOn_of_known hstep.shared hon hknown)
        · have hroute : (s.calls c).phase.route? = some route := by rw [hwriting]; rfl
          have hcaller := h.sessions.caller hroute
          have hbefore := h.sessions.registeredOn_of_known hstep.shared hon ⟨_, hcaller⟩
          obtain rfl := h.sessions.unique hbefore hcaller
          have hnone := hgood (by rw [hroute]; rfl)
          simp at hnone

/-! ### Requests and responses -/

theorem received_of_frame {request : Request} (h : Step s (.frame k request) t) :
    (t.conns k).received = (s.conns k).received ++ [request] := by
  cases h <;> simp

theorem Step.answeredIds (hstep : Step s action t) {id : ℕ} (hanswered : id ∈ s.answeredIds k) :
    id ∈ t.answeredIds k := by
  unfold System.answeredIds at hanswered ⊢
  cases hstep.conn k with
  | same _ hreceived | quiet _ hreceived | take _ _ _ hreceived | register _ _ hreceived =>
      exact hreceived ▸ hanswered
  | frame _ _ hreceived =>
      rw [hreceived, List.filterMap_append]
      exact List.mem_append_left _ hanswered

theorem PhaseStep.writing_cases {c : CallId} {phase phase' : CallPhase}
    (h : PhaseStep s action c phase phase') {route : ProviderRoute}
    (hwriting : phase' = .writing route) :
    phase = .routed route ∧ action = .insertPending c := by
  cases h with
  | insert _ haction => exact ⟨by simpa using hwriting, haction⟩
  | disconnect stage error later => cases later <;> simp [CallPhase.afterDisconnect] at hwriting
  | _ => simp at hwriting

theorem Kept.writing_step (h : Kept providerId k token s)
    (hok : Undisturbed providerId k s action) (hstep : Step s action t) {c : CallId}
    {route : ProviderRoute} (hwriting : (t.calls c).phase = .writing route)
    (hwriter : route.writer = k) : t.Awaits k (t.calls c).request.requestId := by
  have hold : (s.calls c).phase = .writing route →
      t.Awaits k (s.calls c).request.requestId := by
    intro hphase
    rcases h.awaits_step hok hstep (h.writing hphase hwriter) with
      hawaits | ⟨-, response, htaking, hid⟩
    · exact hawaits
    · -- the response would be one to a request that is not written yet
      obtain ⟨c', hsent, hid'⟩ := h.sent _ (h.taking htaking).1
      obtain rfl := h.distinct c' c (CallPhase.started_of_sent hsent) (by rw [hphase]; rfl)
        (hid'.trans hid)
      simp [hphase, CallPhase.unsent] at hsent
  cases hstep.call c with
  | begin _ _ hphase => rcases hphase with hphase | ⟨_, hphase⟩ <;> simp [hphase] at hwriting
  | answer _ _ _ hrequest hphase =>
      rw [hrequest]
      exact hold (hphase ▸ hwriting)
  | move hrequest hphase =>
      rw [hrequest]
      rcases hphase with hphase | hphase
      · exact hold (hphase ▸ hwriting)
      · obtain ⟨hrouted, rfl⟩ := hphase.writing_cases hwriting
        have hon := (h.sessions.caller (c := c) (by rw [hrouted]; rfl)).mono hstep.shared
        rw [hwriter] at hon
        have hpending : t.pendingReads =
            (s.pendingReads.erase (s.calls c).request.requestId).insert
              (s.calls c).request.requestId (s.entry c) := by
          cases hstep
          simp only [System.insertPending, enter, System.entry, dropPending_request]
          rfl
        exact ⟨s.entry c, hpending ▸ Std.ExtTreeMap.getElem?_insert_self, hon⟩

/-- The ids written to the connection grow by the one of a call that was writing. -/
theorem Step.sentIds (h : Step s action t) (k : ConnId) :
    t.sentIds k = s.sentIds k ∨
      ∃ c route, (s.calls c).phase = .writing route ∧ route.writer = k ∧
        t = s.deliverRequest c k ∧
        t.sentIds k = s.sentIds k ++ [(s.calls c).request.requestId] := by
  rcases h.sent k with hsame | ⟨c, route, hphase, rfl, rfl⟩
  · exact Or.inl (congrArg (List.map ProviderReadRequest.requestId) hsame)
  · cases hbody : (s.calls c).request.intoBody with
    | error error => exact Or.inl (by simp [System.sentIds, frames, hbody])
    | ok body =>
        refine Or.inr ⟨c, route, hphase, rfl, rfl, ?_⟩
        obtain ⟨⟨path, -, rfl⟩, -⟩ := ProviderReadRequest.intoBody_eq_ok.mp hbody
        simp [System.sentIds, frames, hbody]

/-- The id of a request that is being written was not written before. -/
theorem Kept.notMem_sentIds (h : Kept providerId k token s) {c : CallId} {route : ProviderRoute}
    (hphase : (s.calls c).phase = .writing route) :
    (s.calls c).request.requestId ∉ s.sentIds k := by
  intro hmem
  obtain ⟨c', hsent, hid⟩ := h.sent _ hmem
  obtain rfl := h.distinct c' c (CallPhase.started_of_sent hsent) (by rw [hphase]; rfl) hid
  simp [hphase, CallPhase.unsent] at hsent

theorem Kept.sent_step (h : Kept providerId k token s) (hstep : Step s action t) :
    ∀ id ∈ t.sentIds k, ∃ c, (t.calls c).phase.unsent = false ∧
      (t.calls c).request.requestId = id := by
  intro id hid
  have hold : id ∈ s.sentIds k → ∃ c, (t.calls c).phase.unsent = false ∧
      (t.calls c).request.requestId = id := by
    intro hid
    obtain ⟨c, hsent, rfl⟩ := h.sent id hid
    obtain ⟨hlater, hrequest⟩ := (hstep.call c).sent hsent
    exact ⟨c, hlater, by rw [hrequest]⟩
  rcases hstep.sentIds k with hsame | ⟨c, route, -, -, rfl, hnew⟩
  · exact hold (hsame ▸ hid)
  · rw [hnew, List.mem_append, List.mem_singleton] at hid
    rcases hid with hid | rfl
    · exact hold hid
    · exact ⟨c, by simp [CallPhase.unsent], by simp⟩

theorem Kept.nodup_step (h : Kept providerId k token s) (hstep : Step s action t) :
    (t.sentIds k).Nodup := by
  rcases hstep.sentIds k with hsame | ⟨c, route, hphase, -, -, hnew⟩
  · exact hsame ▸ h.nodup
  · rw [hnew, List.nodup_append_comm, List.singleton_append, List.nodup_cons]
    exact ⟨h.notMem_sentIds hphase, h.nodup⟩

theorem Kept.owed_step (h : Kept providerId k token s) (hok : Undisturbed providerId k s action)
    (hstep : Step s action t) :
    ∀ id ∈ t.sentIds k, id ∉ t.answeredIds k → t.Awaits k id := by
  intro id hid hunanswered
  have hbefore : id ∉ s.answeredIds k := fun hanswered => hunanswered (hstep.answeredIds hanswered)
  have hold : id ∈ s.sentIds k → t.Awaits k id := by
    intro hid
    rcases h.awaits_step hok hstep (h.owed id hid hbefore) with
      hawaits | ⟨-, response, htaking, rfl⟩
    · exact hawaits
    · exact absurd (h.taking htaking).2.1 hbefore
  rcases hstep.sentIds k with hsame | ⟨c, route, hphase, hwriter, rfl, hnew⟩
  · exact hold (hsame ▸ hid)
  · rw [hnew, List.mem_append, List.mem_singleton] at hid
    rcases hid with hid | rfl
    · exact hold hid
    · exact h.writing hphase hwriter

theorem Kept.taking_step (h : Kept providerId k token s)
    (hgood : WellBehaved providerId k token s action) (hok : Undisturbed providerId k s action)
    (hstep : Step s action t) {response : ProviderReadResponse}
    (htaking : (t.conns k).phase = .taking response) :
    response.requestId ∈ t.sentIds k ∧ response.requestId ∈ t.answeredIds k ∧
      t.Awaits k response.requestId := by
  have hsentMono : ∀ {id}, id ∈ s.sentIds k → id ∈ t.sentIds k := by
    intro id hid
    rcases hstep.sentIds k with hsame | ⟨_, _, -, -, -, hnew⟩
    · exact hsame ▸ hid
    · exact hnew ▸ List.mem_append_left _ hid
  rcases hstep.handler k with hsame | hmove
  · obtain ⟨hsent, hanswered, hawaits⟩ := h.taking (hsame ▸ htaking)
    refine ⟨hsentMono hsent, hstep.answeredIds hanswered, ?_⟩
    rcases h.awaits_step hok hstep hawaits with hawaits | ⟨rfl, -⟩
    · exact hawaits
    · cases hstep <;> simp at htaking
  · obtain rfl : action = _ := (htaking ▸ hmove).reached
    obtain ⟨-, hcount⟩ := hgood.1 rfl response rfl
    have hsent : response.requestId ∈ s.sentIds k :=
      List.count_pos_iff.mp (Nat.zero_lt_of_lt hcount)
    have hunanswered : response.requestId ∉ s.answeredIds k := by
      rw [← List.count_eq_zero]
      have := List.nodup_iff_count_le_one.mp h.nodup response.requestId
      omega
    refine ⟨hsentMono hsent, ?_, ?_⟩
    · simp [System.answeredIds, received_of_frame hstep, Request.answeredId]
    · rcases h.awaits_step hok hstep (h.owed _ hsent hunanswered) with hawaits | ⟨haction, -⟩
      · exact hawaits
      · simp at haction

/-! ### The provider itself -/

theorem Kept.validating_step (h : Kept providerId k token s)
    (hgood : WellBehaved providerId k token s action) (hstep : Step s action t) (k' : ConnId) :
    (t.conns k').phase ≠ .validating providerId token .unregister := by
  intro hphase
  rcases hstep.handler k' with hsame | hmove
  · exact h.validating k' (hsame ▸ hphase)
  · obtain rfl : action = _ := (hphase ▸ hmove).reached
    exact hgood.2 rfl

theorem Kept.unregistering_step (h : Kept providerId k token s) (hstep : Step s action t)
    (k' : ConnId) : (t.conns k').phase ≠ .unregistering providerId := by
  intro hphase
  rcases hstep.handler k' with hsame | hmove
  · exact h.unregistering k' (hsame ▸ hphase)
  · obtain ⟨route, hroute, hvalidating⟩ := (hphase ▸ hmove).reached
    have hroute' := h.route ⟨_, h.sessions.route hroute⟩
    obtain rfl := Option.some.inj (hroute.symm.trans hroute')
    exact h.validating k' hvalidating

theorem Kept.serves_runtime (h : Kept providerId k token s) (hstep : Step s action t)
    (hserves : s.runtime.Serves providerId) (hlt : providerId < s.runtime.nextProviderId) :
    t.runtime.Serves providerId := by
  refine hstep.serves hserves hlt h.unregistering fun agent stage htask => ?_
  have hroute := h.route (h.sessions.task htask)
  exact h.not_task (h.sessions.route hroute) htask

theorem Kept.fresh_step (h : Kept providerId k token s) (hstep : Step s action t) {k' : ConnId}
    (hphase : (t.conns k').phase = .registered providerId) : t.runtime.Serves providerId := by
  rcases hstep.handler k' with hsame | hmove
  · have hbefore : (s.conns k').phase = .registered providerId := hsame ▸ hphase
    exact h.serves_runtime hstep (h.fresh hbefore) (h.sessions.fresh hbefore).2.1
  · obtain ⟨rfl, rfl⟩ := (hphase ▸ hmove).reached
    cases hstep
    exact h.wellFormed.serves_registerProvider

theorem Kept.serves_step (h : Kept providerId k token s) (hstep : Step s action t)
    (hknown : t.Known providerId) : t.runtime.Serves providerId := by
  obtain ⟨k', hon⟩ := hknown
  rcases hstep.shared.registeredOn hon with hon | ⟨hphase, -⟩
  · exact h.serves_runtime hstep (h.serves ⟨k', hon⟩) (h.sessions.bound ⟨k', hon⟩).2
  · exact h.serves_runtime hstep (h.fresh hphase) (h.sessions.fresh hphase).2.1

theorem Kept.route_step (h : Kept providerId k token s) (hstep : Step s action t)
    (hown : ∀ k' token', (s.conns k').phase = .registered providerId →
      action = .registerRoute k' (some token') → k' = k ∧ token' = token)
    (hknown : t.Known providerId) : t.providerRoutes[providerId]? = some ⟨k, token⟩ := by
  have hbefore : s.Known providerId ∨ ∃ k', (s.conns k').phase = .registered providerId ∧
      ∃ token', action = .registerRoute k' (some token') := by
    obtain ⟨k', hon⟩ := hknown
    rcases hstep.shared.registeredOn hon with hon | hnew
    · exact Or.inl ⟨k', hon⟩
    · exact Or.inr ⟨k', hnew⟩
  rcases hbefore with hknown | ⟨k', hphase, token', rfl⟩
  · have hroute := h.route hknown
    have hon := h.sessions.route hroute
    -- a route is replaced only by a registration of the same id, and cut only by a disconnect
    cases hstep.shared with
    | quiet hmaps | runtime _ hmaps | insert _ _ hmaps | remove _ _ hmaps | take _ _ hmaps =>
        exact hmaps.providerRoutes ▸ hroute
    | @addRoute _ other _ hphase _ hroutes =>
        have hother : other ≠ providerId := by
          rintro rfl
          exact (h.sessions.fresh hphase).2.2 hknown
        simp only [hroutes, Std.ExtTreeMap.getElem?_insert, Std.LawfulEqCmp.compare_eq_iff_eq,
          hother, if_false]
        exact hroute
    | @disconnect agent other stage next later htask _ hnext hroutes =>
        rcases disconnectStep_providerRoutes hnext with hsame | ⟨rfl, herase⟩
        · rw [hroutes, hsame]
          exact hroute
        · have hother : other ≠ providerId := by
            rintro rfl
            exact h.not_task hon htask
          simp only [hroutes, herase, Std.ExtTreeMap.getElem?_erase,
            Std.LawfulEqCmp.compare_eq_iff_eq, hother, if_false]
          exact hroute
  · obtain ⟨rfl, rfl⟩ := hown k' token' hphase rfl
    cases hstep with
    | registerRoute hphase' =>
        obtain rfl := HandlerPhase.registered.inj (hphase.symm.trans hphase')
        exact Std.ExtTreeMap.getElem?_insert_self

theorem Kept.step (h : Kept providerId k token s)
    (hgood : WellBehaved providerId k token s action) (hok : Undisturbed providerId k s action)
    (hstep : Step s action t)
    (hown : ∀ k' token', (s.conns k').phase = .registered providerId →
      action = .registerRoute k' (some token') → k' = k ∧ token' = token) :
    Kept providerId k token t where
  wellFormed := by
    rcases hstep.shared.runtime_cases with hsame | ⟨op, happly, -⟩
    · exact hsame ▸ h.wellFormed
    · exact happly ▸ h.wellFormed.effect (s.runtime.effect_apply op)
  senders := h.senders.step hstep
  sessions := h.sessions.step hstep
  distinct := h.distinct.step hok hstep
  handlers := h.handlers_step hgood hok hstep
  callers := h.callers_step hgood hok hstep
  writing := h.writing_step hok hstep
  sent := h.sent_step hstep
  nodup := h.nodup_step hstep
  owed := h.owed_step hok hstep
  taking := h.taking_step hgood hok hstep
  validating := h.validating_step hgood hstep
  unregistering := h.unregistering_step hstep
  fresh := h.fresh_step hstep
  serves := h.serves_step hstep
  route := h.route_step hstep hown

end Step

theorem Kept.initial {start : Runtime} (hwf : start.WellFormed) (providerId : ProviderId)
    (k : ConnId) (token : ℕ) : Kept providerId k token (initial start) := by
  constructor
  case wellFormed => exact hwf
  case senders => exact .initial start
  case sessions => exact .initial hwf.nextProvider
  all_goals
    simp [System.initial, DistinctIds, Known, RegisteredOn, sentIds, Call.unstarted,
      Conn.unopened, CallPhase.started]

theorem Step.known_of_registerRoute {providerId : ProviderId} {token : ℕ}
    (h : Step s (.registerRoute k (some token)) t)
    (hphase : (s.conns k).phase = .registered providerId) : t.Known providerId := by
  cases h with
  | registerRoute hphase' =>
      obtain rfl := HandlerPhase.registered.inj (hphase.symm.trans hphase')
      exact ⟨k, _, List.mem_cons_self, rfl, rfl⟩

/-- In every run in which the provider is well behaved and none of its reads is disturbed:
once it is registered it stays live, keeps its route, and its promises stay available. -/
theorem well_behaved_provider_stays_live {policy : CachePolicy} {start : Runtime}
    {providerId : ProviderId} {token : ℕ} {before registered : System}
    (hstart : Runtime.withCachePolicy policy = .ok start)
    (hbefore : Reaches step (fun s action => WellBehaved providerId k token s action ∧
      Undisturbed providerId k s action) (initial start) before)
    (hphase : (before.conns k).phase = .registered providerId)
    (hregister : before.step (.registerRoute k (some token)) = some registered)
    (hrun : Reaches step (fun s action => WellBehaved providerId k token s action ∧
      Undisturbed providerId k s action) registered s) :
    s.runtime.hasProvider providerId = true ∧
      s.providerRoutes[providerId]? = some ⟨k, token⟩ ∧
      ∀ (promiseId : Text) (tree : PromiseTree), s.runtime.promises[promiseId]? = some tree →
        tree.providerId = providerId → tree.state = .available := by
  have hwf := Runtime.wellFormed_of_withCachePolicy hstart
  -- until the provider is registered nothing else registers its id
  have hinv : Sessions before ∧ (before.Known providerId ∨ Kept providerId k token before) := by
    refine hbefore.invariant
      (fun s => Sessions s ∧ (s.Known providerId ∨ Kept providerId k token s)) ?_
      ⟨.initial hwf.nextProvider, Or.inr (.initial hwf providerId k token)⟩
    rintro s action t ⟨hsessions, hcases⟩ ⟨hgood, hok⟩ hstep
    have hstep := Step.of_step hstep
    refine ⟨hsessions.step hstep, or_iff_not_imp_left.mpr fun hunknown => ?_⟩
    rcases hcases with hknown | hkept
    · exact absurd (hknown.mono hstep.shared) hunknown
    · refine hkept.step hgood hok hstep ?_
      rintro k' token' hphase rfl
      exact absurd (hstep.known_of_registerRoute hphase) hunknown
  have hkept : Kept providerId k token before :=
    hinv.2.resolve_left (hinv.1.fresh hphase).2.2
  have hfirst : Kept providerId k token registered ∧ registered.Known providerId := by
    have hstep := Step.of_step hregister
    have hgood : WellBehaved providerId k token before (.registerRoute k (some token)) := trivial
    refine ⟨hkept.step hgood (fun _ => by simp) hstep ?_, hstep.known_of_registerRoute hphase⟩
    intro k' token' _ haction
    obtain ⟨rfl, htoken⟩ := Action.registerRoute.inj haction
    exact ⟨rfl, (Option.some.inj htoken).symm⟩
  have hlast := hrun.invariant (fun s => Kept providerId k token s ∧ s.Known providerId) ?_ hfirst
  · obtain ⟨hkept, hknown⟩ := hlast
    have hserves := hkept.serves hknown
    exact ⟨hserves.live, hkept.route hknown, fun promiseId tree => hserves.available⟩
  · rintro s action t ⟨hkept, hknown⟩ ⟨hgood, hok⟩ hstep
    have hstep := Step.of_step hstep
    refine ⟨hkept.step hgood hok hstep ?_, hknown.mono hstep.shared⟩
    intro k' token' hphase
    exact absurd hknown (hkept.sessions.fresh hphase).2.2

/-- Provider 1 answers the one read that is routed to it, and is still there. -/
theorem well_behaved_provider_stays_live_of_answer :
    ∃ s : System, (s.calls 0).phase = .done (.ok ⟨1, .ok, [7]⟩) ∧
      s.runtime.hasProvider 1 = true ∧ s.providerRoutes[1]? = some ⟨0, 5⟩ := by
  have hbefore : ∃ before, Run step
      (fun s action => WellBehaved 1 0 5 s action ∧ Undisturbed 1 0 s action)
      (initial Runtime.new) [.connect 0, .frame 0 (.hello 1 1), .reply 0 true,
        .frame 0 .providerRegister, .registerProvider 0] before ∧
      (before.conns 0).phase = .registered 1 ∧
      ∃ registered, before.step (.registerRoute 0 (some 5)) = some registered ∧
      ∃ s, Run step (fun s action => WellBehaved 1 0 5 s action ∧ Undisturbed 1 0 s action)
        registered [.reply 0 true, .begin 0 ⟨1, 1, ['p'], ['f'], ['n'], 0, 4⟩, .lookupRoute 0,
          .insertPending 0, .writeRequest 0 none, .frame 0 (.providerReadResponse ⟨1, .ok, [7]⟩),
          .takePending 0, .answer 0, .receive 0] s ∧
        (s.calls 0).phase = .done (.ok ⟨1, .ok, [7]⟩) := by
    refine ⟨_, ⟨⟨trivial, trivial⟩, _, rfl, ⟨⟨nofun, nofun⟩, trivial⟩, _, rfl,
      ⟨fun _ => rfl, trivial⟩, _, rfl, ⟨⟨nofun, nofun⟩, trivial⟩, _, rfl, ⟨trivial, trivial⟩,
      _, rfl, rfl⟩, rfl, _, rfl, ?_⟩
    refine ⟨_, ⟨⟨fun _ => rfl, trivial⟩, _, rfl, ⟨trivial, fun _ h => Bool.noConfusion h⟩, _, rfl,
      ⟨trivial, trivial⟩, _, rfl, ⟨trivial, trivial⟩, _, rfl, ⟨fun _ => rfl, trivial⟩, _, rfl,
      ⟨⟨?_, nofun⟩, trivial⟩, _, rfl, ⟨trivial, fun h => absurd rfl h⟩, _, rfl,
      ⟨trivial, trivial⟩, _, rfl, ⟨trivial, trivial⟩, _, rfl, rfl⟩, rfl⟩
    rintro - response hresponse
    obtain rfl := Request.providerReadResponse.inj hresponse
    exact ⟨rfl, by decide⟩
  obtain ⟨before, hbefore, hphase, registered, hregister, s, hrun, hdone⟩ := hbefore
  have hstart : Runtime.withCachePolicy .noCache = .ok Runtime.new := rfl
  have hlive := well_behaved_provider_stays_live hstart ⟨_, hbefore⟩ hphase hregister ⟨_, hrun⟩
  exact ⟨s, hdone, hlive.1, hlive.2.1⟩

/-- A read of provider 1 times out, and the one response the provider sends to it comes
after that: the session ends and the provider is disconnected. -/
theorem late_response_disconnects_provider :
    ∃ before registered s : System,
      Reaches step (WellBehaved 1 0 5) (initial Runtime.new) before ∧
      (before.conns 0).phase = .registered 1 ∧
      before.step (.registerRoute 0 (some 5)) = some registered ∧
      Reaches step (WellBehaved 1 0 5) registered s ∧
      s.runtime.hasProvider 1 = false ∧ s.providerRoutes[1]? = none := by
  refine ⟨_, _, _, ⟨[.connect 0, .frame 0 (.hello 1 1), .reply 0 true,
      .frame 0 .providerRegister, .registerProvider 0], trivial, _, rfl, ⟨nofun, nofun⟩, _, rfl,
      fun _ => rfl, _, rfl, ⟨nofun, nofun⟩, _, rfl, trivial, _, rfl, rfl⟩, rfl, rfl,
    ⟨[.reply 0 true, .begin 0 ⟨1, 1, ['p'], ['f'], ['n'], 0, 4⟩, .lookupRoute 0,
      .insertPending 0, .writeRequest 0 none, .timeout 0, .removePending 0,
      .frame 0 (.providerReadResponse ⟨1, .ok, [7]⟩), .takePending 0, .close 0,
      .disconnectConn 0, .disconnectConn 0],
      fun _ => rfl, _, rfl, trivial, _, rfl, trivial, _, rfl, trivial, _, rfl, fun _ => rfl,
      _, rfl, trivial, _, rfl, trivial, _, rfl, ⟨?_, nofun⟩, _, rfl, trivial, _, rfl, trivial,
      _, rfl, trivial, _, rfl, trivial, _, rfl, rfl⟩, by decide, by decide⟩
  rintro - response hresponse
  obtain rfl := Request.providerReadResponse.inj hresponse
  exact ⟨rfl, by decide⟩

end System

end FusePromise
