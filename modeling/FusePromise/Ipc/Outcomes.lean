import FusePromise.Ipc.Changes

/-!
# Where the outcomes of reads come from

A caller gets its outcome once, a response frame is used for one caller, and a
caller that returns a response was answered by a frame that names its request,
on a connection that had registered the provider, within the limits of the
request.  All of this holds in every interleaving, whatever ids the callers use.

The frames of a connection are numbered from one.  `Conn.handled` counts those
whose handling is over, so that a response being matched with a pending read is
the frame after them.
-/

namespace FusePromise

open Machine Transition

def Conn.handled (conn : Conn) : ℕ :=
  if conn.phase.inFrame then conn.received.length - 1 else conn.received.length

/-- A new frame does not undo the handling of the others. -/
theorem Conn.handled_frame {conn conn' : Conn} {request : Request}
    (hreading : conn.phase.inFrame = false)
    (hreceived : conn'.received = conn.received ++ [request]) : conn.handled ≤ conn'.handled := by
  simp only [handled, hreading, hreceived, List.length_append, List.length_singleton,
    Bool.false_eq_true, if_false]
  split <;> omega

theorem Conn.handled_le (conn : Conn) : conn.handled ≤ conn.received.length := by
  unfold handled
  split <;> omega

/-- A response frame that answers a request: its connection had registered the
provider before, and the response passes the checks. -/
structure Genuine (registrations : List Registration) (k : ConnId) (received : List Request)
    (frame : ℕ) (request : ProviderReadRequest) (response : ProviderReadResponse) : Prop where
  frame_pos : 0 < frame
  content : received[frame - 1]? = some (.providerReadResponse response)
  registered : ∃ registration ∈ registrations, registration.conn = k ∧
    registration.providerId = request.providerId ∧ registration.frame < frame
  accepted : validateProviderReadResponseForRequest request response = .ok ()

theorem Genuine.mono {registrations registrations' : List Registration} {k : ConnId}
    {received received' : List Request} {frame : ℕ} {request : ProviderReadRequest}
    {response : ProviderReadResponse}
    (h : Genuine registrations k received frame request response)
    (hreg : registrations ⊆ registrations') (hreceived : received <+: received') :
    Genuine registrations' k received' frame request response := by
  obtain ⟨registration, hmem, hrest⟩ := h.registered
  refine ⟨h.frame_pos, ?_, ⟨registration, hreg hmem, hrest⟩, h.accepted⟩
  obtain ⟨later, rfl⟩ := hreceived
  obtain ⟨hlt, -⟩ := List.getElem?_eq_some_iff.mp h.content
  rw [List.getElem?_append_left hlt]
  exact h.content

/-- What a connection knows of its own history. -/
structure Conn.Recorded (registrations : List Registration) (k : ConnId) (conn : Conn) :
    Prop where
  session : ∀ providerId ∈ conn.registeredProviders, ∃ registration ∈ registrations,
    registration.conn = k ∧ registration.providerId = providerId ∧
      registration.frame ≤ conn.handled
  inFrame : conn.phase.inFrame → 0 < conn.received.length
  taking : ∀ {response : ProviderReadResponse}, conn.phase = .taking response →
    conn.received[conn.handled]? = some (.providerReadResponse response)
  answering : ∀ {read : PendingRead} {response : ProviderReadResponse},
    conn.phase = .answering read (.ok response) → read.providerId = read.request.providerId →
    Genuine registrations k conn.received (conn.handled + 1) read.request response

namespace Conn.Recorded

variable {registrations registrations' : List Registration} {k : ConnId} {conn conn' : Conn}

theorem mono (h : conn.Recorded registrations k) (hreg : registrations ⊆ registrations') :
    conn.Recorded registrations' k := by
  refine ⟨?_, h.inFrame, h.taking, fun hphase hread => (h.answering hphase hread).mono hreg
    (List.prefix_refl _)⟩
  intro providerId hmem
  obtain ⟨registration, hregistration, hrest⟩ := h.session providerId hmem
  exact ⟨registration, hreg hregistration, hrest⟩

/-- Leaving a frame, or moving between two of them. -/
theorem quiet (h : conn.Recorded registrations k) (hphase : conn'.phase.inFrame = false)
    (hreceived : conn'.received = conn.received)
    (hproviders : conn'.registeredProviders ⊆ conn.registeredProviders) :
    conn'.Recorded registrations k := by
  refine ⟨?_, by simp [hphase], ?_, ?_⟩
  · intro providerId hmem
    obtain ⟨registration, hregistration, hconn, hid, hframe⟩ :=
      h.session providerId (hproviders hmem)
    refine ⟨registration, hregistration, hconn, hid, hframe.trans ?_⟩
    simpa [handled, hphase, hreceived] using conn.handled_le
  · intro response htaking
    simp [htaking, HandlerPhase.inFrame] at hphase
  · intro read response hanswering
    simp [hanswering, HandlerPhase.inFrame] at hphase

theorem frame (h : conn.Recorded registrations k) {request : Request}
    (hreading : conn.phase.inFrame = false)
    (hphase : conn'.phase.inFrame = true → ∃ response, conn'.phase = .taking response ∧
      request = .providerReadResponse response)
    (hreceived : conn'.received = conn.received ++ [request])
    (hproviders : conn'.registeredProviders = conn.registeredProviders) :
    conn'.Recorded registrations k := by
  refine ⟨?_, by simp [hreceived], ?_, ?_⟩
  · intro providerId hmem
    obtain ⟨registration, hregistration, hconn, hid, hframe⟩ :=
      h.session providerId (hproviders ▸ hmem)
    exact ⟨registration, hregistration, hconn, hid,
      hframe.trans (handled_frame hreading hreceived)⟩
  · intro response htaking
    obtain ⟨response', htaking', rfl⟩ := hphase (by rw [htaking]; rfl)
    obtain rfl : response = response' := HandlerPhase.taking.inj (htaking.symm.trans htaking')
    simp [handled, htaking, hreceived, HandlerPhase.inFrame]
  · intro read response hanswering
    obtain ⟨response', htaking, -⟩ := hphase (by rw [hanswering]; rfl)
    simp [hanswering] at htaking

/-- The response of a frame is matched with a pending read. -/
theorem take (h : conn.Recorded registrations k) {response : ProviderReadResponse}
    {read : PendingRead} (htaking : conn.phase = .taking response)
    (hphase : conn'.phase = .answering read (conn.outcome read response))
    (hreceived : conn'.received = conn.received)
    (hproviders : conn'.registeredProviders = conn.registeredProviders) :
    conn'.Recorded registrations k := by
  have hhandled : conn'.handled = conn.handled := by
    simp [handled, htaking, hphase, hreceived, HandlerPhase.inFrame]
  refine ⟨?_, ?_, by simp [hphase], ?_⟩
  · rw [hproviders, hhandled]
    exact h.session
  · intro _
    rw [hreceived]
    exact h.inFrame (by simp [htaking, HandlerPhase.inFrame])
  · intro read' accepted hanswering hprovider
    obtain ⟨rfl, houtcome⟩ := HandlerPhase.answering.inj (hphase.symm.trans hanswering)
    unfold outcome at houtcome
    split at houtcome
    · rename_i howns
      split at houtcome
      · rename_i hvalid
        obtain rfl : response = accepted := Except.ok.inj houtcome
        obtain ⟨registration, hregistration, hconn, hid, hframe⟩ := h.session _ howns
        rw [hhandled, hreceived]
        exact ⟨Nat.succ_pos _, h.taking htaking,
          ⟨registration, hregistration, hconn, hid.trans hprovider, Nat.lt_succ_of_le hframe⟩,
          hvalid⟩
      · simp at houtcome
    · simp at houtcome

/-- A provider joins the session. -/
theorem register (h : conn.Recorded registrations k) {providerId : ProviderId}
    (hphase : conn'.phase = .replying) (hreceived : conn'.received = conn.received)
    (hproviders : conn'.registeredProviders = conn.registeredProviders ++ [providerId]) :
    conn'.Recorded (⟨k, conn.received.length, providerId⟩ :: registrations) k := by
  refine ⟨?_, by simp [hphase, HandlerPhase.inFrame], by simp [hphase], by simp [hphase]⟩
  intro providerId' hmem
  have hhandled : conn'.handled = conn.received.length := by
    simp [handled, hphase, hreceived, HandlerPhase.inFrame]
  rw [hhandled]
  rcases List.mem_append.mp (hproviders ▸ hmem) with hmem | hmem
  · obtain ⟨registration, hregistration, hconn, hid, hframe⟩ := h.session providerId' hmem
    exact ⟨registration, List.mem_cons_of_mem _ hregistration, hconn, hid,
      hframe.trans conn.handled_le⟩
  · obtain rfl : providerId' = providerId := by simpa using hmem
    exact ⟨_, List.mem_cons_self, rfl, rfl, le_rfl⟩

end Conn.Recorded

namespace System

variable {s t : System} {action : Action}

theorem Step.registrations (h : Step s action t) : s.registrations ⊆ t.registrations := by
  cases h with
  | registerRoute => exact List.subset_cons_self _ _
  | begin =>
      unfold System.begin
      split <;> exact List.Subset.refl _
  | disconnectCall | disconnectConn => simp
  | _ => exact List.Subset.refl _

theorem ConnChange.received {k : ConnId} (h : ConnChange s t k) :
    (s.conns k).received <+: (t.conns k).received := by
  cases h with
  | frame _ _ hreceived => rw [hreceived]; exact List.prefix_append _ _
  | same _ hreceived | quiet _ hreceived | take _ _ _ hreceived | register _ _ hreceived =>
      rw [hreceived]

theorem ConnChange.handled {k : ConnId} (h : ConnChange s t k) :
    (s.conns k).handled ≤ (t.conns k).handled := by
  cases h with
  | same hphase hreceived => simp [Conn.handled, hphase, hreceived]
  | quiet hphase hreceived =>
      simpa [Conn.handled, hphase, hreceived] using (s.conns k).handled_le
  | frame hreading _ hreceived => exact Conn.handled_frame hreading hreceived
  | take _ htaking hphase hreceived =>
      simp [Conn.handled, htaking, hphase, hreceived, HandlerPhase.inFrame]
  | register _ hphase hreceived =>
      simpa [Conn.handled, hphase, hreceived, HandlerPhase.inFrame] using (s.conns k).handled_le

theorem ConnChange.recorded {k : ConnId} (h : ConnChange s t k)
    (hreg : s.registrations ⊆ t.registrations)
    (hconn : (s.conns k).Recorded s.registrations k) :
    (t.conns k).Recorded t.registrations k := by
  cases h with
  | same hphase hreceived hproviders =>
      have hhandled : (t.conns k).handled = (s.conns k).handled := by
        simp [Conn.handled, hphase, hreceived]
      have hlater := hconn.mono hreg
      refine ⟨?_, ?_, ?_, ?_⟩
      · rw [hproviders, hhandled]
        exact hlater.session
      · rw [hphase, hreceived]
        exact hlater.inFrame
      · rw [hphase, hreceived, hhandled]
        exact hlater.taking
      · rw [hphase, hreceived, hhandled]
        exact hlater.answering
  | quiet hphase hreceived hproviders => exact (hconn.mono hreg).quiet hphase hreceived hproviders
  | frame hreading hphase hreceived hproviders =>
      exact (hconn.mono hreg).frame hreading hphase hreceived hproviders
  | take read htaking hphase hreceived hproviders =>
      exact (hconn.mono hreg).take htaking hphase hreceived hproviders
  | register providerId hphase hreceived hproviders hregistration =>
      rw [hregistration]
      exact hconn.register hphase hreceived hproviders

/-! ## Calls -/

/-- A response that a call has returned or is going to. -/
def Gets (call : Call) (response : ProviderReadResponse) : Prop :=
  .ok response ∈ call.inbox ∨ call.phase = .done (.ok response)

/-- A call returns a response only out of its channel. -/
theorem PhaseStep.mem_inbox {c : CallId} {phase phase' : CallPhase}
    (h : PhaseStep s action c phase phase') {response : ProviderReadResponse}
    (hdone : phase' = .done (.ok response)) : .ok response ∈ (s.calls c).inbox := by
  cases h with
  | receive hmem => exact CallPhase.done.inj hdone ▸ hmem
  | disconnect stage error later => cases later <;> simp [CallPhase.afterDisconnect] at hdone
  | _ => simp at hdone

theorem CallChange.gets {c : CallId} (h : CallChange s t action c)
    {response : ProviderReadResponse} (hgets : Gets (t.calls c) response) :
    Gets (s.calls c) response ∨ ∃ k read, action = .answer k ∧
      (s.conns k).phase = .answering read (.ok response) ∧ read.sender = c := by
  unfold Gets at hgets ⊢
  cases h with
  | begin _ _ hphase hinbox =>
      rw [hinbox] at hgets
      rcases hphase with hphase | ⟨_, hphase⟩
      · simp only [hphase, reduceCtorEq, or_false] at hgets
        exact Or.inl (Or.inl hgets)
      · simp only [hphase, CallPhase.done.injEq, reduceCtorEq, or_false] at hgets
        exact Or.inl (Or.inl hgets)
  | move _ hphase hinbox =>
      obtain ⟨errors, hinbox⟩ := hinbox
      rcases hgets with hgets | hgets
      · rw [hinbox] at hgets
        simp only [List.mem_append, List.mem_map, reduceCtorEq, and_false, exists_false,
          or_false] at hgets
        exact Or.inl (Or.inl hgets)
      · rcases hphase with hphase | hphase
        · exact Or.inl (Or.inr (hphase ▸ hgets))
        · exact Or.inl (Or.inl (hphase.mem_inbox hgets))
  | answer haction hanswering hsender _ hphase hinbox =>
      rw [hinbox, hphase, List.mem_append, List.mem_singleton] at hgets
      rcases hgets with (hgets | rfl) | hgets
      · exact Or.inl (Or.inl hgets)
      · exact Or.inr ⟨_, _, haction, hanswering, hsender⟩
      · exact Or.inl (Or.inr hgets)

theorem CallChange.done {c : CallId} (h : CallChange s t action c) {outcome : Outcome}
    (hdone : (s.calls c).phase = .done outcome) : (t.calls c).phase = .done outcome := by
  cases h with
  | begin hbegin => simp [hdone, mayBegin] at hbegin
  | move _ hphase _ =>
      rcases hphase with hphase | hphase
      · rw [hphase, hdone]
      · rw [hdone] at hphase
        generalize (t.calls c).phase = phase at hphase
        cases hphase
        simp_all
  | answer _ _ _ _ hphase => rw [hphase, hdone]

/-- A call whose channel was made keeps its request. -/
theorem CallChange.born {c : CallId} (h : CallChange s t action c) (hsenders : Senders s)
    (hborn : (s.calls c).place ≠ .unborn) :
    (t.calls c).place ≠ .unborn ∧ (t.calls c).request = (s.calls c).request := by
  cases h with
  | begin hbegin =>
      have hearly : (s.calls c).phase.early := by
        cases hphase : (s.calls c).phase <;> simp_all [mayBegin, CallPhase.early]
      exact absurd (hsenders.early c hearly) hborn
  | move hrequest _ _ hplace => exact ⟨fun hunborn => hborn (hplace hunborn), hrequest⟩
  | answer _ _ _ hrequest _ _ hplace => exact ⟨fun hunborn => hborn (hplace hunborn), hrequest⟩

/-- Only an answer is delivered. -/
theorem Step.deliveries (h : Step s action t) :
    (t.deliveries = s.deliveries ∧ ∀ k, action ≠ .answer k) ∨ ∃ k read outcome,
      action = .answer k ∧ (s.conns k).phase = .answering read outcome ∧
        t = s.answer k read outcome := by
  cases h with
  | @answer k read outcome hphase => exact Or.inr ⟨k, read, outcome, rfl, hphase, rfl⟩
  | begin =>
      unfold System.begin
      split <;> exact Or.inl ⟨rfl, by simp⟩
  | disconnectCall | disconnectConn => exact Or.inl ⟨disconnectStep_deliveries, by simp⟩
  | _ => exact Or.inl ⟨rfl, by simp⟩

/-! ## The history of the system -/

/-- The response a call has returned or is going to was delivered to it. -/
def Delivered (deliveries : List Delivery) (c : CallId) (response : ProviderReadResponse) : Prop :=
  ∃ delivery ∈ deliveries, delivery.call = c ∧ delivery.outcome = .ok response

/-- What threads were told is on record, each time with the frame it came from. -/
structure Logged (s : System) : Prop where
  conns : ∀ k, (s.conns k).Recorded s.registrations k
  calls : ∀ {c : CallId} {response : ProviderReadResponse}, Gets (s.calls c) response →
    Delivered s.deliveries c response
  handled : ∀ delivery ∈ s.deliveries, delivery.frame ≤ (s.conns delivery.conn).handled
  born : ∀ delivery ∈ s.deliveries, (s.calls delivery.call).place ≠ .unborn
  unique : (s.deliveries.map fun delivery => (delivery.conn, delivery.frame)).Nodup
  genuine : ∀ delivery ∈ s.deliveries, ∀ {response : ProviderReadResponse},
    delivery.outcome = .ok response →
    Genuine s.registrations delivery.conn (s.conns delivery.conn).received delivery.frame
      (s.calls delivery.call).request response

theorem Logged.initial (runtime : Runtime) : Logged (initial runtime) := by
  constructor <;>
    simp [System.initial, Gets, Call.unstarted]
  intro k
  constructor <;> simp [Conn.unopened, HandlerPhase.inFrame]

/-- Deliveries made before a step stay what they were. -/
theorem Logged.of_step (h : Logged s) (hsenders : Senders s) (hstep : Step s action t)
    {delivery : Delivery} (hmem : delivery ∈ s.deliveries) :
    delivery.frame ≤ (t.conns delivery.conn).handled ∧
      (t.calls delivery.call).place ≠ .unborn ∧
      ∀ {response : ProviderReadResponse}, delivery.outcome = .ok response →
        Genuine t.registrations delivery.conn (t.conns delivery.conn).received delivery.frame
          (t.calls delivery.call).request response := by
  have hconn := hstep.conn delivery.conn
  obtain ⟨hborn, hrequest⟩ := (hstep.call delivery.call).born hsenders (h.born delivery hmem)
  refine ⟨(h.handled delivery hmem).trans hconn.handled, hborn, ?_⟩
  intro response hok
  rw [hrequest]
  exact (h.genuine delivery hmem hok).mono hstep.registrations hconn.received

/-- The delivery that a handler makes with its answer. -/
theorem Logged.answer (h : Logged s) (hsenders : Senders s) {k : ConnId} {read : PendingRead}
    {outcome : Outcome} (hphase : (s.conns k).phase = .answering read outcome) :
    (s.conns k).received.length ≤ ((s.answer k read outcome).conns k).handled ∧
      (∀ delivery ∈ s.deliveries, delivery.conn = k →
        delivery.frame ≠ (s.conns k).received.length) ∧
      ∀ {response : ProviderReadResponse}, outcome = .ok response →
        Genuine s.registrations k ((s.answer k read outcome).conns k).received
          (s.conns k).received.length
          ((s.answer k read outcome).calls read.sender).request response := by
  have hpos := (h.conns k).inFrame (by simp [hphase, HandlerPhase.inFrame])
  have hhandled : (s.conns k).handled + 1 = (s.conns k).received.length := by
    simp [Conn.handled, hphase, HandlerPhase.inFrame]
    omega
  have hread : read ∈ s.held (.handler k) := by simp [System.held, hphase, HandlerPhase.held]
  obtain ⟨c, -, rfl⟩ := hsenders.held.mp hread
  refine ⟨by simp [Conn.handled, HandlerPhase.inFrame], ?_, ?_⟩
  · rintro delivery hmem rfl
    have := h.handled delivery hmem
    omega
  · rintro response rfl
    have hgenuine := (h.conns k).answering hphase rfl
    rw [hhandled] at hgenuine
    simpa [System.entry] using hgenuine

theorem Logged.step (h : Logged s) (hsenders : Senders s) (hstep : Step s action t) :
    Logged t := by
  have hconns := fun k => (hstep.conn k).recorded hstep.registrations (h.conns k)
  have hold := fun {delivery : Delivery} (hmem : delivery ∈ s.deliveries) =>
    h.of_step hsenders hstep hmem
  rcases hstep.deliveries with ⟨hdeliveries, hother⟩ | ⟨k, read, outcome, rfl, hphase, rfl⟩
  · refine ⟨hconns, ?_, ?_, ?_, ?_, ?_⟩
    · intro c response hgets
      rw [hdeliveries]
      rcases (hstep.call c).gets hgets with hgets | ⟨k, _, haction, -⟩
      · exact h.calls hgets
      · exact absurd haction (hother k)
    · rw [hdeliveries]
      exact fun delivery hmem => (hold hmem).1
    · rw [hdeliveries]
      exact fun delivery hmem => (hold hmem).2.1
    · rw [hdeliveries]
      exact h.unique
    · rw [hdeliveries]
      exact fun delivery hmem => (hold hmem).2.2
  -- the one step that delivers: the frame it handles has delivered nothing before
  · obtain ⟨hhandled, hnew, hgenuine⟩ := h.answer hsenders hphase
    have hdeliveries : (s.answer k read outcome).deliveries =
      ⟨k, (s.conns k).received.length, read.sender, outcome⟩ :: s.deliveries := rfl
    refine ⟨hconns, ?_, ?_, ?_, ?_, ?_⟩
    · intro c response hgets
      rw [hdeliveries]
      rcases (hstep.call c).gets hgets with hgets | ⟨k', read', haction, hphase', rfl⟩
      · obtain ⟨delivery, hmem, hcall⟩ := h.calls hgets
        exact ⟨delivery, List.mem_cons_of_mem _ hmem, hcall⟩
      · obtain rfl := Action.answer.inj haction
        obtain ⟨rfl, rfl⟩ := HandlerPhase.answering.inj (hphase.symm.trans hphase')
        exact ⟨_, List.mem_cons_self, rfl, rfl⟩
    · rw [hdeliveries, List.forall_mem_cons]
      exact ⟨hhandled, fun delivery hmem => (hold hmem).1⟩
    · rw [hdeliveries, List.forall_mem_cons]
      exact ⟨by simp, fun delivery hmem => (hold hmem).2.1⟩
    · rw [hdeliveries, List.map_cons, List.nodup_cons]
      refine ⟨fun hmem => ?_, h.unique⟩
      obtain ⟨delivery, hmem, hsame⟩ := List.mem_map.mp hmem
      obtain ⟨hconn, hframe⟩ := Prod.mk.inj hsame
      exact hnew delivery hmem hconn hframe
    · rw [hdeliveries, List.forall_mem_cons]
      exact ⟨hgenuine, fun delivery hmem => (hold hmem).2.2⟩

/-! ## Every interleaving -/

theorem reachable_logged {runtime : Runtime} {ok : System → Action → Prop}
    (h : Reaches step ok (initial runtime) s) : Senders s ∧ Logged s := by
  refine h.invariant (fun s => Senders s ∧ Logged s) ?_
    ⟨Senders.initial runtime, Logged.initial runtime⟩
  intro s action t hinv _ hstep
  have hstep := Step.of_step hstep
  exact ⟨hinv.1.step hstep, hinv.2.step hinv.1 hstep⟩

/-- However the threads are interleaved: a call that has its outcome keeps it
and gets no second one, a response frame is delivered to at most one call, and a
response a call returns came in a frame that names its request, on a connection
that had registered its provider, with no more bytes than it asked for. -/
theorem read_outcomes_of_reachable {runtime : Runtime}
    (h : Reaches step always (initial runtime) s) :
    (∀ c, (s.calls c).inbox.length ≤ 1 ∧ ∀ outcome, (s.calls c).phase = .done outcome →
      ∀ t, Reaches step always s t → (t.calls c).phase = .done outcome) ∧
    (∀ delivery ∈ s.deliveries, ∀ other ∈ s.deliveries,
      delivery.conn = other.conn → delivery.frame = other.frame → delivery = other) ∧
    (∀ c response, (s.calls c).phase = .done (.ok response) →
      ∃ delivery ∈ s.deliveries, delivery.call = c ∧ 0 < delivery.frame ∧
        (s.conns delivery.conn).received[delivery.frame - 1]? =
          some (.providerReadResponse response) ∧
        response.requestId = (s.calls c).request.requestId ∧
        (∃ registration ∈ s.registrations, registration.conn = delivery.conn ∧
          registration.providerId = (s.calls c).request.providerId ∧
          registration.frame < delivery.frame) ∧
        (response.status = .ok → response.bytes.length ≤ (s.calls c).request.length) ∧
        (response.status ≠ .ok → response.bytes = [])) := by
  obtain ⟨hsenders, hlogged⟩ := reachable_logged h
  refine ⟨fun c => ⟨?_, ?_⟩, ?_, ?_⟩
  · rcases hsenders.inbox c with hempty | ⟨-, hone⟩
    · simp [hempty]
    · exact hone.le
  · intro outcome hdone t hrun
    refine hrun.invariant (fun s => (s.calls c).phase = .done outcome) ?_ hdone
    intro s action t hdone _ hstep
    exact ((Step.of_step hstep).call c).done hdone
  · intro delivery hmem other hmem' hconn hframe
    exact List.inj_on_of_nodup_map hlogged.unique hmem hmem' (Prod.ext hconn hframe)
  · intro c response hdone
    obtain ⟨delivery, hmem, rfl, hok⟩ := hlogged.calls (Or.inr hdone)
    have hgenuine := hlogged.genuine delivery hmem hok
    obtain ⟨hid, -, -, hbytes⟩ :=
      validateProviderReadResponseForRequest_eq_ok.mp hgenuine.accepted
    refine ⟨delivery, hmem, rfl, hgenuine.frame_pos, hgenuine.content, hid, hgenuine.registered,
      ?_, ?_⟩
    · intro hstatus
      rcases hbytes with ⟨-, hlength⟩ | ⟨hne, -⟩
      · exact hlength
      · exact absurd hstatus hne
    · intro hstatus
      rcases hbytes with ⟨hok, -⟩ | ⟨-, hnil⟩
      · exact absurd hok hstatus
      · exact hnil

/-- A provider session on connection 0, and a read that its provider answers. -/
theorem read_outcomes_of_answered_call :
    ∃ s : System, (s.calls 0).phase = .done (.ok ⟨1, .ok, [7]⟩) ∧
      ∃ delivery ∈ s.deliveries, delivery.call = 0 ∧
        (s.conns delivery.conn).received[delivery.frame - 1]? =
          some (.providerReadResponse ⟨1, .ok, [7]⟩) := by
  have hrun : ∃ s, [Action.connect 0, .frame 0 (.hello 1 1), .reply 0 true,
      .frame 0 .providerRegister, .registerProvider 0, .registerRoute 0 (some 5), .reply 0 true,
      .allocate 0, .begin 0 ⟨1, 1, ['p'], ['f'], ['n'], 0, 4⟩, .lookupRoute 0, .insertPending 0,
      .writeRequest 0 none, .frame 0 (.providerReadResponse ⟨1, .ok, [7]⟩), .takePending 0,
      .answer 0, .receive 0].foldlM step (initial Runtime.new) = some s ∧
      (s.calls 0).phase = .done (.ok ⟨1, .ok, [7]⟩) := ⟨_, rfl, rfl⟩
  obtain ⟨s, hrun, hdone⟩ := hrun
  obtain ⟨delivery, hmem, hcall, -, hcontent, -⟩ :=
    (read_outcomes_of_reachable (Reaches.of_foldlM hrun)).2.2 0 _ hdone
  exact ⟨s, hdone, delivery, hmem, hcall, hcontent⟩

end System

end FusePromise
