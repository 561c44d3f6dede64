import FusePromise.Ipc.Steps

/-!
# Every channel has one sender

The sending half of a caller's channel is made with its table entry and moves
with it: into the hands of the handler that takes the entry out for a response,
or of the thread that sweeps the table for a lost provider.  `Senders` says that
the table and the hands of the agents hold the entries of exactly those calls
whose sender is there.  Since a call has one place at a time, no call is in the
table twice, and none is answered twice.
-/

namespace FusePromise

open Machine

/-- The reads taken out of the table that are still to be failed. -/
def DisconnectStage.held : DisconnectStage → List PendingRead
  | .failing reads => reads
  | _ => []

/-- The reads a caller is about to fail. -/
def CallPhase.held : CallPhase → List PendingRead
  | .disconnecting stage _ => stage.held
  | _ => []

/-- The reads a handler is about to answer or fail. -/
def HandlerPhase.held : HandlerPhase → List PendingRead
  | .answering read _ => [read]
  | .disconnecting _ stage _ => stage.held
  | _ => []

/-- The phases before the channel of a call is made. -/
def CallPhase.early : CallPhase → Bool
  | .absent | .ready _ | .routing | .routed _ => true
  | _ => false

theorem Conn.Dispatched.held {conn : Conn} {request : Request} {phase : HandlerPhase}
    (h : conn.Dispatched request phase) : phase.held = [] := by
  cases h <;> rfl

theorem CallPhase.held_afterDisconnect (error : IoError) (later : Option DisconnectStage) :
    (CallPhase.afterDisconnect error later).held = (later.map DisconnectStage.held).getD [] := by
  cases later <;> rfl

theorem HandlerPhase.held_afterDisconnect (providerId : ProviderId)
    (rest : Option (List ProviderId)) (later : Option DisconnectStage) :
    (HandlerPhase.afterDisconnect providerId rest later).held =
      (later.map DisconnectStage.held).getD [] := by
  cases later with
  | none => cases rest <;> rfl
  | some stage => rfl

namespace System

variable {s t : System} {action : Action}

def held (s : System) : Agent → List PendingRead
  | .caller c => (s.calls c).phase.held
  | .handler k => (s.conns k).phase.held

/-- Every sender is at one place: in the table, with one thread, or gone with one outcome sent. -/
structure Senders (s : System) : Prop where
  table : ∀ {id : ℕ} {read : PendingRead}, s.pendingReads[id]? = some read ↔
    ∃ c, (s.calls c).place = .table ∧ read = s.entry c ∧ id = (s.calls c).request.requestId
  held : ∀ {agent : Agent} {read : PendingRead}, read ∈ s.held agent ↔
    ∃ c, (s.calls c).place = .held agent ∧ read = s.entry c
  nodup : ∀ agent, (s.held agent).Nodup
  inbox : ∀ c, (s.calls c).inbox = [] ∨
    (s.calls c).place = .gone ∧ (s.calls c).inbox.length = 1
  early : ∀ c, (s.calls c).phase.early → (s.calls c).place = .unborn

/-! ## Steps that leave the senders alone -/

theorem Senders.congr (h : Senders s) (hpending : t.pendingReads = s.pendingReads)
    (hheld : ∀ agent, t.held agent = s.held agent)
    (hcalls : ∀ c, (t.calls c).request = (s.calls c).request ∧
      (t.calls c).place = (s.calls c).place ∧ (t.calls c).inbox = (s.calls c).inbox)
    (hearly : ∀ c, (t.calls c).phase.early → (s.calls c).phase.early) : Senders t := by
  have hentry : ∀ c, t.entry c = s.entry c := by
    intro c
    simp only [entry, (hcalls c).1]
  constructor
  · intro id read
    simp only [hpending, h.table, hentry, (hcalls _).1, (hcalls _).2.1]
  · intro agent read
    simp only [hheld, h.held, hentry, (hcalls _).2.1]
  · intro agent
    rw [hheld]
    exact h.nodup agent
  · intro c
    rw [(hcalls c).2.1, (hcalls c).2.2]
    exact h.inbox c
  · intro c hc
    rw [(hcalls c).2.1]
    exact h.early c (hearly c hc)

theorem Senders.setPhase (h : Senders s) {c : CallId} {phase : CallPhase}
    (hheld : phase.held = (s.calls c).phase.held)
    (hearly : phase.early → (s.calls c).phase.early) : Senders (s.setPhase c phase) := by
  refine h.congr rfl ?_ ?_ ?_
  · intro agent
    cases agent with
    | caller c' =>
        by_cases hc : c' = c
        · subst hc
          simpa [System.held] using hheld
        · simp [System.held, hc]
    | handler k => rfl
  · intro c'
    by_cases hc : c' = c
    · subst hc
      simp
    · simp [hc]
  · intro c' hc'
    by_cases hc : c' = c
    · subst hc
      exact hearly (by simpa using hc')
    · simpa [hc] using hc'

theorem Senders.setConn (h : Senders s) {k : ConnId} {conn : Conn}
    (hheld : conn.phase.held = (s.conns k).phase.held) : Senders (s.setConn k conn) := by
  refine h.congr rfl ?_ (fun _ => ⟨rfl, rfl, rfl⟩) (fun _ hc => hc)
  intro agent
  cases agent with
  | caller c => rfl
  | handler k' =>
      by_cases hk : k' = k
      · subst hk
        simpa [System.held] using hheld
      · simp [System.held, hk]

/-! ## Steps that move a sender -/

@[simp] theorem dropPending_phase (s : System) (id : ℕ) (c : CallId) :
    ((s.dropPending id).calls c).phase = (s.calls c).phase := by
  simp only [dropPending]
  split <;> rfl

@[simp] theorem dropPending_request (s : System) (id : ℕ) (c : CallId) :
    ((s.dropPending id).calls c).request = (s.calls c).request := by
  simp only [dropPending]
  split <;> rfl

@[simp] theorem dropPending_inbox (s : System) (id : ℕ) (c : CallId) :
    ((s.dropPending id).calls c).inbox = (s.calls c).inbox := by
  simp only [dropPending]
  split <;> rfl

theorem dropPending_unborn {id : ℕ} {c : CallId}
    (h : ((s.dropPending id).calls c).place = .unborn) : (s.calls c).place = .unborn := by
  simp only [dropPending] at h
  split at h
  · simp at h
  · exact h

/-- Only the calls in `calls` get another place; the rest of a call stays. -/
def Relocates (s t : System) (calls : CallId → Prop) (place : SenderPlace) : Prop :=
  ∀ c, (t.calls c).request = (s.calls c).request ∧
    (calls c → (t.calls c).place = place) ∧
    (¬ calls c → (t.calls c).place = (s.calls c).place)

theorem Relocates.entry {calls : CallId → Prop} {place : SenderPlace}
    (h : Relocates s t calls place) (c : CallId) : t.entry c = s.entry c := by
  simp only [System.entry, (h c).1]

/-- Entries of the table leave it when their calls get another place. -/
theorem Senders.table_of_removed (h : Senders s) {calls : CallId → Prop} {place : SenderPlace}
    (hmoved : Relocates s t calls place) (hplace : place ≠ .table)
    (hpending : ∀ {id : ℕ} {read : PendingRead}, t.pendingReads[id]? = some read ↔
      s.pendingReads[id]? = some read ∧ ¬ calls read.sender) {id : ℕ} {read : PendingRead} :
    t.pendingReads[id]? = some read ↔
      ∃ c, (t.calls c).place = .table ∧ read = t.entry c ∧
        id = (t.calls c).request.requestId := by
  rw [hpending, h.table]
  constructor
  · rintro ⟨⟨c, hc, rfl, rfl⟩, hstays⟩
    exact ⟨c, ((hmoved c).2.2 hstays).trans hc, (hmoved.entry c).symm, by rw [(hmoved c).1]⟩
  · rintro ⟨c, hc, rfl, rfl⟩
    have hstays : ¬ calls c := fun hmove => hplace (((hmoved c).2.1 hmove).symm.trans hc)
    rw [hmoved.entry, (hmoved c).1]
    exact ⟨⟨c, ((hmoved c).2.2 hstays).symm.trans hc, rfl, rfl⟩, hstays⟩

/-- What an agent holds, when only calls of the table get another place. -/
theorem Senders.held_of_kept (h : Senders s) {calls : CallId → Prop} {place : SenderPlace}
    (hmoved : Relocates s t calls place) (hfrom : ∀ c, calls c → (s.calls c).place = .table)
    {agent : Agent} (hplace : place ≠ .held agent) (hheld : t.held agent = s.held agent)
    {read : PendingRead} :
    read ∈ t.held agent ↔ ∃ c, (t.calls c).place = .held agent ∧ read = t.entry c := by
  rw [hheld, h.held]
  constructor
  · rintro ⟨c, hc, rfl⟩
    have hstays : ¬ calls c := fun hmove => by simp [hfrom c hmove] at hc
    exact ⟨c, ((hmoved c).2.2 hstays).trans hc, (hmoved.entry c).symm⟩
  · rintro ⟨c, hc, rfl⟩
    have hstays : ¬ calls c := fun hmove => hplace (((hmoved c).2.1 hmove).symm.trans hc)
    exact ⟨c, ((hmoved c).2.2 hstays).symm.trans hc, hmoved.entry c⟩

/-- Entries leave the table for the hands of an agent, or for nowhere. -/
theorem Senders.remove (h : Senders s) (calls : CallId → Prop) (place : SenderPlace)
    (hmoved : Relocates s t calls place) (hfrom : ∀ c, calls c → (s.calls c).place = .table)
    (hpending : ∀ {id : ℕ} {read : PendingRead}, t.pendingReads[id]? = some read ↔
      s.pendingReads[id]? = some read ∧ ¬ calls read.sender)
    (hplace : place = .gone ∧ (∀ agent, t.held agent = s.held agent) ∨
      ∃ agent reads, place = .held agent ∧ s.held agent = [] ∧ t.held agent = reads ∧
        (∀ other, other ≠ agent → t.held other = s.held other) ∧ reads.Nodup ∧
        ∀ read, read ∈ reads ↔ ∃ c, calls c ∧ read = s.entry c)
    (hinbox : ∀ c, (t.calls c).inbox = (s.calls c).inbox)
    (hphase : ∀ c, (t.calls c).phase.early → (s.calls c).phase.early) : Senders t := by
  have hnottable : place ≠ .table := by
    rcases hplace with ⟨rfl, -⟩ | ⟨_, _, rfl, -⟩ <;> simp
  constructor
  · exact h.table_of_removed hmoved hnottable hpending
  · intro agent read
    rcases hplace with ⟨rfl, hheld⟩ | ⟨agent', reads, rfl, hempty, hreads, hother, -, hmem⟩
    · exact h.held_of_kept hmoved hfrom (by simp) (hheld agent)
    · by_cases hagent : agent = agent'
      · subst hagent
        rw [hreads, hmem]
        constructor
        · rintro ⟨c, hc, rfl⟩
          exact ⟨c, (hmoved c).2.1 hc, (hmoved.entry c).symm⟩
        · rintro ⟨c, hc, rfl⟩
          refine ⟨c, ?_, hmoved.entry c⟩
          -- a call that was already in these hands would contradict that they were empty
          by_contra hstays
          have hold := h.held.mpr ⟨c, ((hmoved c).2.2 hstays).symm.trans hc, rfl⟩
          simp [hempty] at hold
      · exact h.held_of_kept hmoved hfrom (by simpa using Ne.symm hagent) (hother agent hagent)
  · intro agent
    rcases hplace with ⟨rfl, hheld⟩ | ⟨agent', reads, rfl, -, hreads, hother, hnodup, -⟩
    · rw [hheld]
      exact h.nodup agent
    · by_cases hagent : agent = agent'
      · subst hagent
        rwa [hreads]
      · rw [hother agent hagent]
        exact h.nodup agent
  · intro c
    rw [hinbox]
    rcases h.inbox c with hempty | ⟨hgone, hlength⟩
    · exact Or.inl hempty
    · have hstays : ¬ calls c := fun hmove => by simp [hfrom c hmove] at hgone
      exact Or.inr ⟨((hmoved c).2.2 hstays).trans hgone, hlength⟩
  · intro c hc
    have hunborn := h.early c (hphase c hc)
    have hstays : ¬ calls c := fun hmove => by simp [hfrom c hmove] at hunborn
    exact ((hmoved c).2.2 hstays).trans hunborn

/-- Erasing the entry of a call leaves those of the others. -/
theorem Senders.getElem?_erase (h : Senders s) {c : CallId} (hplace : (s.calls c).place = .table)
    {id : ℕ} {read : PendingRead} :
    (s.pendingReads.erase (s.calls c).request.requestId)[id]? = some read ↔
      s.pendingReads[id]? = some read ∧ ¬ read.sender = c := by
  simp only [Std.ExtTreeMap.getElem?_erase, Std.LawfulEqCmp.compare_eq_iff_eq]
  split
  · rename_i hid
    subst hid
    simp [h.table.mpr ⟨c, hplace, rfl, rfl⟩]
    rintro rfl
    rfl
  · rename_i hid
    refine ⟨fun hread => ⟨hread, ?_⟩, And.left⟩
    rintro rfl
    obtain ⟨c, -, rfl, rfl⟩ := h.table.mp hread
    exact hid rfl

theorem Senders.dropPending (h : Senders s) (id : ℕ) : Senders (s.dropPending id) := by
  refine h.remove (fun c => s.pendingReads[id]?.map PendingRead.sender = some c) .gone ?_ ?_ ?_
    (Or.inl ⟨rfl, ?_⟩) (by simp) (by simp)
  · intro c
    refine ⟨by simp, fun hc => ?_, fun hc => ?_⟩
    · simp only [System.dropPending]
      rw [if_pos hc]
    · simp only [System.dropPending]
      rw [if_neg hc]
  · intro c hc
    obtain ⟨read, hread, rfl⟩ := Option.map_eq_some_iff.mp hc
    obtain ⟨c, hplace, rfl, -⟩ := h.table.mp hread
    exact hplace
  · intro id' read
    cases hread : s.pendingReads[id]? with
    | none =>
        simp only [System.dropPending, Std.ExtTreeMap.getElem?_erase,
          Std.LawfulEqCmp.compare_eq_iff_eq, Option.map_none, reduceCtorEq, not_false_eq_true,
          and_true]
        split
        · rename_i hid
          simp [← hid, hread]
        · rfl
    | some dropped =>
        obtain ⟨c, hplace, rfl, rfl⟩ := h.table.mp hread
        simpa [System.dropPending, System.entry, eq_comm] using h.getElem?_erase hplace
  · intro agent
    cases agent with
    | caller c => simp [System.held]
    | handler k => rfl

/-- A handler takes an entry out of the table. -/
theorem Senders.takePending (h : Senders s) {k : ConnId} {id : ℕ} {read : PendingRead}
    (outcome : Outcome) (hread : s.pendingReads[id]? = some read)
    (hheld : (s.conns k).phase.held = []) :
    Senders { (s.setPlace read.sender (.held (.handler k))).setHandler k
        (.answering read outcome) with
      pendingReads := s.pendingReads.erase id } := by
  obtain ⟨c, hplace, rfl, rfl⟩ := h.table.mp hread
  refine h.remove (fun c' => c' = c) (.held (.handler k)) ?_ ?_ (h.getElem?_erase hplace)
    (Or.inr ⟨.handler k, [s.entry c], rfl, hheld, ?_, ?_, by simp, by simp⟩) ?_ ?_
  · intro c'
    by_cases hc : c' = c <;> simp [System.entry, hc]
  · rintro c' rfl
    exact hplace
  · simp [System.held, HandlerPhase.held]
  · intro other hother
    cases other with
    | caller c' => by_cases hc : c' = c <;> simp [System.held, System.entry, hc]
    | handler k' =>
        have hk : k' ≠ k := fun heq => hother (by rw [heq])
        simp [System.held, hk]
  · intro c'
    by_cases hc : c' = c <;> simp [System.entry, hc]
  · intro c' hc'
    by_cases hc : c' = c <;> simpa [System.entry, hc] using hc'

theorem Senders.mem_readsOf (h : Senders s) {providerId : ℕ} {read : PendingRead} :
    read ∈ s.readsOf providerId ↔
      ∃ c, ((s.calls c).place = .table ∧ (s.calls c).request.providerId = providerId) ∧
        read = s.entry c := by
  simp only [readsOf, List.mem_filter, BTreeMap.mem_valueList, h.table, decide_eq_true_eq]
  constructor
  · rintro ⟨⟨_, c, hc, rfl, rfl⟩, hprovider⟩
    exact ⟨c, ⟨hc, hprovider⟩, rfl⟩
  · rintro ⟨c, ⟨hc, hprovider⟩, rfl⟩
    exact ⟨⟨_, c, hc, rfl, rfl⟩, hprovider⟩

theorem Senders.nodup_readsOf (h : Senders s) (providerId : ℕ) :
    (s.readsOf providerId).Nodup := by
  refine List.Nodup.filter _ ?_
  rw [BTreeMap.valueList, List.Nodup, List.pairwise_map]
  refine Std.ExtTreeMap.distinct_keys_toList.imp_of_mem ?_
  -- an entry is stored under its own request id, so equal entries have equal keys
  intro first second hfirst hsecond hkeys heq
  rw [Std.ExtTreeMap.mem_toList_iff_getElem?_eq_some] at hfirst hsecond
  obtain ⟨c, -, hread, hkey⟩ := h.table.mp hfirst
  obtain ⟨c', -, hread', hkey'⟩ := h.table.mp hsecond
  have hc : c = c' := congrArg PendingRead.sender (hread.symm.trans (heq.trans hread'))
  subst hc
  exact hkeys (Std.LawfulEqCmp.compare_eq_iff_eq.mpr (hkey.trans hkey'.symm))

/-- The parts of a call that its sender depends on. -/
def SameSender (first second : Call) : Prop :=
  first.request = second.request ∧ first.place = second.place ∧ first.inbox = second.inbox

/-- An agent takes all reads of a provider out of the table. -/
theorem Senders.sweep (h : Senders s) {agent : Agent} {providerId : ℕ}
    (hempty : s.held agent = [])
    (hpending : t.pendingReads =
      s.pendingReads.filter fun _ read => read.providerId ≠ providerId)
    (hcalls : ∀ c, SameSender (t.calls c)
      ((s.takeReads agent (s.readsOf providerId)).calls c))
    (hown : t.held agent = s.readsOf providerId)
    (hother : ∀ other, other ≠ agent → t.held other = s.held other)
    (hearly : ∀ c, (t.calls c).phase.early → (s.calls c).phase.early) : Senders t := by
  -- the calls that are moved are those of the provider with an entry
  have hmoves : ∀ c, c ∈ (s.readsOf providerId).map PendingRead.sender ↔
      (s.calls c).place = .table ∧ (s.calls c).request.providerId = providerId := by
    intro c
    rw [List.mem_map]
    constructor
    · rintro ⟨read, hread, rfl⟩
      obtain ⟨c, hc, rfl⟩ := h.mem_readsOf.mp hread
      exact hc
    · intro hc
      exact ⟨s.entry c, h.mem_readsOf.mpr ⟨c, hc, rfl⟩, rfl⟩
  refine h.remove
    (fun c => (s.calls c).place = .table ∧ (s.calls c).request.providerId = providerId)
    (.held agent) ?_ (fun c hc => hc.1) ?_
    (Or.inr ⟨agent, s.readsOf providerId, rfl, hempty, hown, hother,
      h.nodup_readsOf providerId, fun read => h.mem_readsOf⟩) ?_ hearly
  · intro c
    obtain ⟨hrequest, hplace, -⟩ := hcalls c
    rw [hrequest, hplace]
    simp only [takeReads, hmoves]
    split <;> simp_all
  · intro id read
    rw [hpending, Std.ExtTreeMap.getElem?_filter']
    simp only [Option.filter_eq_some_iff, decide_eq_true_eq]
    refine and_congr_right fun hread => ?_
    obtain ⟨c, hc, rfl, -⟩ := h.table.mp hread
    simp [System.entry, hc]
  · intro c
    rw [(hcalls c).2.2]
    simp only [takeReads]
    split <;> rfl

/-- One call changes, with what the table and the agents hold of it. -/
theorem Senders.update (h : Senders s) (c : CallId)
    (hsame : ∀ c', c' ≠ c → SameSender (t.calls c') (s.calls c'))
    (htable : ∀ {id : ℕ} {read : PendingRead}, read.sender ≠ c →
      (t.pendingReads[id]? = some read ↔ s.pendingReads[id]? = some read))
    (hctable : ∀ {id : ℕ} {read : PendingRead}, read.sender = c →
      (t.pendingReads[id]? = some read ↔ (t.calls c).place = .table ∧ read = t.entry c ∧
        id = (t.calls c).request.requestId))
    (hheld : ∀ {agent : Agent} {read : PendingRead}, read.sender ≠ c →
      (read ∈ t.held agent ↔ read ∈ s.held agent))
    (hcheld : ∀ {agent : Agent} {read : PendingRead}, read.sender = c →
      (read ∈ t.held agent ↔ (t.calls c).place = .held agent ∧ read = t.entry c))
    (hnodup : ∀ agent, (t.held agent).Nodup)
    (hinbox : (t.calls c).inbox = [] ∨
      (t.calls c).place = .gone ∧ (t.calls c).inbox.length = 1)
    (hearly : ∀ c', c' ≠ c → (t.calls c').phase.early → (s.calls c').phase.early)
    (hcearly : (t.calls c).phase.early → (t.calls c).place = .unborn) : Senders t := by
  have hentry : ∀ c', c' ≠ c → t.entry c' = s.entry c' := by
    intro c' hc
    simp [System.entry, (hsame c' hc).1]
  constructor
  -- an entry of this call is known from the new state, all others from the old one
  · intro id read
    by_cases hc : read.sender = c
    · rw [hctable hc]
      constructor
      · exact fun hread => ⟨c, hread⟩
      · rintro ⟨c', hplace, rfl, hid⟩
        obtain rfl : c' = c := hc
        exact ⟨hplace, rfl, hid⟩
    · rw [htable hc, h.table]
      constructor
      · rintro ⟨c', hplace, rfl, rfl⟩
        exact ⟨c', (hsame c' hc).2.1.trans hplace, (hentry c' hc).symm, by rw [(hsame c' hc).1]⟩
      · rintro ⟨c', hplace, rfl, rfl⟩
        exact ⟨c', (hsame c' hc).2.1.symm.trans hplace, hentry c' hc, by rw [(hsame c' hc).1]⟩
  · intro agent read
    by_cases hc : read.sender = c
    · rw [hcheld hc]
      constructor
      · exact fun hread => ⟨c, hread⟩
      · rintro ⟨c', hplace, rfl⟩
        obtain rfl : c' = c := hc
        exact ⟨hplace, rfl⟩
    · rw [hheld hc, h.held]
      constructor
      · rintro ⟨c', hplace, rfl⟩
        exact ⟨c', (hsame c' hc).2.1.trans hplace, (hentry c' hc).symm⟩
      · rintro ⟨c', hplace, rfl⟩
        exact ⟨c', (hsame c' hc).2.1.symm.trans hplace, hentry c' hc⟩
  · exact hnodup
  · intro c'
    by_cases hc : c' = c
    · subst hc
      exact hinbox
    · rw [(hsame c' hc).2.1, (hsame c' hc).2.2]
      exact h.inbox c'
  · intro c' hc'
    by_cases hc : c' = c
    · subst hc
      exact hcearly hc'
    · exact (hsame c' hc).2.1.trans (h.early c' (hearly c' hc hc'))

/-- A call outside the table has no entry there. -/
theorem Senders.not_table (h : Senders s) {c : CallId} (hplace : (s.calls c).place ≠ .table)
    {id : ℕ} {read : PendingRead} (hread : read.sender = c) :
    s.pendingReads[id]? ≠ some read := by
  intro hsome
  obtain ⟨c', hc', rfl, -⟩ := h.table.mp hsome
  obtain rfl : c' = c := hread
  exact hplace hc'

theorem Senders.not_held (h : Senders s) {c : CallId} {agent : Agent}
    (hplace : (s.calls c).place ≠ .held agent) {read : PendingRead} (hread : read.sender = c) :
    read ∉ s.held agent := by
  intro hmem
  obtain ⟨c', hc', rfl⟩ := h.held.mp hmem
  obtain rfl : c' = c := hread
  exact hplace hc'

/-- An agent sends the outcome of the first read it holds. -/
theorem Senders.send (h : Senders s) {agent : Agent} {read : PendingRead}
    {rest : List PendingRead} {outcome : Outcome} (hheld : s.held agent = read :: rest)
    (hpending : t.pendingReads = s.pendingReads)
    (hcalls : ∀ c, SameSender (t.calls c) ((s.send read.sender outcome).calls c))
    (hown : t.held agent = rest) (hother : ∀ other, other ≠ agent → t.held other = s.held other)
    (hearly : ∀ c, (t.calls c).phase.early → (s.calls c).phase.early) : Senders t := by
  obtain ⟨c, hplace, rfl⟩ := h.held.mp (hheld ▸ List.mem_cons_self : read ∈ s.held agent)
  have hsent : SameSender (t.calls c)
      { s.calls c with inbox := (s.calls c).inbox ++ [outcome], place := .gone } := by
    simpa [System.entry] using hcalls c
  have hgone : (t.calls c).place = .gone := hsent.2.1
  have hnodup := List.nodup_cons.mp (hheld ▸ h.nodup agent)
  -- the sender was held once, so nobody holds it after it is used
  have hnotheld : ∀ {agent' : Agent} {read : PendingRead}, read.sender = c →
      read ∉ t.held agent' := by
    intro agent' read hread hmem
    by_cases hagent : agent' = agent
    · subst hagent
      rw [hown] at hmem
      obtain ⟨c', -, rfl⟩ := h.held.mp (hheld ▸ List.mem_cons_of_mem _ hmem)
      obtain rfl : c' = c := hread
      exact hnodup.1 hmem
    · rw [hother agent' hagent] at hmem
      exact h.not_held (by simpa [hplace] using Ne.symm hagent) hread hmem
  refine h.update c ?_ ?_ ?_ ?_ ?_ ?_ ?_ (fun c' _ => hearly c') ?_
  · intro c' hc
    simpa [System.entry, hc] using hcalls c'
  · simp [hpending]
  · intro id read hread
    simp [hpending, hgone, h.not_table (by simp [hplace]) hread]
  · intro agent' read hread
    by_cases hagent : agent' = agent
    · subst hagent
      have hne : read ≠ s.entry c := fun heq => hread (by rw [heq]; rfl)
      simp [hown, hheld, hne]
    · rw [hother agent' hagent]
  · intro agent' read hread
    simp [hgone, hnotheld hread]
  · intro agent'
    by_cases hagent : agent' = agent
    · subst hagent
      rw [hown]
      exact hnodup.2
    · rw [hother agent' hagent]
      exact h.nodup agent'
  -- the inbox was empty, for a sender is used only once
  · have hempty : (s.calls c).inbox = [] :=
      (h.inbox c).resolve_right fun hgone => by simp [hplace] at hgone
    exact Or.inr ⟨hgone, by simp [hsent.2.2, hempty]⟩
  · intro hc
    have := h.early c (hearly c hc)
    simp [hplace] at this

/-- A call whose channel does not exist yet may change its request. -/
theorem Senders.setUnborn (h : Senders s) {c : CallId} (hunborn : (s.calls c).place = .unborn)
    {call : Call} (hplace : call.place = .unborn) (hinbox : call.inbox = [])
    (hheld : call.phase.held = (s.calls c).phase.held) : Senders (s.setCall c call) := by
  have hsame : ∀ agent, (s.setCall c call).held agent = s.held agent := by
    intro agent
    cases agent with
    | caller c' => by_cases hc : c' = c <;> simp [System.held, hc, hheld]
    | handler k => rfl
  refine h.update c ?_ (by simp) ?_ (by simp [hsame]) ?_ ?_ (Or.inl (by simpa using hinbox)) ?_ ?_
  · intro c' hc
    simp [SameSender, hc]
  · intro id read hread
    simp [hplace, h.not_table (by simp [hunborn]) hread]
  · intro agent read hread
    simp [hsame, hplace, h.not_held (by simp [hunborn]) hread]
  · intro agent
    rw [hsame]
    exact h.nodup agent
  · intro c' hc
    simp [hc]
  · simp [hplace]

theorem Senders.begin (h : Senders s) {c : CallId} {request : ProviderReadRequest}
    (hphase : mayBegin (s.calls c).phase request) : Senders (s.begin c request) := by
  have hearly : (s.calls c).phase.early ∧ (s.calls c).phase.held = [] := by
    cases hp : (s.calls c).phase <;> simp_all [mayBegin, CallPhase.early, CallPhase.held]
  have hunborn := h.early c hearly.1
  have hinbox : (s.calls c).inbox = [] :=
    (h.inbox c).resolve_right fun hgone => by simp [hunborn] at hgone
  unfold System.begin
  split
  · exact h.setUnborn hunborn hunborn hinbox hearly.2.symm
  · exact h.setUnborn hunborn hunborn hinbox hearly.2.symm

/-- The channel of a call is made with its entry. -/
theorem Senders.enter (h : Senders s) {c : CallId} {phase : CallPhase}
    (hunborn : (s.calls c).place = .unborn)
    (hfresh : s.pendingReads[(s.calls c).request.requestId]? = none)
    (hheld : phase.held = (s.calls c).phase.held) (hearly : phase.early = false) :
    Senders (s.enter c phase) := by
  -- the entry goes into the table, so no thread holds it
  have hsame : ∀ agent, (s.enter c phase).held agent = s.held agent := by
    intro agent
    cases agent with
    | caller c' => by_cases hc : c' = c <;> simp [System.held, System.enter, hc, hheld]
    | handler k => rfl
  have hempty : (s.calls c).inbox = [] :=
    (h.inbox c).resolve_right fun hgone => by simp [hunborn] at hgone
  refine h.update c ?_ ?_ ?_ ?_ ?_ ?_ (Or.inl (by simpa [System.enter] using hempty)) ?_ ?_
  · intro c' hc
    simp [SameSender, System.enter, hc]
  · intro id read hread
    simp only [System.enter, Std.ExtTreeMap.getElem?_insert, Std.LawfulEqCmp.compare_eq_iff_eq]
    split
    · rename_i hid
      subst hid
      have hne : s.entry c ≠ read := fun heq => hread (by rw [← heq]; rfl)
      simp [hfresh, hne]
    · rfl
  · intro id read hread
    simp only [System.enter, Std.ExtTreeMap.getElem?_insert, Std.LawfulEqCmp.compare_eq_iff_eq]
    split
    · rename_i hid
      subst hid
      simp [System.entry, eq_comm]
    · rename_i hid
      simp [Ne.symm hid, h.not_table (by simp [hunborn]) hread]
  · intro agent read hread
    rw [hsame]
  · intro agent read hread
    rw [hsame]
    simp [System.enter, h.not_held (by simp [hunborn]) hread]
  · intro agent
    rw [hsame]
    exact h.nodup agent
  · intro c' hc
    simp [System.enter, hc]
  · simp [System.enter, hearly]

theorem Senders.insertPending (h : Senders s) {c : CallId} {route : ProviderRoute}
    (hphase : (s.calls c).phase = .routed route) : Senders (s.insertPending c route) := by
  have hdropped := h.dropPending (s.calls c).request.requestId
  refine hdropped.enter (hdropped.early c ?_) ?_ ?_ ?_
  · simp [hphase, CallPhase.early]
  · rw [dropPending_request]
    exact Std.ExtTreeMap.getElem?_erase_self
  · rw [dropPending_phase, hphase]
    split <;> rfl
  · split <;> rfl

/-! ## All steps -/

section Disconnect

variable {agent : Agent} {providerId : ℕ} {stage : DisconnectStage} {next : System}
  {later : Option DisconnectStage}

@[simp] theorem disconnectStep_phase (c : CallId) :
    ((s.disconnectStep agent providerId stage).1.calls c).phase = (s.calls c).phase := by
  unfold disconnectStep
  split
  · rfl
  · rfl
  · simp only [takeReads]
    split <;> rfl
  · rfl
  · simp only [System.send, setCall_calls]
    split <;> simp_all

@[simp] theorem disconnectStep_request (c : CallId) :
    ((s.disconnectStep agent providerId stage).1.calls c).request = (s.calls c).request := by
  unfold disconnectStep
  split
  · rfl
  · rfl
  · simp only [takeReads]
    split <;> rfl
  · rfl
  · simp only [System.send, setCall_calls]
    split <;> simp_all

theorem disconnectStep_unborn {c : CallId}
    (hplace : ((s.disconnectStep agent providerId stage).1.calls c).place = .unborn) :
    (s.calls c).place = .unborn := by
  unfold disconnectStep at hplace
  split at hplace
  · exact hplace
  · exact hplace
  · simp only [takeReads] at hplace
    split at hplace
    · simp at hplace
    · exact hplace
  · exact hplace
  · simp only [System.send, setCall_calls] at hplace
    split at hplace
    · simp at hplace
    · exact hplace

/-! A section of `disconnect_provider_id` leaves the connections and their history alone. -/

@[simp] theorem disconnectStep_conns :
    (s.disconnectStep agent providerId stage).1.conns = s.conns := by
  unfold disconnectStep
  split <;> rfl

@[simp] theorem disconnectStep_registrations :
    (s.disconnectStep agent providerId stage).1.registrations = s.registrations := by
  unfold disconnectStep
  split <;> rfl

@[simp] theorem disconnectStep_deliveries :
    (s.disconnectStep agent providerId stage).1.deliveries = s.deliveries := by
  unfold disconnectStep
  split <;> rfl

/-- A section of `disconnect_provider_id`, with the agent going on to the next stage. -/
theorem Senders.disconnectStep (h : Senders s)
    (hstep : s.disconnectStep agent providerId stage = (next, later))
    (hheld : s.held agent = stage.held)
    (hpending : t.pendingReads = next.pendingReads)
    (hcalls : ∀ c, SameSender (t.calls c) (next.calls c))
    (hown : t.held agent = (later.map DisconnectStage.held).getD [])
    (hother : ∀ other, other ≠ agent → t.held other = s.held other)
    (hearly : ∀ c, (t.calls c).phase.early → (s.calls c).phase.early) : Senders t := by
  -- a section that touches neither the table nor a channel
  have hquiet : stage.held = [] → (later.map DisconnectStage.held).getD [] = [] →
      next.pendingReads = s.pendingReads → next.calls = s.calls → Senders t := by
    intro hstage hlater hnext hnextCalls
    refine h.congr (hpending.trans hnext) ?_ ?_ hearly
    · intro other
      by_cases hagent : other = agent
      · rw [hagent, hown, hheld, hlater, hstage]
      · exact hother other hagent
    · intro c
      rw [← hnextCalls]
      exact hcalls c
  cases stage with
  | removeRoute =>
      obtain ⟨rfl, rfl⟩ := Prod.mk.inj hstep
      refine hquiet rfl ?_ rfl rfl
      split <;> rfl
  | unregister =>
      obtain ⟨rfl, rfl⟩ := Prod.mk.inj hstep
      exact hquiet rfl rfl rfl rfl
  | sweep =>
      obtain ⟨rfl, rfl⟩ := Prod.mk.inj hstep
      exact h.sweep hheld hpending hcalls hown hother hearly
  | failing reads =>
      cases reads with
      | nil =>
          obtain ⟨rfl, rfl⟩ := Prod.mk.inj hstep
          exact hquiet rfl rfl rfl rfl
      | cons read rest =>
          obtain ⟨rfl, rfl⟩ := Prod.mk.inj hstep
          exact h.send hheld hpending hcalls hown hother hearly

end Disconnect

theorem Senders.initial (runtime : Runtime) : Senders (initial runtime) where
  table := by simp [System.initial, Call.unstarted]
  held := by
    intro agent read
    cases agent <;>
      simp [System.held, System.initial, Call.unstarted, Conn.unopened, CallPhase.held,
        HandlerPhase.held]
  nodup := by
    intro agent
    cases agent <;> exact List.nodup_nil
  inbox := fun _ => Or.inl rfl
  early := fun _ _ => rfl

/-- Steps that change only what `Senders` does not speak about. -/
theorem Senders.of_eq (h : Senders s) (hpending : t.pendingReads = s.pendingReads)
    (hcalls : t.calls = s.calls) (hconns : t.conns = s.conns) : Senders t := by
  refine h.congr hpending ?_ ?_ ?_
  · intro agent
    cases agent <;> simp [System.held, hcalls, hconns]
  · simp [hcalls]
  · simp [hcalls]

/-- Every step keeps the senders in order.  Most steps leave them where they are: a sender is only
moved into the table and out of it, or used. -/
theorem Senders.step (h : Senders s) (hstep : Step s action t) : Senders t := by
  cases hstep with
  | allocate hphase =>
      refine (h.setPhase ?_ ?_).of_eq rfl rfl rfl
      · simp [hphase, CallPhase.held]
      · simp [hphase, CallPhase.early]
  | begin hphase => exact h.begin hphase
  | noRoute hphase =>
      exact h.setPhase (by simp [hphase, CallPhase.held]) (by simp [CallPhase.early])
  | route hphase =>
      exact h.setPhase (by simp [hphase, CallPhase.held]) (by simp [hphase, CallPhase.early])
  | insertPending hphase => exact h.insertPending hphase
  | @written c route hphase =>
      -- the frame goes to the connection first, then the call waits
      have hsent : Senders (s.setConn route.writer { s.conns route.writer with
          sent := (s.conns route.writer).sent ++ s.frames c }) := h.setConn rfl
      exact hsent.setPhase (by simp [hphase, CallPhase.held]) (by simp [CallPhase.early])
  | writeFailed hphase =>
      exact h.setPhase (by simp [hphase, CallPhase.held]) (by simp [CallPhase.early])
  | removeFailed hphase =>
      refine (h.dropPending _).setPhase ?_ ?_
      · simp [hphase, CallPhase.held, DisconnectStage.held]
      · simp [CallPhase.early]
  | removeTimedOut hphase =>
      refine (h.dropPending _).setPhase ?_ ?_
      · simp [hphase, CallPhase.held]
      · simp [CallPhase.early]
  | @disconnectCall c stage error hphase =>
      -- a call that could not write disconnects the provider itself, and holds what it has swept
      refine h.disconnectStep Prod.mk.eta.symm (by simp [System.held, hphase, CallPhase.held]) rfl
        ?_ ?_ ?_ ?_
      · intro c'
        by_cases hc : c' = c <;> simp [SameSender, hc]
      · simp [System.held, CallPhase.held_afterDisconnect]
      · intro other hother
        cases other with
        | caller c' =>
            have hc : c' ≠ c := fun heq => hother (by rw [heq])
            simp [System.held, hc]
        | handler k => simp [System.held]
      · intro c' hc'
        by_cases hc : c' = c
        · subst hc
          simp only [System.setPhase, setCall_calls, if_true] at hc'
          unfold CallPhase.afterDisconnect at hc'
          split at hc' <;> simp [CallPhase.early] at hc'
        · simpa [hc] using hc'
  | receive hphase =>
      exact h.setPhase (by simp [hphase, CallPhase.held]) (by simp [CallPhase.early])
  | timeout hphase =>
      exact h.setPhase (by simp [hphase, CallPhase.held]) (by simp [CallPhase.early])
  | channelClosed hphase =>
      exact h.setPhase (by simp [hphase, CallPhase.held]) (by simp [CallPhase.early])
  | @frame k request hphase =>
      exact h.setConn (by rw [hphase]; exact ((s.conns k).dispatched request).held)
  | progressFrame hphase =>
      refine h.setConn ?_
      simp only [hphase]
      split <;> rfl
  | registerProvider hphase =>
      exact (h.setConn (by simp [hphase, HandlerPhase.held])).of_eq rfl rfl rfl
  | registerRoute hphase =>
      exact (h.setConn (by simp [hphase, HandlerPhase.held])).of_eq rfl rfl rfl
  | @owned k providerId token request route hphase =>
      refine h.setConn ?_
      cases request <;> simp [hphase, OwnerRequest.next, HandlerPhase.held]
  | unregister hphase =>
      refine (h.setConn ?_).of_eq rfl rfl rfl
      simp [hphase, HandlerPhase.held, DisconnectStage.held]
  | commit hphase => exact (h.setConn (by simp [hphase, HandlerPhase.held])).of_eq rfl rfl rfl
  | takePending hphase hread =>
      exact h.takePending _ hread (by simp [hphase, HandlerPhase.held])
  | @answer k read outcome hphase =>
      -- the handler holds the one read it has taken, and sends its answer
      have hheld : s.held (.handler k) = read :: [] := by
        simp [System.held, hphase, HandlerPhase.held]
      have hcalls : ∀ c, SameSender ((s.answer k read outcome).calls c)
          ((s.send read.sender outcome).calls c) := fun c => ⟨rfl, rfl, rfl⟩
      refine h.send hheld rfl hcalls ?_ ?_ ?_
      · simp [System.held, HandlerPhase.held]
      · intro other hother
        cases other with
        | caller c => by_cases hc : c = read.sender <;> simp [System.held, hc]
        | handler k' =>
            have hk : k' ≠ k := fun heq => hother (by rw [heq])
            simp [System.held, hk]
      · intro c hc
        by_cases hsender : c = read.sender <;> simpa [hsender] using hc
  | @disconnectConn k providerId stage rest hphase =>
      -- the same at the end of a connection, where the handler holds what was swept
      refine h.disconnectStep Prod.mk.eta.symm (by simp [System.held, hphase, HandlerPhase.held])
        rfl ?_ ?_ ?_ ?_
      · intro c
        exact ⟨rfl, rfl, rfl⟩
      · simp [System.held, HandlerPhase.held_afterDisconnect]
      · intro other hother
        cases other with
        | caller c => simp [System.held]
        | handler k' =>
            have hk : k' ≠ k := fun heq => hother (by rw [heq])
            simp [System.held, hk]
      · intro c hc
        simpa using hc
  | closeNext hphase =>
      exact h.setConn (by simp [hphase, HandlerPhase.held, DisconnectStage.held])
  | setMountStatus => exact h.of_eq rfl rfl rfl
  | markNodeMaterialized => exact h.of_eq rfl rfl rfl
  | recordCachedRead => exact h.of_eq rfl rfl rfl
  -- the other steps of a handler hold nothing before or after
  | connect hphase | endOfStream hphase | progressEnd hphase | replied hphase | replyFailed hphase
  | noToken hphase | notOwned hphase | unregisterFailed hphase | mounted hphase
  | notMounted hphase | endMaterialize hphase | unmatched hphase | closed hphase =>
      exact h.setConn (by simp [hphase, HandlerPhase.held])

end System

end FusePromise
