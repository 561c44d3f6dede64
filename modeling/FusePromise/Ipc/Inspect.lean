import FusePromise.Ipc.ReadMessages
import FusePromise.Ipc.Registration
import FusePromise.Ipc.Writers
import FusePromise.Runtime.Identity

/-!
# Answering an inspect request

The reply to an inspect request lists the whole runtime in one frame.  The handler
holds the runtime's lock while it makes and writes the frame, so what it lists is the
runtime at one moment; other threads may run between the request and that moment.

A frame has a greatest length and a runtime has not, so the reply can be impossible.
Then nothing is written and the session ends, with the providers registered on it.
-/

namespace FusePromise

open Machine Program Transition

/-! ## Listings -/

/-- The listing shows every promise of the runtime with all its nodes, and no others. -/
structure InspectBody.Lists (body : InspectBody) (runtime : Runtime) : Prop where
  providers : body.providers = runtime.providers.size
  promises : body.promises.length = runtime.promises.size
  promise : ∀ {promiseId : Text} {tree : PromiseTree},
    runtime.promises[promiseId]? = some tree → ∃ entry ∈ body.promises,
      entry.promiseId = promiseId ∧ entry.providerId = tree.providerId ∧
      entry.state = promiseStateText tree.state ∧ entry.nodes.length = tree.nodes.size ∧
      ∀ {path : Text} {node : PromiseNode}, tree.nodes[path]? = some node →
        ∃ listed ∈ entry.nodes, listed = .fromNode node ∧
          listed.relativePath = if path = [] then ['.'] else path

theorem length_valueList {K V : Type} [Ord K] [Std.TransOrd K] (map : BTreeMap K V) :
    map.valueList.length = map.size := by
  rw [BTreeMap.valueList, List.length_map, Std.ExtTreeMap.length_toList]

theorem InspectBody.lists_fromRuntime {runtime : Runtime} (hwf : runtime.WellFormed) :
    (fromRuntime runtime).Lists runtime where
  providers := rfl
  promises := by rw [fromRuntime, List.length_map, length_valueList]
  promise := by
    intro promiseId tree htree
    obtain ⟨hid, hshape⟩ := hwf.shape htree
    refine ⟨.fromTree tree, ?_, hid, rfl, rfl, ?_, ?_⟩
    · exact List.mem_map_of_mem (BTreeMap.mem_valueList.mpr ⟨promiseId, htree⟩)
    · rw [InspectPromiseBody.fromTree, List.length_map, length_valueList]
    · intro path node hnode
      refine ⟨.fromNode node, ?_, rfl, ?_⟩
      · exact List.mem_map_of_mem (BTreeMap.mem_valueList.mpr ⟨path, hnode⟩)
      · rw [InspectNodeBody.fromNode, (hshape.path hnode).1]

/-! ## The handler -/

namespace System

/-- What an inspect request is answered with. -/
def inspectResponse (s : System) (k : ConnId) : Response :=
  if (s.conns k).negotiated then .inspect (.fromRuntime s.runtime)
  else .error .invalidRequest "client must send hello before inspect"

/-- The reply to an inspect request, and the writes it makes.  It fails only if the frame
cannot be made: the client reads what is written. -/
def inspectReply (codec : Codec Response) (s : System) (k : ConnId) :
    Option (System × List (List UInt8)) :=
  let (result, writes) := writeFrame codec (s.inspectResponse k) []
  (s.step (.reply k result.isOk)).map fun t => (t, writes)

/-- The client gets the listing, and the session goes on with all its providers. -/
structure Answered (codec : Codec Response) (s t : System) (k : ConnId)
    (writes : List (List UInt8)) : Prop where
  reply : ∃ body : InspectBody, body.Lists s.runtime ∧
    readFrame codec writes.flatten = (.ok (some (.inspect body)), [])
  alive : (t.conns k).phase = .reading
  providers : (t.conns k).registeredProviders = (s.conns k).registeredProviders
  routes : t.providerRoutes = s.providerRoutes
  runtime : t.runtime = s.runtime

variable {s t now : System} {k : ConnId} {action : Action}

theorem Tidy.reaches {ok : System → Action → Prop} (h : Tidy s)
    (hreach : Reaches System.step ok s t) :
    Tidy t :=
  hreach.invariant Tidy (fun htidy _ hstep => htidy.step (.of_step hstep)) h

theorem step_inspect (h : (s.conns k).phase = .reading) :
    s.step (.frame k .inspect) = some (s.receiveFrame k .inspect .replying) := by
  simp [step, callStep, connStep, h, Conn.dispatch]

/-- Until it has replied, a handler is where the request has put it. -/
theorem replying_of_asked {asked : System} (hreading : (s.conns k).phase = .reading)
    (hasked : s.step (.frame k .inspect) = some asked)
    (hothers : Reaches step (fun _ action => action.agent ≠ some (.handler k)) asked now) :
    (now.conns k).phase = .replying ∧ (now.conns k).negotiated = (s.conns k).negotiated := by
  refine hothers.invariant
    (fun s' => (s'.conns k).phase = .replying ∧ (s'.conns k).negotiated = (s.conns k).negotiated)
    ?_ ?_
  · rintro before action after ⟨hphase, hsame⟩ hagent hstep
    rw [(Step.of_step hstep).conn_of_other hagent]
    exact ⟨hphase, hsame⟩
  · rw [step_inspect hreading] at hasked
    obtain rfl := Option.some.inj hasked
    simp [Conn.negotiate]

theorem step_reply (h : (s.conns k).phase = .replying) (written : Bool) :
    s.step (.reply k written) =
      some (if written then s.setHandler k .reading else s.endSession k) := by
  simp [step, callStep, connStep, h]

theorem answered_of_fits {codec : Codec Response} (hwf : s.runtime.WellFormed)
    (hphase : (s.conns k).phase = .replying) (hnegotiated : (s.conns k).negotiated = true)
    (hfits : Fits codec (.inspect (.fromRuntime s.runtime))) :
    ∃ t writes, s.inspectReply codec k = some (t, writes) ∧ Answered codec s t k writes := by
  obtain ⟨body, hencode, hlength⟩ := hfits
  have hwrite := writeFrame_eq hencode hlength []
  have hread := readFrame_append hencode hlength []
  rw [frameBytes, hwrite, List.append_nil] at hread
  refine ⟨s.setHandler k .reading, _, ?_, ⟨_, InspectBody.lists_fromRuntime hwf, hread⟩, ?_, ?_,
    rfl, rfl⟩
  · rw [inspectReply, inspectResponse, if_pos hnegotiated, hwrite]
    dsimp only
    rw [step_reply hphase]
    rfl
  · simp
  · simp

/-- A listing that is too long is not written, and the session ends. -/
theorem closing_of_not_fits {codec : Codec Response} (hphase : (s.conns k).phase = .replying)
    (hnegotiated : (s.conns k).negotiated = true)
    (hfits : ¬ Fits codec (.inspect (.fromRuntime s.runtime))) :
    s.inspectReply codec k = some (s.endSession k, []) := by
  obtain ⟨error, hwrite⟩ := writeFrame_of_not_fits hfits []
  rw [inspectReply, inspectResponse, if_pos hnegotiated, hwrite]
  dsimp only
  rw [step_reply hphase]
  rfl

theorem not_answered_endSession {codec : Codec Response} {writes : List (List UInt8)} :
    ¬ Answered codec s (s.endSession k) k writes := by
  intro h
  have halive := h.alive
  simp at halive

/-- An inspect request on a negotiated connection is answered, whatever the other threads do
before the runtime is listed, if and only if the listing fits into a frame. -/
theorem inspect_answered_iff_fits (codec : Codec Response) {policy : CachePolicy}
    {start : Runtime} {asked : System} (hstart : Runtime.withCachePolicy policy = .ok start)
    (hreach : Reaches step always (initial start) s) (hreading : (s.conns k).phase = .reading)
    (hnegotiated : (s.conns k).negotiated = true)
    (hasked : s.step (.frame k .inspect) = some asked)
    (hothers : Reaches step (fun _ action => action.agent ≠ some (.handler k)) asked now) :
    ∃ t writes, now.inspectReply codec k = some (t, writes) ∧
      (Answered codec now t k writes ↔
        Fits codec (.inspect (.fromRuntime now.runtime))) := by
  have htidy : Tidy now :=
    (((Tidy.initial hstart).reaches hreach).step (.of_step hasked)).reaches hothers
  obtain ⟨hphase, hsame⟩ := replying_of_asked hreading hasked hothers
  have hready := hsame.trans hnegotiated
  by_cases hfits : Fits codec (.inspect (.fromRuntime now.runtime))
  · obtain ⟨t, writes, hreply, hanswered⟩ := answered_of_fits htidy.wellFormed hphase hready hfits
    exact ⟨t, writes, hreply, iff_of_true hanswered hfits⟩
  · exact ⟨_, _, closing_of_not_fits hphase hready hfits,
      iff_of_false not_answered_endSession hfits⟩

/-- The provider of a promise with a file asks for the listing, and another provider registers
before it is made. -/
theorem inspect_answered_promise :
    let listing : InspectBody := ⟨2, [⟨"promise-1".toList, 1, "available",
      [⟨['.'], 2, "directory", 0, 0o755, []⟩, ⟨['f'], 3, "file", 3, 0o644, ['n']⟩]⟩]⟩
    ∃ now t writes, InspectBody.fromRuntime now.runtime = listing ∧
      now.inspectReply (oneMessageCodec (.inspect listing)) 0 = some (t, writes) ∧
      Answered (oneMessageCodec (.inspect listing)) now t 0 writes := by
  intro listing
  have hstart : Runtime.withCachePolicy .noCache = .ok Runtime.new := rfl
  obtain ⟨s, hreach, hreading, hnegotiated, now, hothers, hlisting⟩ : ∃ s,
      Reaches step always (initial Runtime.new) s ∧ (s.conns 0).phase = .reading ∧
      (s.conns 0).negotiated = true ∧ ∃ now, Reaches step
        (fun _ action => action.agent ≠ some (.handler 0)) (s.receiveFrame 0 .inspect .replying)
        now ∧ InspectBody.fromRuntime now.runtime = listing :=
    ⟨_, ⟨[.setMountStatus true, .connect 0, .frame 0 (.hello 1 1), .reply 0 true,
      .frame 0 .providerRegister, .registerProvider 0, .registerRoute 0 (some 5), .reply 0 true,
      .frame 0 (.promiseCommit 1 5 [⟨['f'], ['n'], .file, ⟨0o644, 3, 5⟩⟩]), .validateOwner 0,
      .checkMount 0, .commit 0, .reply 0 true, .connect 1, .frame 1 (.hello 1 1), .reply 1 true,
      .frame 1 .providerRegister],
      trivial, _, rfl, trivial, _, rfl, trivial, _, rfl, trivial, _, rfl, trivial, _, rfl,
      trivial, _, rfl, trivial, _, rfl, trivial, _, rfl, trivial, _, rfl, trivial, _, rfl,
      trivial, _, rfl, trivial, _, rfl, trivial, _, rfl, trivial, _, rfl, trivial, _, rfl,
      trivial, _, rfl, trivial, _, rfl, rfl⟩, rfl, rfl,
      _, ⟨[.registerProvider 1], by simp [Action.agent], _, rfl, rfl⟩, by decide +kernel⟩
  obtain ⟨t, writes, hreply, hiff⟩ := inspect_answered_iff_fits
    (oneMessageCodec (.inspect listing)) hstart hreach hreading hnegotiated
    (step_inspect hreading) hothers
  refine ⟨now, t, writes, hlisting, hreply, hiff.mpr ?_⟩
  rw [hlisting]
  exact ⟨[1], by decide, by decide⟩

/-! ## A runtime that cannot be listed -/

/-- A session whose provider has committed a number of promises. -/
structure Stocked (s : System) (count : ℕ) : Prop where
  reading : (s.conns 0).phase = .reading
  negotiated : (s.conns 0).negotiated = true
  providers : (s.conns 0).registeredProviders = [1]
  route : s.providerRoutes[1]? = some ⟨0, 5⟩
  ready : s.readyForCommits = true
  live : s.runtime.hasProvider 1 = true
  promises : s.runtime.promises.size = count
  nodeIds : s.runtime.nextNodeId = count + 1
  inodes : s.runtime.nextInode = count + 2

theorem stocked_zero : ∃ s, Reaches step always (initial Runtime.new) s ∧ Stocked s 0 :=
  ⟨_, ⟨[.setMountStatus true, .connect 0, .frame 0 (.hello 1 1), .reply 0 true,
      .frame 0 .providerRegister, .registerProvider 0, .registerRoute 0 (some 5), .reply 0 true],
    trivial, _, rfl, trivial, _, rfl, trivial, _, rfl, trivial, _, rfl, trivial, _, rfl,
    trivial, _, rfl, trivial, _, rfl, trivial, _, rfl, rfl⟩,
    rfl, rfl, rfl, rfl, rfl, rfl, rfl, rfl, rfl⟩

/-- One more promise without files is committed. -/
theorem Stocked.commit {count : ℕ} (h : Stocked s count) (hwf : s.runtime.WellFormed)
    (hcount : count + 3 ≤ u64Max) : ∃ t, Reaches step always s t ∧ Stocked t (count + 1) := by
  have hsize : (PromiseBuilder.new 1).nodes.size = 1 := by
    simp [PromiseBuilder.new, Std.ExtTreeMap.size_insert]
  obtain ⟨tree, htree⟩ : ∃ tree, (s.runtime.commitPromise (.new 1)).1 = .ok tree := by
    refine Runtime.commitPromise_ok h.live ?_ ?_
    · rw [hsize, h.nodeIds]
      omega
    · rw [hsize, h.inodes]
      omega
  obtain ⟨-, -, -, -, -, -, nextNodeId, nextInode, hnext⟩ :=
    (Runtime.commitPromise_spec s.runtime (.new 1)).2 tree htree
  obtain ⟨hnodeIds, hinodes, -⟩ := Runtime.commitPromise_numbered htree
  have hkeys : (PromiseBuilder.new 1).nodes.keys.length = 1 := by
    rw [Std.ExtTreeMap.length_keys, hsize]
  rw [hkeys] at hnodeIds hinodes
  have hrun : ∃ t, [Action.frame 0 (.promiseCommit 1 5 []), .validateOwner 0, .checkMount 0,
      .commit 0, .reply 0 true].foldlM step s = some t ∧
      (t.conns 0).phase = .reading ∧ (t.conns 0).negotiated = (s.conns 0).negotiated ∧
      (t.conns 0).registeredProviders = (s.conns 0).registeredProviders ∧
      t.providerRoutes = s.providerRoutes ∧ t.readyForCommits = s.readyForCommits ∧
      t.runtime = (s.runtime.commitPromise (.new 1)).2 := by
    simp [step, callStep, connStep, h.reading, h.negotiated, h.route, h.ready, Conn.dispatch,
      ProviderId.fromRaw, OwnerRequest.next, Runtime.apply, PromiseBuilder.addNodes,
      Conn.negotiate, pure, Except.pure]
  obtain ⟨t, hrun, hreading, hnegotiated, hproviders, hroutes, hready, hruntime⟩ := hrun
  refine ⟨t, Reaches.of_foldlM hrun, hreading, hnegotiated.trans h.negotiated,
    hproviders.trans h.providers, hroutes ▸ h.route, hready.trans h.ready, ?_, ?_, ?_, ?_⟩
  · rw [hruntime, hnext]
    exact h.live
  · have hfresh := hwf.fresh
    rw [Std.ExtTreeMap.mem_iff_contains] at hfresh
    rw [hruntime, hnext, Std.ExtTreeMap.size_insert, if_neg hfresh, h.promises]
  · rw [hruntime, hnodeIds, h.nodeIds]
  · rw [hruntime, hinodes, h.inodes]

/-- As many promises are committed as a listing has bytes. -/
theorem exists_stocked {count : ℕ} (hcount : count + 2 ≤ u64Max) :
    ∃ s, Reaches step always (initial Runtime.new) s ∧ Stocked s count := by
  induction count with
  | zero => exact stocked_zero
  | succ count ih =>
      obtain ⟨s, hreach, hstocked⟩ := ih (by omega)
      have hstart : Runtime.withCachePolicy .noCache = .ok Runtime.new := rfl
      have hwf := ((Tidy.initial hstart).reaches hreach).wellFormed
      obtain ⟨t, hmore, hnext⟩ := hstocked.commit hwf (by omega)
      exact ⟨t, hreach.trans hmore, hnext⟩

end System

/-- bincode, of which it is known that a list takes at least a byte for each of its items. -/
structure ListingCodec extends Codec Response where
  length_promises_le : ∀ {body : InspectBody} {bytes : List UInt8},
    encode (.inspect body) = .ok bytes → body.promises.length ≤ bytes.length

instance instCountableChar : Countable Char :=
  Function.Injective.countable fun _ _ h => Char.ext h

instance instCountableString : Countable String :=
  Function.Injective.countable fun _ _ h => String.toList_inj.mp h

instance : Countable Text :=
  inferInstanceAs (Countable (List Char))

deriving instance Countable for InspectNodeBody, InspectPromiseBody, InspectBody,
  ProviderReadRequest, ErrorCode, MaterializeProgress, Response

/-- There are few enough replies to number them, so an encoding need only be long enough. -/
theorem nonempty_listingCodec : Nonempty ListingCodec := by
  obtain ⟨number, hinjective⟩ := Countable.exists_injective_nat Response
  let listed : Response → ℕ
    | .inspect body => body.promises.length
    | _ => 0
  have : Nonempty Response := ⟨.providerUnregistered⟩
  refine ⟨{
    encode message := .ok (List.replicate (Nat.pair (number message) (listed message)) 0)
    decode bytes := .ok (Function.invFun number (Nat.unpair bytes.length).1, bytes.length)
    decode_encode := ?_
    length_promises_le := ?_ }⟩
  · intro message body h
    obtain rfl := Except.ok.inj h
    simp [Function.leftInverse_invFun hinjective message]
  · intro body bytes h
    obtain rfl := Except.ok.inj h
    simpa using Nat.right_le_pair _ _

namespace System

/-- A provider that commits promises, each of them in a small frame, and then inspects the
daemon gets no answer and is disconnected. -/
theorem inspect_unanswered_after_commits :
    Nonempty ListingCodec ∧ ∀ codec : ListingCodec, ∃ s asked t writes,
      Reaches step always (initial Runtime.new) s ∧ (s.conns 0).phase = .reading ∧
      (s.conns 0).negotiated = true ∧ s.step (.frame 0 .inspect) = some asked ∧
      asked.inspectReply codec.toCodec 0 = some (t, writes) ∧
      ¬ Answered codec.toCodec asked t 0 writes ∧ writes = [] ∧
      (t.conns 0).phase = .closing [1] := by
  refine ⟨nonempty_listingCodec, fun codec => ?_⟩
  have hcount : maxFrameLen + 1 + 2 ≤ u64Max := by decide
  obtain ⟨s, hreach, hstocked⟩ := exists_stocked hcount
  have hasked : s.step (.frame 0 .inspect) = some _ := step_inspect hstocked.reading
  obtain ⟨hphase, hsame⟩ := replying_of_asked hstocked.reading hasked (Reaches.refl _)
  have hlong : ¬ Fits codec.toCodec (.inspect (.fromRuntime s.runtime)) := by
    rintro ⟨bytes, hencode, hfits⟩
    have hle := codec.length_promises_le hencode
    rw [InspectBody.fromRuntime, List.length_map, length_valueList, hstocked.promises] at hle
    omega
  refine ⟨s, _, _, _, hreach, hstocked.reading, hstocked.negotiated, hasked,
    closing_of_not_fits hphase (hsame.trans hstocked.negotiated) hlong, not_answered_endSession,
    rfl, ?_⟩
  simp [hstocked.providers]

end System

end FusePromise
