import FusePromise.Ipc.Mount
import FusePromise.Ipc.System
import FusePromise.Runtime.Identity

/-!
# Committing a promise

A client sends the nodes of its builder and the daemon adds them to a builder of
its own.  The first part is about the two builders: the request of a client is
always accepted and gives the same tree.

The second part is `handle_promise_commit`.  It takes the route lock, the mount
lock and the runtime lock one after the other and holds none in between, so other
threads change the shared state while it runs.  What they do is a parameter: a
list of their sections for each of the points where the handler holds no lock.
-/

namespace FusePromise

open Machine

/-! ## The request of a client -/

/-- The body of a commit request. -/
structure PromiseCommitBody where
  providerId : ℕ
  providerOwnerToken : ℕ
  nodes : List PromiseNodeBody
  deriving DecidableEq

/-- `PromiseCommitRequest::from_builder_with_owner_token`, as the body it becomes. -/
def PromiseCommitBody.fromBuilderWithOwnerToken (builder : PromiseBuilder)
    (providerOwnerToken : ℕ) : PromiseCommitBody where
  providerId := builder.providerId
  providerOwnerToken := providerOwnerToken
  nodes := builder.nodeSpecs

/-- The daemon accepts the nodes of every client's builder, in the order they are sent, and
ends up with the same tree: the same nodes up to their ids, and the same children. -/
theorem addNodes_fromBuilder (providerId : ProviderId) (calls : List PromiseNodeBody)
    (providerOwnerToken : ℕ) :
    let builder := (PromiseBuilder.new providerId).runCalls calls
    let body := PromiseCommitBody.fromBuilderWithOwnerToken builder providerOwnerToken
    ∃ replica, (PromiseBuilder.new body.providerId).addNodes body.nodes = .ok replica ∧
      replica.providerId = builder.providerId ∧
      (∀ path : Text, (replica.nodes[path]?).map PromiseNode.core =
        (builder.nodes[path]?).map PromiseNode.core) ∧
      replica.children = builder.children := by
  intro builder body
  have hroot : (builder.nodes[([] : Text)]?).map PromiseNode.core =
      some PromiseBuilder.rootNode.core := by
    rw [PromiseBuilder.root_runCalls, Option.map_some]
  obtain ⟨replica, hreplica, hnodes, hchildren⟩ := PromiseBuilder.addNodes_nodeSpecs
    (PromiseBuilder.shape_runCalls providerId calls)
    (PromiseBuilder.declared_runCalls providerId calls) hroot builder.providerId
  obtain ⟨-, -, -, -, hprovider⟩ := PromiseBuilder.addNodes_specs hreplica
  exact ⟨replica, hreplica, hprovider, hnodes, hchildren⟩

/-! ## The state a commit shares with other threads -/

/-- What the threads of the daemon share, as far as a commit reads or writes it. -/
structure SharedState where
  runtime : Runtime
  mountStatus : IpcMountStatus
  providerRoutes : BTreeMap ℕ ProviderRoute

/-- A section of another thread that holds one of the locks. -/
inductive SharedOp
  | runtime (op : RuntimeOp)
  | setMountStatus (mountStatus : IpcMountStatus)
  | insertRoute (providerId : ℕ) (route : ProviderRoute)
  | removeRoute (providerId : ℕ)

namespace SharedState

/-- What another thread does to the shared state while it has a lock. -/
def apply (state : SharedState) : SharedOp → SharedState
  | .runtime op => { state with runtime := state.runtime.apply op }
  | .setMountStatus mountStatus => { state with mountStatus }
  | .insertRoute providerId route =>
      { state with providerRoutes := state.providerRoutes.insert providerId route }
  | .removeRoute providerId =>
      { state with providerRoutes := state.providerRoutes.erase providerId }

/-- Everything the other threads do between two locks. -/
def run (state : SharedState) (ops : List SharedOp) : SharedState :=
  ops.foldl apply state

theorem run_append (state : SharedState) (first second : List SharedOp) :
    state.run (first ++ second) = (state.run first).run second :=
  List.foldl_append

theorem wellFormed_run {state : SharedState} (h : state.runtime.WellFormed)
    (ops : List SharedOp) : (state.run ops).runtime.WellFormed := by
  induction ops generalizing state with
  | nil => exact h
  | cons op rest ih =>
      refine ih ?_
      cases op with
      | runtime op => exact h.effect (state.runtime.effect_apply op)
      | _ => exact h

/-- `state.runtime` is what a daemon's runtime can be after any operations. -/
def Reachable (state : SharedState) : Prop :=
  ∃ policy start ops, Runtime.withCachePolicy policy = .ok start ∧ state.runtime = start.run ops

theorem Reachable.wellFormed {state : SharedState} (h : state.Reachable) :
    state.runtime.WellFormed := by
  obtain ⟨policy, start, ops, hstart, heq⟩ := h
  rw [heq]
  exact (Runtime.wellFormed_of_withCachePolicy hstart).run ops

end SharedState

/-! ## The handler -/

/-- What other threads do while the handler is about to take each of its locks. -/
structure CommitGaps where
  beforeRoutes : List SharedOp
  /-- Before the runtime is asked about a provider that has no route. -/
  beforeProviders : List SharedOp
  beforeMount : List SharedOp
  beforeCommit : List SharedOp

/-- The reply to a commit. -/
inductive CommitReply
  | committed (promiseId visiblePath : Text)
  | error (code : ErrorCode) (message : String)
  deriving DecidableEq

/-- The reply of `write_status_error`. -/
def CommitReply.ofStatus (status : Status) : CommitReply :=
  .error (statusToErrorCode status) status.asStr

namespace SharedState

/-- The token has to be that of the route.  Without a route the reply says whether the provider was
ever there. -/
def validateProviderOwner (state : SharedState) (gaps : CommitGaps) (providerId : ProviderId)
    (ownerToken : ℕ) : Result Unit × SharedState :=
  let state := state.run gaps.beforeRoutes
  match state.providerRoutes[providerId]? with
  | some route =>
      if route.ownerToken = ownerToken then (.ok (), state) else (.error .permission, state)
  | none =>
      let state := state.run gaps.beforeProviders
      if providerId ∈ state.runtime.providers then (.error .providerGone, state)
      else (.error .notFound, state)

/-- The builder loop and the commit: what the handler does with a request it has checked. -/
def commitNodes (runtime : Runtime) (builder : PromiseBuilder) (mountStatus : IpcMountStatus) :
    IoResult CommitReply × Runtime :=
  match runtime.commitPromise builder with
  | (.error status, runtime) => (.ok (.ofStatus status), runtime)
  | (.ok tree, runtime) =>
      match mountStatus.visiblePromisePath tree.promiseId with
      | .error status => (.error (statusToIo status), runtime)
      | .ok visiblePath => (.ok (.committed tree.promiseId visiblePath), runtime)

/-- What the handler replies and leaves behind; an I/O error is one that ends the session
without a reply. -/
def handlePromiseCommit (state : SharedState) (gaps : CommitGaps) (request : PromiseCommitBody) :
    IoResult CommitReply × SharedState :=
  match ProviderId.fromRaw request.providerId with
  | none => (.ok (.error .invalidRequest "provider id must be nonzero"), state)
  | some providerId =>
      match state.validateProviderOwner gaps providerId request.providerOwnerToken with
      | (.error status, state) => (.ok (.ofStatus status), state)
      | (.ok (), state) =>
          let state := state.run gaps.beforeMount
          let mountStatus := state.mountStatus
          if ¬ mountStatus.readyForCommits then (.ok (.ofStatus .unavailable), state)
          else
            match (PromiseBuilder.new providerId).addNodes request.nodes with
            | .error status => (.ok (.ofStatus status), state)
            | .ok builder =>
                let state := state.run gaps.beforeCommit
                let (reply, runtime) := commitNodes state.runtime builder mountStatus
                (reply, { state with runtime })

theorem commitNodes_runtime (runtime : Runtime) (builder : PromiseBuilder)
    (mountStatus : IpcMountStatus) :
    (commitNodes runtime builder mountStatus).2 = (runtime.commitPromise builder).2 := by
  unfold commitNodes
  cases runtime.commitPromise builder with
  | mk result after =>
      cases result with
      | error status => rfl
      | ok tree =>
          simp only
          split <;> rfl

/-- The handler's last section is the commit action of the daemon's threads. -/
theorem connStep_commit {s : System} {k : ConnId} {providerId : ProviderId}
    {nodes : List PromiseNodeBody} {builder : PromiseBuilder}
    (hphase : (s.conns k).phase = .committing providerId nodes)
    (hbuilder : (PromiseBuilder.new providerId).addNodes nodes = .ok builder)
    (mountStatus : IpcMountStatus) :
    s.connStep (.commit k) = some { s.setHandler k .replying with
      runtime := (commitNodes s.runtime builder mountStatus).2 } := by
  simp only [System.connStep, hphase, Runtime.apply, hbuilder, commitNodes_runtime]

/-! ## All or nothing -/

/-- What the last section does, once it cannot run out of ids: it adds a promise and
replies with its id, or changes nothing and replies with an error. -/
theorem commitNodes_spec {runtime : Runtime} (hwf : runtime.WellFormed) {providerId : ProviderId}
    {nodes : List PromiseNodeBody} {builder : PromiseBuilder}
    (hbuilder : (PromiseBuilder.new providerId).addNodes nodes = .ok builder)
    (hnodeId : runtime.nextNodeId + nodes.length < u64Max)
    (hinode : runtime.nextInode + nodes.length < u64Max) (mountStatus : IpcMountStatus) :
    let result := commitNodes runtime builder mountStatus
    (∀ promiseId visiblePath, result.1 = .ok (.committed promiseId visiblePath) →
      runtime.hasProvider providerId = true ∧ promiseId ∉ runtime.promises ∧
      ∃ tree nextNodeId nextInode,
        result.2 = { runtime with
          nextPromiseId := runtime.nextPromiseId + 1
          nextNodeId
          nextInode
          promises := runtime.promises.insert promiseId tree } ∧
        runtime.nextNodeId ≤ nextNodeId ∧ runtime.nextInode ≤ nextInode ∧
        tree.promiseId = promiseId ∧ tree.providerId = providerId ∧
        (nodes.map fun spec => normalizeRelativePath spec.relativePath).Nodup ∧
        ∀ path : Text, path ≠ [] → ∀ entry,
          (tree.nodes[path]?).map PromiseBuilder.nodeSpec = some entry ↔
            ∃ spec ∈ nodes, normalizeRelativePath spec.relativePath = .ok path ∧
              entry = { spec with relativePath := path }) ∧
    ∀ code message, result.1 = .ok (.error code message) → result.2 = runtime := by
  intro result
  obtain ⟨hnodup, -, hspecs, hsize, hprovider⟩ := PromiseBuilder.addNodes_specs hbuilder
  have hone : (PromiseBuilder.new providerId).nodes.size = 1 := by
    simp [PromiseBuilder.new, Std.ExtTreeMap.size_insert]
  rw [hone] at hsize
  have hafter : result.2 = (runtime.commitPromise builder).2 :=
    commitNodes_runtime runtime builder mountStatus
  by_cases hlive : runtime.hasProvider providerId = true
  · -- the commit goes through, and an error after it gets no reply
    obtain ⟨tree, htree⟩ : ∃ tree, (runtime.commitPromise builder).1 = .ok tree :=
      Runtime.commitPromise_ok (hprovider ▸ hlive) (by omega) (by omega)
    obtain ⟨-, hid, htreeProvider, -, -, hnodes, nextNodeId, nextInode, hnext⟩ :=
      (Runtime.commitPromise_spec runtime builder).2 tree htree
    obtain ⟨hcountId, hcountInode, -⟩ := Runtime.commitPromise_numbered htree
    have hreply : result.1 = match mountStatus.visiblePromisePath tree.promiseId with
        | .error status => .error (statusToIo status)
        | .ok visiblePath => .ok (.committed tree.promiseId visiblePath) := by
      simp only [result, commitNodes]
      cases hcommit : runtime.commitPromise builder with
      | mk committed after =>
          rw [hcommit] at htree
          obtain rfl : committed = .ok tree := htree
          simp only
          split <;> rfl
    refine ⟨?_, ?_⟩
    · intro promiseId visiblePath hcommitted
      obtain rfl : tree.promiseId = promiseId := by
        rw [hreply] at hcommitted
        split at hcommitted
        · simp at hcommitted
        · exact (CommitReply.committed.inj (Except.ok.inj hcommitted)).1
      rw [hnext] at hcountId hcountInode
      refine ⟨hlive, hid ▸ hwf.fresh, tree, nextNodeId, nextInode, ?_, ?_, ?_, rfl, ?_, hnodup, ?_⟩
      · rw [hafter, hnext, hid]
      · exact Nat.le.intro hcountId.symm
      · exact Nat.le.intro hcountInode.symm
      · rw [htreeProvider, hprovider]
        rfl
      · intro path hne entry
        have hsame : (tree.nodes[path]?).map PromiseBuilder.nodeSpec =
            (builder.nodes[path]?).map PromiseBuilder.nodeSpec := by
          have := congrArg (Option.map PromiseBuilder.nodeSpec) (hnodes path)
          rwa [Option.map_map, Option.map_map] at this
        have hnone : (PromiseBuilder.new providerId).nodes[path]? = none := by
          simp [PromiseBuilder.new, Ne.symm hne]
        rw [hsame, hspecs, hnone]
        simp
    · intro code message herror
      rw [hreply] at herror
      split at herror
      · simp at herror
      · simp at herror
  · have hcommit : runtime.commitPromise builder = (.error .providerGone, runtime) := by
      unfold Runtime.commitPromise
      rw [if_neg (by rw [hprovider]; exact hlive)]
    have hreply : result = (.ok (.ofStatus .providerGone), runtime) := by
      simp only [result, commitNodes, hcommit]
    rw [hreply]
    exact ⟨fun _ _ h => by simp [CommitReply.ofStatus] at h, fun _ _ _ => rfl⟩

/-- What other threads may have done by the time the handler replies with an error. -/
def CommitGaps.elapsed (gaps : CommitGaps) : List (List SharedOp) :=
  [[], gaps.beforeRoutes, gaps.beforeRoutes ++ gaps.beforeProviders,
    gaps.beforeRoutes ++ gaps.beforeMount,
    gaps.beforeRoutes ++ gaps.beforeMount ++ gaps.beforeCommit]

/-- The state the mount status is read from, if the handler gets there. -/
def atMount (state : SharedState) (gaps : CommitGaps) : SharedState :=
  (state.run gaps.beforeRoutes).run gaps.beforeMount

/-- The state the promise is committed in, if the handler gets there. -/
def atCommit (state : SharedState) (gaps : CommitGaps) : SharedState :=
  (state.atMount gaps).run gaps.beforeCommit

/-- The handler gives up without having changed anything, or gets to its last section with
the token matched, the mount ready and the nodes accepted. -/
theorem handlePromiseCommit_cases (state : SharedState) (gaps : CommitGaps)
    (request : PromiseCommitBody) :
    (∃ code message, ∃ others ∈ CommitGaps.elapsed gaps,
      state.handlePromiseCommit gaps request =
        (.ok (.error code message), state.run others)) ∨
    ∃ route builder,
      (state.run gaps.beforeRoutes).providerRoutes[request.providerId]? = some route ∧
      route.ownerToken = request.providerOwnerToken ∧
      (state.atMount gaps).mountStatus.readyForCommits = true ∧
      (PromiseBuilder.new request.providerId).addNodes request.nodes = .ok builder ∧
      state.handlePromiseCommit gaps request =
        let before := state.atCommit gaps
        let (reply, runtime) :=
          commitNodes before.runtime builder (state.atMount gaps).mountStatus
        (reply, { before with runtime }) := by
  unfold handlePromiseCommit
  cases hid : ProviderId.fromRaw request.providerId with
  | none => exact Or.inl ⟨_, _, [], by simp [CommitGaps.elapsed], rfl⟩
  | some providerId =>
  obtain rfl : request.providerId = providerId := by
    unfold ProviderId.fromRaw at hid
    split at hid
    · simp at hid
    · exact Option.some.inj hid
  simp only [validateProviderOwner]
  cases hroute : (state.run gaps.beforeRoutes).providerRoutes[request.providerId]? with
  | none =>
      refine Or.inl ?_
      -- without a route the runtime is asked, under another lock
      by_cases hknown : request.providerId ∈
          ((state.run gaps.beforeRoutes).run gaps.beforeProviders).runtime.providers
      · refine ⟨.providerGone, "provider gone", gaps.beforeRoutes ++ gaps.beforeProviders,
          by simp [CommitGaps.elapsed], ?_⟩
        simp only [if_pos hknown, run_append]
        rfl
      · refine ⟨.notFound, "not found", gaps.beforeRoutes ++ gaps.beforeProviders,
          by simp [CommitGaps.elapsed], ?_⟩
        simp only [if_neg hknown, run_append]
        rfl
  | some route =>
  simp only
  by_cases htoken : route.ownerToken = request.providerOwnerToken
  · rw [if_pos htoken]
    simp only
    by_cases hready :
        ((state.run gaps.beforeRoutes).run gaps.beforeMount).mountStatus.readyForCommits = true
    · rw [if_neg (not_not.mpr hready)]
      cases hbuilder : (PromiseBuilder.new request.providerId).addNodes request.nodes with
      | error status =>
          refine Or.inl ⟨statusToErrorCode status, status.asStr,
            gaps.beforeRoutes ++ gaps.beforeMount, by simp [CommitGaps.elapsed], ?_⟩
          simp only [run_append]
          rfl
      | ok builder => exact Or.inr ⟨route, builder, rfl, htoken, hready, rfl, rfl⟩
    · rw [if_pos hready]
      refine Or.inl ⟨.unavailable, "unavailable", gaps.beforeRoutes ++ gaps.beforeMount,
        by simp [CommitGaps.elapsed], ?_⟩
      simp only [run_append]
      rfl
  · rw [if_neg htoken]
    exact Or.inl ⟨_, _, gaps.beforeRoutes, by simp [CommitGaps.elapsed], rfl⟩

/-- A commit is all or nothing, whatever other threads do between its locks.  If it is
confirmed, the token was the one of the route, the mount was ready and the provider live,
and the runtime gained one promise with exactly the nodes of the request; if it is refused,
the handler changed nothing.  The id counters must not run out. -/
theorem handlePromiseCommit_all_or_nothing {state : SharedState} (hreach : state.Reachable)
    (gaps : CommitGaps) (request : PromiseCommitBody)
    (hnodeId : (state.atCommit gaps).runtime.nextNodeId + request.nodes.length < u64Max)
    (hinode : (state.atCommit gaps).runtime.nextInode + request.nodes.length < u64Max) :
    let before := state.atCommit gaps
    let result := state.handlePromiseCommit gaps request
    (∀ promiseId visiblePath, result.1 = .ok (.committed promiseId visiblePath) →
      (state.atMount gaps).mountStatus.readyForCommits = true ∧
      (∃ route, (state.run gaps.beforeRoutes).providerRoutes[request.providerId]? = some route ∧
        route.ownerToken = request.providerOwnerToken) ∧
      before.runtime.hasProvider request.providerId = true ∧
      promiseId ∉ before.runtime.promises ∧
      ∃ tree nextNodeId nextInode,
        result.2 = { before with
          runtime := { before.runtime with
            nextPromiseId := before.runtime.nextPromiseId + 1
            nextNodeId
            nextInode
            promises := before.runtime.promises.insert promiseId tree } } ∧
        before.runtime.nextNodeId ≤ nextNodeId ∧ before.runtime.nextInode ≤ nextInode ∧
        tree.promiseId = promiseId ∧ tree.providerId = request.providerId ∧
        (request.nodes.map fun spec => normalizeRelativePath spec.relativePath).Nodup ∧
        ∀ path : Text, path ≠ [] → ∀ entry,
          (tree.nodes[path]?).map PromiseBuilder.nodeSpec = some entry ↔
            ∃ spec ∈ request.nodes, normalizeRelativePath spec.relativePath = .ok path ∧
              entry = { spec with relativePath := path }) ∧
    ∀ code message, result.1 = .ok (.error code message) →
      ∃ others ∈ CommitGaps.elapsed gaps, result.2 = state.run others := by
  intro before result
  have hwf : before.runtime.WellFormed :=
    wellFormed_run (wellFormed_run (wellFormed_run hreach.wellFormed _) _) _
  -- only the last section can change the runtime
  rcases state.handlePromiseCommit_cases gaps request with
    ⟨code, message, others, helapsed, hresult⟩ |
    ⟨route, builder, hroute, htoken, hready, hbuilder, hresult⟩
  · refine ⟨fun _ _ hcommitted => ?_, fun _ _ _ => ⟨others, helapsed, ?_⟩⟩
    · rw [show result = _ from hresult] at hcommitted
      simp at hcommitted
    · rw [show result = _ from hresult]
  · obtain ⟨hcommit, hrefuse⟩ :=
      commitNodes_spec hwf hbuilder hnodeId hinode (state.atMount gaps).mountStatus
    have hreply : result.1 =
        (commitNodes before.runtime builder (state.atMount gaps).mountStatus).1 :=
      congrArg Prod.fst hresult
    have hafter : result.2 = { before with
        runtime := (commitNodes before.runtime builder (state.atMount gaps).mountStatus).2 } :=
      congrArg Prod.snd hresult
    refine ⟨?_, ?_⟩
    · intro promiseId visiblePath hcommitted
      obtain ⟨hlive, hfresh, tree, nextNodeId, nextInode, hnext, hrest⟩ :=
        hcommit promiseId visiblePath (hreply ▸ hcommitted)
      refine ⟨hready, ⟨route, hroute, htoken⟩, hlive, hfresh, tree, nextNodeId, nextInode, ?_,
        hrest⟩
      rw [hafter, hnext]
    · intro code message herror
      refine ⟨gaps.beforeRoutes ++ gaps.beforeMount ++ gaps.beforeCommit,
        by simp [CommitGaps.elapsed], ?_⟩
      rw [hafter, hrefuse code message (hreply ▸ herror), run_append, run_append]
      rfl

/-- A file committed for the first provider of a daemon. -/
theorem handlePromiseCommit_first_promise :
    ∃ start, Runtime.withCachePolicy .noCache = .ok start ∧
      let state : SharedState :=
        { runtime := start.run [.registerProvider]
          mountStatus := ⟨some "/m".toList, true⟩
          providerRoutes := (∅ : BTreeMap ℕ ProviderRoute).insert 1 ⟨0, 7⟩ }
      let request : PromiseCommitBody := ⟨1, 7, [⟨"./a".toList, "n".toList, .file, ⟨0o644, 3, 0⟩⟩]⟩
      (state.handlePromiseCommit ⟨[], [], [], []⟩ request).1 =
          .ok (.committed "promise-1".toList "/m/promise-1".toList) ∧
        "promise-1".toList ∉ state.runtime.promises := by
  refine ⟨_, rfl, by decide, ?_⟩
  exact ((handlePromiseCommit_all_or_nothing ⟨.noCache, _, [.registerProvider], rfl, rfl⟩
    ⟨[], [], [], []⟩ ⟨1, 7, [⟨"./a".toList, "n".toList, .file, ⟨0o644, 3, 0⟩⟩]⟩
    (by decide) (by decide)).1 "promise-1".toList "/m/promise-1".toList (by decide)).2.2.2.1

end SharedState

end FusePromise
