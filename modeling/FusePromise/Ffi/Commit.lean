import FusePromise.Foundation.Utf8
import FusePromise.Ipc.Commit
import FusePromise.Ipc.Replies
import FusePromise.Runtime.Directory

/-!
# Committing through the C interface

`fp_promise_commit` sends the nodes of a builder and writes the path of the new
promise into a buffer of the caller.  The path is known only after the daemon has
committed, so the buffer is checked before with the longest path there can be.  The
builder is kept until everything has gone well, for the caller to try again.
-/

namespace FusePromise

open Machine

/-! ## Strings and status codes -/

/-- A string that came from C or from the environment: it holds no NUL. -/
structure CString where
  text : Text
  no_nul : Char.ofNat 0 ∉ text

/-- `fp_status_t`. -/
inductive FpStatus
  | ok
  | invalidArgument
  | unavailable
  | permission
  | notFound
  | alreadyExists
  | providerGone
  | io
  | timeout
  | cancelled
  | versionMismatch
  deriving DecidableEq

/-- `io_to_ffi`. -/
def ioToFfi (error : IoError) : FpStatus :=
  match error.kind with
  | .invalidInput | .invalidData => .versionMismatch
  | .alreadyExists => .alreadyExists
  | .notFound | .connectionRefused => .unavailable
  | .brokenPipe => .providerGone
  | .permissionDenied => .permission
  | .timedOut => .timeout
  | .interrupted => .cancelled
  | .connectionReset | .other => .io

theorem ioToFfi_ne_ok (error : IoError) : ioToFfi error ≠ .ok := by
  unfold ioToFfi
  split <;> simp

/-! ## The call -/

/-- `fp_promise_builder`: a builder that is gone once it has been committed. -/
structure FpPromiseBuilder where
  mountPath : CString
  providerOwnerToken : ℕ
  builder : Option PromiseBuilder

/-- The longest name a promise can have. -/
def maxPromiseId : Text := "promise-18446744073709551615".toList

/-- There is room for the path of any promise and the NUL at its end. -/
def commitPathCapacityFits (mountPath : Text) (outPathLen : ℕ) : Bool :=
  (Utf8.encode (pathJoin mountPath maxPromiseId)).length < outPathLen

/-- `write_c_string`: the buffer with the bytes of the text and a NUL at its start. -/
def writeCString (out : List UInt8) (value : Text) : Except FpStatus (List UInt8) :=
  let bytes := Utf8.encode value
  if 0 ∈ bytes ∨ out.length ≤ bytes.length then .error .invalidArgument
  else .ok (bytes ++ 0 :: out.drop (bytes.length + 1))

/-- The response a client makes of the reply: the promise id and the visible path. -/
def CommitReply.toResponse : CommitReply → IoResult (Text × Text)
  | .committed promiseId visiblePath => .ok (promiseId, visiblePath)
  | .error code message => .error (errorToIo code message)

/-- What a call returns and leaves behind: its status, the builder behind the handle, the
caller's buffer and the daemon. -/
structure FpCommit (Daemon : Type) where
  status : FpStatus
  handle : Option FpPromiseBuilder
  out : Option (List UInt8)
  daemon : Daemon

/-- `fp_promise_commit`.  A null pointer is `none`; `exchange` sends the request and waits for
the reply, and fails if there is none. -/
def fpPromiseCommit {Daemon : Type}
    (exchange : PromiseCommitBody → Daemon → IoResult CommitReply × Daemon)
    (handle : Option FpPromiseBuilder) (out : Option (List UInt8)) (daemon : Daemon) :
    FpCommit Daemon :=
  match handle, out with
  | none, _ | _, none | _, some [] => ⟨.invalidArgument, handle, out, daemon⟩
  | some builder, some (_ :: rest) =>
      let out := 0 :: rest
      if ¬ commitPathCapacityFits builder.mountPath.text out.length then
        ⟨.invalidArgument, some builder, some out, daemon⟩
      else
        match builder.builder with
        | none => ⟨.invalidArgument, some builder, some out, daemon⟩
        | some inner =>
            let request := PromiseCommitBody.fromBuilderWithOwnerToken inner
              builder.providerOwnerToken
            let (reply, daemon) := exchange request daemon
            match reply >>= CommitReply.toResponse with
            | .error error => ⟨ioToFfi error, some builder, some out, daemon⟩
            | .ok (_, visiblePath) =>
                match writeCString out visiblePath with
                | .error status => ⟨status, some builder, some out, daemon⟩
                | .ok out => ⟨.ok, some { builder with builder := none }, some out, daemon⟩

/-! ## The longest path -/

/-- The bytes of a joined path: those of its two parts, and a separator if one is needed. -/
theorem length_encode_pathJoin (base : Text) {path : Text} (hpath : isAbsolute path = false) :
    (Utf8.encode (pathJoin base path)).length =
      (Utf8.encode base).length +
        (if base = [] ∨ base.getLast? = some '/' then 0 else 1) + (Utf8.encode path).length := by
  rw [pathJoin, if_neg (by simp [hpath])]
  have hslash : (String.utf8EncodeChar '/').length = 1 := by decide
  split
  · simp
  · simp only [Utf8.encode_append, Utf8.encode_cons, List.length_append, hslash]
    omega

theorem not_mem_pathJoin {c : Char} (hc : c ≠ '/') {base path : Text} (hbase : c ∉ base)
    (hpath : c ∉ path) : c ∉ pathJoin base path := by
  unfold pathJoin
  split_ifs <;> simp [hc, hbase, hpath]

theorem length_encode_promiseName (raw : ℕ) :
    (Utf8.encode (Runtime.promiseName raw)).length = 8 + (Nat.toDigits 10 raw).length := by
  rw [Utf8.length_encode_of_ascii]
  · exact List.length_append
  · intro c hc
    rcases List.mem_append.mp hc with hc | hc
    · have hascii : "promise-".toList.all (fun c => c.val.toNat ≤ 127) = true := by decide
      exact of_decide_eq_true (List.all_eq_true.mp hascii c hc)
    · have hdigit := Nat.isDigit_of_mem_toDigits (by decide) (by decide) hc
      simp only [Char.isDigit, Bool.and_eq_true, decide_eq_true_eq] at hdigit
      have hle : c.val.toNat ≤ 57 := UInt32.le_iff_toNat_le.mp hdigit.2
      omega

/-- The path of a promise is no longer than that of the largest promise number. -/
theorem length_visiblePath_le (mountPath : Text) {raw : ℕ} (hraw : raw < 2 ^ 64) :
    (Utf8.encode (pathJoin mountPath (Runtime.promiseName raw))).length ≤
      (Utf8.encode (pathJoin mountPath maxPromiseId)).length := by
  have hdigits : (Nat.toDigits 10 raw).length ≤ 20 :=
    (Nat.length_toDigits_le_iff (by decide) (by decide)).mpr (by omega)
  have hlongest : (Utf8.encode maxPromiseId).length = 28 := by decide
  have hname : isAbsolute (Runtime.promiseName raw) = false :=
    isAbsolute_of_not_mem (Runtime.normalName_promiseName raw).no_slash
  have hlargest : isAbsolute maxPromiseId = false := by decide
  rw [length_encode_pathJoin _ hname, length_encode_pathJoin _ hlargest,
    length_encode_promiseName, hlongest]
  omega

/-! ## A builder is used up by a commit and by nothing else -/

/-- A call sends nothing and keeps the builder, or sends the builder's nodes with a buffer
that has been checked; it then does what the reply says. -/
theorem fpPromiseCommit_cases {Daemon : Type}
    (exchange : PromiseCommitBody → Daemon → IoResult CommitReply × Daemon)
    (handle : FpPromiseBuilder) (out : Option (List UInt8)) (daemon : Daemon) :
    let result := fpPromiseCommit exchange (some handle) out daemon
    (∃ out', result = ⟨.invalidArgument, some handle, out', daemon⟩) ∨
    ∃ builder first bytes, handle.builder = some builder ∧ out = some (first :: bytes) ∧
      commitPathCapacityFits handle.mountPath.text (bytes.length + 1) = true ∧
      let sent := exchange (.fromBuilderWithOwnerToken builder handle.providerOwnerToken) daemon
      (∀ code message, sent.1 = .ok (.error code message) →
        result = ⟨ioToFfi (errorToIo code message), some handle, some (0 :: bytes), sent.2⟩) ∧
      ∀ promiseId visiblePath written, sent.1 = .ok (.committed promiseId visiblePath) →
        writeCString (0 :: bytes) visiblePath = .ok written →
        result = ⟨.ok, some { handle with builder := none }, some written, sent.2⟩ := by
  match out with
  | none => exact Or.inl ⟨none, rfl⟩
  | some [] => exact Or.inl ⟨some [], rfl⟩
  | some (first :: bytes) =>
  intro result
  by_cases hfits : commitPathCapacityFits handle.mountPath.text (bytes.length + 1) = true
  · cases hbuilder : handle.builder with
    | none =>
        refine Or.inl ⟨some (0 :: bytes), ?_⟩
        simp only [result, fpPromiseCommit, List.length_cons, hfits, hbuilder,
          not_true_eq_false, if_false]
    | some builder =>
        refine Or.inr ⟨builder, first, bytes, rfl, rfl, hfits, ?_, ?_⟩
        · intro code message herror
          simp only [result, fpPromiseCommit, List.length_cons, hfits, hbuilder,
            not_true_eq_false, if_false, herror]
          rfl
        · intro promiseId visiblePath written hcommitted hwritten
          simp only [result, fpPromiseCommit, List.length_cons, hfits, hbuilder,
            not_true_eq_false, if_false, hcommitted]
          simp only [bind, Except.bind, CommitReply.toResponse, hwritten]
  · exact Or.inl ⟨some (0 :: bytes), if_pos hfits⟩

/-- A path without NUL that the buffer was checked for is written. -/
theorem writeCString_eq_ok {out : List UInt8} {value : Text} (hnul : Char.ofNat 0 ∉ value)
    (hlen : (Utf8.encode value).length < out.length) :
    writeCString out value =
      .ok (Utf8.encode value ++ 0 :: out.drop ((Utf8.encode value).length + 1)) := by
  unfold writeCString
  exact if_neg (not_or.mpr ⟨Utf8.zero_not_mem_encode hnul, not_le.mpr hlen⟩)

/-- What the last section of a commit replies and what becomes of the promises: one is added,
and its path is that of the next promise number, or none is. -/
theorem SharedState.commitNodes_delivered {runtime : Runtime} (hwf : runtime.WellFormed)
    (builder : PromiseBuilder) {mountStatus : IpcMountStatus}
    (hready : mountStatus.readyForCommits = true) {reply : CommitReply}
    (hreply : (commitNodes runtime builder mountStatus).1 = .ok reply) :
    let after := (commitNodes runtime builder mountStatus).2
    (∃ promiseId mountPath tree, mountStatus.mountPath = some mountPath ∧
      promiseId = Runtime.promiseName runtime.nextPromiseId ∧
      reply = .committed promiseId (pathJoin mountPath promiseId) ∧
      promiseId ∉ runtime.promises ∧
      after.promises = runtime.promises.insert promiseId tree) ∨
    ∃ code message, reply = .error code message ∧ after.promises = runtime.promises := by
  intro after
  have hafter : after = (runtime.commitPromise builder).2 :=
    commitNodes_runtime runtime builder mountStatus
  obtain ⟨hfailed, hadded⟩ := Runtime.commitPromise_spec runtime builder
  unfold commitNodes at hreply
  cases hcommit : runtime.commitPromise builder with
  | mk result rest =>
      rw [hcommit] at hafter hfailed hadded hreply
      cases result with
      | error status =>
          obtain ⟨nextPromiseId, nextNodeId, nextInode, hrest, -⟩ := hfailed status rfl
          refine Or.inr ⟨_, _, (Except.ok.inj hreply).symm, ?_⟩
          rw [hafter, hrest]
      | ok tree =>
          obtain ⟨-, hid, -, -, -, -, nextNodeId, nextInode, hrest⟩ := hadded tree rfl
          simp only [IpcMountStatus.visiblePromisePath, hready, not_true_eq_false,
            if_false] at hreply
          cases hmount : mountStatus.mountPath with
          | none => simp [hmount, okOr] at hreply
          | some mountPath =>
              simp only [hmount, Option.map_some, okOr] at hreply
              refine Or.inl ⟨_, mountPath, tree, rfl, rfl, ?_, hwf.fresh, ?_⟩
              · rw [← hid]
                exact (Except.ok.inj hreply).symm
              · rw [hafter, hrest]

/-- The builder is used up exactly when the daemon has added its promise.  If a reply
arrives, the path was written with a NUL behind it into the caller's buffer and the call
succeeds, or no promise was added and the builder is as it was.  The two sides must agree on
the mount path, and the number of the promise is one of 64 bits. -/
theorem fpPromiseCommit_consumes {state : SharedState} (hreach : state.Reachable)
    (gaps : CommitGaps) (handle : FpPromiseBuilder) (out : Option (List UInt8))
    (hshared : ∀ mountPath, (state.atMount gaps).mountStatus.mountPath = some mountPath →
      mountPath = handle.mountPath.text)
    (hnumber : (state.atCommit gaps).runtime.nextPromiseId < 2 ^ 64)
    (hdelivered : ∀ builder, handle.builder = some builder → ∃ reply,
      (state.handlePromiseCommit gaps (.fromBuilderWithOwnerToken builder
        handle.providerOwnerToken)).1 = .ok reply) :
    let before := state.atCommit gaps
    let result := fpPromiseCommit (fun request state => state.handlePromiseCommit gaps request)
      (some handle) out state
    (∃ builder promiseId visiblePath tree buffer rest,
      handle.builder = some builder ∧
      (state.handlePromiseCommit gaps (.fromBuilderWithOwnerToken builder
        handle.providerOwnerToken)).1 = .ok (.committed promiseId visiblePath) ∧
      promiseId ∉ before.runtime.promises ∧
      result.daemon.runtime.promises = before.runtime.promises.insert promiseId tree ∧
      out = some buffer ∧ result.out = some (Utf8.encode visiblePath ++ 0 :: rest) ∧
      0 ∉ Utf8.encode visiblePath ∧
      (Utf8.encode visiblePath).length + 1 + rest.length = buffer.length ∧
      result.handle = some { handle with builder := none } ∧ result.status = .ok) ∨
    (result.status ≠ .ok ∧ result.handle = some handle ∧
      ∃ others ∈ SharedState.CommitGaps.elapsed gaps,
        result.daemon.runtime.promises = (state.run others).runtime.promises) := by
  intro before result
  have hwf : before.runtime.WellFormed :=
    SharedState.wellFormed_run (SharedState.wellFormed_run
      (SharedState.wellFormed_run hreach.wellFormed _) _) _
  rcases fpPromiseCommit_cases (fun request state => state.handlePromiseCommit gaps request)
    handle out state with
    ⟨out', hresult⟩ | ⟨builder, first, bytes, hbuilder, rfl, hfits, hrefused, hconfirmed⟩
  · -- nothing was sent
    have hresult : result = _ := hresult
    rw [hresult]
    exact Or.inr ⟨by simp, rfl, [], by simp [SharedState.CommitGaps.elapsed], rfl⟩
  obtain ⟨reply, hreply⟩ := hdelivered builder hbuilder
  rcases state.handlePromiseCommit_cases gaps
      (.fromBuilderWithOwnerToken builder handle.providerOwnerToken) with
    ⟨code, message, others, helapsed, hhandled⟩ | ⟨route, replica, -, -, hready, -, hhandled⟩
  · -- the daemon refused before it got to the runtime
    have hresult : result = _ := hrefused code message (by rw [hhandled])
    refine Or.inr ⟨?_, ?_, others, helapsed, ?_⟩ <;> rw [hresult]
    · exact ioToFfi_ne_ok _
    · rw [hhandled]
  · have hsent : (SharedState.commitNodes before.runtime replica
        (state.atMount gaps).mountStatus).1 = .ok reply := by
      rw [← hreply, hhandled]
    rcases SharedState.commitNodes_delivered hwf replica hready hsent with
      ⟨promiseId, mountPath, tree, hmount, rfl, rfl, hfresh, hpromises⟩ |
      ⟨code, message, rfl, hpromises⟩
    · -- the promise was added, and there is room for its path
      obtain rfl := hshared mountPath hmount
      have hnul : Char.ofNat 0 ∉ pathJoin handle.mountPath.text
          (Runtime.promiseName before.runtime.nextPromiseId) :=
        not_mem_pathJoin (by decide) handle.mountPath.no_nul
          (Runtime.normalName_promiseName _).no_nul
      have hroom := (length_visiblePath_le handle.mountPath.text hnumber).trans_lt
        (of_decide_eq_true hfits)
      have hresult : result = _ :=
        hconfirmed _ _ _ hreply (writeCString_eq_ok hnul hroom)
      refine Or.inl ⟨builder, _, _, tree, first :: bytes, _, hbuilder, hreply, hfresh, ?_, rfl,
        by rw [hresult], Utf8.zero_not_mem_encode hnul, ?_, by rw [hresult], by rw [hresult]⟩
      · rw [hresult, hhandled]
        exact hpromises
      · rw [List.length_drop]
        exact Nat.add_sub_cancel' hroom
    · -- the runtime refused
      have hresult : result = _ := hrefused code message hreply
      refine Or.inr ⟨?_, ?_, gaps.beforeRoutes ++ gaps.beforeMount ++ gaps.beforeCommit,
        by simp [SharedState.CommitGaps.elapsed], ?_⟩ <;> rw [hresult]
      · exact ioToFfi_ne_ok _
      · rw [hhandled, SharedState.run_append, SharedState.run_append]
        exact hpromises

/-- The first provider of a daemon commits a file with a buffer that is just long enough. -/
theorem fpPromiseCommit_consumes_file :
    ∃ start, Runtime.withCachePolicy .noCache = .ok start ∧
      let state : SharedState :=
        { runtime := start.run [.registerProvider]
          mountStatus := ⟨some "/m".toList, true⟩
          providerRoutes := (∅ : BTreeMap ℕ ProviderRoute).insert 1 ⟨0, 7⟩ }
      let builder := (PromiseBuilder.new 1).runCalls
        [⟨"a".toList, "n".toList, .file, ⟨0o644, 3, 0⟩⟩]
      let handle : FpPromiseBuilder := ⟨⟨"/m".toList, by decide⟩, 7, some builder⟩
      let result := fpPromiseCommit
        (fun request state => state.handlePromiseCommit ⟨[], [], [], []⟩ request)
        (some handle) (some (List.replicate 32 1)) state
      result.status = .ok ∧ result.handle = some { handle with builder := none } := by
  refine ⟨_, rfl, ?_⟩
  intro state builder handle result
  have hok : result.status = .ok := by decide
  rcases @fpPromiseCommit_consumes state ⟨.noCache, _, [.registerProvider], rfl, rfl⟩
    ⟨[], [], [], []⟩ handle (some (List.replicate 32 1)) (fun _ h => (Option.some.inj h).symm)
    (by decide) (fun _ h => by cases h; exact ⟨_, rfl⟩) with
    ⟨_, _, _, _, _, _, -, -, -, -, -, -, -, -, hempty, -⟩ | ⟨herror, -⟩
  · exact ⟨hok, hempty⟩
  · exact absurd hok herror

end FusePromise
