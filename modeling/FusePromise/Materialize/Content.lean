import FusePromise.Fuse.ReadCorrect
import FusePromise.Materialize.Request

/-!
# Where the bytes of a copy come from

Fix the content of every file.  A chunk of a run comes from the provider, from the
cache, or from an earlier copy, and `readMaterializeChunk_source` says which.  When
the providers answer with the content and other threads cache nothing else, the
first two are chunks of the content.  What an earlier copy holds is another matter,
so `readsChunks` leaves it open.
-/

namespace FusePromise

open Machine ByteMap Program Unix World

/-! ## Nothing but the content -/

def RuntimeCall.Honest (content : Content) : RuntimeCall → Prop
  | .op operation => operation.Honest content
  | _ => True

/-- What the other threads put in the cache, and what providers answer, is the declared content. -/
structure Environment.Honest (content : Content) (env : Environment) : Prop where
  op : ∀ {op : RuntimeOp}, env.Interferes op → op.Honest content
  answer : ∀ {tick : ℕ} {request : ProviderReadRequest} {response : ProviderReadResponse},
    env.answer tick request = .ok response → response.Honest content request

/-- The earlier copy had the declared content. -/
def CopiedChunk.Honest (content : Content) (chunk : CopiedChunk) : Prop :=
  chunk.bytes = slice (content ⟨chunk.promiseId, chunk.relativePath⟩) chunk.offset
    chunk.bytes.length

variable {content : Content}

namespace CacheHolds

variable {runtime : Runtime}

/-- A call that records nothing but the content. -/
theorem perform (h : CacheHolds content runtime) (hwf : runtime.WellFormed) {call : RuntimeCall}
    (hcall : call.Honest content) : CacheHolds content (runtime.perform call) := by
  cases call with
  | op op => exact h.effect hwf (runtime.effect_apply op) hcall
  | commitBuilder providerId nodes => exact h.of_eq (runtime.commitPromise_frame _).2.1
  | setCachePolicy cachePolicy =>
      simp only [Runtime.perform]
      cases hnext : runtime.setCachePolicy cachePolicy with
      | error status => exact h
      | ok next => exact h.setCachePolicy hnext

theorem performAll {calls : List RuntimeCall} (hcalls : ∀ call ∈ calls, call.Honest content) :
    CacheHolds content (Runtime.new.performAll calls) := by
  induction calls using List.reverseRecOn with
  | nil => exact of_empty rfl
  | append_singleton calls call ih =>
      have hbefore := ih fun call hcall => hcalls call (List.mem_append_left _ hcall)
      rw [Runtime.performAll, List.foldl_append]
      exact hbefore.perform (Runtime.reachable_spec calls).1 (hcalls call (by simp))

end CacheHolds

/-! ## Where a chunk comes from -/

/-- The chunk is read from the copy a node has by then, and is put on record. -/
def ReadsCopy (env : Environment) (promiseId : Text) (entry : MaterializeEntryPlan) (offset : ℕ)
    (bytes : List UInt8) (world last : World) : Prop :=
  ∃ ops node path file length, (∀ op ∈ ops, env.Interferes op) ∧
    (world.runtime.run ops).Stores promiseId entry.relativePath node ∧ node.kind = .file ∧
    node.materializedPath = some path ∧ world.fs.openRead path = .ok file ∧
    world.fs.readAt file offset length = .ok bytes ∧
    ∃ before, world.copied <+: before ∧
      last.copied = before ++ [⟨promiseId, entry.relativePath, offset, bytes⟩]

/-- Where the bytes from an offset on come from. -/
inductive ChunkSource (env : Environment) (promiseId : Text) (entry : MaterializeEntryPlan)
    (offset : ℕ) (bytes : List UInt8) (world last : World) : Prop
  | provider {tick : ℕ} {request : ProviderReadRequest} {response : ProviderReadResponse}
      (hanswer : env.answer tick request = .ok response) (hok : response.status = .ok)
      (hpromise : request.promiseId = promiseId) (hpath : request.relativePath = entry.relativePath)
      (hoffset : request.offset = offset) (hbytes : bytes = response.bytes)
  | cache {ops : List RuntimeOp} {length : ℕ} (hops : ∀ op ∈ ops, env.Interferes op)
      (hlength : 0 < length)
      (hcached : (world.runtime.run ops).cachedRead promiseId entry.relativePath offset length =
        some bytes)
  | copy (hcopy : ReadsCopy env promiseId entry offset bytes world last)

namespace Daemon

variable {env : Environment} {promiseId : Text} {entry : MaterializeEntryPlan} {offset length : ℕ}
  {bytes : List UInt8} {world last : World}

theorem providerChunk_eq_ok {request : ProviderReadRequest}
    {answer : IoResult ProviderReadResponse} (h : providerChunk request answer = .ok bytes) :
    ∃ response, answer = .ok response ∧ response.status = .ok ∧ bytes = response.bytes := by
  obtain ⟨response, hanswer, h⟩ := bind_eq_ok.mp h
  obtain ⟨_, -, h⟩ := bind_eq_ok.mp h
  cases answer with
  | error error => simp [Except.mapError] at hanswer
  | ok found =>
      obtain rfl := Except.ok.inj hanswer
      split at h
      · rename_i hok
        exact ⟨found, rfl, hok, (Except.ok.inj h).symm⟩
      · simp at h

theorem readMaterializeProviderChunk_source {plan : ProviderReadPlan}
    (h : readMaterializeProviderChunk env plan world = (.ok bytes, last)) :
    ∃ tick request response, env.answer tick request = .ok response ∧ response.status = .ok ∧
      request.promiseId = plan.promiseId ∧ request.relativePath = plan.relativePath ∧
      request.offset = plan.offset ∧ bytes = response.bytes := by
  obtain ⟨tick, request, hchunk, hpromise, hpath, hoffset, -⟩ :=
    readMaterializeProviderChunk_eq_ok h
  obtain ⟨response, hanswer, hok, hbytes⟩ := providerChunk_eq_ok hchunk
  exact ⟨tick, request, response, hanswer, hok, hpromise, hpath, hoffset, hbytes⟩

theorem lockRuntime_eq_ok {runtime : Runtime}
    (h : (lockRuntime env : Daemon Status Runtime) world = (.ok runtime, last)) :
    last.fs = world.fs ∧ last.copied = world.copied ∧ last.runtime = runtime ∧
      ∃ ops, (∀ op ∈ ops, env.Interferes op) ∧ runtime = world.runtime.run ops := by
  obtain ⟨hruntime, rfl⟩ := Prod.mk.inj h
  obtain rfl := Except.ok.inj hruntime
  refine ⟨rfl, rfl, rfl, _, fun op hop => ?_, rfl⟩
  obtain ⟨other, hother, rfl⟩ := List.mem_map.mp hop
  exact ⟨world.tick, other, hother, rfl⟩

theorem readLocalMaterializedChunk_eq_ok {path : Text}
    (h : readLocalMaterializedChunk env path offset length world = (.ok bytes, last)) :
    last.copied = world.copied ∧ ∃ file, world.fs.openRead path = .ok file ∧
      world.fs.readAt file offset length = .ok bytes := by
  obtain ⟨file, _, hopen, h⟩ := Prog.bind_eq_ok.mp h
  obtain ⟨hfile, rfl⟩ := inspect_ok (Prog.mapError_eq_ok.mp hopen)
  obtain ⟨found, _, hread, h⟩ := Prog.bind_eq_ok.mp h
  obtain ⟨hfound, rfl⟩ := inspect_ok (Prog.mapError_eq_ok.mp hread)
  split at h
  · simp [Prog.fail] at h
  · obtain ⟨rfl, rfl⟩ := Prog.pure_eq_ok.mp h
    exact ⟨rfl, file, hfile, hfound⟩

/-- Where a chunk comes from, if the path of the entry is one a node is stored at. -/
theorem readMaterializeChunk_source (hwf : world.runtime.WellFormed)
    (hnormal : normalizeRelativePath entry.relativePath = .ok entry.relativePath)
    (h : readMaterializeChunk env promiseId entry offset length world = (.ok bytes, last)) :
    ChunkSource env promiseId entry offset bytes world last := by
  -- a plan is for the node at the path of the entry
  have hnode : ∀ {ops : List RuntimeOp} {tree : PromiseTree} {node : PromiseNode},
      (world.runtime.run ops).fileNode promiseId entry.relativePath = .ok (tree, node) →
        tree.promiseId = promiseId ∧ node.relativePath = entry.relativePath ∧
        (world.runtime.run ops).Stores promiseId entry.relativePath node ∧ node.kind = .file := by
    intro ops tree node hfound
    obtain ⟨hid, hpath, hstored, hkind⟩ := (hwf.run ops).fileNode hfound
    obtain hsame := Except.ok.inj (hnormal.symm.trans hpath)
    obtain ⟨htree, -, -⟩ := Runtime.fileNode_eq_ok.mp hfound
    exact ⟨hid, hsame.symm, ⟨tree, htree, hsame ▸ hstored⟩, hkind⟩
  have hprovider : ∀ {ops : List RuntimeOp} {length : ℕ} {plan : ProviderReadPlan} {next : World},
      (world.runtime.run ops).planProviderRead promiseId entry.relativePath offset length =
        .ok plan → readMaterializeProviderChunk env plan next = (.ok bytes, last) →
      ChunkSource env promiseId entry offset bytes world last := by
    intro ops length plan next hplan hchunk
    obtain ⟨tree, node, clamped, hfound, -, -, -, -, rfl⟩ := Runtime.planProviderRead_eq_ok.mp hplan
    obtain ⟨hid, hpath, -, -⟩ := hnode hfound
    obtain ⟨tick, request, response, hanswer, hok, hpromise, hrelative, hoffset, hbytes⟩ :=
      readMaterializeProviderChunk_source hchunk
    exact .provider hanswer hok (hpromise.trans hid) (hrelative.trans hpath) hoffset hbytes
  obtain ⟨runtime, locked, hlock, h⟩ := Prog.bind_eq_ok.mp h
  obtain ⟨hfs, hcopied, hruntime, ops, hops, rfl⟩ := lockRuntime_eq_ok hlock
  cases hplan : (world.runtime.run ops).planProviderRead promiseId entry.relativePath offset
      length with
  | ok plan =>
      simp only [hplan] at h
      exact hprovider hplan h
  | error status =>
      cases status with
      | providerGone =>
          simp only [hplan] at h
          obtain ⟨later, relocked, hrelock, h⟩ := Prog.bind_eq_ok.mp h
          obtain ⟨hfs', hcopied', -, ops', hops', hlater⟩ := lockRuntime_eq_ok hrelock
          rw [hruntime, ← Runtime.run_append] at hlater
          subst hlater
          have hall : ∀ op ∈ ops ++ ops', env.Interferes op := by
            simpa [or_imp, forall_and] using ⟨hops, hops'⟩
          obtain ⟨plan, hread, h⟩ := Prog.ofExcept_bind_eq_ok.mp h
          obtain ⟨tree, node, hfound, heof | ⟨clamped, hlength, hinside, hclamp, hcases⟩⟩ :=
            Runtime.planRead_eq_ok hread
          · obtain ⟨-, rfl⟩ := heof
            simp [Prog.fail] at h
          obtain ⟨-, hpath, hstores, hkind⟩ := hnode hfound
          rcases hcases with ⟨path, hmaterialized, rfl⟩ | ⟨-, cached, hcached, rfl⟩ |
            ⟨-, -, request, hrequest, rfl⟩
          · obtain ⟨chunk, _, hchunk, h⟩ := Prog.bind_eq_ok.mp h
            obtain ⟨hrecord, file, hopen, hbytes⟩ := readLocalMaterializedChunk_eq_ok hchunk
            obtain ⟨_, _, hmodify, h⟩ := Prog.bind_eq_ok.mp h
            obtain ⟨rfl, rfl⟩ := Prog.pure_eq_ok.mp h
            obtain ⟨-, rfl⟩ := Prod.mk.inj hmodify
            rw [hfs', hfs] at hopen hbytes
            refine .copy ⟨_, node, path, file, clamped, hall, hstores, hkind, hmaterialized, hopen,
              hbytes, world.copied, List.prefix_rfl, ?_⟩
            show _ ++ _ = _
            rw [hrecord, hcopied', hcopied]
          · obtain ⟨rfl, rfl⟩ := Prog.pure_eq_ok.mp h
            rw [hpath] at hcached
            refine .cache hall ?_ hcached
            rw [(Runtime.clampLength_eq_ok.mp hclamp).1]
            omega
          · rw [hpath] at hrequest
            exact hprovider hrequest h
      | _ => simp [hplan, Prog.fail] at h

/-! ## What is believed of a chunk -/

/-- A range of the content is believed where the bytes of the content are. -/
theorem chunk_of_slice {trust : Trust} {copied : List CopiedChunk} {count : ℕ}
    (htrust : ∀ i, trust.Byte copied entry.relativePath i
      (content ⟨promiseId, entry.relativePath⟩ i))
    (hbytes : bytes = slice (content ⟨promiseId, entry.relativePath⟩) offset count) :
    trust.Chunk copied entry offset bytes := by
  intro i v hv
  rw [hbytes, getElem?_slice] at hv
  split at hv
  · obtain rfl := Option.some.inj hv
    exact htrust (offset + i)
  · simp at hv

/-- Chunks of honest providers and of the cache are believed; it is left to show that those of
earlier copies are. -/
theorem readsChunks_of_source {first : World} {entries : List MaterializeEntryPlan}
    {layout : Layout first.fs.held entries} {trust : Trust} (henv : env.Honest content)
    (hwf : first.runtime.WellFormed) (hcache : CacheHolds content first.runtime)
    (hnormal : normalizeRelativePath entry.relativePath = .ok entry.relativePath)
    (htrust : ∀ copied i, trust.Byte copied entry.relativePath i
      (content ⟨promiseId, entry.relativePath⟩ i))
    (hcopy : ∀ {offset : ℕ} {bytes : List UInt8} {world last : World}, Unmarked env first world →
      Remains layout trust world.copied world.fs →
      ReadsCopy env promiseId entry offset bytes world last →
      trust.Chunk last.copied entry offset bytes) :
    ReadsChunks layout trust env promiseId entry := by
  intro facts hgrowing hremains offset length world hworld
  have hkeeps :=
    (agrees_readMaterializeChunk env.fault_same promiseId entry offset length).keeps world
  rcases hrun : readMaterializeChunk env promiseId entry offset length world with ⟨_ | bytes, last⟩
  · rw [hrun] at hkeeps
    exact hworld.readOnly hgrowing hkeeps
  rw [hrun] at hkeeps
  have hlast := hworld.readOnly hgrowing hkeeps
  refine ⟨hlast.1, hlast.2, length_readMaterializeChunk_le hrun, fun {i v} hv => ?_⟩
  have hsource := readMaterializeChunk_source (hworld.wellFormed hwf) hnormal hrun
  cases hsource with
  | provider hanswer hok hpromise hpath hoffset hbytes =>
      obtain ⟨count, -, hslice⟩ := henv.answer hanswer hok
      rw [hpromise, hpath, hoffset, ← hbytes] at hslice
      exact chunk_of_slice (htrust last.copied) hslice hv
  | @cache ops length hops hlength hcached =>
      obtain ⟨before, hbefore, hruntime⟩ := hworld.1.runtime
      rw [hruntime, ← Runtime.run_append] at hcached
      have hhonest : ∀ op ∈ before ++ ops, op.Honest content := fun op hop =>
        henv.op ((List.mem_append.mp hop).elim (hbefore op) (hops op))
      have hslice := (hcache.run hwf hhonest).cachedRead hlength hcached
      exact chunk_of_slice (htrust last.copied) hslice hv
  | copy hreads => exact hcopy hworld.1 (hremains _ _ hworld.2) hreads hv

end Daemon

end FusePromise
