import FusePromise.Runtime.Cache
import FusePromise.Runtime.Tree

/-!
# The runtime

`Runtime` and its operations.  An operation that leaves the runtime alone when
it fails returns the next runtime as its result; `commitPromise`, which has
already counted up when it runs out of ids, returns both.  The counters
`nextProviderId` and `nextPromiseId`, which the source increments without a
check, are natural numbers.
-/

namespace FusePromise

open Machine

/-- The counters for ids, the providers, the promises by name, and the cache. -/
structure Runtime where
  nextProviderId : ℕ
  nextPromiseId : ℕ
  nextNodeId : ℕ
  nextInode : ℕ
  providers : BTreeMap ProviderId ProviderSession
  promises : BTreeMap Text PromiseTree
  cachePolicy : CachePolicy
  readCache : ReadCache

namespace Runtime

/-- A runtime before its first operation. -/
def new : Runtime where
  nextProviderId := 1
  nextPromiseId := 1
  nextNodeId := 1
  nextInode := fuseRootInode + 1
  providers := ∅
  promises := ∅
  cachePolicy := .noCache
  readCache := .empty

/-- Switching the cache off clears it. -/
def setCachePolicy (runtime : Runtime) (cachePolicy : CachePolicy) : Result Runtime := do
  let cachePolicy ← cachePolicy.validated
  let next := { runtime with cachePolicy }
  return if cachePolicy = .noCache then { next with readCache := next.readCache.clear } else next

def withCachePolicy (cachePolicy : CachePolicy) : Result Runtime :=
  new.setCachePolicy cachePolicy

/-! ## Providers -/

/-- A provider gets the next id and is live. -/
def registerProvider (runtime : Runtime) : ProviderId × Runtime :=
  let providerId := runtime.nextProviderId
  (providerId, { runtime with
    nextProviderId := runtime.nextProviderId + 1
    providers := runtime.providers.insert providerId ⟨providerId, .live⟩ })

/-- What the loss of a provider does to a promise. -/
def markProviderGone (providerId : ProviderId) (tree : PromiseTree) : PromiseTree :=
  if tree.providerId = providerId ∧ tree.state = .available then
    { tree with state := .providerGone }
  else tree

/-- The provider is disconnected, and its promises go with it. -/
def unregisterProvider (runtime : Runtime) (providerId : ProviderId) : Result Runtime :=
  match runtime.providers[providerId]? with
  | none => .error .notFound
  | some provider =>
      .ok { runtime with
        providers := runtime.providers.insert providerId { provider with state := .disconnected }
        promises := runtime.promises.map fun _ tree => markProviderGone providerId tree }

/-- The provider is live. -/
def hasProvider (runtime : Runtime) (providerId : ProviderId) : Bool :=
  match runtime.providers[providerId]? with
  | some provider => provider.state = .live
  | none => false

/-! ## Promises -/

def promise (runtime : Runtime) (promiseId : Text) : Option PromiseTree :=
  runtime.promises[promiseId]?

def allocateNodeId (runtime : Runtime) : Result NodeId × Runtime :=
  match checkedAdd runtime.nextNodeId 1 with
  | none => (.error .invalidArgument, runtime)
  | some next => (.ok runtime.nextNodeId, { runtime with nextNodeId := next })

def allocateInode (runtime : Runtime) : Result ℕ × Runtime :=
  match checkedAdd runtime.nextInode 1 with
  | none => (.error .invalidArgument, runtime)
  | some next => (.ok runtime.nextInode, { runtime with nextInode := next })

/-- The loop over the nodes of a tree, in path order. -/
def assignIds (runtime : Runtime) (nodes : BTreeMap Text PromiseNode) :
    List Text → Result (BTreeMap Text PromiseNode) × Runtime
  | [] => (.ok nodes, runtime)
  | path :: rest =>
      match runtime.allocateNodeId with
      | (.error status, runtime) => (.error status, runtime)
      | (.ok nodeId, runtime) =>
          match runtime.allocateInode with
          | (.error status, runtime) => (.error status, runtime)
          | (.ok inode, runtime) =>
              assignIds runtime
                (nodes.modify path fun node => { node with nodeId := nodeId, inode := inode }) rest

/-- Every node gets a new id and a new inode, in the order of the paths. -/
def assignRuntimeIds (runtime : Runtime) (tree : PromiseTree) : Result PromiseTree × Runtime :=
  match runtime.assignIds tree.nodes tree.nodes.keys with
  | (.error status, runtime) => (.error status, runtime)
  | (.ok nodes, runtime) => (.ok { tree with nodes := nodes }, runtime)

/-- `format!("promise-\x7b\x7d", raw)`. -/
def promiseName (raw : ℕ) : Text :=
  "promise-".toList ++ Nat.toDigits 10 raw

/-- A promise gets the next name.  The counters move even if the ids run out on the way. -/
def commitPromise (runtime : Runtime) (builder : PromiseBuilder) :
    Result PromiseTree × Runtime :=
  if runtime.hasProvider builder.providerId then
    let promiseId := promiseName runtime.nextPromiseId
    let counted := { runtime with nextPromiseId := runtime.nextPromiseId + 1 }
    match counted.assignRuntimeIds (builder.finish promiseId) with
    | (.error status, runtime) => (.error status, runtime)
    | (.ok tree, runtime) =>
        (.ok tree, { runtime with promises := runtime.promises.insert promiseId tree })
  else (.error .providerGone, runtime)

/-- The node has a local copy from now on. -/
def markNodeMaterialized (runtime : Runtime) (promiseId relativePath materializedPath : Text) :
    Result Runtime := do
  let normalizedPath ← normalizeRelativePath relativePath
  let tree ← okOr runtime.promises[promiseId]? .notFound
  if normalizedPath ∈ tree.nodes then
    let nodes := tree.nodes.modify normalizedPath fun node =>
      { node with materializedPath := some materializedPath }
    return { runtime with promises := runtime.promises.insert promiseId { tree with nodes } }
  else .error .notFound

/-! ## Reading -/

/-- The file at a path of a promise: the checks every read operation begins with. -/
def fileNode (runtime : Runtime) (promiseId relativePath : Text) :
    Result (PromiseTree × PromiseNode) := do
  let tree ← okOr (runtime.promise promiseId) .notFound
  let node ← okOr (tree.get relativePath) .notFound
  if node.kind = .file then return (tree, node) else .error .invalidArgument

/-- Keep bytes of a file, if there is a cache and they lie within the declared size. -/
def recordCachedRead (runtime : Runtime) (promiseId relativePath : Text) (offset : ℕ)
    (bytes : List UInt8) : Result Runtime :=
  match runtime.cachePolicy.chunkSize with
  | none => .ok runtime
  | some chunkSize =>
      if bytes = [] then .ok runtime
      else do
        let (_, node) ← runtime.fileNode promiseId relativePath
        let stop ← okOr (checkedAdd offset bytes.length) .invalidArgument
        if node.attr.size.toNat < stop then .error .invalidArgument
        else
          return { runtime with
            readCache := runtime.readCache.insert promiseId node.relativePath offset bytes
              chunkSize }

/-- The provider of a promise, when it can still be asked. -/
def liveProvider (runtime : Runtime) (tree : PromiseTree) : Result ProviderId :=
  if tree.state ≠ .available then .error .providerGone
  else if runtime.hasProvider tree.providerId then .ok tree.providerId
  else .error .providerGone

/-- The length of a request cut off at the end of the file. -/
def clampLength (node : PromiseNode) (offset length : ℕ) : Result ℕ := do
  let length ← okOr (toU32 (min length (node.attr.size.toNat - offset))) .invalidArgument
  let _ ← okOr (checkedAdd offset length) .invalidArgument
  return length

/-- A read for the provider of a file, cut at its declared size. -/
def planProviderRead (runtime : Runtime) (promiseId relativePath : Text) (offset length : ℕ) :
    Result ProviderReadPlan := do
  let (tree, node) ← runtime.fileNode promiseId relativePath
  if length = 0 ∨ node.attr.size.toNat ≤ offset then .error .invalidArgument
  else
    let length ← clampLength node offset length
    let providerId ← runtime.liveProvider tree
    return {
      providerId
      promiseId := tree.promiseId
      relativePath := node.relativePath
      providerNodeId := node.providerNodeId
      offset
      length }

/-- The cached bytes of a range, under a policy that caches. -/
def cachedRead (runtime : Runtime) (promiseId relativePath : Text) (offset length : ℕ) :
    Option (List UInt8) := do
  let chunkSize ← runtime.cachePolicy.chunkSize
  runtime.readCache.read promiseId relativePath offset length chunkSize

/-- A copy comes before the cache, and the cache before the provider. -/
def planRead (runtime : Runtime) (promiseId relativePath : Text) (offset length : ℕ) :
    Result ReadPlan := do
  let (_, node) ← runtime.fileNode promiseId relativePath
  if length = 0 ∨ node.attr.size.toNat ≤ offset then return .eof
  else
    let length ← clampLength node offset length
    match node.materializedPath with
    | some path => return .materialized ⟨path, offset, length⟩
    | none =>
        match runtime.cachedRead promiseId node.relativePath offset length with
        | some bytes => return .cached bytes
        | none =>
            let plan ← runtime.planProviderRead promiseId node.relativePath offset length
            return .request plan

/-- The next chunk after a completed read, unless it is cached already. -/
def planSequentialPrefetch (runtime : Runtime) (promiseId relativePath : Text)
    (completedOffset completedLength : ℕ) : Result (Option ProviderReadPlan) :=
  match runtime.cachePolicy.chunkSize with
  | none => .ok none
  | some chunkSize =>
      if completedLength = 0 then .ok none
      else do
        let (tree, node) ← runtime.fileNode promiseId relativePath
        if node.materializedPath.isSome then return none
        else
          let providerId ← runtime.liveProvider tree
          let offset ← okOr (checkedAdd completedOffset completedLength) .invalidArgument
          if node.attr.size.toNat ≤ offset then return none
          else
            let remaining := node.attr.size.toNat - offset
            let length ← okOr (toU32 (min chunkSize remaining)) .invalidArgument
            match runtime.readCache.read promiseId node.relativePath offset length chunkSize with
            | some _ => return none
            | none =>
                return some {
                  providerId
                  promiseId := tree.promiseId
                  relativePath := node.relativePath
                  providerNodeId := node.providerNodeId
                  offset
                  length }

/-- A plan widened to the whole chunk it lies in, with the slice to cut out of
the reply. -/
def planCoalescedProviderRead (runtime : Runtime) (plan : ProviderReadPlan) :
    Result CoalescedProviderReadPlan :=
  match runtime.cachePolicy.chunkSize with
  | none => .ok ⟨plan, 0, plan.length⟩
  | some chunkSize => do
      let (_, node) ← runtime.fileNode plan.promiseId plan.relativePath
      let chunkStart := chunkBase plan.offset chunkSize
      let chunkStop ← okOr (checkedAdd chunkStart chunkSize) .invalidArgument
      let requestEnd ← okOr (checkedAdd plan.offset plan.length) .invalidArgument
      if chunkStop < requestEnd then return ⟨plan, 0, plan.length⟩
      else
        let remaining := node.attr.size.toNat - chunkStart
        let length ← okOr (toU32 (min chunkSize remaining)) .invalidArgument
        let responseOffset ← okOr (toU32 (plan.offset - chunkStart)) .invalidArgument
        return ⟨{ plan with offset := chunkStart, length := length }, responseOffset, plan.length⟩

/-! ## Inodes -/

/-- The first node with the inode, over all promises in the order of their names. -/
def lookupInode (runtime : Runtime) (inode : ℕ) : Result RuntimeEntry :=
  if inode = fuseRootInode then .ok .mountRoot
  else
    okOr
      (runtime.promises.valueList.findSome? fun tree =>
        tree.nodes.valueList.findSome? fun node =>
          if node.inode = inode then some (.promiseNode tree.promiseId node) else none)
      .notFound

end Runtime

end FusePromise
