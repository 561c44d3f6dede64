import FusePromise.Ipc.Frame
import FusePromise.Ipc.System
import FusePromise.Materialize.Target

/-!
# What the daemon sends

The frames from the daemon to a client.  The body of an inspect reply is made from
the runtime: all promises, each with all its nodes.
-/

namespace FusePromise

structure InspectNodeBody where
  relativePath : Text
  inode : ℕ
  kind : String
  size : UInt64
  mode : UInt32
  providerNodeId : Text
  deriving DecidableEq

structure InspectPromiseBody where
  promiseId : Text
  providerId : ℕ
  state : String
  nodes : List InspectNodeBody
  deriving DecidableEq

/-- The reply to an inspect request. -/
structure InspectBody where
  providers : ℕ
  promises : List InspectPromiseBody
  deriving DecidableEq

/-- A frame from the daemon.  What a status reply says is read by no function here. -/
inductive Response
  | hello (protocolVersion apiVersion : ℕ)
  | status
  | inspect (body : InspectBody)
  | providerRegistered (providerId ownerToken : ℕ)
  | providerUnregistered
  | promiseCommitted (promiseId visiblePath : Text)
  | materializeProgress (progress : MaterializeProgress)
  | materialized (progress : MaterializeProgress)
  | materializeFailed (code : ErrorCode) (message : String) (progress : MaterializeProgress)
  | providerReadRequest (body : ProviderReadRequest)
  | error (code : ErrorCode) (message : String)
  deriving DecidableEq

def promiseStateText : PromiseState → String
  | .available => "available"
  | .providerGone => "provider-gone"
  | .materialized => "materialized"

def nodeKindText : NodeKind → String
  | .file => "file"
  | .directory => "directory"

/-- The root is shown as a dot. -/
def InspectNodeBody.fromNode (node : PromiseNode) : InspectNodeBody where
  relativePath := if node.relativePath = [] then ['.'] else node.relativePath
  inode := node.inode
  kind := nodeKindText node.kind
  size := node.attr.size
  mode := node.attr.mode
  providerNodeId := node.providerNodeId

def InspectPromiseBody.fromTree (tree : PromiseTree) : InspectPromiseBody where
  promiseId := tree.promiseId
  providerId := tree.providerId
  state := promiseStateText tree.state
  nodes := tree.nodes.valueList.map InspectNodeBody.fromNode

/-- The whole runtime, without a limit. -/
def InspectBody.fromRuntime (runtime : Runtime) : InspectBody where
  providers := runtime.providers.size
  promises := runtime.promises.valueList.map InspectPromiseBody.fromTree

/-- What a client makes of an error reply. -/
def errorToIo (code : ErrorCode) (message : String) : IoError :=
  ⟨errorCodeToIoKind code, message⟩

end FusePromise
