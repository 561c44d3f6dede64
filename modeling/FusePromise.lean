import FusePromise.Ffi.Commit
import FusePromise.Ffi.Helper
import FusePromise.Fuse.Admitted
import FusePromise.Fuse.Attributes
import FusePromise.Fuse.ReadThrough
import FusePromise.Fuse.Reader
import FusePromise.Fuse.Readdir
import FusePromise.Fuse.Routed
import FusePromise.Ipc.Exclusion
import FusePromise.Ipc.Finish
import FusePromise.Ipc.Inspect
import FusePromise.Ipc.LiveProvider
import FusePromise.Ipc.ReadMessages
import FusePromise.Ipc.Registration
import FusePromise.Ipc.RequestIds
import FusePromise.Ipc.VisiblePath
import FusePromise.Materialize.Copies
import FusePromise.Materialize.Exchange
import FusePromise.Materialize.Loops
import FusePromise.Materialize.Placing
import FusePromise.Materialize.Plan
import FusePromise.Materialize.Progress
import FusePromise.Materialize.Rename
import FusePromise.Materialize.Writing
import FusePromise.Runtime.CacheBounds
import FusePromise.Runtime.CacheSizes
import FusePromise.Runtime.Permutation
import FusePromise.Runtime.Preorder
import FusePromise.Runtime.Ranges
