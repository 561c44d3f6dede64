import FusePromise.Foundation.Machine

/-!
# The data model of the runtime

The types of `fuse-promise-runtime`: statuses, providers, promise trees, cache
policies, and the plans the read planner returns.  Sizes are 64-bit words and
modes 32-bit words, since the planner and the validators depend on their width;
identifiers, which are only ever compared and counted up, are natural numbers.
-/

namespace FusePromise

/-- The statuses of the runtime and of the daemon. -/
inductive Status
  | ok
  | invalidArgument
  | unavailable
  | permission
  | notFound
  | alreadyExists
  | providerGone
  | io
  | timeout
  | cancelled
  | versionMismatch
  deriving DecidableEq

/-- The text of a status, which is also the message of an error reply. -/
def Status.asStr : Status → String
  | .ok => "ok"
  | .invalidArgument => "invalid argument"
  | .unavailable => "unavailable"
  | .permission => "permission denied"
  | .notFound => "not found"
  | .alreadyExists => "already exists"
  | .providerGone => "provider gone"
  | .io => "io error"
  | .timeout => "timeout"
  | .cancelled => "cancelled"
  | .versionMismatch => "version mismatch"

/-- The runtime's `Result`. -/
abbrev Result (α : Type) := Except Status α

/-- `Option::ok_or`. -/
def okOr {α : Type} (value : Option α) (status : Status) : Result α :=
  match value with
  | some v => .ok v
  | none => .error status

@[simp] theorem okOr_eq_ok {α : Type} {value : Option α} {status : Status} {v : α} :
    okOr value status = .ok v ↔ value = some v := by
  cases value <;> simp [okOr]

theorem bind_eq_ok {ε α β : Type} {first : Except ε α} {next : α → Except ε β} {value : β} :
    first >>= next = .ok value ↔ ∃ middle, first = .ok middle ∧ next middle = .ok value := by
  cases first <;> simp [bind, Except.bind]

/-- A loop that collects results succeeds when each of its turns does. -/
theorem mapM_eq_ok {ε α β : Type} {f : α → Except ε β} {xs : List α} {ys : List β} :
    xs.mapM f = .ok ys ↔ List.Forall₂ (fun x y => f x = .ok y) xs ys := by
  induction xs generalizing ys with
  | nil =>
      rw [List.mapM_nil, List.forall₂_nil_left_iff]
      exact ⟨fun h => (Except.ok.inj h).symm, fun h => h ▸ rfl⟩
  | cons x xs ih =>
      rw [List.mapM_cons, List.forall₂_cons_left_iff, bind_eq_ok]
      constructor
      · rintro ⟨y, hy, h⟩
        obtain ⟨rest, hrest, h⟩ := bind_eq_ok.mp h
        exact ⟨y, rest, hy, ih.mp hrest, (Except.ok.inj h).symm⟩
      · rintro ⟨y, rest, hy, hrest, rfl⟩
        exact ⟨y, hy, bind_eq_ok.mpr ⟨rest, ih.mpr hrest, rfl⟩⟩

theorem exists_mapM_eq_ok {ε α β : Type} {f : α → Except ε β} {xs : List α}
    (h : ∀ x ∈ xs, ∃ y, f x = .ok y) : ∃ ys, xs.mapM f = .ok ys := by
  induction xs with
  | nil => exact ⟨[], rfl⟩
  | cons x xs ih =>
      obtain ⟨y, hy⟩ := h x List.mem_cons_self
      obtain ⟨ys, hys⟩ := ih fun x hx => h x (List.mem_cons_of_mem _ hx)
      exact ⟨y :: ys, mapM_eq_ok.mpr (.cons hy (mapM_eq_ok.mp hys))⟩

theorem mem_of_mapM_eq_ok {ε α β : Type} {f : α → Except ε β} {xs : List α} {ys : List β}
    (h : xs.mapM f = .ok ys) {y : β} : y ∈ ys ↔ ∃ x ∈ xs, f x = .ok y := by
  rw [mapM_eq_ok] at h
  induction h with
  | nil => simp
  | @cons x y' xs ys hy _ ih => simp [ih, hy, eq_comm]

/-- What the results have in common with the inputs, in order. -/
theorem map_of_mapM_eq_ok {ε α β γ : Type} {f : α → Except ε β} {xs : List α} {ys : List β}
    (h : xs.mapM f = .ok ys) {g : β → γ} {g' : α → γ}
    (hsame : ∀ x ∈ xs, ∀ y, f x = .ok y → g y = g' x) : ys.map g = xs.map g' := by
  rw [mapM_eq_ok] at h
  induction h with
  | nil => rfl
  | @cons x y xs ys hy _ ih =>
      rw [List.map_cons, List.map_cons, hsame x List.mem_cons_self y hy,
        ih fun x hx => hsame x (List.mem_cons_of_mem _ hx)]

theorem exists_of_mapM_eq_ok {ε α β : Type} {f : α → Except ε β} {xs : List α} {ys : List β}
    (h : xs.mapM f = .ok ys) {x : α} (hx : x ∈ xs) : ∃ y ∈ ys, f x = .ok y := by
  rw [mapM_eq_ok] at h
  induction h with
  | nil => simp at hx
  | @cons x' y xs ys hy _ ih =>
      rcases List.mem_cons.mp hx with rfl | hx
      · exact ⟨y, List.mem_cons_self, hy⟩
      · obtain ⟨z, hz, hfz⟩ := ih hx
        exact ⟨z, List.mem_cons_of_mem _ hz, hfz⟩

/-- How the results relate to each other, from how the inputs do. -/
theorem pairwise_of_mapM_eq_ok {ε α β : Type} {f : α → Except ε β} {xs : List α} {ys : List β}
    (h : xs.mapM f = .ok ys) {R : α → α → Prop} {S : β → β → Prop} (hxs : xs.Pairwise R)
    (hstep : ∀ x ∈ xs, ∀ x' ∈ xs, R x x' → ∀ y y', f x = .ok y → f x' = .ok y' → S y y') :
    ys.Pairwise S := by
  have hall := h
  rw [mapM_eq_ok] at hall
  induction hall with
  | nil => exact .nil
  | @cons x y xs ys hy hrest ih =>
      obtain ⟨hhead, htail⟩ := List.pairwise_cons.mp hxs
      have htailOk := mapM_eq_ok.mpr hrest
      refine List.pairwise_cons.mpr ⟨fun y' hy' => ?_, ih htailOk htail ?_⟩
      · obtain ⟨x', hx', hfx'⟩ := (mem_of_mapM_eq_ok htailOk).mp hy'
        exact hstep x List.mem_cons_self x' (List.mem_cons_of_mem _ hx') (hhead x' hx') y y' hy
          hfx'
      · intro a ha b hb
        exact hstep a (List.mem_cons_of_mem _ ha) b (List.mem_cons_of_mem _ hb)

abbrev ProviderId := ℕ

/-- `ProviderId::from_raw`: zero is not a provider. -/
def ProviderId.fromRaw (raw : ℕ) : Option ProviderId :=
  if raw = 0 then none else some raw

abbrev NodeId := ℕ

def apiVersion : ℕ := 1
def fuseRootInode : ℕ := 1

/-- A provider that has gone stays in the table of providers. -/
inductive ProviderState
  | live
  | disconnected
  deriving DecidableEq

structure ProviderSession where
  id : ProviderId
  state : ProviderState
  deriving DecidableEq

inductive NodeKind
  | file
  | directory
  deriving DecidableEq

/-- What a provider declares of a node.  The date is in nanoseconds since the epoch. -/
structure NodeAttr where
  mode : UInt32
  size : UInt64
  mtimeNsec : ℤ
  deriving DecidableEq

/-- What can still be done with a promise.  No operation makes one `materialized`. -/
inductive PromiseState
  | available
  | providerGone
  | materialized
  deriving DecidableEq

/-- Whether what providers return is kept, and in chunks of which size. -/
inductive CachePolicy
  | noCache
  | readThrough (chunkSize : ℕ)
  deriving DecidableEq

namespace CachePolicy

/-- The chunk size in force; a read-through policy of chunk size zero has none. -/
def chunkSize : CachePolicy → Option ℕ
  | .noCache => none
  | .readThrough size => if 0 < size then some size else none

theorem chunkSize_eq_some {policy : CachePolicy} {size : ℕ} :
    policy.chunkSize = some size ↔ policy = .readThrough size ∧ 0 < size := by
  cases policy with
  | noCache => simp [chunkSize]
  | readThrough other =>
      simp only [chunkSize, readThrough.injEq]
      split <;> grind

theorem chunkSize_pos {policy : CachePolicy} {size : ℕ} (h : policy.chunkSize = some size) :
    0 < size :=
  (chunkSize_eq_some.mp h).2

/-- A chunk size of zero is refused. -/
def validated (policy : CachePolicy) : Result CachePolicy :=
  match policy with
  | .noCache => .ok policy
  | .readThrough size => if 0 < size then .ok policy else .error .invalidArgument

theorem validated_eq_ok {policy checked : CachePolicy} (h : policy.validated = .ok checked) :
    checked = policy := by
  cases policy with
  | noCache => simpa [validated] using h.symm
  | readThrough size =>
      simp only [validated] at h
      split at h
      · simpa using h.symm
      · simp at h

end CachePolicy

/-- A node of a tree.  The root has the empty path and no parent. -/
structure PromiseNode where
  nodeId : NodeId
  inode : ℕ
  relativePath : Text
  parentPath : Option Text
  name : Text
  providerNodeId : Text
  materializedPath : Option Text
  kind : NodeKind
  attr : NodeAttr
  deriving DecidableEq

/-- A node without the ids the runtime assigns. -/
def PromiseNode.withoutIds (node : PromiseNode) : PromiseNode :=
  { node with nodeId := 0, inode := 0 }

/-- A promise: its nodes by path, and for every directory the paths of its children. -/
structure PromiseTree where
  promiseId : Text
  providerId : ProviderId
  state : PromiseState
  nodes : BTreeMap Text PromiseNode
  children : BTreeMap Text (BTreeSet Text)

/-! ## Read plans -/

/-- A read that a live provider can be asked for. -/
structure ProviderReadPlan where
  providerId : ProviderId
  promiseId : Text
  relativePath : Text
  providerNodeId : Text
  offset : ℕ
  length : ℕ
  deriving DecidableEq

/-- A read of whole chunks, and the part of its answer that was asked for. -/
structure CoalescedProviderReadPlan where
  provider : ProviderReadPlan
  responseOffset : ℕ
  responseLength : ℕ
  deriving DecidableEq

/-- A read from the local copy of a file. -/
structure MaterializedReadPlan where
  path : Text
  offset : ℕ
  length : ℕ
  deriving DecidableEq

/-- Where the bytes of a read come from. -/
inductive ReadPlan
  | request (plan : ProviderReadPlan)
  | materialized (plan : MaterializedReadPlan)
  | cached (bytes : List UInt8)
  | eof
  deriving DecidableEq

/-- What an inode stands for: the mount point, or a node of some promise. -/
inductive RuntimeEntry
  | mountRoot
  | promiseNode (promiseId : Text) (node : PromiseNode)
  deriving DecidableEq

end FusePromise
