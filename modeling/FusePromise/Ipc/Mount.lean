import FusePromise.Ipc.Messages

/-!
# The mount as clients see it

A promise is visible below the mount under its id.  `visiblePromisePath` makes the
path a commit replies with, and `resolveVisiblePath` takes such a path, or one
below it, apart again.
-/

namespace FusePromise

/-- `Path::join`. -/
def pathJoin (base path : Text) : Text :=
  if isAbsolute path then path
  else if base = [] ∨ base.getLast? = some '/' then base ++ path
  else base ++ '/' :: path

/-- Where the promises are mounted, and whether commits are taken. -/
structure IpcMountStatus where
  mountPath : Option Text
  readyForCommits : Bool
  deriving DecidableEq

/-- The names of components that are all normal. -/
def normalComponents : List PathComponent → Result (List Text)
  | [] => .ok []
  | .normal name :: rest => do
      let names ← normalComponents rest
      return name :: names
  | _ :: _ => .error .invalidArgument

/-- `Path::strip_prefix`, as the components that are left. -/
def stripComponents : List PathComponent → List PathComponent → Option (List PathComponent)
  | rest, [] => some rest
  | [], _ :: _ => none
  | first :: rest, second :: mount => if first = second then stripComponents rest mount else none

/-- Where a promise shows up. -/
def IpcMountStatus.visiblePromisePath (mount : IpcMountStatus) (promiseId : Text) : Result Text :=
  if ¬ mount.readyForCommits then .error .unavailable
  else okOr (mount.mountPath.map fun mountPath => pathJoin mountPath promiseId) .unavailable

/-- The promise and the node a path below the mount point belongs to. -/
def IpcMountStatus.resolveVisiblePath (mount : IpcMountStatus) (sourcePath : Text) :
    Result (Text × Text) :=
  if ¬ mount.readyForCommits then .error .unavailable
  else if ¬ isAbsolute sourcePath then .error .invalidArgument
  else do
    let mountPath ← okOr mount.mountPath .unavailable
    let relative ← okOr (stripComponents (components sourcePath) (components mountPath)) .notFound
    match relative with
    | .normal promiseId :: rest => do
        let parts ← normalComponents rest
        return (promiseId, joinNames parts)
    | _ => .error .notFound

/-! ## Components -/

theorem isAbsolute_of_not_mem {name : Text} (hname : '/' ∉ name) : isAbsolute name = false := by
  rw [isAbsolute, decide_eq_false_iff_not]
  exact fun hhead => hname (List.mem_of_mem_head? hhead)

theorem isAbsolute_pathJoin {base path : Text} (h : isAbsolute base = true) :
    isAbsolute (pathJoin base path) = true := by
  unfold pathJoin
  obtain ⟨rest, rfl⟩ : ∃ rest, base = '/' :: rest := by
    cases base <;> simp_all [isAbsolute]
  split
  · assumption
  · split <;> simp [isAbsolute]

/-- Joining a relative path to an absolute one adds its components. -/
theorem components_pathJoin {base path : Text} (hbase : isAbsolute base = true)
    (hpath : isAbsolute path = false) :
    components (pathJoin base path) =
      components base ++ (segments path).filterMap segmentComponent := by
  rw [components_of_isAbsolute (isAbsolute_pathJoin hbase), components_of_isAbsolute hbase,
    List.cons_append, ← List.filterMap_append]
  congr 1
  have hne : base ≠ [] := by rintro rfl; simp [isAbsolute] at hbase
  rw [pathJoin, if_neg (by simp [hpath])]
  split
  · rename_i hend
    obtain ⟨init, rfl⟩ : ∃ init, base = init ++ ['/'] :=
      ⟨_, (List.dropLast_append_getLast? _ (hend.resolve_left hne)).symm⟩
    rw [List.append_assoc, List.singleton_append, segments_append, segments_append]
    simp [segments, segmentComponent]
  · rw [segments_append]

theorem components_pathJoin_joinNames {base : Text} (hbase : isAbsolute base = true)
    {names : List Text} (hnormal : NormalNames names) :
    components (pathJoin base (joinNames names)) = components base ++ names.map .normal := by
  rw [components_pathJoin hbase (isAbsolute_joinNames hnormal),
    filterMap_segments_joinNames hnormal]

theorem components_pathJoin_name {base : Text} (hbase : isAbsolute base = true) {name : Text}
    (hname : NormalName name) :
    components (pathJoin base name) = components base ++ [.normal name] := by
  have hnames : NormalNames [name] := by simpa [NormalNames] using hname
  simpa using components_pathJoin_joinNames hbase hnames

/-- A path that ends in a name takes a separator before what is joined to it. -/
theorem pathJoin_of_segments {base path last : Text} {front : List Text}
    (hbase : segments base = front ++ [last]) (hlast : last ≠ [])
    (hpath : isAbsolute path = false) : pathJoin base path = base ++ '/' :: path := by
  have hend : ¬ (base = [] ∨ base.getLast? = some '/') := by
    rintro (rfl | hslash)
    · have := List.append_eq_singleton_iff.mp hbase.symm
      simp_all
    · rw [← List.dropLast_append_getLast? _ hslash, segments_append] at hbase
      exact hlast (List.singleton_inj.mp (List.append_inj_right' hbase rfl)).symm
  rw [pathJoin, if_neg (by simp [hpath]), if_neg hend]

theorem segments_pathJoin_name (base : Text) {name : Text} (hname : '/' ∉ name) :
    ∃ front, segments (pathJoin base name) = front ++ [name] := by
  have hself : segments name = [name] := List.splitOn_eq_singleton hname
  rw [pathJoin, if_neg (by simp [isAbsolute_of_not_mem hname])]
  split
  · rename_i hend
    rcases hend with rfl | hslash
    · exact ⟨[], hself⟩
    · refine ⟨segments base.dropLast, ?_⟩
      rw [← List.dropLast_append_getLast? _ hslash, List.append_assoc, List.singleton_append,
        segments_append, hself, List.dropLast_concat]
  · exact ⟨segments base, by rw [segments_append, hself]⟩

theorem stripComponents_eq_some {path mount rest : List PathComponent} :
    stripComponents path mount = some rest ↔ path = mount ++ rest := by
  induction mount generalizing path with
  | nil => simp [stripComponents]
  | cons second mount ih =>
      cases path with
      | nil => simp [stripComponents]
      | cons first path =>
          rw [stripComponents, List.cons_append, List.cons.injEq]
          split
          · rename_i heq
            simp [heq, ih]
          · rename_i hne
            simp [hne]

theorem normalComponents_eq_ok {path : List PathComponent} {names : List Text} :
    normalComponents path = .ok names ↔ path = names.map .normal := by
  induction path generalizing names with
  | nil => simp [normalComponents, eq_comm]
  | cons component rest ih =>
      cases component with
      | normal name =>
          rw [normalComponents, bind_eq_ok]
          constructor
          · rintro ⟨names', hnames', h⟩
            obtain rfl := Except.ok.inj h
            rw [ih.mp hnames', List.map_cons]
          · intro h
            obtain ⟨name', names', rfl, hname, hrest⟩ := List.map_eq_cons_iff.mp h.symm
            obtain rfl := PathComponent.normal.inj hname
            exact ⟨names', ih.mpr hrest.symm, rfl⟩
      | _ => cases names <;> simp [normalComponents]

/-- What a path resolves to: its components are those of the mount, the id of a
promise and the names of a path below it. -/
theorem IpcMountStatus.resolveVisiblePath_eq_ok {mount : IpcMountStatus}
    {sourcePath promiseId relativePath : Text} :
    mount.resolveVisiblePath sourcePath = .ok (promiseId, relativePath) ↔
      mount.readyForCommits = true ∧ isAbsolute sourcePath = true ∧
        ∃ mountPath names, mount.mountPath = some mountPath ∧
          components sourcePath =
            components mountPath ++ (promiseId :: names).map .normal ∧
          relativePath = joinNames names := by
  unfold resolveVisiblePath
  constructor
  · intro h
    split at h
    · simp at h
    rename_i hready
    split at h
    · simp at h
    rename_i habsolute
    obtain ⟨mountPath, hmount, h⟩ := bind_eq_ok.mp h
    obtain ⟨relative, hrelative, h⟩ := bind_eq_ok.mp h
    rw [okOr_eq_ok] at hmount hrelative
    split at h
    · rename_i name rest
      obtain ⟨names, hnames, h⟩ := bind_eq_ok.mp h
      obtain ⟨rfl, rfl⟩ := Prod.mk.inj (Except.ok.inj h)
      refine ⟨by simpa using hready, by simpa using habsolute, mountPath, names, hmount, ?_, rfl⟩
      rw [stripComponents_eq_some.mp hrelative, normalComponents_eq_ok.mp hnames, List.map_cons]
    · simp at h
  · rintro ⟨hready, habsolute, mountPath, names, hmount, hcomponents, rfl⟩
    have hstrip := stripComponents_eq_some.mpr hcomponents
    rw [List.map_cons] at hstrip
    simp only [hready, habsolute, not_true_eq_false, if_false, hmount]
    refine bind_eq_ok.mpr ⟨mountPath, rfl, bind_eq_ok.mpr ⟨_, okOr_eq_ok.mpr hstrip, ?_⟩⟩
    exact bind_eq_ok.mpr ⟨names, normalComponents_eq_ok.mpr rfl, rfl⟩

/-- The names a path resolves to are normal once the normalizer accepts them. -/
theorem IpcMountStatus.names_of_resolveVisiblePath {mount : IpcMountStatus}
    {sourcePath promiseId relativePath path : Text}
    (hresolve : mount.resolveVisiblePath sourcePath = .ok (promiseId, relativePath))
    (hpath : normalizeRelativePath relativePath = .ok path) :
    ∃ mountPath names, mount.mountPath = some mountPath ∧
      components sourcePath = components mountPath ++ (promiseId :: names).map .normal ∧
      NormalNames names ∧ relativePath = joinNames names ∧ path = joinNames names := by
  obtain ⟨-, -, mountPath, names, hmount, hcomponents, rfl⟩ :=
    resolveVisiblePath_eq_ok.mp hresolve
  obtain ⟨hnormal, rfl⟩ := normalizeRelativePath_ok hpath
  have hnames : pathNames (joinNames names) = names := by
    refine pathNames_joinNames fun name hmem => ?_
    have hcomponent : PathComponent.normal name ∈ components sourcePath := by
      rw [hcomponents]
      exact List.mem_append_right _ (List.mem_map_of_mem (List.mem_cons_of_mem _ hmem))
    obtain ⟨hsegment, hne, hdot, -⟩ := mem_segments_of_normal hcomponent
    exact ⟨hne, hdot, (mem_segments hsegment).1⟩
  rw [hnames] at hnormal ⊢
  exact ⟨mountPath, names, hmount, hcomponents, hnormal, rfl, rfl⟩

end FusePromise
