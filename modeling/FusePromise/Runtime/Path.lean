import FusePromise.Runtime.Types

/-!
# Relative paths

`normalizeRelativePath` and the helpers that split and rejoin its results.  A
path in normal form is the `/`-join of its *names*; `NormalName` is what the
normalizer lets through as a name.  Everything later in the development talks
about lists of names and reaches the texts through `joinNames`, which is
injective on lists of normal names (`splitNames_joinNames`).
-/

namespace FusePromise

/-! ## `std::path` on Unix -/

/-- What `Path::components` yields. -/
inductive PathComponent
  | rootDir
  | curDir
  | parentDir
  | normal (name : Text)
  deriving DecidableEq

/-- The text between separators, empty texts included. -/
def segments (path : Text) : List Text :=
  path.splitOn '/'

/-- `Path::is_absolute`. -/
def isAbsolute (path : Text) : Bool :=
  path.head? = some '/'

/-- The component a segment stands for away from the start of a path. -/
def segmentComponent (segment : Text) : Option PathComponent :=
  if segment = [] ∨ segment = ['.'] then none
  else if segment = ['.', '.'] then some .parentDir
  else some (.normal segment)

/-- `Path::components`: empty segments and `.` segments are dropped, except that
a leading `.` is reported. -/
def components (path : Text) : List PathComponent :=
  let rest := (segments path).filterMap segmentComponent
  if isAbsolute path then .rootDir :: rest
  else if (segments path).head? = some ['.'] then .curDir :: rest
  else rest

/-! ## The normalizer -/

/-- One turn of the loop over the components. -/
def normalizeStep (parts : List Text) (component : PathComponent) : Result (List Text) :=
  match component with
  | .normal part =>
      if part = [] then .error .invalidArgument else .ok (parts ++ [part])
  | .curDir => .ok parts
  | .parentDir | .rootDir => .error .invalidArgument

/-- `parts.join("/")`. -/
def joinNames (names : List Text) : Text :=
  ['/'].intercalate names

/-- The path without `.` and empty components.  NUL, `..` and absolute paths are refused. -/
def normalizeRelativePath (input : Text) : Result Text :=
  if Char.ofNat 0 ∈ input then .error .invalidArgument
  else if isAbsolute input then .error .invalidArgument
  else do
    let parts ← (components input).foldlM normalizeStep []
    return joinNames parts

/-- `str::rsplit_once('/')`: the texts before and after the last separator. -/
def rsplitOnce (path : Text) : Option (Text × Text) :=
  match (segments path).reverse with
  | name :: last :: before => some (joinNames (last :: before).reverse, name)
  | _ => none

/-- What is before the last separator. -/
def parentPath (path : Text) : Text :=
  match rsplitOnce path with
  | some (parent, _) => parent
  | none => []

/-- What is after the last separator. -/
def leafName (path : Text) : Text :=
  match rsplitOnce path with
  | some (_, name) => name
  | none => path

/-- One name, as the kernel hands it over. -/
def validateChildName (name : Text) : Result Unit :=
  if name = [] ∨ name = ['.'] ∨ name = ['.', '.'] then .error .invalidArgument
  else if Char.ofNat 0 ∈ name ∨ '/' ∈ name then .error .invalidArgument
  else .ok ()

/-- A child of the root has no separator. -/
def childPath (parent name : Text) : Text :=
  if parent = [] then name else parent ++ '/' :: name

/-! ## Names -/

/-- What the normalizer accepts as a name: a non-empty text other than `.` and
`..`, without separators and without NUL. -/
structure NormalName (name : Text) : Prop where
  ne_nil : name ≠ []
  ne_dot : name ≠ ['.']
  ne_dotdot : name ≠ ['.', '.']
  no_slash : '/' ∉ name
  no_nul : Char.ofNat 0 ∉ name

/-- All names of a list are normal. -/
def NormalNames (names : List Text) : Prop :=
  ∀ name ∈ names, NormalName name

/-- The names of a path in normal form. -/
def splitNames (path : Text) : List Text :=
  if path = [] then [] else segments path

@[simp] theorem joinNames_nil : joinNames [] = [] := rfl

@[simp] theorem joinNames_singleton (name : Text) : joinNames [name] = name := by
  simp [joinNames, List.intercalate]

theorem joinNames_cons (name : Text) {names : List Text} (hne : names ≠ []) :
    joinNames (name :: names) = name ++ '/' :: joinNames names := by
  obtain ⟨head, tail, rfl⟩ := List.exists_cons_of_ne_nil hne
  simp [joinNames, List.intercalate]

theorem intercalate_append {α : Type} (sep : List α) {xs ys : List (List α)} (hxs : xs ≠ [])
    (hys : ys ≠ []) :
    sep.intercalate (xs ++ ys) = sep.intercalate xs ++ sep ++ sep.intercalate ys := by
  induction xs with
  | nil => exact absurd rfl hxs
  | cons head tail ih =>
      rw [List.cons_append, List.intercalate_cons_of_ne_nil (by simp [hys])]
      by_cases hnil : tail = []
      · simp [hnil]
      · rw [ih hnil, List.intercalate_cons_of_ne_nil hnil]
        simp

theorem joinNames_append {names below : List Text} (hnames : names ≠ []) (hbelow : below ≠ []) :
    joinNames (names ++ below) = joinNames names ++ '/' :: joinNames below := by
  simp [joinNames, intercalate_append _ hnames hbelow]

theorem joinNames_concat {names : List Text} (hne : names ≠ []) (name : Text) :
    joinNames (names ++ [name]) = joinNames names ++ '/' :: name := by
  rw [joinNames_append hne (by simp), joinNames_singleton]

theorem segments_append (base path : Text) :
    segments (base ++ '/' :: path) = segments base ++ segments path :=
  List.splitOn_append_cons_self base path

theorem joinNames_segments (path : Text) : joinNames (segments path) = path :=
  List.intercalate_splitOn '/'

theorem NormalNames.nil : NormalNames [] := by simp [NormalNames]

theorem NormalNames.of_append_left {xs ys : List Text} (h : NormalNames (xs ++ ys)) :
    NormalNames xs :=
  fun name hmem => h name (List.mem_append_left _ hmem)

theorem NormalNames.of_append_right {xs ys : List Text} (h : NormalNames (xs ++ ys)) :
    NormalNames ys :=
  fun name hmem => h name (List.mem_append_right _ hmem)

theorem NormalNames.concat {names : List Text} {name : Text} (h : NormalNames names)
    (hname : NormalName name) : NormalNames (names ++ [name]) := by
  intro other hother
  rcases List.mem_append.mp hother with hother | hother
  · exact h other hother
  · rw [List.mem_singleton.mp hother]
    exact hname

theorem joinNames_ne_nil {names : List Text} (hnormal : NormalNames names) (hne : names ≠ []) :
    joinNames names ≠ [] := by
  obtain ⟨head, tail, rfl⟩ := List.exists_cons_of_ne_nil hne
  have hhead := (hnormal head (by simp)).ne_nil
  rcases tail.eq_nil_or_concat with rfl | ⟨_, _, rfl⟩
  · simpa using hhead
  · rw [joinNames_cons _ (by simp)]
    simp

/-- The segments of a join of normal names are these names. -/
theorem segments_joinNames {names : List Text} (hnormal : NormalNames names) (hne : names ≠ []) :
    segments (joinNames names) = names :=
  List.splitOn_intercalate '/' (fun name hmem => (hnormal name hmem).no_slash) hne

theorem splitNames_joinNames {names : List Text} (hnormal : NormalNames names) :
    splitNames (joinNames names) = names := by
  by_cases hne : names = []
  · subst hne
    rfl
  · rw [splitNames, if_neg (joinNames_ne_nil hnormal hne), segments_joinNames hnormal hne]

theorem joinNames_injective {xs ys : List Text} (hxs : NormalNames xs) (hys : NormalNames ys)
    (h : joinNames xs = joinNames ys) : xs = ys := by
  rw [← splitNames_joinNames hxs, h, splitNames_joinNames hys]

/-- Appending a name to a path in normal form. -/
theorem joinNames_append_singleton {names : List Text} (hnormal : NormalNames names)
    (name : Text) : joinNames (names ++ [name]) = childPath (joinNames names) name := by
  by_cases hnil : names = []
  · subst hnil
    simp [childPath]
  · rw [joinNames_concat hnil, childPath, if_neg (joinNames_ne_nil hnormal hnil)]

theorem rsplitOnce_joinNames {names : List Text} {name : Text}
    (hnormal : NormalNames (names ++ [name])) :
    rsplitOnce (joinNames (names ++ [name])) =
      if names = [] then none else some (joinNames names, name) := by
  unfold rsplitOnce
  rw [segments_joinNames hnormal (by simp), List.reverse_append]
  rcases names.eq_nil_or_concat with rfl | ⟨init, last, rfl⟩
  · simp
  · simp

theorem parentPath_joinNames {names : List Text} {name : Text}
    (hnormal : NormalNames (names ++ [name])) :
    parentPath (joinNames (names ++ [name])) = joinNames names := by
  unfold parentPath
  rw [rsplitOnce_joinNames hnormal]
  by_cases hnil : names = [] <;> simp [hnil]

theorem leafName_joinNames {names : List Text} {name : Text}
    (hnormal : NormalNames (names ++ [name])) :
    leafName (joinNames (names ++ [name])) = name := by
  unfold leafName
  rw [rsplitOnce_joinNames hnormal]
  by_cases hnil : names = [] <;> simp [hnil]

/-! ## What the normalizer returns -/

/-- The names a path is made of: its segments other than empty ones and `.`. -/
def pathNames (path : Text) : List Text :=
  (segments path).filter fun segment => segment ≠ [] ∧ segment ≠ ['.']

/-- What a text is split into contains no separator, and only characters of the text. -/
theorem mem_splitOn {separator : Char} {text part : Text} (hmem : part ∈ text.splitOn separator) :
    separator ∉ part ∧ ∀ c ∈ part, c ∈ text := by
  induction text generalizing part with
  | nil => simp_all
  | cons c rest ih =>
      rw [List.splitOn_cons_eq_if_modifyHead] at hmem
      obtain ⟨head, tail, hsplit⟩ :=
        List.exists_cons_of_ne_nil (List.splitOn_ne_nil separator rest)
      rw [hsplit] at hmem ih
      split at hmem
      · rcases List.mem_cons.mp hmem with rfl | hmem
        · simp
        · obtain ⟨hslash, hchars⟩ := ih hmem
          exact ⟨hslash, fun d hd => List.mem_cons_of_mem _ (hchars d hd)⟩
      · rename_i hc
        rw [List.modifyHead_cons] at hmem
        rcases List.mem_cons.mp hmem with rfl | hmem
        · obtain ⟨hslash, hchars⟩ := ih (List.mem_cons_self)
          refine ⟨?_, ?_⟩
          · intro hin
            rcases List.mem_cons.mp hin with rfl | hin
            · simp at hc
            · exact hslash hin
          · intro d hd
            rcases List.mem_cons.mp hd with rfl | hd
            · exact List.mem_cons_self
            · exact List.mem_cons_of_mem _ (hchars d hd)
        · obtain ⟨hslash, hchars⟩ := ih (List.mem_cons_of_mem _ hmem)
          exact ⟨hslash, fun d hd => List.mem_cons_of_mem _ (hchars d hd)⟩

theorem mem_segments {path segment : Text} (hmem : segment ∈ segments path) :
    '/' ∉ segment ∧ ∀ c ∈ segment, c ∈ path :=
  mem_splitOn hmem

theorem components_of_isAbsolute {path : Text} (h : isAbsolute path = true) :
    components path = .rootDir :: (segments path).filterMap segmentComponent := by
  simp [components, h]

theorem NormalNames.filterMap_component {names : List Text} (h : NormalNames names) :
    names.filterMap segmentComponent = names.map .normal := by
  induction names with
  | nil => rfl
  | cons name names ih =>
      have hname := h name List.mem_cons_self
      have hcomponent : segmentComponent name = some (.normal name) := by
        simp [segmentComponent, hname.ne_nil, hname.ne_dot, hname.ne_dotdot]
      rw [List.filterMap_cons_some hcomponent, List.map_cons,
        ih fun name hmem => h name (List.mem_cons_of_mem _ hmem)]

theorem filterMap_segments_joinNames {names : List Text} (h : NormalNames names) :
    (segments (joinNames names)).filterMap segmentComponent = names.map .normal := by
  by_cases hnil : names = []
  · subst hnil
    rfl
  · rw [segments_joinNames h hnil, h.filterMap_component]

/-- A normal component is a segment of the path that is not a dot. -/
theorem mem_segments_of_normal {path name : Text}
    (h : PathComponent.normal name ∈ components path) :
    name ∈ segments path ∧ name ≠ [] ∧ name ≠ ['.'] ∧ name ≠ ['.', '.'] := by
  have hsegment : PathComponent.normal name ∈ (segments path).filterMap segmentComponent := by
    unfold components at h
    dsimp only at h
    split at h
    · simpa using h
    · split at h
      · simpa using h
      · exact h
  obtain ⟨segment, hmem, hcomponent⟩ := List.mem_filterMap.mp hsegment
  unfold segmentComponent at hcomponent
  split at hcomponent
  · simp at hcomponent
  · rename_i hskip
    split at hcomponent
    · simp at hcomponent
    · rename_i hdots
      obtain rfl := PathComponent.normal.inj (Option.some.inj hcomponent)
      push Not at hskip
      exact ⟨hmem, hskip.1, hskip.2, hdots⟩

/-- The loop over the components of some segments fails exactly on `..` and
otherwise collects the remaining names. -/
private theorem foldlM_normalizeStep (segs : List Text) (parts : List Text) :
    (segs.filterMap segmentComponent).foldlM normalizeStep parts =
      if ['.', '.'] ∈ segs then .error .invalidArgument
      else .ok (parts ++ segs.filter fun segment => segment ≠ [] ∧ segment ≠ ['.']) := by
  induction segs generalizing parts with
  | nil => simp; rfl
  | cons segment rest ih =>
      by_cases hskip : segment = [] ∨ segment = ['.']
      · have hcomponent : segmentComponent segment = none := by simp [segmentComponent, hskip]
        rw [List.filterMap_cons_none hcomponent, ih]
        rcases hskip with rfl | rfl <;> simp
      · by_cases hdots : segment = ['.', '.']
        · subst hdots
          simp [segmentComponent, normalizeStep]
          rfl
        · have hcomponent : segmentComponent segment = some (.normal segment) := by
            simp [segmentComponent, hskip, hdots]
          push Not at hskip
          rw [List.filterMap_cons_some hcomponent, List.foldlM_cons]
          simp only [normalizeStep, if_neg hskip.1]
          show List.foldlM normalizeStep (parts ++ [segment]) _ = _
          rw [ih]
          simp [hskip, Ne.symm hdots]

/-- The normalizer rejects NUL, absolute paths and `..`, and otherwise joins the
names of the path. -/
theorem normalizeRelativePath_eq (input : Text) :
    normalizeRelativePath input =
      if Char.ofNat 0 ∈ input ∨ isAbsolute input ∨ ['.', '.'] ∈ segments input then
        .error .invalidArgument
      else .ok (joinNames (pathNames input)) := by
  unfold normalizeRelativePath
  by_cases hnul : Char.ofNat 0 ∈ input
  · simp [hnul]
  by_cases habs : isAbsolute input
  · simp [hnul, habs]
  have hloop : (components input).foldlM normalizeStep [] =
      if ['.', '.'] ∈ segments input then .error .invalidArgument
      else .ok (pathNames input) := by
    have hrest := foldlM_normalizeStep (segments input) []
    unfold components
    simp only [habs, Bool.false_eq_true, if_false]
    -- a leading `.` is reported, and skipped by the loop
    split
    · rw [List.foldlM_cons]
      exact hrest
    · exact hrest
  simp only [hnul, habs, hloop, if_false, false_or, Bool.false_eq_true]
  split <;> rfl

theorem normalNames_pathNames {input : Text} (hnul : Char.ofNat 0 ∉ input)
    (hdots : ['.', '.'] ∉ segments input) : NormalNames (pathNames input) := by
  intro name hmem
  simp only [pathNames, List.mem_filter, decide_eq_true_eq] at hmem
  obtain ⟨hmem, hne, hdot⟩ := hmem
  obtain ⟨hslash, hchars⟩ := mem_segments hmem
  exact ⟨hne, hdot, fun h => hdots (h ▸ hmem), hslash, fun h => hnul (hchars _ h)⟩

/-- A normalized path is the join of its normal names. -/
theorem normalizeRelativePath_ok {input path : Text} (h : normalizeRelativePath input = .ok path) :
    NormalNames (pathNames input) ∧ path = joinNames (pathNames input) := by
  rw [normalizeRelativePath_eq] at h
  split at h
  · simp at h
  · rename_i hok
    push Not at hok
    exact ⟨normalNames_pathNames hok.1 hok.2.2, by simpa using h.symm⟩

theorem NormalName.head_ne_slash {name : Text} (h : NormalName name) : name.head? ≠ some '/' := by
  intro hhead
  exact h.no_slash (List.mem_of_mem_head? hhead)

theorem joinNames_not_mem {c : Char} (hc : c ≠ '/') {names : List Text}
    (h : ∀ name ∈ names, c ∉ name) : c ∉ joinNames names := by
  induction names with
  | nil => simp
  | cons head tail ih =>
      by_cases hnil : tail = []
      · subst hnil
        simpa using h head
      · rw [joinNames_cons _ hnil]
        have htail := ih fun name hmem => h name (List.mem_cons_of_mem _ hmem)
        simp [h head, hc, htail]

theorem isAbsolute_joinNames {names : List Text} (hnormal : NormalNames names) :
    isAbsolute (joinNames names) = false := by
  rw [isAbsolute, decide_eq_false_iff_not]
  cases names with
  | nil => simp
  | cons head tail =>
      have hhead := hnormal head (by simp)
      obtain ⟨c, cs, hcons⟩ := List.exists_cons_of_ne_nil hhead.ne_nil
      have := hhead.head_ne_slash
      by_cases hnil : tail = []
      · subst hnil
        simpa using this
      · rw [joinNames_cons _ hnil, hcons]
        simpa [hcons] using this

theorem pathNames_joinNames {names : List Text}
    (h : ∀ name ∈ names, name ≠ [] ∧ name ≠ ['.'] ∧ '/' ∉ name) :
    pathNames (joinNames names) = names := by
  by_cases hnil : names = []
  · subst hnil
    rfl
  · have hsegments : segments (joinNames names) = names :=
      List.splitOn_intercalate '/' (fun name hmem => (h name hmem).2.2) hnil
    rw [pathNames, hsegments, List.filter_eq_self]
    intro name hmem
    simp [h name hmem]

/-- Normalizing a path in normal form changes nothing. -/
theorem normalizeRelativePath_joinNames {names : List Text} (hnormal : NormalNames names) :
    normalizeRelativePath (joinNames names) = .ok (joinNames names) := by
  rw [normalizeRelativePath_eq, if_neg]
  · rw [pathNames_joinNames fun name hmem =>
      ⟨(hnormal name hmem).ne_nil, (hnormal name hmem).ne_dot, (hnormal name hmem).no_slash⟩]
  · push Not
    refine ⟨joinNames_not_mem (by decide) fun name hmem => (hnormal name hmem).no_nul,
      by simp [isAbsolute_joinNames hnormal], ?_⟩
    by_cases hnil : names = []
    · subst hnil
      decide
    · rw [segments_joinNames hnormal hnil]
      exact fun hmem => (hnormal _ hmem).ne_dotdot rfl

/-! ## The grammar and the normal form -/

theorem exists_normalizeRelativePath_iff {input : Text} :
    (∃ path, normalizeRelativePath input = .ok path) ↔
      Char.ofNat 0 ∉ input ∧ input.head? ≠ some '/' ∧ ['.', '.'] ∉ segments input := by
  rw [normalizeRelativePath_eq]
  constructor
  · rintro ⟨path, hpath⟩
    split at hpath
    · simp at hpath
    · rename_i hok
      simpa [isAbsolute] using hok
  · rintro ⟨hnul, hslash, hdots⟩
    exact ⟨_, if_neg (by simp [isAbsolute, hnul, hslash, hdots])⟩

theorem NormalName.validateChildName {name : Text} (h : NormalName name) :
    validateChildName name = .ok () := by
  rw [FusePromise.validateChildName, if_neg (by simp [h.ne_nil, h.ne_dot, h.ne_dotdot]),
    if_neg (by simp [h.no_slash, h.no_nul])]

/-- A path in normal form is put together again from its parent and its last name. -/
theorem childPath_parentPath_leafName {names : List Text} (hnormal : NormalNames names)
    (hne : names ≠ []) :
    childPath (parentPath (joinNames names)) (leafName (joinNames names)) = joinNames names ∧
      validateChildName (leafName (joinNames names)) = .ok () := by
  obtain ⟨init, last, rfl⟩ := (names.eq_nil_or_concat).resolve_left hne
  rw [List.concat_eq_append] at hnormal ⊢
  rw [parentPath_joinNames hnormal, leafName_joinNames hnormal,
    ← joinNames_append_singleton hnormal.of_append_left]
  exact ⟨rfl, (hnormal last (by simp)).validateChildName⟩

/-- What the normalizer accepts, what it returns, that its results are normal forms, when two
paths have the same one, and how a normal form splits at its last name. -/
theorem normalizeRelativePath_normal_form :
    (∀ input, (∃ path, normalizeRelativePath input = .ok path) ↔
      Char.ofNat 0 ∉ input ∧ input.head? ≠ some '/' ∧ ['.', '.'] ∉ segments input) ∧
    (∀ input path, normalizeRelativePath input = .ok path →
      path = joinNames ((segments input).filter fun segment => segment ≠ [] ∧ segment ≠ ['.']) ∧
      normalizeRelativePath path = .ok path ∧
      (path ≠ [] → childPath (parentPath path) (leafName path) = path ∧
        validateChildName (leafName path) = .ok ())) ∧
    ∀ input input' path path', normalizeRelativePath input = .ok path →
      normalizeRelativePath input' = .ok path' →
      (path = path' ↔ pathNames input = pathNames input') := by
  refine ⟨fun _ => exists_normalizeRelativePath_iff, fun input path h => ?_,
    fun input input' path path' h h' => ?_⟩
  · obtain ⟨hnormal, rfl⟩ := normalizeRelativePath_ok h
    refine ⟨rfl, normalizeRelativePath_joinNames hnormal, fun hne => ?_⟩
    refine childPath_parentPath_leafName hnormal fun hnil => hne ?_
    rw [hnil]
    rfl
  · obtain ⟨hnormal, rfl⟩ := normalizeRelativePath_ok h
    obtain ⟨hnormal', rfl⟩ := normalizeRelativePath_ok h'
    exact ⟨joinNames_injective hnormal hnormal', fun heq => by rw [heq]⟩

/-- Dots, empty segments and a trailing separator, and a name of three dots. -/
theorem normalizeRelativePath_dots :
    normalizeRelativePath "./a//.../b/./".toList = .ok "a/.../b".toList ∧
      normalizeRelativePath "a/.../b".toList = .ok "a/.../b".toList := by
  have h : normalizeRelativePath "./a//.../b/./".toList = .ok "a/.../b".toList := by decide
  exact ⟨h, (normalizeRelativePath_normal_form.2.1 _ _ h).2.1⟩

end FusePromise
