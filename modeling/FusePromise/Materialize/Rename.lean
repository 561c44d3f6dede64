import FusePromise.Materialize.Failures

/-!
# The policy `Rename`

Under `Rename` the root of a copy gets the first of 1024 names that is not taken:
the name itself and then the name with a mark.  The names are told apart by their
marks, whatever the name looks like, and the extension of a file stays where it is.

So a run under `Rename` has nothing to overwrite, and its root was not there before.
Requests for the same source into the same directory get a root each.
-/

namespace FusePromise

open Machine Program Unix World

/-! ## A single component -/

/-- A text that is one normal component of a path. -/
theorem components_eq_normal {name : Text} :
    components name = [.normal name] ↔ Plain name ∧ '/' ∉ name := by
  constructor
  · intro h
    obtain ⟨hmem, hne, hdot, hdots⟩ := mem_segments_of_normal (h ▸ List.mem_singleton_self _)
    exact ⟨⟨hne, hdot, hdots⟩, (mem_segments hmem).1⟩
  · rintro ⟨⟨hne, hdot, hdots⟩, hslash⟩
    have hsegments : segments name = [name] := List.splitOn_eq_singleton hslash
    have habsolute : isAbsolute name = false := isAbsolute_of_not_mem hslash
    simp [components, hsegments, habsolute, segmentComponent, hne, hdot, hdots]

/-- A component joined to a path comes behind the components of the path. -/
theorem components_pathJoin_component (base : Text) {name : Text}
    (hname : components name = [.normal name]) :
    components (pathJoin base name) = components base ++ [.normal name] := by
  obtain ⟨⟨hne, hdot, hdots⟩, hslash⟩ := components_eq_normal.mp hname
  have hself : segments name = [name] := List.splitOn_eq_singleton hslash
  have hcomponent : segmentComponent name = some (.normal name) := by
    simp [segmentComponent, hne, hdot, hdots]
  rw [pathJoin, if_neg (by simp [isAbsolute_of_not_mem hslash])]
  by_cases hnil : base = []
  · subst hnil
    have hnone : components [] = [] := by decide
    rw [if_pos (Or.inl rfl), hnone, List.nil_append, List.nil_append, hname]
  -- a separator at the end of the base is not doubled
  by_cases hend : base.getLast? = some '/'
  · obtain ⟨init, rfl⟩ : ∃ init, base = init ++ ['/'] :=
      ⟨_, (List.dropLast_append_getLast? _ hend).symm⟩
    have hbase : segments (init ++ ['/']) = segments init ++ [[]] := by
      simpa [segments] using segments_append init []
    rw [if_pos (Or.inr hend), List.append_assoc, List.singleton_append]
    have hsame : isAbsolute (init ++ '/' :: name) = isAbsolute (init ++ ['/']) := by
      cases init <;> simp [isAbsolute]
    have hhead : (segments init ++ [name]).head? = (segments init ++ [[]]).head? := by
      obtain ⟨first, rest, hfirst⟩ := List.exists_cons_of_ne_nil (List.splitOn_ne_nil '/' init)
      simp [segments, hfirst]
    simp only [components, segments_append, hself, hbase, hsame, hhead, List.filterMap_append,
      List.filterMap_cons_some hcomponent, List.filterMap_nil]
    have hempty : [([] : Text)].filterMap segmentComponent = [] := by simp [segmentComponent]
    rw [hempty, List.append_nil]
    split
    · simp
    · split <;> simp
  · rw [if_neg (by simp [hnil, hend])]
    have hsame : isAbsolute (base ++ '/' :: name) = isAbsolute base := by
      cases base with
      | nil => exact absurd rfl hnil
      | cons => simp [isAbsolute]
    have hhead : (segments base ++ [name]).head? = (segments base).head? := by
      obtain ⟨first, rest, hfirst⟩ := List.exists_cons_of_ne_nil (List.splitOn_ne_nil '/' base)
      simp [segments, hfirst]
    simp only [components, segments_append, hself, hsame, hhead, List.filterMap_append,
      List.filterMap_cons_some hcomponent, List.filterMap_nil]
    split
    · simp
    · split <;> simp

/-! ## The candidates -/

/-- The name that is tried in an attempt. -/
def candidateName (targetName : Text) (targetKind : NodeKind) (attempt : ℕ) : Text :=
  if attempt = 0 then targetName else renameCandidateName targetName targetKind attempt

theorem attemptMark_injective {first second : ℕ} (h : attemptMark first = attemptMark second) :
    first = second :=
  Runtime.toDigits_injective (List.append_cancel_left (List.append_cancel_right h))

/-- A mark is put into the name at one place. -/
theorem exists_around (targetName : Text) (targetKind : NodeKind) :
    ∃ before after, targetName = before ++ after ∧ ∀ attempt,
      renameCandidateName targetName targetKind attempt =
        before ++ attemptMark attempt ++ after := by
  by_cases hkind : targetKind = .directory
  · exact ⟨targetName, [], by simp, fun attempt => by simp [renameCandidateName, hkind]⟩
  cases hsplit : splitExtension targetName with
  | none =>
      exact ⟨targetName, [], by simp, fun attempt => by simp [renameCandidateName, hkind, hsplit]⟩
  | some parts =>
      obtain ⟨stem, extension⟩ := parts
      exact ⟨stem, '.' :: extension, splitExtension_eq_some hsplit,
        fun attempt => by simp [renameCandidateName, hkind, hsplit]⟩

theorem candidateName_injective (targetName : Text) (targetKind : NodeKind) {first second : ℕ}
    (h : candidateName targetName targetKind first = candidateName targetName targetKind second) :
    first = second := by
  obtain ⟨before, after, hname, hmarked⟩ := exists_around targetName targetKind
  have hlonger : ∀ attempt, targetName ≠ renameCandidateName targetName targetKind attempt := by
    intro attempt heq
    have hlength := congrArg List.length heq
    rw [hmarked, hname] at hlength
    simp [attemptMark] at hlength
    omega
  unfold candidateName at h
  split at h <;> split at h
  · omega
  · exact absurd h (hlonger _)
  · exact absurd h.symm (hlonger _)
  · rw [hmarked, hmarked] at h
    exact attemptMark_injective (List.append_cancel_left (List.append_cancel_right h))

theorem plain_of_length {name : Text} (h : 2 < name.length) : Plain name := by
  refine ⟨?_, ?_, ?_⟩ <;> rintro rfl <;> simp at h

theorem components_candidateName {targetName : Text}
    (hname : components targetName = [.normal targetName]) (targetKind : NodeKind) (attempt : ℕ) :
    components (candidateName targetName targetKind attempt) =
      [.normal (candidateName targetName targetKind attempt)] := by
  unfold candidateName
  split
  · exact hname
  obtain ⟨before, after, rfl, hmarked⟩ := exists_around targetName targetKind
  rw [hmarked, components_eq_normal]
  obtain ⟨-, hslash⟩ := components_eq_normal.mp hname
  have hdigits : '/' ∉ Nat.toDigits 10 attempt := by
    intro hmem
    have hdigit := Nat.isDigit_of_mem_toDigits (by decide) (by decide) hmem
    exact absurd hdigit (by decide)
  refine ⟨plain_of_length ?_, ?_⟩
  · simp [attemptMark]
    omega
  · simp only [List.mem_append, not_or] at hslash
    simp [attemptMark, hslash, hdigits]

/-- A name with something before and behind a dot has the rest as its extension. -/
theorem splitExtension_append {stem extension : Text} (hstem : stem ≠ [])
    (hextension : '.' ∉ extension) (hdots : stem ++ '.' :: extension ≠ ['.', '.']) :
    splitExtension (stem ++ '.' :: extension) = some (stem, extension) := by
  have hparts : (stem ++ '.' :: extension).splitOn '.' = stem.splitOn '.' ++ [extension] := by
    rw [List.splitOn_append_cons_self, List.splitOn_eq_singleton hextension]
  obtain ⟨last, before, hlast⟩ : ∃ last before, (stem.splitOn '.').reverse = last :: before :=
    List.exists_cons_of_ne_nil (by simp [List.splitOn_ne_nil])
  have hjoin : ['.'].intercalate (last :: before).reverse = stem := by
    rw [← hlast, List.reverse_reverse, List.intercalate_splitOn]
  simp only [splitExtension, hdots, if_false, hparts, List.reverse_append, List.reverse_singleton,
    List.singleton_append, hlast, hjoin, hstem]

theorem not_mem_extension {name stem extension : Text}
    (h : splitExtension name = some (stem, extension)) : '.' ∉ extension := by
  unfold splitExtension at h
  split at h
  · simp at h
  split at h
  · rename_i part last before hparts
    dsimp only at h
    split at h
    · simp at h
    · obtain ⟨-, rfl⟩ := Prod.mk.inj (Option.some.inj h)
      have hmem : part ∈ (name.splitOn '.').reverse := hparts ▸ List.mem_cons_self
      exact (mem_splitOn (List.mem_reverse.mp hmem)).1
  · simp at h

/-- A marked file keeps its extension. -/
theorem splitExtension_candidateName {targetName stem extension : Text}
    (h : splitExtension targetName = some (stem, extension)) (attempt : ℕ) :
    ∃ stem', splitExtension (candidateName targetName .file attempt) = some (stem', extension) := by
  unfold candidateName
  split
  · exact ⟨stem, h⟩
  refine ⟨stem ++ attemptMark attempt, ?_⟩
  simp only [renameCandidateName, h]
  refine splitExtension_append ?_ (not_mem_extension h) ?_
  · simp [attemptMark]
  · intro heq
    have hlength := congrArg List.length heq
    simp [attemptMark] at hlength
    omega

/-! ## The first name that is not taken -/

namespace Daemon

variable {env : Environment} {targetDir targetName : Text} {targetKind : NodeKind}

theorem symlinkMetadata_of_quiet {world : World} (h : env.fault world.tick = none) (path : Text) :
    symlinkMetadata env path world =
      (world.fs.lstat path, { world with tick := world.tick + 1 }) := by
  simp only [symlinkMetadata, inspect, call, nextTick, Bind.bind, h, Prog.get]
  cases world.fs.lstat path <;> rfl

theorem attempt_symlinkMetadata_of_quiet {world : World} (h : env.fault world.tick = none)
    (path : Text) : ((symlinkMetadata env path).attempt : Daemon Status _) world =
      (.ok (world.fs.lstat path), { world with tick := world.tick + 1 }) := by
  rw [Prog.attempt, symlinkMetadata_of_quiet h]

/-- The loop goes on when the name is taken. -/
theorem uniqueFrom_taken {left attempt : ℕ} {world : World} (hquiet : env.fault world.tick = none)
    {object : Object} (h : world.fs.lstat
      (pathJoin targetDir (candidateName targetName targetKind attempt)) = .ok object) :
    uniqueFrom env targetDir targetName targetKind (left + 1) attempt world =
      uniqueFrom env targetDir targetName targetKind left (attempt + 1)
        { world with tick := world.tick + 1 } := by
  refine (Prog.bind_ok (attempt_symlinkMetadata_of_quiet hquiet _)).trans ?_
  rw [candidateName] at h
  simp only [h]

theorem uniqueFrom_free {left attempt : ℕ} {world : World} (hquiet : env.fault world.tick = none)
    (h : world.fs.lstat
      (pathJoin targetDir (candidateName targetName targetKind attempt)) = .error .noent) :
    uniqueFrom env targetDir targetName targetKind (left + 1) attempt world =
      (.ok (pathJoin targetDir (candidateName targetName targetKind attempt)),
        { world with tick := world.tick + 1 }) := by
  refine (Prog.bind_ok (attempt_symlinkMetadata_of_quiet hquiet _)).trans ?_
  rw [candidateName] at h
  simp only [h]
  rfl

/-- What the loop returns from an attempt on, when `stat` says no more than whether something
is there. -/
theorem uniqueFrom_first (left attempt : ℕ) {world : World}
    (hquiet : ∀ i < left, env.fault (world.tick + i) = none)
    (hstat : ∀ i < attempt + left, ∀ errno, world.fs.lstat
      (pathJoin targetDir (candidateName targetName targetKind i)) = .error errno →
        errno = .noent) :
    match (uniqueFrom env targetDir targetName targetKind left attempt world).1 with
    | .ok path => ∃ i, attempt ≤ i ∧ i < attempt + left ∧
        path = pathJoin targetDir (candidateName targetName targetKind i) ∧
        world.fs.lstat path = .error .noent ∧ ∀ j, attempt ≤ j → j < i → ∃ object,
          world.fs.lstat (pathJoin targetDir (candidateName targetName targetKind j)) = .ok object
    | .error status => status = .alreadyExists ∧ ∀ j, attempt ≤ j → j < attempt + left →
        ∃ object, world.fs.lstat
          (pathJoin targetDir (candidateName targetName targetKind j)) = .ok object := by
  induction left generalizing attempt world with
  | zero => exact ⟨rfl, fun j hlow hhigh => by omega⟩
  | succ left ih =>
      cases hlstat : world.fs.lstat
          (pathJoin targetDir (candidateName targetName targetKind attempt)) with
      | error errno =>
          obtain rfl := hstat attempt (by omega) errno hlstat
          rw [uniqueFrom_free (hquiet 0 (by omega)) hlstat]
          exact ⟨attempt, le_rfl, by omega, rfl, hlstat, fun j hlow hhigh => by omega⟩
      | ok object =>
          rw [uniqueFrom_taken (hquiet 0 (by omega)) hlstat]
          have hrest := @ih (attempt + 1) { world with tick := world.tick + 1 }
            (fun i hi => by
              have := hquiet (i + 1) (by omega)
              rwa [← Nat.add_assoc, Nat.add_right_comm] at this)
            fun i hi errno => hstat i (by omega) errno
          dsimp only at hrest ⊢
          -- this attempt is taken, and so are the later ones before the free one
          have hfrom : ∀ {high : ℕ}, (∀ j, attempt + 1 ≤ j → j < high → ∃ object, world.fs.lstat
                (pathJoin targetDir (candidateName targetName targetKind j)) = .ok object) →
              ∀ j, attempt ≤ j → j < high → ∃ object, world.fs.lstat
                (pathJoin targetDir (candidateName targetName targetKind j)) = .ok object := by
            intro high htaken j hlow hhigh
            rcases hlow.eq_or_lt with rfl | hlow
            · exact ⟨object, hlstat⟩
            · exact htaken j hlow hhigh
          split at hrest
          · obtain ⟨i, hlow, hhigh, hpath, hfree, htaken⟩ := hrest
            exact ⟨i, by omega, by omega, hpath, hfree, hfrom htaken⟩
          · exact ⟨hrest.1, hfrom fun j hlow hhigh => hrest.2 j hlow (by omega)⟩

end Daemon

/-! ## One request after the other -/

namespace Daemon

open Unix.FileSystem

/-- A run under `Rename` leaves everything that was there.  The root of its copy was not there,
and is there when the run has succeeded. -/
theorem rename_lasts {env : Environment} {request : MaterializeBody} {world last : World}
    (hwf : world.runtime.WellFormed) (hpolicy : request.conflictPolicy = .rename)
    {reports : List MaterializeProgress}
    {result : Except MaterializeOperationError MaterializeProgress}
    (hrun : (materializeNodeInState env request world).Path reports (result, last)) :
    last.runtime.WellFormed ∧ Lasts world.fs last.fs ∧
      ∀ plan first, planRequest env request world = (.ok plan, first) →
        ¬ world.fs.Taken plan.targetPath ∧
        ∀ progress, result = .ok progress → last.fs.Taken plan.targetPath := by
  have hoverwrite : request.conflictPolicy ≠ .overwrite := by simp [hpolicy]
  rcases materializeNodeInState_cases hwf hrun with
    ⟨⟨status, rfl⟩, hkeeps⟩ |
    ⟨plan, first, tree, names, rootName, nodes, targetDir, layout, hplan, hbegun, htop, hloc, hpath⟩
  · refine ⟨?_, ?_, fun plan first hplan => ?_⟩
    · obtain ⟨ops, -, hruntime⟩ := hkeeps.runtime
      exact hruntime ▸ hwf.run ops
    · rw [hkeeps.fs]
      exact .refl _
    · obtain ⟨tree, names, rootName, nodes, targetDir, hbegun⟩ := planRequest_begun hwf hplan
      exact ⟨hbegun.not_taken hoverwrite, fun progress hresult => by simp at hresult⟩
  · have houtcome := hbegun.outcome_anyBytes layout hpath
    have hfree := hbegun.free_entries hoverwrite hloc
    -- the plan of a request is unique
    have hsame : ∀ {plan' first'}, planRequest env request world = (.ok plan', first') →
        plan' = plan := by
      intro plan' first' hplan'
      exact Except.ok.inj (Prod.mk.inj (hplan'.symm.trans hplan)).1
    rw [← hbegun.fs]
    cases result with
    | error error =>
        have hrolled : During env first (RolledBack layout anyBytes _) last := houtcome
        refine ⟨hrolled.wellFormed hbegun.wellFormed, hrolled.2.lasts_of_free hfree,
          fun plan' first' hplan' => ⟨?_, fun progress hresult => by simp at hresult⟩⟩
        rw [hsame hplan', hbegun.fs]
        exact hbegun.not_taken hoverwrite
    | ok progress =>
        have hfinished : Finished env layout anyBytes plan.promiseId last := houtcome
        refine ⟨hfinished.wellFormed hbegun.wellFormed, hfinished.lasts_of_free hfree,
          fun plan' first' hplan' => ⟨?_, fun _ _ => ?_⟩⟩
        · rw [hsame hplan', hbegun.fs]
          exact hbegun.not_taken hoverwrite
        · obtain ⟨entry, hmem, hroot⟩ := hbegun.root_entry
          rw [hsame hplan', ← hroot]
          exact hfinished.taken hmem

/-- Requests for one source and one directory under `Rename`, one after the other; each run has
its own environment and its own answers from the client.  The list has the roots of the copies
that were made. -/
inductive Repeated (sourcePath targetDir : Text) : World → List Text → World → Prop
  | nil (world : World) : Repeated sourcePath targetDir world [] world
  | failed {world next last : World} {roots : List Text} {env : Environment}
      {reports : List MaterializeProgress} {error : MaterializeOperationError}
      (hrun : (materializeNodeInState env ⟨sourcePath, targetDir, .rename⟩ world).Path reports
        (.error error, next))
      (hrest : Repeated sourcePath targetDir next roots last) :
      Repeated sourcePath targetDir world roots last
  | copied {world first next last : World} {roots : List Text} {env : Environment}
      {reports : List MaterializeProgress} {progress : MaterializeProgress} {plan : MaterializePlan}
      (hplan : planRequest env ⟨sourcePath, targetDir, .rename⟩ world = (.ok plan, first))
      (hrun : (materializeNodeInState env ⟨sourcePath, targetDir, .rename⟩ world).Path reports
        (.ok progress, next))
      (hrest : Repeated sourcePath targetDir next roots last) :
      Repeated sourcePath targetDir world (plan.targetPath :: roots) last

/-- The roots are different ones, none of them was there at the start, and everything that was
there is still there. -/
theorem Repeated.spec {sourcePath targetDir : Text} {world last : World} {roots : List Text}
    (h : Repeated sourcePath targetDir world roots last) (hwf : world.runtime.WellFormed) :
    roots.Nodup ∧ (∀ root ∈ roots, ¬ world.fs.Taken root) ∧ Lasts world.fs last.fs := by
  induction h with
  | nil world => exact ⟨List.nodup_nil, by simp, .refl _⟩
  | failed hrun _ ih =>
      obtain ⟨hnext, hlasts, -⟩ := rename_lasts hwf rfl hrun
      obtain ⟨hnodup, hfree, hrest⟩ := ih hnext
      exact ⟨hnodup, fun root hroot htaken => hfree root hroot (htaken.mono hlasts),
        hlasts.trans hrest⟩
  | copied hplan hrun _ ih =>
      obtain ⟨hnext, hlasts, hroot⟩ := rename_lasts hwf rfl hrun
      obtain ⟨hbefore, hafter⟩ := hroot _ _ hplan
      obtain ⟨hnodup, hfree, hrest⟩ := ih hnext
      refine ⟨List.nodup_cons.mpr ⟨fun hmem => hfree _ hmem (hafter _ rfl), hnodup⟩, ?_,
        hlasts.trans hrest⟩
      exact List.forall_mem_cons.mpr
        ⟨hbefore, fun root hroot htaken => hfree root hroot (htaken.mono hlasts)⟩

/-- The names that are tried are different names of entries of the target directory, and the
first that is free is taken.  So requests for one source and one directory get different roots,
and leave everything that was there. -/
theorem uniqueMaterializeTargetPath_spec {targetName : Text}
    (hname : components targetName = [.normal targetName]) (targetKind : NodeKind) :
    (∀ first second, candidateName targetName targetKind first =
      candidateName targetName targetKind second → first = second) ∧
    (∀ attempt targetDir,
      components (candidateName targetName targetKind attempt) =
        [.normal (candidateName targetName targetKind attempt)] ∧
      components (pathJoin targetDir (candidateName targetName targetKind attempt)) =
        components targetDir ++ [.normal (candidateName targetName targetKind attempt)]) ∧
    (targetKind = .file → ∀ stem extension, splitExtension targetName = some (stem, extension) →
      ∀ attempt, ∃ stem', splitExtension (candidateName targetName targetKind attempt) =
        some (stem', extension)) ∧
    (∀ env targetDir world, (∀ i < 1024, env.fault (world.tick + i) = none) →
      (∀ i < 1024, ∀ errno, world.fs.lstat
        (pathJoin targetDir (candidateName targetName targetKind i)) = .error errno →
          errno = .noent) →
      match (uniqueMaterializeTargetPath env targetDir targetName targetKind world).1 with
      | .ok path => ∃ i < 1024, path = pathJoin targetDir (candidateName targetName targetKind i) ∧
          world.fs.lstat path = .error .noent ∧ ∀ j < i, ∃ object,
            world.fs.lstat (pathJoin targetDir (candidateName targetName targetKind j)) = .ok object
      | .error status => status = .alreadyExists ∧ ∀ j < 1024, ∃ object,
          world.fs.lstat (pathJoin targetDir (candidateName targetName targetKind j)) =
            .ok object) ∧
    ∀ calls sourcePath targetDir world roots last,
      world.runtime = Runtime.new.performAll calls →
      Repeated sourcePath targetDir world roots last →
      roots.Nodup ∧ (∀ root ∈ roots, ¬ world.fs.Taken root) ∧ Lasts world.fs last.fs := by
  refine ⟨fun first second => candidateName_injective targetName targetKind,
    fun attempt targetDir => ?_, ?_, fun env targetDir world hquiet hstat => ?_,
    fun calls sourcePath targetDir world roots last hruntime hrepeated => ?_⟩
  · have hcandidate := components_candidateName hname targetKind attempt
    exact ⟨hcandidate, components_pathJoin_component targetDir hcandidate⟩
  · rintro rfl stem extension hsplit attempt
    exact splitExtension_candidateName hsplit attempt
  · have hfirst := uniqueFrom_first 1024 0 hquiet (by simpa using hstat)
    unfold uniqueMaterializeTargetPath
    split at hfirst
    · obtain ⟨i, -, hi, hpath, hfree, htaken⟩ := hfirst
      exact ⟨i, by omega, hpath, hfree, fun j hj => htaken j (Nat.zero_le j) hj⟩
    · exact ⟨hfirst.1, fun j hj => hfirst.2 j (Nat.zero_le j) (by omega)⟩
  · exact hrepeated.spec (hruntime ▸ (Runtime.reachable_spec calls).1)

/-- A copy to a path that is known. -/
theorem Repeated.copied_to {sourcePath targetDir path : Text} {world last : World}
    {env : Environment}
    {roots : List Text} {reports : List MaterializeProgress}
    {final : Except MaterializeOperationError MaterializeProgress × World}
    (hplan : (planRequest env ⟨sourcePath, targetDir, .rename⟩ world).1.toOption.map
      MaterializePlan.targetPath = some path)
    (hrun : (materializeNodeInState env ⟨sourcePath, targetDir, .rename⟩ world).Path reports final)
    (hok : final.1.isOk = true) (hrest : Repeated sourcePath targetDir final.2 roots last) :
    Repeated sourcePath targetDir world (path :: roots) last := by
  obtain ⟨plan, hsome, rfl⟩ := Option.map_eq_some_iff.mp hplan
  rcases hplanned : planRequest env ⟨sourcePath, targetDir, .rename⟩ world with
    ⟨status | found, first⟩
  · rw [hplanned] at hsome
    cases hsome
  · rw [hplanned] at hsome
    obtain rfl := Option.some.inj hsome
    obtain ⟨error | progress, next⟩ := final
    · cases hok
    · exact .copied hplanned hrun hrest

/-- The directory is copied twice. -/
theorem uniqueMaterializeTargetPath_spec_twice :
    components "d".toList = [.normal "d".toList] ∧
    ∃ last, Repeated "/m/promise-1/d".toList "/".toList (.promisedDirectory 0o755 .empty)
        ["/d".toList, "/d (1)".toList] last ∧
      Lasts FileSystem.empty last.fs := by
  have hname : components "d".toList = [.normal "d".toList] := by decide
  obtain ⟨reports, next, hpath, hok, hplan, hnextPlan, hnextOk⟩ : ∃ reports final,
      (materializeNodeInState .undisturbed ⟨"/m/promise-1/d".toList, "/".toList, .rename⟩
        (.promisedDirectory 0o755 .empty)).Path reports final ∧ final.1.isOk = true ∧
      (planRequest .undisturbed ⟨"/m/promise-1/d".toList, "/".toList, .rename⟩
        (.promisedDirectory 0o755 .empty)).1.toOption.map MaterializePlan.targetPath =
          some "/d".toList ∧
      (planRequest .undisturbed ⟨"/m/promise-1/d".toList, "/".toList, .rename⟩
        final.2).1.toOption.map MaterializePlan.targetPath = some "/d (1)".toList ∧
      ((materializeNodeInState .undisturbed ⟨"/m/promise-1/d".toList, "/".toList, .rename⟩
        final.2).answered (.ok (some .materializeContinue))).2.1.isOk = true :=
    ⟨_, _, Tree.path_answered (.ok (some .materializeContinue)) _, by decide +kernel,
      by decide +kernel, by decide +kernel, by decide +kernel⟩
  have hrepeated : Repeated "/m/promise-1/d".toList "/".toList (.promisedDirectory 0o755 .empty)
      ["/d".toList, "/d (1)".toList] _ :=
    .copied_to hplan hpath hok
      (.copied_to hnextPlan (Tree.path_answered _ _) hnextOk (.nil _))
  exact ⟨hname, _, hrepeated, ((uniqueMaterializeTargetPath_spec hname .directory).2.2.2.2
    (promiseDirectory 0o755) _ _ _ _ _ rfl hrepeated).2.2⟩

end Daemon

end FusePromise
