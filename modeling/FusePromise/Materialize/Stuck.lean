import FusePromise.Foundation.Questions
import FusePromise.Materialize.Loops

/-!
# A run that shuts itself out

The run gives the directories their modes when everything is made.  A directory that
was there before can be declared with a mode that closes the way to what the run has
made in it.  If the call that follows fails, the cleanup cannot get there.

Nothing else stands in the way of such a run: until then every directory is opened
and is the one on record.  So one failure at the right time is enough.
-/

namespace FusePromise

open Machine Program Unix World

section

variable {first : World} {entries styled done : List MaterializeEntryPlan}
  {layout : Layout first.fs.held entries} {trust : Trust} {created : List CreatedTarget}
  {copied : List CopiedChunk} {old : Holdings} {stack : List Made} {fs : FileSystem}
  {entry : MaterializeEntryPlan}

/-! ## Directories can be opened -/

/-- A new directory can be opened as long as neither it nor a directory above it has got its
declared mode. -/
theorem Ledger.openRead_made (h : Ledger layout trust styled done copied created old stack fs)
    (haccess : Accessible old stack) {made : Made} (hmade : made ∈ stack)
    (hdirectory : made.directory = true)
    (hunstyled : ∀ other ∈ styled, ¬ layout.loc other <:+ made.loc) :
    fs.openRead made.path = .ok made.loc := by
  have hfirst : ∀ {parent : Made}, parent ∈ stack → parent.directory = true →
      parent.loc <:+ made.loc → ∃ object, fs.held parent.loc = some object ∧
        object.body = .directory ∧ object.mode = 0o700 := by
    intro parent hparent hdir hway
    rcases h.modes hparent hdir with ⟨other, hother, hfor⟩ | ⟨object, hobject, hmode⟩
    · exact absurd (hfor.loc ▸ hway) (hunstyled other hother)
    · obtain ⟨found, hfound, -, hkind⟩ := h.stands.object hparent
      obtain rfl := Option.some.inj (hobject.symm.trans hfound)
      exact ⟨object, hobject, hkind.mp hdir, hmode⟩
  have henters : Enters (fs.view true) made.path made.dir made.name := by
    rw [← FileSystem.view_held]
    refine h.stands.stacked.enters_of_mem (h.stands.extends_old true) hmade
      (fun parent hparent hdir hway => ?_) fun other hother hdir => (haccess other hother hdir).1
    obtain ⟨object, hobject, hbody, hmode⟩ :=
      hfirst hparent hdir (hway.trans (List.suffix_cons _ _))
    exact Holdings.view_true_eq_directory.mpr ⟨object, hobject, hbody, by
      rw [Object.searchable, hmode]
      decide⟩
  obtain ⟨object, hobject, hbody, hmode⟩ := hfirst hmade hdirectory List.suffix_rfl
  obtain ⟨found, hfound, rfl⟩ := FileSystem.get_of_held hobject
  refine FileSystem.openRead_eq_ok_iff.mpr ⟨?_, found, hfound, ?_⟩
  · exact FileSystem.resolve_of_enters henters (FileSystem.isDirectory_iff.mpr
      ⟨found, hfound, hbody⟩)
  · rw [Object.readable, show found.mode = 0o700 from hmode]
    decide

/-- The record of a directory has its identity. -/
theorem Ledger.createdDirectory_eq
    (h : Ledger layout trust styled done copied created old stack fs)
    (hfor : ∀ made ∈ stack, ∃ entry ∈ done, MadeFor layout entry made)
    (hunique : ∀ other ∈ done,
      components other.targetPath = components entry.targetPath → other = entry)
    (hmem : entry ∈ done) (hkind : entry.kind = .directory) {object : Object}
    (hobject : fs.get (layout.loc entry) = some object) :
    ∃ target, Daemon.createdDirectory created entry = some target ∧
      object.identity = target.identity := by
  obtain ⟨target, htarget⟩ : ∃ target, Daemon.createdDirectory created entry = some target := by
    obtain ⟨listed, hlisted, hlistedKind, hpath⟩ := h.recorded.listed hmem hkind
    refine Option.isSome_iff_exists.mp (List.find?_isSome.mpr ⟨listed, hlisted, ?_⟩)
    simp [hlistedKind, hpath]
  refine ⟨target, htarget, ?_⟩
  have htargetMem := List.mem_of_find?_eq_some htarget
  obtain ⟨htargetKind, hpath⟩ : target.kind = .directory ∧
      components target.path = components entry.targetPath := by
    simpa using List.find?_some htarget
  have hheld := FileSystem.held_of_get hobject
  cases hremove : target.removeOnCleanup with
  | true =>
      -- it is the record of an object that was made for the entry
      have hin : target ∈ created.filter CreatedTarget.removeOnCleanup :=
        List.mem_filter.mpr ⟨htargetMem, hremove⟩
      rw [h.records, List.mem_reverse] at hin
      obtain ⟨made, hmade, rfl⟩ := List.mem_map.mp hin
      obtain ⟨other, hother, hotherFor⟩ := hfor made hmade
      obtain rfl := hunique other hother (by rw [← hotherFor.path]; exact hpath)
      obtain ⟨found, hfound, hidentity, -⟩ := h.stands.object hmade
      rw [hotherFor.loc, hheld] at hfound
      rw [← Option.some.inj hfound] at hidentity
      exact hidentity
  | false =>
      -- it is the record of a directory that was there, which has kept its identity
      obtain ⟨other, hother, hotherPath, found, hfound, hidentity⟩ :=
        h.recorded.reused htargetMem htargetKind hremove
      obtain rfl := hunique other hother (by rw [← hotherPath]; exact hpath)
      obtain ⟨later, hlater, hbecomes⟩ := h.kept.present hfound
      have hsame := hheld.symm.trans (h.stands.of_old hlater)
      rcases h.directories hmem hkind with ⟨dir, hdir, hbody⟩ | ⟨made, hmade, -, hmadeFor⟩
      · obtain rfl := Option.some.inj (hlater.symm.trans hdir)
        have hlaterIdentity : later.identity = found.identity := by
          cases hbecomes with
          | same => rfl
          | mode => rfl
          | content _ _ _ _ hfile => simp [hbody] at hfile
        rw [← hidentity, ← hlaterIdentity, ← Option.some.inj hsame]
        rfl
      · rw [← hmadeFor.loc, h.stands.stacked.old_eq_none hmade] at hlater
        simp at hlater

/-- A directory whose turn it is can be opened, and is the one on record. -/
theorem Dressing.opened (hsub : styled ⊆ entries)
    (hunique : ∀ other ∈ entries,
      components other.targetPath = components entry.targetPath → other = entry)
    (hmem : entry ∈ entries) (hkind : entry.kind = .directory)
    (hunstyled : ∀ other ∈ styled, ¬ layout.loc other <:+ layout.loc entry)
    (hlets : layout.LetsIn styled)
    (hopens : first.fs.get (layout.loc entry) ≠ none →
      (layout.withModes styled).openRead entry.targetPath = .ok (layout.loc entry))
    (h : Dressing layout trust styled created copied fs) :
    fs.openRead entry.targetPath = .ok (layout.loc entry) ∧
      ∃ target object, Daemon.createdDirectory created entry = some target ∧
        fs.get (layout.loc entry) = some object ∧ object.identity = target.identity := by
  obtain ⟨hisDir, -⟩ := h.enters hmem hkind
  obtain ⟨object, hobject, -⟩ := FileSystem.isDirectory_iff.mp hisDir
  have hopened := h.openRead_iff hsub hmem hkind
  have hstyled := h.hasModes
  obtain ⟨⟨old, stack, hfor, hledger⟩, -⟩ := h
  obtain ⟨target, htarget, hidentity⟩ := hledger.createdDirectory_eq hfor
    (fun other hother => hunique other (mem_done_iff.mp hother)) (mem_done_iff.mpr hmem) hkind
    hobject
  refine ⟨?_, target, object, htarget, hobject, hidentity⟩
  rcases hledger.directories (mem_done_iff.mpr hmem) hkind with
    ⟨later, hlater, -⟩ | ⟨made, hmade, hdirectory, hmadeFor⟩
  · -- it was there before
    have hold : first.fs.get (layout.loc entry) ≠ none := by
      obtain ⟨found, hfound, -⟩ := hledger.kept.origin hlater
      obtain ⟨start, hstart, -⟩ := FileSystem.get_of_held hfound
      rw [hstart]
      simp
    exact (hopened hold).mp (hopens hold)
  · have haccess : Accessible old stack := by
      refine hledger.accessible_of_letsIn hsub hstyled (fun made hmade => ?_) hlets
      obtain ⟨other, hother, hotherFor⟩ := hfor made hmade
      exact ⟨other, mem_done_iff.mp hother, hotherFor⟩
    rw [← hmadeFor.loc] at hunstyled ⊢
    rw [← hmadeFor.path]
    exact hledger.openRead_made haccess hmade hdirectory hunstyled

/-! ## What is left -/

/-- Everything is made, and the modes of some directories shut the run out. -/
def Stuck (layout : Layout first.fs.held entries) (trust : Trust) (created : List CreatedTarget) :
    Facts :=
  fun copied fs => ∃ styled, styled ⊆ entries ∧ layout.Styled styled fs ∧ ¬ layout.LetsIn styled ∧
    Booked layout trust styled
      (entries.filter (fun entry => entry.kind = .directory) ++
        entries.filter fun entry => entry.kind = .file) created copied fs

/-- Something that was made lies in an old directory that does not let the run in. -/
theorem Stuck.exists_made (h : Stuck layout trust created copied fs) :
    ∃ old stack made, Stands old fs.held stack ∧ Records created stack ∧ made ∈ stack ∧
      first.fs.get made.loc = none ∧ old.IsDirectory made.dir ∧
      ¬ (Enters (old.view true) made.path made.dir made.name ∧ old.Writable made.dir) := by
  obtain ⟨styled, hsub, hstyled, hnot, old, stack, hfor, hledger⟩ := h
  simp only [Layout.LetsIn, Unix.LetsIn, not_forall] at hnot
  obtain ⟨entry, hmem, dir, name, hplace, hfree, hdir, -, -, hshut⟩ := hnot
  obtain ⟨rfl, rfl⟩ := List.cons.inj hplace
  have hdone := mem_done_iff.mpr hmem
  have hold : old (layout.loc entry) = none :=
    hledger.kept.absent (FileSystem.held_eq_none.mpr hfree)
  -- the run is past its loops, so there is an object for every entry
  have hthere : fs.held (layout.loc entry) ≠ none := by
    cases hkind : entry.kind with
    | file =>
        obtain ⟨object, hwritten⟩ := hledger.files hdone hkind
        rw [FileSystem.held_of_get hwritten.get]
        simp
    | directory =>
        rcases hledger.directories hdone hkind with
          ⟨object, hobject, -⟩ | ⟨made, hmade, -, hmadeFor⟩
        · simp [hold] at hobject
        · obtain ⟨object, hobject, -⟩ := hledger.stands.object hmade
          rw [← hmadeFor.loc, hobject]
          simp
  -- it was not there before, so it is on the stack
  obtain ⟨made, hmade, hloc⟩ : ∃ made ∈ stack, made.loc = layout.loc entry := by
    by_contra hnone
    push Not at hnone
    exact hthere ((hledger.stands.other hnone).trans hold)
  obtain ⟨other, hother, hmadeFor⟩ := hfor made hmade
  obtain rfl := layout.eq_of_loc_eq (mem_done_iff.mp hother) hmem (hmadeFor.loc.symm.trans hloc)
  have hstartDir : first.fs.held.IsDirectory (layout.dir other) :=
    FileSystem.isDirectory_held.mpr hdir
  refine ⟨old, stack, made, hledger.stands, hledger.records, hmade, hloc ▸ hfree, ?_, ?_⟩
  · rw [hmadeFor.dir]
    exact hledger.kept.isDirectory_iff.mpr hstartDir
  · rw [hmadeFor.path, hmadeFor.dir, hmadeFor.name, ← hledger.view_withModes hsub hstyled,
      ← hledger.writable_withModes hsub hstyled hstartDir]
    exact hshut

namespace Daemon

variable {ε α : Type} {env : Environment} {world : World}

/-- What the run is shut out from is left by the cleanup. -/
theorem cleanup_of_stuck (h : Stuck layout trust created world.copied world.fs) :
    ∃ last, (cleanupCreatedTargets env created : Daemon ε Unit) world = (.ok (), last) ∧
      ∃ loc, first.fs.get loc = none ∧ last.fs.get loc ≠ none := by
  obtain ⟨old, stack, made, hstands, hrecords, hmade, hfree, hdir, hshut⟩ := h.exists_made
  have hclean : Program.Outcome (fun _ last => Undoing old last.fs.held stack.reverse [] ∧
        Untouched world.fs stack last.fs)
      (fun _ _ => False) ((cleanupCreatedTargets env created : Daemon ε Unit) world) :=
    triple_cleanup hrecords world.fs world ⟨hstands, fun _ _ => rfl⟩
  generalize (cleanupCreatedTargets env created : Daemon ε Unit) world = result at hclean
  obtain ⟨_ | _, last⟩ := result
  · exact hclean.elim
  · refine ⟨last, rfl, made.loc, hfree, fun hnone => ?_⟩
    exact hclean.1.left (by simpa using hmade) hdir hshut (FileSystem.held_eq_none.mpr hnone)

/-! ## Calls that do not fail -/

theorem call_of_quiet {op : ℤ → FileSystem → Except Unix.Errno (FileSystem × α)}
    {next : FileSystem} {value : α} (hquiet : env.fault world.tick = none)
    (hop : op (env.now world.tick) world.fs = .ok (next, value)) :
    call env op world = (.ok value, { world with tick := world.tick + 1, fs := next }) := by
  simp only [call, Bind.bind, nextTick, hquiet, Prog.get, hop]
  rfl

theorem inspect_of_quiet {op : FileSystem → Except Unix.Errno α} {value : α}
    (hquiet : env.fault world.tick = none) (hop : op world.fs = .ok value) :
    inspect env op world = (.ok value, { world with tick := world.tick + 1 }) :=
  call_of_quiet hquiet (by rw [hop]; rfl)

/-- The mode is set, and the date is next. -/
theorem applyEntryMetadata_eq {object : Object} {target : CreatedTarget}
    (hquiet : ∀ tick, world.tick ≤ tick → tick < world.tick + 3 → env.fault tick = none)
    (hopen : world.fs.openRead entry.targetPath = .ok (layout.loc entry))
    (htarget : createdDirectory created entry = some target)
    (hobject : world.fs.get (layout.loc entry) = some object)
    (hidentity : object.identity = target.identity) :
    applyEntryMetadata env created entry world =
      applyMtime env (layout.loc entry) entry.mtimeNsec
        { world with
          tick := world.tick + 3
          fs := world.fs.chmodAt (layout.loc entry) (entry.mode &&& 0o7777) } := by
  unfold applyEntryMetadata
  rw [htarget]
  refine (Prog.bind_ok (Prog.mapError_eq_ok.mpr (inspect_of_quiet (hquiet _ le_rfl (by omega))
    hopen))).trans ?_
  refine (Prog.bind_ok (Prog.mapError_eq_ok.mpr (inspect_of_quiet
    (hquiet (world.tick + 1) (by omega) (by omega)) (FileSystem.found_eq_ok.mpr hobject)))).trans ?_
  rw [if_neg (not_not.mpr hidentity)]
  exact Prog.bind_ok (Prog.mapError_eq_ok.mpr (call_of_quiet
    (hquiet (world.tick + 2) (by omega) (by omega)) rfl))

theorem applyMtime_of_quiet {loc : Loc} {mtimeNsec : ℤ} (hquiet : env.fault world.tick = none)
    (hmtime : 0 ≤ mtimeNsec) :
    applyMtime env loc mtimeNsec world =
      (.ok (), { world with tick := world.tick + 1, fs := world.fs.touch loc mtimeNsec }) := by
  have htimespec : timespec (mtimeNsec.tdiv 1000000000) (mtimeNsec.tmod 1000000000) =
      .ok mtimeNsec := by
    unfold timespec
    rw [if_pos ⟨Int.tmod_nonneg _ hmtime, Int.tmod_lt_of_pos _ (by decide)⟩,
      Int.tdiv_mul_add_tmod]
  refine Prog.mapError_eq_ok.mpr (call_of_quiet hquiet ?_)
  simp only [FileSystem.futimens, htimespec]
  rfl

theorem applyMtime_of_fault {loc : Loc} {mtimeNsec : ℤ}
    {errno : { errno : Unix.Errno // errno ≠ .noent }}
    (hfault : env.fault world.tick = some errno) :
    applyMtime env loc mtimeNsec world = (.error (errnoToStatus errno.val),
      { world with tick := world.tick + 1, failures := world.failures + 1 }) := by
  simp only [applyMtime, Prog.mapError, Prog.orElse, change, call, Bind.bind, nextTick, hfault]
  rfl

/-! ## The pass over the directories -/

/-- If the modes shut the run out at some time, a failure right then leaves it stuck. -/
theorem exists_stuck (rest styled : List MaterializeEntryPlan)
    (hunique : (entries.map fun entry => components entry.targetPath).Nodup)
    (hmtime : ∀ entry ∈ entries, 0 ≤ entry.mtimeNsec)
    (hrest : ∀ entry ∈ rest, entry ∈ entries ∧ entry.kind = .directory) (hsub : styled ⊆ entries)
    (hordered : (rest.reverse ++ styled).Pairwise fun entry later =>
      layout.loc entry ≠ layout.loc later ∧ ¬ layout.loc later <:+ layout.dir entry)
    (hlets : layout.LetsIn styled) (hshut : ¬ layout.StaysAccessible styled rest) :
    ∃ delay, ∀ (env : Environment) (world : World)
        (errno : { errno : Unix.Errno // errno ≠ .noent }),
      (∀ tick, world.tick ≤ tick →
        env.fault tick = if tick = world.tick + delay then some errno else none) →
      Dressing layout trust styled created world.copied world.fs →
      ∃ status last, forEach (applyEntryMetadata env created) rest world = (.error status, last) ∧
        Stuck layout trust created last.copied last.fs := by
  induction rest generalizing styled with
  | nil => exact absurd trivial hshut
  | cons entry rest ih =>
      obtain ⟨hmem, hkind⟩ := hrest entry List.mem_cons_self
      obtain ⟨hopens, hnot⟩ := Classical.not_imp.mp hshut
      rw [List.reverse_cons, List.append_assoc, List.singleton_append] at hordered
      have hlater := (List.pairwise_cons.mp (List.pairwise_append.mp hordered).2.1).1
      have hunstyled : ∀ other ∈ styled, ¬ layout.loc other <:+ layout.loc entry := by
        intro other hother hway
        rcases List.suffix_cons_iff.mp hway with hsame | hway
        · exact (hlater other hother).1 hsame.symm
        · exact (hlater other hother).2 hway
      have hnew : entry ∉ styled := fun hin => (hlater entry hin).1 rfl
      have hopened := fun {world : World}
          (hdressing : Dressing layout trust styled created world.copied world.fs) =>
        Dressing.opened hsub (fun other hother heq => List.inj_on_of_nodup_map hunique hother hmem
          heq) hmem hkind hunstyled hlets hopens hdressing
      by_cases hnext : layout.LetsIn (entry :: styled)
      · -- this mode does no harm: the pass goes on after four calls
        obtain ⟨delay, hdelay⟩ := ih (entry :: styled)
          (fun other hother => hrest other (List.mem_cons_of_mem _ hother))
          (List.cons_subset.mpr ⟨hmem, hsub⟩) hordered hnext fun hstays => hnot ⟨hnext, hstays⟩
        refine ⟨delay + 4, fun env world errno hfault hdressing => ?_⟩
        obtain ⟨hopen, target, object, htarget, hobject, hidentity⟩ := hopened hdressing
        have hquiet : ∀ tick, world.tick ≤ tick → tick < world.tick + 4 →
            env.fault tick = none := by
          intro tick hle hlt
          rw [hfault tick hle, if_neg (by omega)]
        have hstep := applyEntryMetadata_eq (fun tick hle hlt => hquiet tick hle (by omega)) hopen
          htarget hobject hidentity
        rw [applyMtime_of_quiet (hquiet _ (by simp) (by simp)) (hmtime entry hmem)] at hstep
        have hdressed := Styling.touch hmem hsub hnew
          (Dressing.chmod hmem hkind hsub hnew hdressing)
        have hfaults : ∀ tick, world.tick + 4 ≤ tick →
            env.fault tick = if tick = world.tick + 4 + delay then some errno else none := by
          intro tick hle
          rw [hfault tick (by omega)]
          exact if_congr (by omega) rfl rfl
        obtain ⟨status, last, hrun, hstuck⟩ := hdelay env
          { world with
            tick := world.tick + 4
            fs := (world.fs.chmodAt (layout.loc entry) (entry.mode &&& 0o7777)).touch
              (layout.loc entry) entry.mtimeNsec } errno hfaults hdressed
        exact ⟨status, last, (Prog.bind_ok hstep).trans hrun, hstuck⟩
      · -- this mode shuts the run out, and the date of the directory is not set
        refine ⟨3, fun env world errno hfault hdressing => ?_⟩
        obtain ⟨hopen, target, object, htarget, hobject, hidentity⟩ := hopened hdressing
        have hstep := applyEntryMetadata_eq (fun tick hle hlt => by
          rw [hfault tick hle, if_neg (by omega)]) hopen htarget hobject hidentity
        rw [applyMtime_of_fault ((hfault (world.tick + 3) (by omega)).trans (if_pos rfl))] at hstep
        have hstyling := Dressing.chmod hmem hkind hsub hnew hdressing
        refine ⟨_, _, Prog.bind_error hstep, entry :: styled, List.cons_subset.mpr ⟨hmem, hsub⟩, ?_,
          hnext, hstyling.1⟩
        exact Styling.hasModes hstyling

/-- A run that is stuck fails and leaves something. -/
theorem path_dressTargets_of_stuck {plan : MaterializePlan} {middle : World} {status : Status}
    {made : MaterializeProgress × List CreatedTarget}
    (hrun : forEach (applyEntryMetadata env made.2)
      (plan.entries.filter fun entry => entry.kind = .directory).reverse world =
        (.error status, middle))
    (hstuck : Stuck layout trust made.2 middle.copied middle.fs) :
    ∃ error last, (dressTargets env plan made world).Path [] (.error error, last) ∧
      ∃ loc, first.fs.get loc = none ∧ last.fs.get loc ≠ none := by
  obtain ⟨last, hclean, hleft⟩ := cleanup_of_stuck hstuck
  refine ⟨⟨status, some made.1⟩, last, ?_, hleft⟩
  have hfails : (orCleanup env made.2 made.1 (Dialogue.lift (forEach
      (applyEntryMetadata env made.2)
      (plan.entries.filter fun entry => entry.kind = .directory).reverse)) world).Path []
        (.error ⟨status, some made.1⟩, last) := by
    simp only [orCleanup, Dialogue.orElse, Dialogue.lift, hrun, Tree.bind]
    rw [Prog.bind_ok hclean]
    exact .done _
  exact Tree.path_bind.mpr ⟨[], [], _, rfl, hfails, .done _⟩

end Daemon

end

end FusePromise
