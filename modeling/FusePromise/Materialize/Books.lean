import FusePromise.Materialize.Ledger

/-!
# Keeping the books through a run

The ledger speaks of a filesystem and of the chunks read from earlier copies; a run
goes through worlds.  `During` turns the one into an assertion about the other, and
the rules below say how the calls of the run act on such assertions.

A step of the run that fails leaves the books in order, and the cleanup that follows
rolls the run back.
-/

namespace FusePromise

open Machine Program Unix World

/-- Facts about the chunks read from earlier copies and the filesystem. -/
abbrev Facts := List CopiedChunk → FileSystem → Prop

/-- Facts that more copied chunks do not change. -/
def Growing (facts : Facts) : Prop :=
  ∀ copied later fs, copied <+: later → facts copied fs → facts later fs

theorem Growing.and {facts : Facts} (h : Growing facts) (also : FileSystem → Prop) :
    Growing fun copied fs => facts copied fs ∧ also fs :=
  fun _ _ _ hlater hfacts => ⟨h _ _ _ hlater hfacts.1, hfacts.2⟩

/-- The facts hold in a world of a run that began in another one. -/
def During (env : Environment) (first : World) (facts : Facts) (world : World) : Prop :=
  Unmarked env first world ∧ facts world.copied world.fs

theorem During.mono {env : Environment} {first world : World} {facts facts' : Facts}
    (h : During env first facts world)
    (himp : ∀ copied fs, facts copied fs → facts' copied fs) : During env first facts' world :=
  ⟨h.1, himp _ _ h.2⟩

theorem During.readOnly {env : Environment} {first world next : World} {facts : Facts}
    (hgrowing : Growing facts) (h : During env first facts world)
    (hkeeps : ReadOnly env world next) : During env first facts next := by
  refine ⟨IsTrans.trans _ _ _ h.1 hkeeps.toUnmarked, ?_⟩
  rw [hkeeps.fs]
  exact hgrowing _ _ _ hkeeps.copied h.2

namespace Daemon

variable {ε α : Type} {env : Environment} {first : World} {facts : Facts}

/-! ## Rules for the calls -/

theorem triple_nextTick {fail : ε → World → Prop} (hgrowing : Growing facts) :
    Triple (During env first facts) (nextTick : Daemon ε ℕ) (fun _ => During env first facts)
      fail :=
  fun world h => h.readOnly hgrowing (keeps_nextTick (ε := ε) world)

theorem triple_noteFailure {fail : ε → World → Prop} (hgrowing : Growing facts) :
    Triple (During env first facts) (noteFailure : Daemon ε Unit)
      (fun _ => During env first facts) fail :=
  fun world h => h.readOnly hgrowing (keeps_noteFailure (ε := ε) world)

theorem triple_call {op : ℤ → FileSystem → Except Unix.Errno (FileSystem × α)}
    {facts' : α → Facts} (hgrowing : Growing facts)
    (hop : ∀ {copied : List CopiedChunk} {fs next : FileSystem} {now : ℤ} {value : α},
      facts copied fs → op now fs = .ok (next, value) → facts' value copied next) :
    Triple (During env first facts) (call env op) (fun value => During env first (facts' value))
      fun errno => During env first fun copied fs => facts copied fs ∧
        (errno ≠ .noent ∨ ∃ now, op now fs = .error errno) := by
  refine (triple_nextTick hgrowing).bind fun tick => ?_
  split
  · rename_i errno hfault
    refine (triple_noteFailure hgrowing).bind fun _ => .throw fun world h => ?_
    exact h.mono fun _ _ hfacts => ⟨hfacts, Or.inl errno.property⟩
  · intro world h
    simp only [Bind.bind, Prog.get]
    cases hresult : op (env.now tick) world.fs with
    | error errno => exact ⟨h.1, h.2, Or.inr ⟨env.now tick, hresult⟩⟩
    | ok result =>
        obtain ⟨next, value⟩ := result
        exact ⟨IsTrans.trans _ _ _ h.1 (.of_eq rfl rfl rfl le_rfl le_rfl List.prefix_rfl rfl),
          hop h.2 hresult⟩

theorem triple_change {op : ℤ → FileSystem → Except Unix.Errno FileSystem} {facts' : Facts}
    (hgrowing : Growing facts)
    (hop : ∀ {copied : List CopiedChunk} {fs next : FileSystem} {now : ℤ},
      facts copied fs → op now fs = .ok next → facts' copied next) :
    Triple (During env first facts) (change env op) (fun _ => During env first facts')
      fun _ => During env first facts := by
  refine (triple_call hgrowing fun {copied fs next now value} hfacts hresult => ?_).conseq
    (fun _ h => h) (fun _ _ h => h) fun _ _ h => h.mono fun _ _ hfacts => hfacts.1
  obtain ⟨after, hafter, hresult⟩ := bind_eq_ok.mp hresult
  obtain ⟨rfl, -⟩ := Prod.mk.inj (Except.ok.inj hresult)
  exact hop hfacts hafter

theorem triple_inspect {op : FileSystem → Except Unix.Errno α} (hgrowing : Growing facts) :
    Triple (During env first facts) (inspect env op)
      (fun value => During env first fun copied fs => facts copied fs ∧ op fs = .ok value)
      fun errno => During env first fun copied fs => facts copied fs ∧
        (errno ≠ .noent ∨ op fs = .error errno) := by
  refine (triple_call hgrowing fun {copied fs next now value} hfacts hresult => ?_).conseq
    (fun _ h => h) (fun _ _ h => h) fun errno _ h => h.mono fun _ fs hfacts =>
      ⟨hfacts.1, hfacts.2.imp id ?_⟩
  · obtain ⟨found, hfound, hresult⟩ := bind_eq_ok.mp hresult
    obtain ⟨rfl, rfl⟩ := Prod.mk.inj (Except.ok.inj hresult)
    exact ⟨hfacts, hfound⟩
  · rintro ⟨now, hresult⟩
    cases hop : op fs with
    | error other => simpa [hop, bind, Except.bind] using hresult
    | ok value => simp [hop, bind, Except.bind, pure, Except.pure] at hresult

/-- What `existingTarget` has found. -/
def Found (entry : MaterializeEntryPlan) (conflictPolicy : MaterializeConflictPolicy)
    (existing : Option Object) (fs : FileSystem) : Prop :=
  match existing with
  | some object => fs.lstat entry.targetPath = .ok object ∧
      validateExistingMaterializeTarget entry object conflictPolicy = .ok ()
  | none => fs.lstat entry.targetPath = .error .noent

theorem triple_existingTarget {entry : MaterializeEntryPlan}
    {conflictPolicy : MaterializeConflictPolicy} (hgrowing : Growing facts) :
    Triple (During env first facts) (existingTarget env entry conflictPolicy)
      (fun existing => During env first fun copied fs =>
        facts copied fs ∧ Found entry conflictPolicy existing fs)
      fun _ => During env first facts := by
  refine Triple.bind (triple_inspect hgrowing).attempt fun result => ?_
  cases result with
  | ok object =>
      refine .ofExcept_bind (fun _ hvalid => ?_) fun _ _ world h =>
        h.mono fun _ _ hfacts => hfacts.1
      exact .pure fun world h => h.mono fun _ _ hfacts => ⟨hfacts.1, hfacts.2, hvalid⟩
  | error errno =>
      dsimp only
      split
      · rename_i hnoent
        refine .pure fun world h => h.mono fun _ _ hfacts => ⟨hfacts.1, ?_⟩
        subst hnoent
        exact hfacts.2.resolve_left (by simp)
      · exact .throw fun world h => h.mono fun _ _ hfacts => hfacts.1

end Daemon

/-! ## Rolling back -/

section

variable {first : World} {entries : List MaterializeEntryPlan}
  (layout : Layout first.fs.held entries) (trust : Trust) (safe : Prop)

/-- The books are in order; every object that was made was made for an entry. -/
def Booked (styled done : List MaterializeEntryPlan) (created : List CreatedTarget) : Facts :=
  fun copied fs => ∃ old stack, (∀ made ∈ stack, ∃ entry ∈ done, MadeFor layout entry made) ∧
    Ledger layout trust styled done copied created old stack fs

/-- The run can be rolled back: completely if it is safe to say that the way is open. -/
def Undoable (created : List CreatedTarget) : Facts :=
  fun copied fs => ∃ styled done old stack, styled ⊆ entries ∧ (safe → Accessible old stack) ∧
    Ledger layout trust styled done copied created old stack fs

/-- What was there before is there, and what was not is not.  What is not at the place of an
entry is the same, the date of the target directory apart. -/
def RolledBack : Facts :=
  fun copied fs => Remains layout trust copied fs ∧
    (safe → ∀ {loc : Loc}, first.fs.get loc = none → fs.get loc = none) ∧
    ∀ {loc : Loc}, loc ≠ layout.targetDir → (∀ entry ∈ entries, layout.loc entry ≠ loc) →
      first.fs.get loc ≠ none → fs.get loc = first.fs.get loc

variable {layout trust safe}

theorem growing_booked {styled done : List MaterializeEntryPlan} {created : List CreatedTarget} :
    Growing (Booked layout trust styled done created) := by
  rintro copied later fs hlater ⟨old, stack, hfor, hledger⟩
  exact ⟨old, stack, hfor, hledger.mono hlater⟩

/-- Before any mode has changed nothing can stand in the way. -/
theorem Ledger.undoable {done : List MaterializeEntryPlan} {created : List CreatedTarget}
    {copied : List CopiedChunk} {old : Holdings} {stack : List Made} {fs : FileSystem}
    (h : Ledger layout trust [] done copied created old stack fs) :
    Undoable layout trust safe created copied fs :=
  ⟨[], done, old, stack, by simp, fun _ => h.accessible, h⟩

theorem Booked.undoable {done : List MaterializeEntryPlan} {created : List CreatedTarget}
    {copied : List CopiedChunk} {fs : FileSystem}
    (h : Booked layout trust [] done created copied fs) :
    Undoable layout trust safe created copied fs := by
  obtain ⟨old, stack, -, hledger⟩ := h
  exact hledger.undoable

theorem Booked.undoable_of_letsIn {styled done : List MaterializeEntryPlan}
    {created : List CreatedTarget} {copied : List CopiedChunk} {fs : FileSystem}
    (h : Booked layout trust styled done created copied fs) (hdone : done ⊆ entries)
    (hsub : styled ⊆ entries) (hstyled : layout.Styled styled fs)
    (hlets : safe → layout.LetsIn styled) : Undoable layout trust safe created copied fs := by
  obtain ⟨old, stack, hfor, hledger⟩ := h
  refine ⟨styled, done, old, stack, hsub, fun hsafe => ?_, hledger⟩
  refine hledger.accessible_of_letsIn hsub hstyled (fun made hmade => ?_) (hlets hsafe)
  obtain ⟨entry, hentry, hmadeFor⟩ := hfor made hmade
  exact ⟨entry, hdone hentry, hmadeFor⟩

theorem Ledger.rolledBack {styled done : List MaterializeEntryPlan}
    {copied later : List CopiedChunk}
    {created : List CreatedTarget} {old : Holdings} {stack : List Made} {fs last : FileSystem}
    (h : Ledger layout trust styled done copied created old stack fs) (hstyled : styled ⊆ entries)
    (hlater : copied <+: later) (hundone : Undoing old last.held stack.reverse [])
    (huntouched : Untouched fs stack last) (haccess : safe → Accessible old stack) :
    RolledBack layout trust safe later last := by
  have hkept := h.kept.mono (List.Subset.refl _) hlater
  refine ⟨hkept.remains_of_undoing hstyled hundone, fun hsafe {loc} hnone => ?_,
    fun {loc} htop hentries hsome => ?_⟩
  · have hheld : last.held = old := hundone.finish fun made hmem =>
      haccess hsafe made (List.mem_reverse.mp hmem)
    rw [← FileSystem.held_eq_none] at hnone ⊢
    rw [hheld]
    exact h.kept.absent hnone
  · -- what was there is not an object of the stack, and the run has worked in no other directory
    have hold : ∀ made ∈ stack, made.loc ≠ loc := by
      rintro made hmade rfl
      obtain ⟨object, hobject⟩ := Option.ne_none_iff_exists'.mp hsome
      obtain ⟨found, hfound, -⟩ := h.kept.present (FileSystem.held_of_get hobject)
      rw [h.stands.stacked.old_eq_none hmade] at hfound
      simp at hfound
    rw [huntouched loc fun made hmade => ⟨(hold made hmade).symm, ?_⟩]
    · exact h.dates htop hentries hold
    · obtain ⟨entry, hmem, hdir⟩ := h.inside made hmade
      rw [hdir]
      exact layout.dir_ne hmem htop hentries

namespace Daemon

variable {ε α : Type} {env : Environment} {created : List CreatedTarget}

theorem triple_rollBack {fail : ε → World → Prop} :
    Triple (During env first (Undoable layout trust safe created))
      (cleanupCreatedTargets env created : Daemon ε Unit)
      (fun _ => During env first (RolledBack layout trust safe)) fail := by
  rintro world ⟨hfirst, styled, done, old, stack, hstyled, haccess, hledger⟩
  have hclean : Program.Outcome (fun _ last => Undoing old last.fs.held stack.reverse [] ∧
        Untouched world.fs stack last.fs)
      (fun _ _ => False) ((cleanupCreatedTargets env created : Daemon ε Unit) world) :=
    triple_cleanup hledger.records world.fs world ⟨hledger.stands, fun _ _ => rfl⟩
  have hkeeps := keeps_cleanupCreatedTargets (ε := ε) env created world
  generalize (cleanupCreatedTargets env created : Daemon ε Unit) world = result at hclean hkeeps
  obtain ⟨_ | _, last⟩ := result
  · exact hclean.elim
  · exact ⟨IsTrans.trans _ _ _ hfirst hkeeps,
      hledger.rolledBack hstyled hkeeps.copied hclean.1 hclean.2 haccess⟩

/-- A step that leaves something to undo when it fails is undone. -/
theorem triple_orCleanup {pre : World → Prop} {step : Reporting Status α}
    {post : α → World → Prop} {progress : MaterializeProgress}
    (h : Dialogue.Triple Refuses pre step post
      (fun _ => During env first (Undoable layout trust safe created))
      fun _ => During env first (Undoable layout trust safe created)) :
    Dialogue.Triple Refuses pre (orCleanup env created progress step) post
      (fun _ => During env first (RolledBack layout trust safe))
      fun _ => During env first (RolledBack layout trust safe) := by
  refine h.orElse (fun status => ?_) fun status => ?_ <;>
    exact triple_rollBack.bind fun _ => .throw fun _ hlast => hlast

theorem triple_report {facts : Facts} (hgrowing : Growing facts) (progress : MaterializeProgress) :
    Dialogue.Triple Refuses (During env first facts) (reportProgress progress)
      (fun _ => During env first facts) (fun _ => During env first facts)
      fun _ => During env first facts := by
  intro world hworld
  have hkeeps : Dialogue.Keeps Refuses (ReadOnly env) (reportProgress progress) :=
    keeps_reportProgress progress
  refine (hkeeps world).mono (fun result hresult => ?_) fun result hresult => ?_
  · exact hresult.mono (fun _ _ h => h) fun _ _ hkeeps => hworld.readOnly hgrowing hkeeps
  · exact hresult.mono (fun _ _ hkeeps => hworld.readOnly hgrowing hkeeps)
      fun _ _ hkeeps => hworld.readOnly hgrowing hkeeps

end Daemon

end

end FusePromise
