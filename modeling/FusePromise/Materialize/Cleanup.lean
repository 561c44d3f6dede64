import FusePromise.Materialize.Frame
import FusePromise.Unix.Made

/-!
# The cleanup

`cleanup_created_targets` undoes a stack of made objects.  The list of created
targets also has those that were there before; the others are the stack, with the
first object made first.
-/

namespace FusePromise

open Machine Program Unix

/-- The record a run keeps of an object it has made. -/
def createdTarget (made : Made) : CreatedTarget where
  path := made.path
  identity := made.identity
  kind := if made.directory then .directory else .file
  removeOnCleanup := true

/-- The targets that are to be removed are the objects of the stack. -/
def Records (created : List CreatedTarget) (stack : List Made) : Prop :=
  created.filter CreatedTarget.removeOnCleanup = (stack.map createdTarget).reverse

theorem Records.push {created : List CreatedTarget} {stack : List Made}
    (h : Records created stack) (made : Made) :
    Records (created ++ [createdTarget made]) (made :: stack) := by
  unfold Records at h ⊢
  rw [List.filter_append, h, List.map_cons, List.reverse_cons]
  rfl

/-- A target that was there before is not removed. -/
theorem Records.reuse {created : List CreatedTarget} {stack : List Made}
    (h : Records created stack) {target : CreatedTarget}
    (htarget : target.removeOnCleanup = false) :
    Records (created ++ [target]) stack := by
  unfold Records at h ⊢
  rw [List.filter_append, h, List.filter_cons_of_neg (by simp [htarget]), List.filter_nil,
    List.append_nil]

theorem Records.directories {created : List CreatedTarget} {stack : List Made}
    (h : Records created stack) :
    (created.filter fun target => target.kind = .directory ∧ target.removeOnCleanup) =
      (stack.reverse.filter Made.directory).map createdTarget := by
  have hfilter : (created.filter fun target => target.kind = .directory ∧ target.removeOnCleanup) =
      (created.filter CreatedTarget.removeOnCleanup).filter fun target =>
        target.kind = .directory := by
    rw [List.filter_filter]
    refine List.filter_congr fun target _ => ?_
    simp
  rw [hfilter, h, ← List.map_reverse, List.filter_map]
  congr 1
  refine List.filter_congr fun made _ => ?_
  cases hdir : made.directory <;> simp [createdTarget, hdir]

theorem Records.removed {created : List CreatedTarget} {stack : List Made}
    (h : Records created stack) :
    created.reverse.filter CreatedTarget.removeOnCleanup = stack.map createdTarget := by
  rw [List.filter_reverse, h, List.reverse_reverse]

/-- Away from the objects of a stack and the directories they lie in nothing has changed. -/
def Untouched (start : FileSystem) (stack : List Made) (fs : FileSystem) : Prop :=
  ∀ loc, (∀ made ∈ stack, loc ≠ made.loc ∧ loc ≠ made.dir) → fs.get loc = start.get loc

theorem Untouched.step {start fs next : FileSystem} {stack : List Made} {made : Made}
    (h : Untouched start stack fs) (hmem : made ∈ stack)
    (hnext : ∀ loc, loc ≠ made.loc → loc ≠ made.dir → next.get loc = fs.get loc) :
    Untouched start stack next := by
  intro loc hloc
  rw [hnext loc (hloc made hmem).1 (hloc made hmem).2, h loc hloc]

namespace Daemon

variable {ε β : Type} {env : Environment} {old : Holdings} {fail : ε → World → Prop}

theorem triple_lstatQuietly (path : Text) (pre : World → Prop) :
    Triple pre (lstatQuietly path : Daemon ε (Option Object))
      (fun metadata world => pre world ∧ metadata = (world.fs.lstat path).toOption) fail := by
  intro world hpre
  simp only [lstatQuietly, Bind.bind, Prog.get]
  cases hlstat : world.fs.lstat path with
  | ok metadata => exact ⟨hpre, by rw [hlstat]; rfl⟩
  | error errno => exact ⟨hpre, by rw [hlstat]; rfl⟩

theorem triple_quietly {op : ℤ → FileSystem → Except Unix.Errno FileSystem}
    (post : FileSystem → Prop) :
    Triple (fun world => ∀ now, post ((op now world.fs).toOption.getD world.fs))
      (quietly env op : Daemon ε Unit) (fun _ world => post world.fs) fail := by
  intro world h
  have hnow := h (env.now world.tick)
  simp only [quietly, nextTick, Bind.bind, Prog.modify]
  show post _
  cases hop : op (env.now world.tick) world.fs with
  | ok next => simpa [hop, Except.toOption] using hnow
  | error errno => simpa [hop, Except.toOption] using hnow

/-- A step of the cleanup is done to the filesystem if the object is still the same. -/
theorem triple_ifSameTarget {op : ℤ → FileSystem → Except Unix.Errno FileSystem}
    (made : Made) (post : FileSystem → Prop) :
    Triple (fun world => ∀ now, post (world.fs.ifSame made (op now)))
      (ifSameTarget (createdTarget made) (quietly env op) : Daemon ε Unit)
      (fun _ world => post world.fs) fail := by
  refine (triple_lstatQuietly made.path _).bind fun metadata => ?_
  -- where `ifSame` does nothing the filesystem is as it was
  have hsame : ∀ {world : World}, (∀ now, post (world.fs.ifSame made (op now))) →
      (∀ now, world.fs.ifSame made (op now) = world.fs) → post world.fs :=
    fun h heq => heq 0 ▸ h 0
  cases metadata with
  | none =>
      refine .pure ?_
      rintro world ⟨h, hnone⟩
      refine hsame h fun now => ?_
      unfold FileSystem.ifSame
      cases hlstat : world.fs.lstat made.path with
      | ok object => simp [hlstat, Except.toOption] at hnone
      | error errno => rfl
  | some object =>
      have hlstat : ∀ {world : World}, some object = (world.fs.lstat made.path).toOption →
          world.fs.lstat made.path = .ok object := by
        intro world hsome
        cases hlstat : world.fs.lstat made.path <;> simp_all [Except.toOption]
      dsimp only
      split
      · rename_i hid
        refine (triple_quietly post).conseq ?_ (fun _ _ h => h) fun _ _ h => h
        rintro world ⟨h, hsome⟩ now
        have hnow := h now
        simp only [FileSystem.ifSame, hlstat hsome,
          show object.identity = made.identity from hid, if_true] at hnow
        cases hop : op now world.fs with
        | ok next => simpa [hop, Except.toOption] using hnow
        | error errno => simpa [hop, Except.toOption] using hnow
      · rename_i hid
        refine .pure ?_
        rintro world ⟨h, hsome⟩
        refine hsame h fun now => ?_
        simp only [FileSystem.ifSame, hlstat hsome,
          show object.identity ≠ made.identity from hid, if_false]

theorem forEach_append (action : β → Daemon ε Unit) (items more : List β) :
    forEach action (items ++ more) = (do forEach action items; forEach action more) := by
  induction items with
  | nil => rfl
  | cons item rest ih =>
      funext world
      simp only [List.cons_append, forEach, ih, Bind.bind]
      cases action item world with
      | mk result last => cases result <;> rfl

/-- The directories are opened from the bottom of the stack up. -/
theorem triple_restore (start : FileSystem) (above below : List Made) :
    Triple (fun world => Stands old world.fs.held (above ++ below) ∧
        Untouched start (above ++ below) world.fs)
      (forEach (restoreCreatedDirectoryPermissions env)
        ((below.reverse.filter Made.directory).map createdTarget) : Daemon ε Unit)
      (fun _ world => (Stands old world.fs.held (above ++ below) ∧
          Untouched start (above ++ below) world.fs) ∧
        (Accessible old below → ∀ made ∈ below, made.directory = true →
          world.fs.held.Opened made.loc)) fail := by
  induction below generalizing above with
  | nil => exact .pure fun world h => ⟨h, by simp⟩
  | cons made below ih =>
      have hbelow := ih (above ++ [made])
      -- what is below comes first, so the directory of `made` is open when its turn comes
      simp only [List.append_assoc, List.singleton_append] at hbelow
      rw [List.reverse_cons, List.filter_append, List.map_append, forEach_append]
      refine Triple.bind hbelow fun _ => ?_
      by_cases hdir : made.directory = true
      swap
      · rw [List.filter_cons_of_neg hdir]
        refine .pure fun world h => ⟨h.1, fun haccess other hother hotherDir => ?_⟩
        rcases List.mem_cons.mp hother with rfl | hother
        · exact absurd hotherDir hdir
        · exact h.2 (fun made hmem => haccess made (List.mem_cons_of_mem _ hmem)) other hother
            hotherDir
      rw [List.filter_cons_of_pos hdir, List.filter_nil, List.map_singleton]
      refine ((triple_ifSameTarget made fun fs =>
        (Stands old fs.held (above ++ made :: below) ∧
          Untouched start (above ++ made :: below) fs) ∧
        (Accessible old (made :: below) → ∀ other ∈ made :: below, other.directory = true →
          fs.held.Opened other.loc)).conseq ?_ (fun _ _ h => h) fun _ _ h => h).bind
        fun _ => .pure fun _ h => h
      rintro world ⟨⟨hstands, huntouched⟩, hopened⟩ now
      have hmem : made ∈ above ++ made :: below := by simp
      obtain ⟨hstill, hopen, hmore, hget⟩ := hstands.reopen hmem hdir
      refine ⟨⟨hstill, huntouched.step hmem hget⟩, fun haccess other hother hotherDir => ?_⟩
      have hrest : Accessible old below := fun other hother =>
        haccess other (List.mem_cons_of_mem _ hother)
      rcases List.mem_cons.mp hother with rfl | hother
      · apply hopen
        have hstacked : Stacked old (other :: below) := hstands.stacked.of_append
        have henters := hstacked.enters (hstands.extends_old true)
          (fun parent hparent hparentDir => (hopened hrest parent hparent hparentDir).view)
          fun made hmade hisDir => (haccess made hmade hisDir).1
        simpa only [FileSystem.view_held] using henters
      · exact hmore _ (hopened hrest other hother hotherDir)

/-- The objects are removed from the top of the stack down. -/
theorem triple_remove {start : FileSystem} {stack : List Made} (gone rest : List Made)
    (hsub : rest ⊆ stack) :
    Triple (fun world => Undoing old world.fs.held gone rest ∧ Untouched start stack world.fs)
      (forEach (removeCreatedTarget env) (rest.map createdTarget) : Daemon ε Unit)
      (fun _ world => Undoing old world.fs.held (rest.reverse ++ gone) [] ∧
        Untouched start stack world.fs) fail := by
  induction rest generalizing gone with
  | nil => exact .pure fun world h => h
  | cons made rest ih =>
      have hmem : made ∈ stack := hsub List.mem_cons_self
      have hrest := ih (made :: gone) fun other hother => hsub (List.mem_cons_of_mem _ hother)
      rw [List.reverse_cons, List.append_assoc, List.singleton_append]
      refine Triple.bind ?_ fun _ => hrest
      have hremove : (removeCreatedTarget env (createdTarget made) : Daemon ε Unit) =
          ifSameTarget (createdTarget made)
            (quietly env fun now fs => fs.remove made.directory made.path now) := by
        unfold removeCreatedTarget
        cases hdir : made.directory <;> simp [createdTarget, hdir, FileSystem.remove]
      rw [hremove]
      refine (triple_ifSameTarget made fun fs =>
        Undoing old fs.held (made :: gone) rest ∧ Untouched start stack fs).conseq
        (fun world h now => ⟨h.1.step, h.2.step hmem fun loc hloc hdir => ?_⟩)
        (fun _ _ h => h) fun _ _ h => h
      rcases h.1.remove_cases with heq | ⟨hchanges, -⟩
      · exact congrArg (FileSystem.get · loc) heq
      · exact hchanges.get hloc hdir

/-- The cleanup takes the whole stack away, as far as the old directories allow. -/
theorem triple_cleanup {created : List CreatedTarget} {stack : List Made}
    (hcreated : Records created stack) (start : FileSystem) :
    Triple (fun world => Stands old world.fs.held stack ∧ Untouched start stack world.fs)
      (cleanupCreatedTargets env created : Daemon ε Unit)
      (fun _ world => Undoing old world.fs.held stack.reverse [] ∧ Untouched start stack world.fs)
      fail := by
  unfold cleanupCreatedTargets
  rw [hcreated.directories, hcreated.removed]
  refine Triple.bind (triple_restore start [] stack) fun _ => ?_
  refine (triple_remove [] stack (List.Subset.refl _)).conseq
    (fun world h => ⟨.start h.1.1 h.2, h.1.2⟩) (fun _ world h => ?_) fun _ _ h => h
  rwa [List.append_nil] at h

end Daemon

end FusePromise
