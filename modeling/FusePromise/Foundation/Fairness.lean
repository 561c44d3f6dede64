import FusePromise.Foundation.Transition

/-!
# Fair runs

A trace is a run without end.  It is fair to a thread, given by its actions, when
the thread does not stay able to act for ever without acting.  `leadsTo_of_rank`
is the rule for what must happen on a fair trace: in every state that is not yet
where it should be some thread helps, and every step of it lowers a rank that
the other threads do not raise.
-/

namespace Transition

variable {σ α ι W : Type*} {step : σ → α → Option σ} {ok : σ → α → Prop}

/-- An infinite run. -/
structure Trace (step : σ → α → Option σ) (ok : σ → α → Prop) where
  state : ℕ → σ
  action : ℕ → α
  allowed : ∀ n, ok (state n) (action n)
  next : ∀ n, step (state n) (action n) = some (state (n + 1))

/-- One of the actions can be taken. -/
def Enabled (step : σ → α → Option σ) (ok : σ → α → Prop) (own : α → Prop) (s : σ) : Prop :=
  ∃ action, own action ∧ ok s action ∧ (step s action).isSome

namespace Trace

variable (trace : Trace step ok)

theorem reaches (n : ℕ) : Reaches step ok (trace.state 0) (trace.state n) := by
  induction n with
  | zero => exact .refl _
  | succ n ih => exact ih.trans ⟨[trace.action n], trace.allowed n, _, trace.next n, rfl⟩

/-- What a thread can do from some time on, it does. -/
def Fair (own : α → Prop) : Prop :=
  ∀ n, (∀ m ≥ n, Enabled step ok own (trace.state m)) → ∃ m ≥ n, own (trace.action m)

/-- Whenever `P` holds, `Q` holds then or later. -/
def LeadsTo (P Q : σ → Prop) : Prop :=
  ∀ n, P (trace.state n) → ∃ m ≥ n, Q (trace.state m)

variable {trace} {P Q : σ → Prop}

/-- The rule of helpful threads: `help` names a thread that can act, `rank` falls when it does,
and until then the rank falls or both stay. -/
theorem leadsTo_of_rank [Preorder W] [WellFoundedLT W] (own : ι → α → Prop) (rank : σ → W)
    (help : σ → ι) (hfair : ∀ i, trace.Fair (own i))
    (henabled : ∀ {s}, P s → Enabled step ok (own (help s)) s)
    (hstep : ∀ {s action t}, P s → ok s action → step s action = some t →
      Q t ∨ P t ∧ (rank t < rank s ∨
        rank t = rank s ∧ help t = help s ∧ ¬ own (help s) action)) :
    trace.LeadsTo P Q := by
  intro n hP
  generalize hrank : rank (trace.state n) = r
  induction r using WellFoundedLT.induction generalizing n with
  | ind r ih =>
      by_contra hnever
      have hlower : ∀ m ≥ n, P (trace.state m) → ¬ rank (trace.state m) < r := by
        intro m hm hPm hlt
        obtain ⟨j, hj, hQ⟩ := ih _ hlt m hPm rfl
        exact hnever ⟨j, hm.trans hj, hQ⟩
      -- as long as the rank stays, so does the thread that helps
      have hstay : ∀ m ≥ n, P (trace.state m) ∧ rank (trace.state m) = r ∧
          help (trace.state m) = help (trace.state n) := by
        intro m hm
        induction m, hm using Nat.le_induction with
        | base => exact ⟨hP, hrank, rfl⟩
        | succ m hm ihm =>
            obtain ⟨hPm, hrankm, hhelpm⟩ := ihm
            rcases hstep hPm (trace.allowed m) (trace.next m) with
              hQ | ⟨hPnext, hlt | ⟨hsame, hhelp, -⟩⟩
            · exact absurd ⟨m + 1, Nat.le_succ_of_le hm, hQ⟩ hnever
            · exact absurd (hrankm ▸ hlt) (hlower (m + 1) (Nat.le_succ_of_le hm) hPnext)
            · exact ⟨hPnext, hsame.trans hrankm, hhelp.trans hhelpm⟩
      obtain ⟨m, hm, hown⟩ := hfair (help (trace.state n)) n fun m hm => by
        obtain ⟨hPm, -, hhelpm⟩ := hstay m hm
        exact hhelpm ▸ henabled hPm
      obtain ⟨hPm, hrankm, hhelpm⟩ := hstay m hm
      rcases hstep hPm (trace.allowed m) (trace.next m) with hQ | ⟨hPnext, hlt | ⟨-, -, hnot⟩⟩
      · exact hnever ⟨m + 1, Nat.le_succ_of_le hm, hQ⟩
      · exact hlower (m + 1) (Nat.le_succ_of_le hm) hPnext (hrankm ▸ hlt)
      · exact hnot (hhelpm ▸ hown)

end Trace

/-! ## Runs that come to rest -/

variable {s t : σ}

/-- A run that leads to the start of a trace comes before it. -/
theorem Trace.exists_of_run {actions : List α} (h : Run step ok s actions t)
    (trace : Trace step ok) (hstart : trace.state 0 = t) : ∃ whole : Trace step ok,
      whole.state 0 = s ∧ ∀ n, whole.state (actions.length + n) = trace.state n := by
  induction actions generalizing s with
  | nil =>
      obtain rfl : s = t := h
      exact ⟨trace, hstart, fun n => by simp⟩
  | cons action actions ih =>
      obtain ⟨hok, middle, hstep, hrun⟩ := h
      obtain ⟨later, hlater, hsame⟩ := ih hrun
      refine ⟨⟨fun n => Nat.casesOn n s later.state, fun n => Nat.casesOn n action later.action,
        ?_, ?_⟩, rfl, ?_⟩
      · rintro (_ | n)
        · exact hok
        · exact later.allowed n
      · rintro (_ | n)
        · exact hstep.trans (congrArg some hlater.symm)
        · exact later.next n
      · intro n
        rw [List.length_cons, Nat.succ_add]
        exact hsame n

/-- The trace of an action that changes nothing. -/
def Trace.idle {action : α} (hok : ok t action) (hrest : step t action = some t) :
    Trace step ok :=
  ⟨fun _ => t, fun _ => action, fun _ => hok, fun _ => hrest⟩

/-- A trace is fair to a thread that cannot act where it comes to rest. -/
theorem Trace.fair_of_rest {trace : Trace step ok} {own : α → Prop} (length : ℕ)
    (hend : ∀ n, trace.state (length + n) = t) (hstuck : ¬ Enabled step ok own t) :
    trace.Fair own := by
  intro n henabled
  refine absurd ?_ hstuck
  rw [← hend n]
  exact henabled _ (Nat.le_add_left n length)

end Transition
