import Mathlib

/-!
# Transition systems

A system is a function `step` that takes a state and an action to the next
state, or to nothing when the action is not enabled.  A condition `ok` restricts
the actions of a run by the state they are taken in; `Reaches step ok s t` says
that some run of actions allowed by `ok` leads from `s` to `t`.
-/

namespace Transition

variable {σ α : Type*} {step : σ → α → Option σ} {ok ok' : σ → α → Prop} {s t u : σ}

/-- The run of a list of actions, each of them allowed and enabled. -/
def Run (step : σ → α → Option σ) (ok : σ → α → Prop) : σ → List α → σ → Prop
  | s, [], t => s = t
  | s, action :: rest, t =>
      ok s action ∧ ∃ u, step s action = some u ∧ Run step ok u rest t

/-- Some run leads from the one state to the other. -/
def Reaches (step : σ → α → Option σ) (ok : σ → α → Prop) (s t : σ) : Prop :=
  ∃ actions, Run step ok s actions t

/-- The condition that allows every action. -/
def always : σ → α → Prop := fun _ _ => True

theorem Reaches.refl (s : σ) : Reaches step ok s s :=
  ⟨[], rfl⟩

theorem Run.append {actions rest : List α} (h : Run step ok s actions t)
    (h' : Run step ok t rest u) : Run step ok s (actions ++ rest) u := by
  induction actions generalizing s with
  | nil =>
      obtain rfl : s = t := h
      exact h'
  | cons action actions ih =>
      obtain ⟨hok, middle, hstep, hrun⟩ := h
      exact ⟨hok, middle, hstep, ih hrun⟩

/-- A list of actions that can be executed is a run. -/
theorem Run.of_foldlM {actions : List α} (h : actions.foldlM step s = some t) :
    Run step always s actions t := by
  induction actions generalizing s with
  | nil => exact Option.some.inj h
  | cons action actions ih =>
      rw [List.foldlM_cons] at h
      obtain ⟨middle, hstep, hrest⟩ := Option.bind_eq_some_iff.mp h
      exact ⟨trivial, middle, hstep, ih hrest⟩

theorem Reaches.of_foldlM {actions : List α} (h : actions.foldlM step s = some t) :
    Reaches step always s t :=
  ⟨actions, .of_foldlM h⟩

theorem Reaches.trans (h : Reaches step ok s t) (h' : Reaches step ok t u) :
    Reaches step ok s u := by
  obtain ⟨actions, hrun⟩ := h
  obtain ⟨rest, hrest⟩ := h'
  exact ⟨actions ++ rest, hrun.append hrest⟩

/-- Running under a weaker condition. -/
theorem Run.mono (hle : ∀ s action, ok s action → ok' s action) {actions : List α}
    (h : Run step ok s actions t) : Run step ok' s actions t := by
  induction actions generalizing s with
  | nil => exact h
  | cons action actions ih =>
      obtain ⟨hok, middle, hstep, hrun⟩ := h
      exact ⟨hle _ _ hok, middle, hstep, ih hrun⟩

theorem Reaches.mono (hle : ∀ s action, ok s action → ok' s action) (h : Reaches step ok s t) :
    Reaches step ok' s t := by
  obtain ⟨actions, hrun⟩ := h
  exact ⟨actions, hrun.mono hle⟩

/-- The invariant rule: what every allowed step preserves holds in every state reached. -/
theorem Reaches.invariant (inv : σ → Prop)
    (hstep : ∀ {s action t}, inv s → ok s action → step s action = some t → inv t)
    (h : Reaches step ok s t) (hinit : inv s) : inv t := by
  obtain ⟨actions, hrun⟩ := h
  induction actions generalizing s with
  | nil =>
      obtain rfl : s = t := hrun
      exact hinit
  | cons action actions ih =>
      obtain ⟨hok, middle, hmiddle, hrun⟩ := hrun
      exact ih (hstep hinit hok hmiddle) hrun

/-! ## Every step of a run -/

/-- Every step of a list of actions is one that `P` allows. -/
def Along (step : σ → α → Option σ) (P : σ → α → σ → Prop) : σ → List α → Prop
  | _, [] => True
  | s, action :: rest => ∀ t, step s action = some t → P s action t ∧ Along step P t rest

variable {P : σ → α → σ → Prop}

theorem Run.along_append {actions rest : List α} (h : Run step ok s actions t) :
    Along step P s (actions ++ rest) ↔ Along step P s actions ∧ Along step P t rest := by
  induction actions generalizing s with
  | nil =>
      obtain rfl : s = t := h
      simp [Along]
  | cons action actions ih =>
      obtain ⟨-, middle, hstep, hrun⟩ := h
      simp only [List.cons_append, Along, hstep, Option.some.injEq, forall_eq', ih hrun, and_assoc]

/-- The invariant rule for the steps of a run. -/
theorem Run.along (inv : σ → Prop)
    (hstep : ∀ {s action t}, inv s → ok s action → step s action = some t → inv t ∧ P s action t)
    {actions : List α} (h : Run step ok s actions t) (hinit : inv s) :
    inv t ∧ Along step P s actions := by
  induction actions generalizing s with
  | nil =>
      obtain rfl : s = t := h
      exact ⟨hinit, trivial⟩
  | cons action actions ih =>
      obtain ⟨hok, middle, hmiddle, hrun⟩ := h
      obtain ⟨hnext, hP⟩ := hstep hinit hok hmiddle
      obtain ⟨hlast, hrest⟩ := ih hrun hnext
      refine ⟨hlast, fun u hu => ?_⟩
      obtain rfl := Option.some.inj (hmiddle.symm.trans hu)
      exact ⟨hP, hrest⟩

end Transition
