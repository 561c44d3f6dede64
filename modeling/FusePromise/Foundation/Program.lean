import Mathlib

/-!
# Programs with a state and an error

`Prog σ ε α` is a computation over a state `σ` that returns a value or fails, and
keeps the state it has reached when it fails.  `Triple pre prog post fail` says
what it does from a state with `pre`: a value comes with `post`, an error with
`fail`.  `Keeps R prog` says that the state it leaves is related to the one it
found, whatever it returns.
-/

namespace Program

/-- A computation over `σ` that returns a value or an error with its last state. -/
def Prog (σ ε α : Type) : Type :=
  σ → Except ε α × σ

variable {σ ε ε' α β : Type}

namespace Prog

instance : Monad (Prog σ ε) where
  pure a := fun s => (.ok a, s)
  bind prog next := fun s =>
    match prog s with
    | (.ok a, t) => next a t
    | (.error e, t) => (.error e, t)

/-- Fail, without touching the state. -/
def fail (e : ε) : Prog σ ε α :=
  fun s => (.error e, s)

def get : Prog σ ε σ :=
  fun s => (.ok s, s)

def set (s : σ) : Prog σ ε Unit :=
  fun _ => (.ok (), s)

def modify (f : σ → σ) : Prog σ ε Unit :=
  fun s => (.ok (), f s)

/-- A value or an error that was computed without the state. -/
def ofExcept : Except ε α → Prog σ ε α
  | .ok a => pure a
  | .error e => fail e

/-- Run a program and go on with its outcome, whatever it is. -/
def attempt (prog : Prog σ ε α) : Prog σ ε' (Except ε α) :=
  fun s => (.ok (prog s).1, (prog s).2)

/-- On an error, go on with the handler from the state the error left. -/
def orElse (prog : Prog σ ε α) (handler : ε → Prog σ ε' α) : Prog σ ε' α :=
  fun s =>
    match prog s with
    | (.ok a, t) => (.ok a, t)
    | (.error e, t) => handler e t

def mapError (f : ε → ε') (prog : Prog σ ε α) : Prog σ ε' α :=
  prog.orElse fun e => fail (f e)

theorem bind_ok {prog : Prog σ ε α} {next : α → Prog σ ε β} {s t : σ} {a : α}
    (h : prog s = (.ok a, t)) : (prog >>= next) s = next a t := by
  simp only [Bind.bind, h]

theorem bind_error {prog : Prog σ ε α} {next : α → Prog σ ε β} {s t : σ} {e : ε}
    (h : prog s = (.error e, t)) : (prog >>= next) s = (.error e, t) := by
  simp only [Bind.bind, h]

/-- A sequence succeeds when both of its parts do. -/
theorem bind_eq_ok {prog : Prog σ ε α} {next : α → Prog σ ε β} {s t : σ} {b : β} :
    (prog >>= next) s = (.ok b, t) ↔
      ∃ a u, prog s = (.ok a, u) ∧ next a u = (.ok b, t) := by
  constructor
  · intro h
    rcases hprog : prog s with ⟨_ | a, u⟩
    · simp [bind_error hprog] at h
    · rw [bind_ok hprog] at h
      exact ⟨a, u, rfl, h⟩
  · rintro ⟨a, u, hprog, h⟩
    rw [bind_ok hprog, h]

theorem eq_ok_of_fst {prog : Prog σ ε α} {s : σ} {a : α} (h : (prog s).1 = .ok a) :
    prog s = (.ok a, (prog s).2) :=
  Prod.ext h rfl

theorem pure_eq_ok {a b : α} {s t : σ} :
    (pure a : Prog σ ε α) s = (.ok b, t) ↔ a = b ∧ s = t := by
  simp [pure]

theorem ofExcept_bind_eq_ok {result : Except ε α} {next : α → Prog σ ε β} {s t : σ} {b : β} :
    (ofExcept result >>= next) s = (.ok b, t) ↔
      ∃ a, result = .ok a ∧ next a s = (.ok b, t) := by
  cases result with
  | ok a => simp [Bind.bind, ofExcept, pure]
  | error e => simp [Bind.bind, ofExcept, fail]

theorem mapError_eq_ok {prog : Prog σ ε α} {f : ε → ε'} {s t : σ} {a : α} :
    prog.mapError f s = (.ok a, t) ↔ prog s = (.ok a, t) := by
  unfold mapError orElse
  rcases prog s with ⟨_ | _, _⟩ <;> simp [fail]

/-- A program that fails in the end fails. -/
theorem bind_fail (prog : Prog σ ε α) (e : ε) (s : σ) :
    ∃ e' t, (prog >>= fun _ => (fail e : Prog σ ε β)) s = (.error e', t) := by
  simp only [Bind.bind]
  split <;> exact ⟨_, _, rfl⟩

end Prog

/-! ## Triples -/

/-- What holds of a value and the state it comes with, or of an error. -/
def Outcome (post : α → σ → Prop) (fail : ε → σ → Prop) : Except ε α × σ → Prop
  | (.ok a, s) => post a s
  | (.error e, s) => fail e s

theorem Outcome.mono {post post' : α → σ → Prop} {fail fail' : ε → σ → Prop}
    {result : Except ε α × σ} (h : Outcome post fail result)
    (hpost : ∀ a s, post a s → post' a s) (hfail : ∀ e s, fail e s → fail' e s) :
    Outcome post' fail' result := by
  obtain ⟨_ | _, s⟩ := result
  · exact hfail _ _ h
  · exact hpost _ _ h

/-- From `pre` a run ends in `post`, or with an error in `fail`. -/
def Triple (pre : σ → Prop) (prog : Prog σ ε α) (post : α → σ → Prop) (fail : ε → σ → Prop) :
    Prop :=
  ∀ s, pre s → Outcome post fail (prog s)

namespace Triple

variable {pre pre' : σ → Prop} {prog : Prog σ ε α} {next : α → Prog σ ε β}
  {post post' : α → σ → Prop} {fail fail' : ε → σ → Prop}

theorem conseq (h : Triple pre prog post fail) (hpre : ∀ s, pre' s → pre s)
    (hpost : ∀ a s, post a s → post' a s) (hfail : ∀ e s, fail e s → fail' e s) :
    Triple pre' prog post' fail' :=
  fun s hs => (h s (hpre s hs)).mono hpost hfail

theorem strengthen_pre (h : Triple pre prog post fail) (hpre : ∀ s, pre' s → pre s) :
    Triple pre' prog post fail :=
  fun s hs => h s (hpre s hs)

theorem weaken_fail (h : Triple pre prog post fail) (hfail : ∀ e s, fail e s → fail' e s) :
    Triple pre prog post fail' :=
  h.conseq (fun _ hs => hs) (fun _ _ hs => hs) hfail

theorem trivial : Triple pre prog (fun _ _ => True) fun _ _ => True := by
  intro s _
  generalize prog s = result
  obtain ⟨_ | _, _⟩ := result <;> exact True.intro

/-- What holds of every value a program returns. -/
theorem of_ok {good : α → Prop} (h : ∀ s a t, prog s = (.ok a, t) → good a) :
    Triple pre prog (fun a _ => good a) fun _ _ => True := by
  intro s _
  rcases hrun : prog s with ⟨_ | a, t⟩
  · exact True.intro
  · exact h s a t hrun

theorem pure {a : α} (h : ∀ s, pre s → post a s) :
    Triple pre (Pure.pure a : Prog σ ε α) post fail :=
  h

theorem throw {e : ε} (h : ∀ s, pre s → fail e s) : Triple pre (Prog.fail e) post fail :=
  h

theorem bind {middle : α → σ → Prop} {last : β → σ → Prop} (h : Triple pre prog middle fail)
    (hnext : ∀ a, Triple (middle a) (next a) last fail) :
    Triple pre (prog >>= next) last fail := by
  intro s hs
  have hfirst := h s hs
  simp only [Bind.bind]
  cases hrun : prog s with
  | mk result t =>
      rw [hrun] at hfirst
      cases result with
      | ok a => exact hnext a t hfirst
      | error e => exact hfirst

theorem ofExcept {result : Except ε α} (hok : ∀ a, result = .ok a → ∀ s, pre s → post a s)
    (herror : ∀ e, result = .error e → ∀ s, pre s → fail e s) :
    Triple pre (Prog.ofExcept result) post fail := by
  cases result with
  | ok a => exact pure (hok a rfl)
  | error e => exact throw (herror e rfl)

/-- The rest of a program may use what was computed. -/
theorem ofExcept_bind {result : Except ε α} {last : β → σ → Prop}
    (hok : ∀ a, result = .ok a → Triple pre (next a) last fail)
    (herror : ∀ e, result = .error e → ∀ s, pre s → fail e s) :
    Triple pre (Prog.ofExcept result >>= next) last fail := by
  cases result with
  | ok a => exact hok a rfl
  | error e => exact herror e rfl

theorem attempt {fail' : ε' → σ → Prop} (h : Triple pre prog post fail) :
    Triple pre prog.attempt
      (fun result s =>
        match result with
        | .ok a => post a s
        | .error e => fail e s) fail' := by
  intro s hs
  have := h s hs
  cases hrun : prog s with
  | mk result t =>
      rw [hrun] at this
      simp only [Prog.attempt, hrun]
      cases result with
      | ok a => exact this
      | error e => exact this

/-- The handler runs from the states in which the program can fail. -/
theorem orElse {middle : ε → σ → Prop} {handler : ε → Prog σ ε' α} {fail' : ε' → σ → Prop}
    (h : Triple pre prog post middle) (hhandler : ∀ e, Triple (middle e) (handler e) post fail') :
    Triple pre (prog.orElse handler) post fail' := by
  intro s hs
  have hfirst := h s hs
  simp only [Prog.orElse]
  cases hrun : prog s with
  | mk result t =>
      rw [hrun] at hfirst
      cases result with
      | ok a => exact hfirst
      | error e => exact hhandler e t hfirst

theorem mapError {f : ε → ε'} {middle : ε → σ → Prop} {fail' : ε' → σ → Prop}
    (h : Triple pre prog post middle) (hmap : ∀ e s, middle e s → fail' (f e) s) :
    Triple pre (prog.mapError f) post fail' :=
  h.orElse fun e => throw fun s hs => hmap e s hs

end Triple

/-! ## What a program keeps -/

/-- The states before and after are related, whatever the outcome. -/
def Keeps (R : σ → σ → Prop) (prog : Prog σ ε α) : Prop :=
  ∀ s, R s (prog s).2

namespace Keeps

variable {R : σ → σ → Prop} {prog : Prog σ ε α} {next : α → Prog σ ε β}

theorem mono {R' : σ → σ → Prop} (h : Keeps R prog) (hle : ∀ s t, R s t → R' s t) :
    Keeps R' prog :=
  fun s => hle _ _ (h s)

theorem triple [IsTrans σ R] (h : Keeps R prog) (s : σ) :
    Triple (R s) prog (fun _ => R s) fun _ => R s := by
  intro t ht
  have hlast := IsTrans.trans _ _ _ ht (h t)
  generalize prog t = result at hlast
  obtain ⟨_ | _, _⟩ := result <;> exact hlast

theorem bind [IsTrans σ R] (h : Keeps R prog) (hnext : ∀ a, Keeps R (next a)) :
    Keeps R (prog >>= next) := by
  intro s
  have hfirst := h s
  simp only [Bind.bind]
  cases hrun : prog s with
  | mk result t =>
      rw [hrun] at hfirst
      cases result with
      | ok a => exact IsTrans.trans _ _ _ hfirst (hnext a t)
      | error e => exact hfirst

theorem orElse [IsTrans σ R] {handler : ε → Prog σ ε' α} (h : Keeps R prog)
    (hhandler : ∀ e, Keeps R (handler e)) : Keeps R (prog.orElse handler) := by
  intro s
  have hfirst := h s
  simp only [Prog.orElse]
  cases hrun : prog s with
  | mk result t =>
      rw [hrun] at hfirst
      cases result with
      | ok a => exact hfirst
      | error e => exact IsTrans.trans _ _ _ hfirst (hhandler e t)

theorem modify {f : σ → σ} (h : ∀ s, R s (f s)) : Keeps R (Prog.modify f : Prog σ ε Unit) :=
  h

/-- A program that goes on from the state it has read. -/
theorem get_bind {next : σ → Prog σ ε β} (h : ∀ s, R s (next s s).2) :
    Keeps R (Prog.get >>= next) :=
  h

variable [Std.Refl R]

theorem pure (a : α) : Keeps R (Pure.pure a : Prog σ ε α) :=
  fun s => Std.Refl.refl s

theorem throw (e : ε) : Keeps R (Prog.fail e : Prog σ ε α) :=
  fun s => Std.Refl.refl s

theorem get : Keeps R (Prog.get : Prog σ ε σ) :=
  fun s => Std.Refl.refl s

theorem ofExcept (result : Except ε α) : Keeps R (Prog.ofExcept result : Prog σ ε α) := by
  cases result with
  | ok a => exact pure a
  | error e => exact throw e

end Keeps

end Program
