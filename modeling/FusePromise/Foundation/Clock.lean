import FusePromise.Foundation.Questions

/-!
# Programs that agree up to a time

The state of a program has a clock that never goes back.  Two programs agree up to a
time if every run of the first that ends by then is a run of the second: what the
second would do later does not matter.

So a run can be replayed in surroundings that are different only after it.  That the
clock does not go back is part of what the first program keeps of its state, and the
rules for sequences need it at every step; hence one relation for both.
-/

namespace Program

variable {Q A σ ε ε' α β : Type}

/-- A preorder on the states along which the clock does not go back. -/
class Forward (R : σ → σ → Prop) (clock : σ → ℕ) : Prop extends Std.Refl R, IsTrans σ R where
  le : ∀ {s t}, R s t → clock s ≤ clock t

namespace Prog

/-- `prog` keeps the relation, and its runs that end by the time are runs of `other`. -/
structure Agrees (R : σ → σ → Prop) (clock : σ → ℕ) (time : ℕ) (prog other : Prog σ ε α) :
    Prop where
  keeps : Keeps R prog
  same : ∀ s, clock (prog s).2 ≤ time → other s = prog s

namespace Agrees

variable {R : σ → σ → Prop} {clock : σ → ℕ} {time : ℕ} {prog other : Prog σ ε α}
  {next next' : α → Prog σ ε β}

theorem refl (h : Keeps R prog) : Agrees R clock time prog prog :=
  ⟨h, fun _ _ => rfl⟩

theorem mono {R' : σ → σ → Prop} (h : Agrees R clock time prog other)
    (hle : ∀ s t, R s t → R' s t) : Agrees R' clock time prog other :=
  ⟨h.keeps.mono hle, h.same⟩

theorem attempt (h : Agrees R clock time prog other) :
    Agrees R clock time (prog.attempt : Prog σ ε' (Except ε α)) other.attempt := by
  refine ⟨h.keeps, fun s hend => ?_⟩
  rw [Prog.attempt, Prog.attempt, h.same s hend]

variable [Forward R clock]

theorem pure (a : α) : Agrees R clock time (Pure.pure a : Prog σ ε α) (Pure.pure a) :=
  .refl (.pure a)

theorem throw (e : ε) : Agrees R clock time (Prog.fail e : Prog σ ε α) (Prog.fail e) :=
  .refl (.throw e)

theorem get : Agrees R clock time (Prog.get : Prog σ ε σ) Prog.get :=
  .refl .get

theorem ofExcept (result : Except ε α) :
    Agrees R clock time (Prog.ofExcept result : Prog σ ε α) (Prog.ofExcept result) :=
  .refl (.ofExcept result)

theorem bind (h : Agrees R clock time prog other)
    (hnext : ∀ a, Agrees R clock time (next a) (next' a)) :
    Agrees R clock time (prog >>= next) (other >>= next') := by
  refine ⟨h.keeps.bind fun a => (hnext a).keeps, fun s hend => ?_⟩
  simp only [Bind.bind] at hend ⊢
  cases hrun : prog s with
  | mk result t =>
      rw [hrun] at hend
      cases result with
      | error e => rw [h.same s (by rw [hrun]; exact hend), hrun]
      | ok a =>
          have hend : clock (next a t).2 ≤ time := hend
          rw [h.same s (by rw [hrun]; exact (Forward.le ((hnext a).keeps t)).trans hend), hrun]
          exact (hnext a).same t hend

theorem orElse {handler handler' : ε → Prog σ ε' α} (h : Agrees R clock time prog other)
    (hhandler : ∀ e, Agrees R clock time (handler e) (handler' e)) :
    Agrees R clock time (prog.orElse handler) (other.orElse handler') := by
  refine ⟨h.keeps.orElse fun e => (hhandler e).keeps, fun s hend => ?_⟩
  simp only [Prog.orElse] at hend ⊢
  cases hrun : prog s with
  | mk result t =>
      rw [hrun] at hend
      cases result with
      | ok a => rw [h.same s (by rw [hrun]; exact hend), hrun]
      | error e =>
          have hend : clock (handler e t).2 ≤ time := hend
          rw [h.same s (by rw [hrun]; exact (Forward.le ((hhandler e).keeps t)).trans hend), hrun]
          exact (hhandler e).same t hend

theorem mapError {f : ε → ε'} (h : Agrees R clock time prog other) :
    Agrees R clock time (prog.mapError f) (other.mapError f) :=
  h.orElse fun e => .throw (f e)

end Agrees

end Prog

namespace Dialogue

theorem Keeps.path {refuses : A → Prop} {R : σ → σ → Prop} {dialogue : Dialogue Q A σ ε α}
    (h : Keeps refuses R dialogue) {s : σ} {questions : List Q} {result : Except ε α × σ}
    (hpath : (dialogue s).Path questions result) : R s result.2 := by
  obtain ⟨_ | _, t⟩ := result
  · exact ((h s).path hpath).elim id id
  · exact ((h s).path hpath).elim False.elim id

/-- The same for every run of a dialogue, whatever is answered. -/
structure Agrees (refuses : A → Prop) (R : σ → σ → Prop) (clock : σ → ℕ) (time : ℕ)
    (dialogue other : Dialogue Q A σ ε α) : Prop where
  keeps : Keeps refuses R dialogue
  same : ∀ {s questions result}, (dialogue s).Path questions result → clock result.2 ≤ time →
    (other s).Path questions result

namespace Agrees

variable {refuses : A → Prop} {R : σ → σ → Prop} {clock : σ → ℕ} {time : ℕ}
  {dialogue other : Dialogue Q A σ ε α} {next next' : α → Dialogue Q A σ ε β}

theorem refl (h : Keeps refuses R dialogue) : Agrees refuses R clock time dialogue dialogue :=
  ⟨h, fun hpath _ => hpath⟩

theorem lift {prog prog' : Prog σ ε α} (h : Prog.Agrees R clock time prog prog') :
    Agrees refuses R clock time (Dialogue.lift prog : Dialogue Q A σ ε α)
      (Dialogue.lift prog') := by
  refine ⟨.lift h.keeps, fun hpath hend => ?_⟩
  cases hpath
  rw [Dialogue.lift, h.same _ hend]
  exact .done _

variable [Forward R clock]

theorem pure (a : α) :
    Agrees refuses R clock time (Pure.pure a : Dialogue Q A σ ε α) (Pure.pure a) :=
  .refl (.pure a)

theorem bind (h : Agrees refuses R clock time dialogue other)
    (hnext : ∀ a, Agrees refuses R clock time (next a) (next' a)) :
    Agrees refuses R clock time (dialogue >>= next) (other >>= next') := by
  refine ⟨h.keeps.bind fun a => (hnext a).keeps, fun {s _ last} hpath hend => ?_⟩
  obtain ⟨front, back, ⟨result, t⟩, rfl, hfront, hback⟩ := Tree.path_bind.mp hpath
  cases result with
  | error e =>
      cases hback
      exact Tree.path_bind.mpr ⟨front, [], _, rfl, h.same hfront hend, .done _⟩
  | ok a =>
      have hticks : clock t ≤ clock last.2 := Forward.le ((hnext a).keeps.path hback)
      exact Tree.path_bind.mpr ⟨front, back, _, rfl, h.same hfront (hticks.trans hend),
        (hnext a).same hback hend⟩

theorem orElse {handler handler' : ε → Prog σ ε' α}
    (h : Agrees refuses R clock time dialogue other)
    (hhandler : ∀ e, Prog.Agrees R clock time (handler e) (handler' e))
    (hfails : ∀ e s, ∃ e' t, handler e s = (.error e', t)) :
    Agrees refuses R clock time (dialogue.orElse handler) (other.orElse handler') := by
  refine ⟨h.keeps.orElse (fun e => (hhandler e).keeps) hfails, fun {s _ last} hpath hend => ?_⟩
  obtain ⟨front, back, ⟨result, t⟩, rfl, hfront, hback⟩ := Tree.path_bind.mp hpath
  cases result with
  | ok a =>
      cases hback
      exact Tree.path_bind.mpr ⟨front, [], _, rfl, h.same hfront hend, .done _⟩
  | error e =>
      cases hback
      have hticks : clock t ≤ clock (handler e t).2 := Forward.le ((hhandler e).keeps t)
      refine Tree.path_bind.mpr ⟨front, [], _, rfl, h.same hfront (hticks.trans hend), ?_⟩
      dsimp only
      rw [(hhandler e).same t hend]
      exact .done _

theorem mapError {f : ε → ε'} (h : Agrees refuses R clock time dialogue other) :
    Agrees refuses R clock time (dialogue.mapError f) (other.mapError f) :=
  h.orElse (fun e => .throw (f e)) fun e s => ⟨f e, s, rfl⟩

end Agrees

end Dialogue

end Program
