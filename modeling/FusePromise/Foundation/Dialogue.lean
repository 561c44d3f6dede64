import FusePromise.Foundation.Program

/-!
# Programs that ask questions

A `Dialogue` is a program that can stop at a question for somebody else and goes
on with the answer.  Its run is a tree: a leaf is a result, a node is a question
with one branch for each answer.

Some answers are refusals, and a dialogue obeys if it asks nothing after a
refusal and fails.  `Dialogue.Triple` has a condition for that case: `stop` holds
of the errors that follow a refusal, `fail` of all others.
-/

namespace Program

/-! ## Trees -/

/-- A computation that asks questions in `Q`, gets answers in `A` and returns in `R`. -/
inductive Tree (Q A R : Type)
  | done (result : R)
  | ask (question : Q) (next : A → Tree Q A R)

namespace Tree

variable {Q A R S : Type}

/-- Every leaf is followed by another tree. -/
def bind (tree : Tree Q A R) (next : R → Tree Q A S) : Tree Q A S :=
  match tree with
  | done result => next result
  | ask question branch => ask question fun answer => (branch answer).bind next

theorem bind_assoc {T : Type} (tree : Tree Q A R) (next : R → Tree Q A S) (last : S → Tree Q A T) :
    (tree.bind next).bind last = tree.bind fun result => (next result).bind last := by
  induction tree with
  | done result => rfl
  | ask question branch ih =>
      simp only [bind]
      congr 1
      exact funext ih

/-- The number of questions on the longest path with one of two answers each time. -/
def depth (yes no : A) : Tree Q A R → ℕ
  | done _ => 0
  | ask _ next => max ((next yes).depth yes no) ((next no).depth yes no) + 1

/-- After a refusal there is no more question and the result has `stopped`; the result of
a run without a refusal has `good`. -/
def Obeys (refuses : A → Prop) (stopped good : R → Prop) : Tree Q A R → Prop
  | done result => good result
  | ask _ next =>
      (∀ answer, refuses answer → ∃ result, next answer = done result ∧ stopped result) ∧
        ∀ answer, ¬ refuses answer → (next answer).Obeys refuses stopped good

theorem Obeys.mono {refuses : A → Prop} {stopped good stopped' good' : R → Prop}
    {tree : Tree Q A R} (h : tree.Obeys refuses stopped good)
    (hstopped : ∀ result, stopped result → stopped' result)
    (hgood : ∀ result, good result → good' result) : tree.Obeys refuses stopped' good' := by
  induction tree with
  | done result => exact hgood result h
  | ask question branch ih =>
      refine ⟨fun answer hrefuses => ?_, fun answer haccepts => ih answer (h.2 answer haccepts)⟩
      obtain ⟨result, hresult, hstop⟩ := h.1 answer hrefuses
      exact ⟨result, hresult, hstopped result hstop⟩

variable {refuses : A → Prop} {stopped good : R → Prop} {stopped' good' : S → Prop}
  {tree : Tree Q A R} {next : R → Tree Q A S}

theorem Obeys.bind (h : tree.Obeys refuses stopped good)
    (hgood : ∀ result, good result → (next result).Obeys refuses stopped' good')
    (hstopped : ∀ result, stopped result → ∃ last, next result = done last ∧ stopped' last) :
    (tree.bind next).Obeys refuses stopped' good' := by
  induction tree with
  | done result => exact hgood result h
  | ask question branch ih =>
      refine ⟨fun answer hrefuses => ?_, fun answer haccepts => ih answer (h.2 answer haccepts)⟩
      obtain ⟨result, hresult, hstop⟩ := h.1 answer hrefuses
      obtain ⟨last, hlast, hstop'⟩ := hstopped result hstop
      refine ⟨last, ?_, hstop'⟩
      show (branch answer).bind next = done last
      rw [hresult]
      exact hlast

end Tree

/-! ## Dialogues -/

/-- A computation over `σ` that asks questions, and returns a value or an error with its
last state. -/
def Dialogue (Q A σ ε α : Type) : Type :=
  σ → Tree Q A (Except ε α × σ)

variable {Q A σ ε ε' α β : Type}

namespace Dialogue

instance : Monad (Dialogue Q A σ ε) where
  pure a := fun s => .done (.ok a, s)
  bind dialogue next := fun s =>
    (dialogue s).bind fun
      | (.ok a, t) => next a t
      | (.error e, t) => .done (.error e, t)

theorem bind_assoc {γ : Type} (dialogue : Dialogue Q A σ ε α) (next : α → Dialogue Q A σ ε β)
    (last : β → Dialogue Q A σ ε γ) :
    dialogue >>= next >>= last = dialogue >>= fun a => next a >>= last := by
  funext s
  refine (Tree.bind_assoc _ _ _).trans (congrArg (Tree.bind (dialogue s)) ?_)
  funext ⟨result, t⟩
  cases result with
  | error e => rfl
  | ok a => rfl

/-- A program asks nothing. -/
def lift (prog : Prog σ ε α) : Dialogue Q A σ ε α :=
  fun s => .done (prog s)

instance : MonadLift (Prog σ ε) (Dialogue Q A σ ε) where
  monadLift := lift

theorem lift_bind_ok {prog : Prog σ ε α} {next : α → Dialogue Q A σ ε β} {s t : σ} {a : α}
    (h : prog s = (.ok a, t)) : (lift prog >>= next) s = next a t := by
  simp only [Bind.bind, lift, h, Tree.bind]

theorem lift_bind_error {prog : Prog σ ε α} {next : α → Dialogue Q A σ ε β} {s t : σ} {e : ε}
    (h : prog s = (.error e, t)) : (lift prog >>= next) s = .done (.error e, t) := by
  simp only [Bind.bind, lift, h, Tree.bind]

/-- Ask, and go on with the answer. -/
def ask (question : Q) (handler : A → Prog σ ε α) : Dialogue Q A σ ε α :=
  fun s => .ask question fun answer => .done (handler answer s)

/-- On an error, go on with the handler, which asks nothing. -/
def orElse (dialogue : Dialogue Q A σ ε α) (handler : ε → Prog σ ε' α) :
    Dialogue Q A σ ε' α := fun s =>
  (dialogue s).bind fun
    | (.ok a, t) => .done (.ok a, t)
    | (.error e, t) => .done (handler e t)

def mapError (f : ε → ε') (dialogue : Dialogue Q A σ ε α) : Dialogue Q A σ ε' α :=
  dialogue.orElse fun e => Prog.fail (f e)

/-- From `pre` a run ends in `post`, or with an error in `fail`, or after a refusal in `stop`. -/
def Triple (refuses : A → Prop) (pre : σ → Prop) (dialogue : Dialogue Q A σ ε α)
    (post : α → σ → Prop) (fail stop : ε → σ → Prop) : Prop :=
  ∀ s, pre s →
    (dialogue s).Obeys refuses (Outcome (fun _ _ => False) stop) (Outcome post fail)

namespace Triple

variable {refuses : A → Prop} {pre pre' : σ → Prop} {dialogue : Dialogue Q A σ ε α}
  {next : α → Dialogue Q A σ ε β} {post post' : α → σ → Prop} {fail fail' stop stop' : ε → σ → Prop}

theorem lift {prog : Prog σ ε α} (h : Program.Triple pre prog post fail) :
    Triple refuses pre (Dialogue.lift prog : Dialogue Q A σ ε α) post fail stop :=
  h

theorem pure {a : α} (h : ∀ s, pre s → post a s) :
    Triple refuses pre (Pure.pure a : Dialogue Q A σ ε α) post fail stop :=
  h

theorem bind {middle : α → σ → Prop} {last : β → σ → Prop}
    (h : Triple refuses pre dialogue middle fail stop)
    (hnext : ∀ a, Triple refuses (middle a) (next a) last fail stop) :
    Triple refuses pre (dialogue >>= next) last fail stop := by
  intro s hs
  refine (h s hs).bind ?_ ?_
  · rintro ⟨e | a, t⟩ hresult
    · exact hresult
    · exact hnext a t hresult
  · rintro ⟨e | a, t⟩ hresult
    · exact ⟨_, rfl, hresult⟩
    · exact hresult.elim

/-- A refusal makes the handler of the answer fail. -/
theorem ask {question : Q} {handler : A → Prog σ ε α}
    (hrefuses : ∀ answer, refuses answer →
      Program.Triple pre (handler answer) (fun _ _ => False) stop)
    (haccepts : ∀ answer, ¬ refuses answer → Program.Triple pre (handler answer) post fail) :
    Triple refuses pre (Dialogue.ask question handler) post fail stop :=
  fun s hs => ⟨fun answer h => ⟨_, rfl, hrefuses answer h s hs⟩,
    fun answer h => haccepts answer h s hs⟩

/-- After a refusal the handler must fail as well. -/
theorem orElse {handler : ε → Prog σ ε' α} {fail' stop' : ε' → σ → Prop}
    (h : Triple refuses pre dialogue post fail stop)
    (hfail : ∀ e, Program.Triple (fail e) (handler e) post fail')
    (hstop : ∀ e, Program.Triple (stop e) (handler e) (fun _ _ => False) stop') :
    Triple refuses pre (dialogue.orElse handler) post fail' stop' := by
  intro s hs
  refine (h s hs).bind ?_ ?_
  · rintro ⟨e | a, t⟩ hresult
    · exact hfail e t hresult
    · exact hresult
  · rintro ⟨e | a, t⟩ hresult
    · exact ⟨_, rfl, hstop e t hresult⟩
    · exact hresult.elim

theorem mapError {f : ε → ε'} {fail' stop' : ε' → σ → Prop}
    (h : Triple refuses pre dialogue post fail stop) (hfail : ∀ e s, fail e s → fail' (f e) s)
    (hstop : ∀ e s, stop e s → stop' (f e) s) :
    Triple refuses pre (dialogue.mapError f) post fail' stop' :=
  h.orElse (fun e => .throw fun s hs => hfail e s hs) fun e => .throw fun s hs => hstop e s hs

theorem conseq (h : Triple refuses pre dialogue post fail stop) (hpre : ∀ s, pre' s → pre s)
    (hpost : ∀ a s, post a s → post' a s) (hfail : ∀ e s, fail e s → fail' e s)
    (hstop : ∀ e s, stop e s → stop' e s) :
    Triple refuses pre' dialogue post' fail' stop' :=
  fun s hs => (h s (hpre s hs)).mono (fun _ hlast => hlast.mono (fun _ _ => id) hstop)
    fun _ hlast => hlast.mono hpost hfail

end Triple

/-! ## What a dialogue keeps -/

/-- The state a dialogue leaves is related to the one it found, and a refusal ends it. -/
def Keeps (refuses : A → Prop) (R : σ → σ → Prop) (dialogue : Dialogue Q A σ ε α) : Prop :=
  ∀ s, (dialogue s).Obeys refuses (Outcome (fun _ _ => False) fun _ => R s)
    (Outcome (fun _ => R s) fun _ => R s)

namespace Keeps

variable {refuses : A → Prop} {R : σ → σ → Prop} {dialogue : Dialogue Q A σ ε α}
  {next : α → Dialogue Q A σ ε β}

theorem mono {R' : σ → σ → Prop} (h : Keeps refuses R dialogue) (hle : ∀ s t, R s t → R' s t) :
    Keeps refuses R' dialogue :=
  fun s => (h s).mono (fun _ hlast => hlast.mono (fun _ _ => id) fun _ => hle s)
    fun _ hlast => hlast.mono (fun _ => hle s) fun _ => hle s

theorem triple [IsTrans σ R] (h : Keeps refuses R dialogue) (s : σ) :
    Triple refuses (R s) dialogue (fun _ => R s) (fun _ => R s) fun _ => R s := by
  intro t ht
  have hlater : ∀ u, R t u → R s u := fun u hu => IsTrans.trans _ _ _ ht hu
  exact (h t).mono (fun _ hlast => hlast.mono (fun _ _ => id) fun _ => hlater)
    fun _ hlast => hlast.mono (fun _ => hlater) fun _ => hlater

/-- To keep a relation it is enough to keep what it says of each first state. -/
theorem of_triple [Std.Refl R]
    (h : ∀ s, Triple refuses (R s) dialogue (fun _ => R s) (fun _ => R s) fun _ => R s) :
    Keeps refuses R dialogue :=
  fun s => h s s (Std.Refl.refl s)

theorem lift {prog : Prog σ ε α} (h : Program.Keeps R prog) :
    Keeps refuses R (Dialogue.lift prog : Dialogue Q A σ ε α) := by
  intro s
  have hlast := h s
  show Outcome _ _ (prog s)
  generalize prog s = result at hlast
  obtain ⟨_ | _, _⟩ := result <;> exact hlast

variable [Std.Refl R]

theorem pure (a : α) : Keeps refuses R (Pure.pure a : Dialogue Q A σ ε α) :=
  fun s => Std.Refl.refl s

variable [IsTrans σ R]

theorem bind (h : Keeps refuses R dialogue) (hnext : ∀ a, Keeps refuses R (next a)) :
    Keeps refuses R (dialogue >>= next) :=
  of_triple fun s => (h.triple s).bind fun a => (hnext a).triple s

theorem orElse {handler : ε → Prog σ ε' α} (h : Keeps refuses R dialogue)
    (hhandler : ∀ e, Program.Keeps R (handler e))
    (hfails : ∀ e s, ∃ e' t, handler e s = (.error e', t)) :
    Keeps refuses R (dialogue.orElse handler) := by
  refine of_triple fun s => (h.triple s).orElse (fun e => (hhandler e).triple s) fun e t ht => ?_
  have hlast := (hhandler e).triple s t ht
  obtain ⟨e', u, hrun⟩ := hfails e t
  rw [hrun] at hlast ⊢
  exact hlast

end Keeps

end Dialogue

end Program
