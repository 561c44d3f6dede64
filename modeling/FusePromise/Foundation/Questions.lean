import FusePromise.Foundation.Dialogue

/-!
# What a dialogue asks

A path through the tree of a dialogue is one run of it: the questions in their
order, for some answers, and the result.  `Tells` follows all runs at once.  Each
question is related to the one before it, and the result to the last question.  The
state of the dialogue has no part in this, so that the rules only follow the values.
-/

namespace Program

namespace Tree

variable {Q A R S : Type}

/-- The questions and the result of a run, whatever was answered. -/
inductive Path : Tree Q A R → List Q → R → Prop
  | done (result : R) : Path (.done result) [] result
  | ask {next : A → Tree Q A R} {questions : List Q} {result : R} (question : Q) (answer : A)
      (h : Path (next answer) questions result) :
      Path (.ask question next) (question :: questions) result

/-- A run of a sequence is a run of its first part and one of what follows. -/
theorem path_bind {tree : Tree Q A R} {next : R → Tree Q A S} {questions : List Q} {last : S} :
    (tree.bind next).Path questions last ↔ ∃ front back result, questions = front ++ back ∧
      tree.Path front result ∧ (next result).Path back last := by
  constructor
  · intro h
    induction tree generalizing questions with
    | done result => exact ⟨[], questions, result, rfl, .done result, h⟩
    | ask question branch ih =>
        cases h with
        | ask _ answer hrest =>
            obtain ⟨front, back, result, rfl, hfront, hback⟩ := ih answer hrest
            exact ⟨question :: front, back, result, rfl, .ask question answer hfront, hback⟩
  · rintro ⟨front, back, result, rfl, hfront, hback⟩
    induction hfront with
    | done result => exact hback
    | ask question answer hrest ih => exact .ask question answer (ih hback)

/-- The run in which every question gets the same answer. -/
def answered (answer : A) : Tree Q A R → List Q × R
  | done result => ([], result)
  | ask question next =>
      let rest := (next answer).answered answer
      (question :: rest.1, rest.2)

theorem path_answered (answer : A) (tree : Tree Q A R) :
    tree.Path (tree.answered answer).1 (tree.answered answer).2 := by
  induction tree with
  | done result => exact .done result
  | ask question next ih => exact .ask question answer (ih answer)

theorem exists_path [Nonempty A] (tree : Tree Q A R) :
    ∃ questions result, tree.Path questions result := by
  induction tree with
  | done result => exact ⟨[], result, .done result⟩
  | ask question next ih =>
      obtain ⟨answer⟩ := ‹Nonempty A›
      obtain ⟨questions, result, hpath⟩ := ih answer
      exact ⟨question :: questions, result, .ask question answer hpath⟩

/-- The result of a run that obeys is one after a refusal or one without. -/
theorem Obeys.path {refuses : A → Prop} {stopped good : R → Prop} {tree : Tree Q A R}
    (h : tree.Obeys refuses stopped good) {questions : List Q} {result : R}
    (hpath : tree.Path questions result) : stopped result ∨ good result := by
  induction hpath with
  | done result => exact Or.inr h
  | ask question answer hrest ih =>
      by_cases hrefuses : refuses answer
      · obtain ⟨last, hlast, hstopped⟩ := h.1 answer hrefuses
        rw [hlast] at hrest
        cases hrest
        exact Or.inl hstopped
      · exact ih (h.2 answer hrefuses)

/-- Every question is related to the one before it, and the result to the last one. -/
def Tells (rel : Q → Q → Prop) (post : R → Q → Prop) : Tree Q A R → Q → Prop
  | done result, last => post result last
  | ask question next, last =>
      rel last question ∧ ∀ answer, (next answer).Tells rel post question

variable {rel : Q → Q → Prop} {post : R → Q → Prop} {tree : Tree Q A R} {last : Q}

theorem Tells.path (h : tree.Tells rel post last) {questions : List Q} {result : R}
    (hpath : tree.Path questions result) :
    (last :: questions).IsChain rel ∧ post result (questions.getLastD last) := by
  induction hpath generalizing last with
  | done result => exact ⟨.singleton last, h⟩
  | ask question answer _ ih =>
      obtain ⟨hchain, hpost⟩ := ih (h.2 answer)
      exact ⟨.cons_cons h.1 hchain, by rwa [List.getLastD_cons]⟩

theorem Tells.bind {next : R → Tree Q A S} {post' : S → Q → Prop}
    (h : tree.Tells rel post last)
    (hnext : ∀ result last, post result last → (next result).Tells rel post' last) :
    (tree.bind next).Tells rel post' last := by
  induction tree generalizing last with
  | done result => exact hnext result last h
  | ask question branch ih => exact ⟨h.1, fun answer => ih answer (h.2 answer)⟩

end Tree

namespace Dialogue

variable {Q A σ ε ε' α β : Type}

/-- What a dialogue asks, and what its value or its error has to do with the last question,
from any state. -/
def Tells (rel : Q → Q → Prop) (pre : Q → Prop) (dialogue : Dialogue Q A σ ε α)
    (post : α → Q → Prop) (fail : ε → Q → Prop) : Prop :=
  ∀ s last, pre last → (dialogue s).Tells rel
    (fun result last => Outcome (fun a _ => post a last) (fun e _ => fail e last) result) last

namespace Tells

variable {rel : Q → Q → Prop} {pre : Q → Prop} {dialogue : Dialogue Q A σ ε α}
  {next : α → Dialogue Q A σ ε β} {post : α → Q → Prop} {fail : ε → Q → Prop}

theorem pure {a : α} (h : ∀ last, pre last → post a last) :
    Tells rel pre (Pure.pure a : Dialogue Q A σ ε α) post fail :=
  fun _ last hlast => h last hlast

/-- A part of the precondition that is not about the last question. -/
theorem assuming {fact : Prop} (h : fact → Tells rel pre dialogue post fail) :
    Tells rel (fun last => fact ∧ pre last) dialogue post fail :=
  fun s last hlast => h hlast.1 s last hlast.2

theorem throw {e : ε} (h : ∀ last, pre last → fail e last) :
    Tells rel pre (Dialogue.lift (Prog.fail e) : Dialogue Q A σ ε α) post fail :=
  fun _ last hlast => h last hlast

/-- A program asks nothing. -/
theorem lift {prog : Prog σ ε α} {good : α → Prop} {bad : ε → Prop}
    (h : Program.Triple (fun _ => True) prog (fun a _ => good a) fun e _ => bad e)
    (hpost : ∀ a last, good a → pre last → post a last)
    (hfail : ∀ e last, bad e → pre last → fail e last) :
    Tells rel pre (Dialogue.lift prog : Dialogue Q A σ ε α) post fail :=
  fun s last hlast => (h s True.intro).mono (fun a _ hgood => hpost a last hgood hlast)
    fun e _ hbad => hfail e last hbad hlast

theorem ask {question : Q} {handler : A → Prog σ ε α}
    (hquestion : ∀ last, pre last → rel last question)
    (h : ∀ answer, Program.Triple (fun _ => True) (handler answer)
      (fun a _ => post a question) fun e _ => fail e question) :
    Tells rel pre (Dialogue.ask question handler) post fail :=
  fun s last hlast => ⟨hquestion last hlast, fun answer => h answer s True.intro⟩

theorem bind {last' : β → Q → Prop} (h : Tells rel pre dialogue post fail)
    (hnext : ∀ a, Tells rel (post a) (next a) last' fail) :
    Tells rel pre (dialogue >>= next) last' fail := by
  intro s last hlast
  refine (h s last hlast).bind ?_
  rintro ⟨e | a, t⟩ last hresult
  · exact hresult
  · exact hnext a t last hresult

/-- What follows a program may use what is known of its value. -/
theorem lift_bind {prog : Prog σ ε α} {good : α → Prop} {bad : ε → Prop} {last' : β → Q → Prop}
    (h : Program.Triple (fun _ => True) prog (fun a _ => good a) fun e _ => bad e)
    (hfail : ∀ e last, bad e → pre last → fail e last)
    (hnext : ∀ a, good a → Tells rel pre (next a) last' fail) :
    Tells rel pre (Dialogue.lift prog >>= next) last' fail :=
  (lift h (fun _ _ hgood hlast => And.intro hgood hlast) hfail).bind fun a => assuming (hnext a)

theorem orElse {handler : ε → Prog σ ε' α} {fail' : ε' → Q → Prop}
    (h : Tells rel pre dialogue post fail)
    (hhandler : ∀ e last, fail e last → Program.Triple (fun _ => True) (handler e)
      (fun a _ => post a last) fun e _ => fail' e last) :
    Tells rel pre (dialogue.orElse handler) post fail' := by
  intro s last hlast
  refine (h s last hlast).bind ?_
  rintro ⟨e | a, t⟩ last hresult
  · exact hhandler e last hresult t True.intro
  · exact hresult

theorem mapError {f : ε → ε'} {fail' : ε' → Q → Prop} (h : Tells rel pre dialogue post fail)
    (hfail : ∀ e last, fail e last → fail' (f e) last) :
    Tells rel pre (dialogue.mapError f) post fail' :=
  h.orElse fun e last he => .throw fun _ _ => hfail e last he

end Tells

end Dialogue

end Program
