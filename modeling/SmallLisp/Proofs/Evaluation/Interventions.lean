import SmallLisp.Proofs.Evaluation.Level
import SmallLisp.Proofs.Evaluation.Parts
import SmallLisp.Proofs.Heap.Foundation

/-!
# Interventions

An evaluator in which something else may be done wherever a form comes to be evaluated in a frame: at
the entry of an evaluation, and at every turn of its loop. An intervention that leaves supported
forms alone shows whether a run ever comes to a frame or an atom that is missing, or to a heap that
is not well founded. If the run that would get lost there does not, then no intervention of this
kind can be told from the evaluator itself. The main statements are `evalBy_eq_iff` and
`callBy_eq_iff`.
-/

namespace SmallLisp

open Evaluator

/-! ### Evaluators with an intervention -/

/-- The loop with an intervention in every turn. -/
def Evaluator.runBy (w : Evaluator → Evaluator) (eval : Evaluator) : Nat → Evaluator
  | 0 => fun _ _ => .halt .outOfFuel
  | fuel + 1 => w (eval.turn fuel (eval.runBy w fuel))

/-- The value of a form in a frame, with an intervention at every entry and in every turn. -/
def evalBy (w : Evaluator → Evaluator) : Nat → Evaluator
  | 0 => fun _ _ => .halt .outOfFuel
  | fuel + 1 => w fun form f => .deeper ((evalBy w fuel).runBy w fuel form f)

theorem runBy_id (eval : Evaluator) (k : Nat) : eval.runBy id k = eval.run k := by
  induction k with
  | zero => rfl
  | succ k ih =>
    rw [run_turn, ← ih]
    rfl

theorem evalBy_id (n : Nat) : evalBy id n = eval n := by
  induction n with
  | zero => rfl
  | succ n ih =>
    funext form f
    change Eval.deeper ((evalBy id n).runBy id n form f) = _
    rw [ih, runBy_id]
    rfl

/-! ### Congruences -/

namespace Congruence

variable {R : ∀ {α : Type}, Eval α → Eval α → Prop} {eval eval' next next' : Evaluator}
  {w w' : Evaluator → Evaluator}

theorem turn (C : Congruence R) (heval : ∀ form f, R (eval form f) (eval' form f))
    (hnext : ∀ form f, R (next form f) (next' form f)) (k : Nat) (form : Value) (f : FrameId) :
    R (eval.turn k next form f) (eval'.turn k next' form f) := by
  refine C.bind (C.expand heval (Nat.le_refl k) form f) fun expanded => ?_
  split
  · refine C.bind (C.stepList heval (Nat.le_refl k) _ _ f) fun step => ?_
    cases step with
    | done v => exact C.pure v
    | goOn form g => exact hnext form g
  · exact C.evalData heval _ f

theorem runBy (C : Congruence R)
    (hw : ∀ {E E' : Evaluator}, (∀ form f, R (E form f) (E' form f)) →
      ∀ form f, R (w E form f) (w' E' form f))
    (heval : ∀ form f, R (eval form f) (eval' form f)) (k : Nat) :
    ∀ form f, R (eval.runBy w k form f) (eval'.runBy w' k form f) := by
  induction k with
  | zero => exact fun _ _ => C.exhausted _
  | succ k ih => exact hw (C.turn heval ih k)

theorem evalBy (C : Congruence R)
    (hdeeper : ∀ {m m' : Eval Value}, R m m' → R m.deeper m'.deeper)
    (hw : ∀ {E E' : Evaluator}, (∀ form f, R (E form f) (E' form f)) →
      ∀ form f, R (w E form f) (w' E' form f)) (n : Nat) :
    ∀ form f, R (evalBy w n form f) (evalBy w' n form f) := by
  induction n with
  | zero => exact fun _ _ => C.exhausted _
  | succ n ih => exact hw fun form f => hdeeper (C.runBy hw ih n form f)

end Congruence

/-! ### Getting lost -/

/-- Whether an intervention leaves the evaluation of supported forms alone. -/
def Spares (w : Evaluator → Evaluator) : Prop :=
  ∀ (eval : Evaluator) (form : Value) (f : FrameId) (s : State), s.heap.Supports form f →
    w eval form f s = eval form f s

/-- A frame that is its own parent. -/
def Heap.looped : Heap := ⟨#[⟨[], some 0⟩], #[], 0⟩

theorem not_founded_looped : ¬ Heap.looped.Founded :=
  fun h => Nat.lt_irrefl 0 (h.older (f := 0) rfl rfl)

open Classical in
/-- The intervention that halts and breaks the heap wherever a form is not supported. -/
noncomputable def Evaluator.orLose (eval : Evaluator) : Evaluator := fun form f s =>
  if s.heap.Supports form f then eval form f s else .halt .outOfFuel (s.withHeap .looped)

/-- Whether an outcome is a halt that leaves a heap that is not well founded. -/
def Outcome.IsLost {α : Type} (o : Outcome α) : Prop := ¬ o.Answers ∧ ¬ o.state.heap.Founded

theorem Outcome.IsLost.halts {α : Type} {o : Outcome α} (h : o.IsLost) :
    ∃ cause s, o = .halt cause s := by
  cases o with
  | halt cause s => exact ⟨cause, s, rfl⟩
  | _ => exact absurd trivial h.1

theorem spares_id : Spares id := fun _ _ _ _ _ => rfl

theorem spares_orLose : Spares orLose := fun _ _ _ _ h => if_pos h

section

variable {eval : Evaluator} {form : Value} {f : FrameId} {s : State}

theorem orLose_of_not (h : ¬ s.heap.Supports form f) :
    eval.orLose form f s = .halt .outOfFuel (s.withHeap .looped) := if_neg h

theorem isLost_orLose (h : ¬ s.heap.Supports form f) : (eval.orLose form f s).IsLost := by
  rw [orLose_of_not h]
  exact ⟨id, not_founded_looped⟩

end

namespace Eval

variable {α β : Type}

/-- Whether an evaluation gives the answers of another one wherever it does not get lost. -/
def AnswersUnlessLost (m m' : Eval α) : Prop := ∀ s, (m s).Answers → (m' s).IsLost ∨ m' s = m s

theorem AnswersUnlessLost.refl (m : Eval α) : m.AnswersUnlessLost m := fun _ _ => .inr rfl

theorem isLost_bind {m : Eval α} {s : State} (h : (m s).IsLost) (k : α → Eval β) :
    ((m >>= k) s).IsLost := by
  obtain ⟨cause, s₁, hm⟩ := h.halts
  rw [hm] at h
  rw [bind_apply, hm]
  exact h

theorem AnswersUnlessLost.bind {m m' : Eval α} {k k' : α → Eval β} (h : m.AnswersUnlessLost m')
    (hk : ∀ a, (k a).AnswersUnlessLost (k' a)) : (m >>= k).AnswersUnlessLost (m' >>= k') := by
  intro s ho
  rcases bind_cases rfl ho with ⟨a, s₁, hm, hka⟩ | ⟨e, s₁, hm, he⟩
  · rcases h s (by rw [hm]; trivial) with hlost | heq
    · exact .inl (isLost_bind hlost k')
    · rw [bind_value (heq.trans hm), bind_value hm]
      exact hk a s₁ (hka ▸ ho)
  · rcases h s (by rw [hm]; trivial) with hlost | heq
    · exact .inl (isLost_bind hlost k')
    · rw [bind_error (heq.trans hm), bind_error hm]
      exact .inr rfl

theorem AnswersUnlessLost.attempt {m m' : Eval α} (h : m.AnswersUnlessLost m') :
    m.attempt.AnswersUnlessLost m'.attempt := by
  intro s ho
  have hanswers : (m s).Answers := by
    rcases attempt_cases rfl ho with ⟨a, s₁, hm, _⟩ | ⟨e, s₁, hm, _⟩
    · rw [hm]
      trivial
    · rw [hm]
      trivial
  unfold Eval.attempt
  rcases h s hanswers with hlost | heq
  · left
    obtain ⟨cause, s₁, hm⟩ := hlost.halts
    rw [hm] at hlost ⊢
    exact hlost
  · right
    rw [heq]

theorem AnswersUnlessLost.deeper {m m' : Eval α} (h : m.AnswersUnlessLost m') :
    m.deeper.AnswersUnlessLost m'.deeper := by
  intro s ho
  by_cases hlt : s.gauge.depth < s.gauge.limit
  · rw [deeper_of_lt hlt, Outcome.answers_leave] at ho
    rw [deeper_of_lt hlt, deeper_of_lt hlt]
    rcases h s.enter ho with hlost | heq
    · left
      obtain ⟨cause, s₁, hm⟩ := hlost.halts
      rw [hm] at hlost ⊢
      exact hlost
    · right
      rw [heq]
  · rw [deeper_of_not_lt hlt, deeper_of_not_lt hlt]
    exact .inr rfl

theorem answersUnlessLost_congruence : Congruence @AnswersUnlessLost where
  exhausted _ := fun _ ho => absurd ho id
  pure _ := .refl _
  raise _ := .refl _
  bind := AnswersUnlessLost.bind
  attempt := AnswersUnlessLost.attempt
  heap := .refl _
  onHeap _ := .refl _
  onConsole _ := .refl _
  readFile _ := .refl _
  readLine := .refl _
  clock := .refl _

/-- An evaluation has the answers of one that may get lost, where that does not happen. -/
theorem eq_iff_of_not_isLost {m m' : Eval α} (h : m.AnswersUnlessLost m') (h' : m'.Extends m)
    {s : State} (hlost : ¬ (m' s).IsLost) {o : Outcome α} (ho : o.Answers) :
    m s = o ↔ m' s = o := by
  constructor
  · rintro rfl
    exact (h s ho).resolve_left hlost
  · exact fun hm => h'.answer hm ho

end Eval

/-! ### Interventions that leave supported forms alone -/

section

variable {w : Evaluator → Evaluator} {s : State} {o : Outcome Value}

theorem Spares.answersUnlessLost (hw : Spares w) (n : Nat) :
    ∀ form f, (evalBy w n form f).AnswersUnlessLost (evalBy orLose n form f) := by
  refine Eval.answersUnlessLost_congruence.evalBy .deeper (fun {E E'} hE form f s ho => ?_) n
  by_cases hs : s.heap.Supports form f
  · rw [hw E form f s hs] at ho ⊢
    rw [spares_orLose E' form f s hs]
    exact hE form f s ho
  · exact .inl (isLost_orLose hs)

theorem Spares.extends (hw : Spares w) (n : Nat) :
    ∀ form f, (evalBy orLose n form f).Extends (evalBy w n form f) := by
  refine Eval.extends_congruence.evalBy .deeper (fun {E E'} hE form f s => ?_) n
  by_cases hs : s.heap.Supports form f
  · rw [hw E' form f s hs, spares_orLose E form f s hs]
    exact hE form f s
  · exact .inl ⟨_, orLose_of_not hs⟩

theorem evalBy_eq_iff (hw : Spares w) {n : Nat} {form : Value} {f : FrameId}
    (hlost : ¬ (evalBy orLose n form f s).IsLost) (ho : o.Answers) :
    evalBy w n form f s = o ↔ eval n form f s = o := by
  have hsame : ∀ {w : Evaluator → Evaluator}, Spares w →
      (evalBy w n form f s = o ↔ evalBy orLose n form f s = o) := fun hw =>
    Eval.eq_iff_of_not_isLost (hw.answersUnlessLost n form f) (hw.extends n form f) hlost ho
  rw [← evalBy_id n]
  exact (hsame hw).trans (hsame spares_id).symm

theorem callBy_eq_iff (hw : Spares w) {n k : Nat} {fn : Value} {args : List Value}
    (hlost : ¬ ((evalBy orLose n).call k fn args s).IsLost) (ho : o.Answers) :
    (evalBy w n).call k fn args s = o ↔ (eval n).call k fn args s = o := by
  have hk := Nat.le_refl k
  have hsame : ∀ {w : Evaluator → Evaluator}, Spares w →
      ((evalBy w n).call k fn args s = o ↔ (evalBy orLose n).call k fn args s = o) := fun hw =>
    Eval.eq_iff_of_not_isLost
      (Eval.answersUnlessLost_congruence.call (hw.answersUnlessLost n) hk fn args)
      (Eval.extends_congruence.call (hw.extends n) hk fn args) hlost ho
  rw [← evalBy_id n]
  exact (hsame hw).trans (hsame spares_id).symm

end

end SmallLisp
