import SmallLisp.Proofs.Evaluation.Congruence

/-!
# Fuel

Fuel only bounds how long an evaluation may take: where some fuel gives a value or an error, more
fuel gives the same one in the same state. `Ends` says what a form evaluates to with enough fuel,
and `Continues` what the loop does with a form inside an evaluation that has been entered.
-/

namespace SmallLisp

open Evaluator

namespace Outcome

variable {α : Type}

/-- Whether an outcome is a value or an error. -/
def Answers : Outcome α → Prop
  | .halt _ _ => False
  | _ => True

/-- The state that an outcome leaves. -/
def state : Outcome α → State
  | .value _ s => s
  | .error _ s => s
  | .halt _ s => s

@[simp] theorem answers_value (a : α) (s : State) : (value a s).Answers := trivial

@[simp] theorem answers_error (e : Error) (s : State) : (error e s : Outcome α).Answers := trivial

@[simp] theorem not_answers_halt (h : Halt) (s : State) : ¬ (halt h s : Outcome α).Answers := id

end Outcome

/-! ### Sequences -/

namespace Eval

variable {α β : Type}

instance : LawfulMonad Eval := LawfulMonad.mk' Eval
  (fun m => funext fun s => by
    change (m >>= fun a => pure (id a)) s = m s
    rw [bind_apply]
    cases m s <;> rfl)
  (fun _ _ => rfl)
  (fun m k l => funext fun s => by
    simp only [bind_apply]
    cases m s <;> rfl)

@[simp] theorem ofExcept_ok (a : α) : ofExcept (.ok a) = (pure a : Eval α) := rfl

@[simp] theorem ofExcept_error (fault : Fault) : (ofExcept (.error fault) : Eval α) = fail fault :=
  rfl

@[simp] theorem ofExcept_bind (r : Except Fault α) (k : α → Except Fault β) :
    ofExcept (r >>= k) = ofExcept r >>= fun a => ofExcept (k a) := by
  cases r <;> rfl

@[simp] theorem ofExcept_map (r : Except Fault α) (g : α → β) :
    ofExcept (r.map g) = ofExcept r >>= fun a => pure (g a) := by
  cases r <;> rfl

@[simp] theorem ofExcept_functor_map (r : Except Fault α) (g : α → β) :
    ofExcept (g <$> r) = g <$> ofExcept r := by
  cases r <;> rfl

theorem bind_value {m : Eval α} {k : α → Eval β} {s s₁ : State} {a : α} (h : m s = .value a s₁) :
    (m >>= k) s = k a s₁ := by
  rw [bind_apply, h]

theorem bind_error {m : Eval α} {k : α → Eval β} {s s₁ : State} {e : Error}
    (h : m s = .error e s₁) : (m >>= k) s = .error e s₁ := by
  rw [bind_apply, h]

/-- How a sequence comes to an answer: both parts do, or the first one fails. -/
theorem bind_cases {m : Eval α} {k : α → Eval β} {s : State} {o : Outcome β}
    (h : (m >>= k) s = o) (ho : o.Answers) :
    (∃ a s₁, m s = .value a s₁ ∧ k a s₁ = o) ∨ ∃ e s₁, m s = .error e s₁ ∧ o = .error e s₁ := by
  rw [bind_apply] at h
  cases hm : m s with
  | value a s₁ =>
    rw [hm] at h
    exact .inl ⟨a, s₁, rfl, h⟩
  | error e s₁ =>
    rw [hm] at h
    exact .inr ⟨e, s₁, rfl, h.symm⟩
  | halt cause s₁ =>
    rw [hm] at h
    subst h
    exact absurd ho (Outcome.not_answers_halt cause s₁)

theorem attempt_value {m : Eval α} {s s₁ : State} {a : α} (h : m s = .value a s₁) :
    m.attempt s = .value (.ok a) s₁ := by
  unfold attempt
  rw [h]

theorem attempt_error {m : Eval α} {s s₁ : State} {e : Error} (h : m s = .error e s₁) :
    m.attempt s = .value (.error e) s₁ := by
  unfold attempt
  rw [h]

theorem attempt_cases {m : Eval α} {s : State} {o : Outcome (Except Error α)}
    (h : m.attempt s = o) (ho : o.Answers) :
    (∃ a s₁, m s = .value a s₁ ∧ o = .value (.ok a) s₁) ∨
      ∃ e s₁, m s = .error e s₁ ∧ o = .value (.error e) s₁ := by
  cases hm : m s with
  | value a s₁ => exact .inl ⟨a, s₁, rfl, h.symm.trans (attempt_value hm)⟩
  | error e s₁ => exact .inr ⟨e, s₁, rfl, h.symm.trans (attempt_error hm)⟩
  | halt cause s₁ =>
    unfold attempt at h
    rw [hm] at h
    subst h
    exact absurd ho (Outcome.not_answers_halt cause s₁)

/-! ### More fuel -/

/-- Whether an evaluation behaves as another one wherever that one does not run out of fuel. -/
def Extends (m m' : Eval α) : Prop := ∀ s, (∃ s₁, m s = .halt .outOfFuel s₁) ∨ m' s = m s

theorem Extends.refl (m : Eval α) : m.Extends m := fun _ => .inr rfl

theorem Extends.bind {m m' : Eval α} {k k' : α → Eval β} (h : m.Extends m')
    (hk : ∀ a, (k a).Extends (k' a)) : (m >>= k).Extends (m' >>= k') := by
  intro s
  rcases h s with ⟨s₁, hm⟩ | hm
  · exact .inl ⟨s₁, by rw [bind_apply, hm]⟩
  · cases hs : m s with
    | value a s₁ =>
      rw [bind_value hs, bind_value (hm.trans hs)]
      exact hk a s₁
    | error e s₁ =>
      rw [bind_error hs, bind_error (hm.trans hs)]
      exact .inr rfl
    | halt cause s₁ =>
      right
      rw [bind_apply, bind_apply, hm, hs]

theorem Extends.attempt {m m' : Eval α} (h : m.Extends m') : m.attempt.Extends m'.attempt := by
  intro s
  unfold Eval.attempt
  rcases h s with ⟨s₁, hm⟩ | hm
  · exact .inl ⟨s₁, by rw [hm]⟩
  · right
    rw [hm]

theorem Extends.deeper {m m' : Eval α} (h : m.Extends m') : m.deeper.Extends m'.deeper := by
  intro s
  unfold Eval.deeper
  split
  · rcases h { s with gauge := s.gauge.enter } with ⟨s₁, hm⟩ | hm
    · exact .inl ⟨s₁, by rw [hm]⟩
    · right
      rw [hm]
  · exact .inr rfl

theorem extends_congruence : Congruence @Extends where
  exhausted _ := fun s => .inl ⟨s, rfl⟩
  pure _ := .refl _
  raise _ := .refl _
  bind := Extends.bind
  attempt := Extends.attempt
  heap := .refl _
  onHeap _ := .refl _
  onConsole _ := .refl _
  readFile _ := .refl _
  readLine := .refl _
  clock := .refl _

theorem Extends.answer {m m' : Eval α} (h : m.Extends m') {s : State} {o : Outcome α}
    (hm : m s = o) (ho : o.Answers) : m' s = o := by
  rcases h s with ⟨s₁, hs⟩ | hs
  · rw [hs] at hm
    subst hm
    exact absurd ho (Outcome.not_answers_halt _ _)
  · rw [hs, hm]

end Eval

theorem eval_extends {n n' : Nat} (h : n ≤ n') (form : Value) (f : FrameId) :
    (eval n form f).Extends (eval n' form f) := by
  induction n generalizing n' form f with
  | zero => exact fun s => .inl ⟨s, rfl⟩
  | succ n ih =>
    obtain ⟨k, rfl⟩ : ∃ k, n' = k + 1 := ⟨n' - 1, by omega⟩
    have hk : n ≤ k := by omega
    exact (Eval.extends_congruence.run (fun form f => ih hk form f) hk form f).deeper

theorem run_extends {n n' k k' : Nat} (hn : n ≤ n') (hk : k ≤ k') (form : Value) (f : FrameId) :
    ((eval n).run k form f).Extends ((eval n').run k' form f) :=
  Eval.extends_congruence.run (eval_extends hn) hk form f

/-! ### Enough fuel -/

/-- Whether evaluations that depend on the fuel of nested evaluations and on that of loops come to
an answer, the same one wherever both are enough. -/
def Settles {α : Type} (m : Nat → Nat → Eval α) (s : State) (o : Outcome α) : Prop :=
  o.Answers ∧ ∃ N, ∀ n ≥ N, ∀ k ≥ N, m n k s = o

namespace Settles

variable {α β : Type} {m m' : Nat → Nat → Eval α} {next : Nat → Nat → α → Eval β} {s s₁ : State}

theorem of_eq {o : Outcome α} (ho : o.Answers) (h : ∀ n k, m n k s = o) : Settles m s o :=
  ⟨ho, 0, fun n _ k _ => h n k⟩

theorem of_extends {p : Nat → Eval α} (hp : ∀ {n n'}, n ≤ n' → (p n).Extends (p n')) {N : Nat}
    {o : Outcome α} (h : p N s = o) (ho : o.Answers) : Settles (fun n _ => p n) s o :=
  ⟨ho, N, fun _ hn _ _ => (hp hn).answer h ho⟩

theorem unique {o o' : Outcome α} (h : Settles m s o) (h' : Settles m s o') : o = o' := by
  obtain ⟨_, N, hN⟩ := h
  obtain ⟨_, N', hN'⟩ := h'
  have hleft : m (max N N') (max N N') s = o := hN _ (Nat.le_max_left N N') _ (Nat.le_max_left N N')
  have hright : m (max N N') (max N N') s = o' :=
    hN' _ (Nat.le_max_right N N') _ (Nat.le_max_right N N')
  exact hleft.symm.trans hright

theorem congr {o : Outcome α} (h : Settles m s o) (hm : ∀ n k, m' n k s = m n k s) :
    Settles m' s o := by
  obtain ⟨ho, N, hN⟩ := h
  exact ⟨ho, N, fun n hn k hk => (hm n k).trans (hN n hn k hk)⟩

theorem congr_iff {o : Outcome α} (hm : ∀ n k, m' n k s = m n k s) :
    Settles m' s o ↔ Settles m s o :=
  ⟨fun h => h.congr fun n k => (hm n k).symm, fun h => h.congr hm⟩

theorem bind {a : α} {o : Outcome β} (h : Settles m s (.value a s₁))
    (hnext : Settles (fun n k => next n k a) s₁ o) :
    Settles (fun n k => m n k >>= next n k) s o := by
  obtain ⟨_, N, hN⟩ := h
  obtain ⟨ho, N', hN'⟩ := hnext
  refine ⟨ho, max N N', fun n hn k hk => ?_⟩
  exact (Eval.bind_value (hN n (by omega) k (by omega))).trans (hN' n (by omega) k (by omega))

theorem bind_iff {a : α} {o : Outcome β} (h : Settles m s (.value a s₁)) :
    Settles (fun n k => m n k >>= next n k) s o ↔ Settles (fun n k => next n k a) s₁ o := by
  refine ⟨fun hs => ?_, h.bind⟩
  obtain ⟨_, N, hN⟩ := h
  obtain ⟨ho, N', hN'⟩ := hs
  refine ⟨ho, max N N', fun n hn k hk => ?_⟩
  exact (Eval.bind_value (hN n (by omega) k (by omega))).symm.trans
    (hN' n (by omega) k (by omega))

theorem bind_error {e : Error} (h : Settles m s (.error e s₁)) :
    Settles (fun n k => m n k >>= next n k) s (.error e s₁) := by
  obtain ⟨_, N, hN⟩ := h
  exact ⟨trivial, N, fun n hn k hk => Eval.bind_error (hN n hn k hk)⟩

theorem of_succ {o : Outcome α} (h : Settles (fun n k => m n (k + 1)) s o) : Settles m s o := by
  obtain ⟨ho, N, hN⟩ := h
  refine ⟨ho, N + 1, fun n hn k hk => ?_⟩
  obtain ⟨j, rfl⟩ : ∃ j, k = j + 1 := ⟨k - 1, by omega⟩
  exact hN n (by omega) j (by omega)

theorem attempt_value {a : α} (h : Settles m s (.value a s₁)) :
    Settles (fun n k => (m n k).attempt) s (.value (.ok a) s₁) := by
  obtain ⟨_, N, hN⟩ := h
  exact ⟨trivial, N, fun n hn k hk => Eval.attempt_value (hN n hn k hk)⟩

theorem attempt_error {e : Error} (h : Settles m s (.error e s₁)) :
    Settles (fun n k => (m n k).attempt) s (.value (.error e) s₁) := by
  obtain ⟨_, N, hN⟩ := h
  exact ⟨trivial, N, fun n hn k hk => Eval.attempt_error (hN n hn k hk)⟩

end Settles

/-! ### What forms evaluate to -/

/-- A form in a frame ends in an answer, if there is fuel enough. -/
def Ends (form : Value) (f : FrameId) (s : State) (o : Outcome Value) : Prop :=
  o.Answers ∧ ∃ n, eval n form f s = o

/-- The loop of an evaluation that has been entered comes to an answer from a form in a frame, if
there is fuel enough. -/
def Continues (form : Value) (f : FrameId) (s : State) (o : Outcome Value) : Prop :=
  o.Answers ∧ ∃ n k, (eval n).run k form f s = o

theorem ends_iff_settles {form : Value} {f : FrameId} {s : State} {o : Outcome Value} :
    Ends form f s o ↔ Settles (fun n _ => eval n form f) s o := by
  constructor
  · rintro ⟨ho, N, hN⟩
    exact .of_extends (eval_extends · form f) hN ho
  · rintro ⟨ho, N, hN⟩
    exact ⟨ho, N, hN N (Nat.le_refl N) N (Nat.le_refl N)⟩

theorem continues_iff_settles {form : Value} {f : FrameId} {s : State} {o : Outcome Value} :
    Continues form f s o ↔ Settles (fun n k => (eval n).run k form f) s o := by
  constructor
  · rintro ⟨ho, n₀, k₀, hN⟩
    refine ⟨ho, max n₀ k₀, fun n hn k hk => ?_⟩
    exact (run_extends (by omega) (by omega) form f).answer hN ho
  · rintro ⟨ho, N, hN⟩
    exact ⟨ho, N, N, hN N (Nat.le_refl N) N (Nat.le_refl N)⟩

end SmallLisp
