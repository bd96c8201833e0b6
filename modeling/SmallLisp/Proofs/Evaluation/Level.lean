import SmallLisp.Proofs.Evaluation.Fuel

/-!
# Levels

Every evaluation leaves the depth at which it began, and no evaluation changes the limit. The state
inside one more evaluation is `State.enter`, and `ends_iff_continues` says that a form ends, one
level up, in what the loop comes to there.
-/

namespace SmallLisp

open Evaluator

/-! ### Levels -/

/-- The state inside one more evaluation. -/
def State.enter (s : State) : State := { s with gauge := s.gauge.enter }

/-- The state behind an evaluation. -/
def State.leave (s : State) : State := { s with gauge := s.gauge.leave }

/-- An outcome as it is behind an evaluation. -/
def Outcome.leave {α : Type} : Outcome α → Outcome α
  | .value a s => .value a s.leave
  | .error e s => .error e s.leave
  | .halt h s => .halt h s

theorem Outcome.answers_leave {α : Type} (o : Outcome α) : o.leave.Answers ↔ o.Answers := by
  cases o <;> rfl

theorem Eval.deeper_of_lt {α : Type} {m : Eval α} {s : State} (h : s.gauge.depth < s.gauge.limit) :
    m.deeper s = (m s.enter).leave := by
  unfold Eval.deeper
  rw [if_pos h]
  change (match m s.enter with
    | .value a s => .value a { s with gauge := s.gauge.leave }
    | .error e s => .error e { s with gauge := s.gauge.leave }
    | .halt h s => .halt h s) = (m s.enter).leave
  cases m s.enter <;> rfl

theorem Eval.deeper_of_not_lt {α : Type} {m : Eval α} {s : State}
    (h : ¬ s.gauge.depth < s.gauge.limit) :
    m.deeper s = .error (.fault (.tooDeep s.gauge.limit)) { s with gauge := s.gauge.refuse } :=
  if_neg h

theorem Outcome.leave_eq_value_iff {α : Type} {o : Outcome α} {a : α} {s : State} :
    o.leave = .value a s ↔ ∃ s₁, o = .value a s₁ ∧ s = s₁.leave := by
  cases o with
  | value b s₁ =>
    constructor
    · rintro ⟨⟩
      exact ⟨s₁, rfl, rfl⟩
    · rintro ⟨_, ⟨⟩, rfl⟩
      rfl
  | _ => simp [leave]

theorem Outcome.leave_eq_error_iff {α : Type} {o : Outcome α} {e : Error} {s : State} :
    o.leave = .error e s ↔ ∃ s₁, o = .error e s₁ ∧ s = s₁.leave := by
  cases o with
  | error e' s₁ =>
    constructor
    · rintro ⟨⟩
      exact ⟨s₁, rfl, rfl⟩
    · rintro ⟨_, ⟨⟩, rfl⟩
      rfl
  | _ => simp [leave]

theorem Eval.deeper_eq_value_iff {α : Type} {m : Eval α} {a : α} {s s' : State} :
    m.deeper s = .value a s' ↔
      s.gauge.depth < s.gauge.limit ∧ ∃ s₁, m s.enter = .value a s₁ ∧ s' = s₁.leave := by
  by_cases h : s.gauge.depth < s.gauge.limit
  · rw [deeper_of_lt h, Outcome.leave_eq_value_iff, and_iff_right h]
  · simp [deeper_of_not_lt h, h]

theorem Eval.deeper_eq_error_iff {α : Type} {m : Eval α} {e : Error} {s s' : State} :
    m.deeper s = .error e s' ↔
      (¬ s.gauge.depth < s.gauge.limit ∧ e = .fault (.tooDeep s.gauge.limit) ∧
        s' = { s with gauge := s.gauge.refuse }) ∨
      (s.gauge.depth < s.gauge.limit ∧ ∃ s₁, m s.enter = .error e s₁ ∧ s' = s₁.leave) := by
  by_cases h : s.gauge.depth < s.gauge.limit
  · simp [deeper_of_lt h, Outcome.leave_eq_error_iff, h]
  · simp [deeper_of_not_lt h, h, eq_comm]

/-- Whether two states are at one depth under one limit. -/
structure State.Level (s s' : State) : Prop where
  depth : s'.gauge.depth = s.gauge.depth
  limit : s'.gauge.limit = s.gauge.limit

theorem State.Level.refl (s : State) : s.Level s := ⟨rfl, rfl⟩

theorem State.Level.trans {s s' s'' : State} (h : s.Level s') (h' : s'.Level s'') : s.Level s'' :=
  ⟨h'.depth.trans h.depth, h'.limit.trans h.limit⟩

/-- Whether the answers of an evaluation are at the depth and under the limit that it began at. -/
def Eval.Steady {α : Type} (m : Eval α) : Prop := ∀ s, (m s).Answers → s.Level (m s).state

theorem Eval.Steady.bind {α β : Type} {m : Eval α} {k : α → Eval β} (h : m.Steady)
    (hk : ∀ a, (k a).Steady) : (m >>= k).Steady := by
  intro s ho
  have hs := h s
  rcases Eval.bind_cases rfl ho with ⟨a, s₁, hm, hka⟩ | ⟨e, s₁, hm, he⟩
  · rw [hm] at hs
    rw [← hka] at ho ⊢
    exact (hs trivial).trans (hk a s₁ ho)
  · rw [hm] at hs
    rw [he]
    exact hs trivial

theorem Eval.Steady.attempt {α : Type} {m : Eval α} (h : m.Steady) : m.attempt.Steady := by
  intro s ho
  have hs := h s
  unfold Eval.attempt at ho ⊢
  cases hm : m s with
  | halt cause s₁ =>
    rw [hm] at ho
    exact absurd ho (Outcome.not_answers_halt _ _)
  | _ =>
    rw [hm] at hs
    exact hs trivial

theorem Eval.Steady.deeper {α : Type} {m : Eval α} (h : m.Steady) : m.deeper.Steady := by
  intro s ho
  by_cases hlt : s.gauge.depth < s.gauge.limit
  · rw [Eval.deeper_of_lt hlt] at ho ⊢
    have hs := h s.enter ((Outcome.answers_leave _).mp ho)
    cases hm : m s.enter with
    | halt cause s₁ =>
      rw [hm] at ho
      exact absurd ho (Outcome.not_answers_halt _ _)
    | _ =>
      rw [hm] at hs
      refine ⟨?_, hs.limit⟩
      have hdepth := hs.depth
      simp only [Outcome.state, State.enter, Gauge.enter] at hdepth
      simp only [Outcome.state, Outcome.leave, State.leave, Gauge.leave]
      omega
  · rw [Eval.deeper_of_not_lt hlt]
    exact ⟨rfl, rfl⟩

theorem Eval.Steady.of_gauge {α : Type} {m : Eval α} (h : ∀ s, (m s).state.gauge = s.gauge) :
    m.Steady :=
  fun s _ => ⟨congrArg Gauge.depth (h s), congrArg Gauge.limit (h s)⟩

theorem Eval.readFile_gauge (path : String) (s : State) :
    (Exchange.readFile path s).state.gauge = s.gauge := by
  unfold Exchange.readFile
  split
  · rfl
  · rfl
  · split <;> rfl

theorem Eval.readLine_gauge (s : State) : (Exchange.readLine s).state.gauge = s.gauge := by
  unfold Exchange.readLine
  split
  · split
    · rfl
    · split <;> rfl
  · rfl

theorem Eval.steady_congruence : Congruence fun m _ => m.Steady where
  exhausted _ := fun _ h => absurd h (Outcome.not_answers_halt _ _)
  pure _ := .of_gauge fun _ => rfl
  raise _ := .of_gauge fun _ => rfl
  bind := Eval.Steady.bind
  attempt := Eval.Steady.attempt
  heap := .of_gauge fun _ => rfl
  onHeap _ := .of_gauge fun _ => rfl
  onConsole _ := .of_gauge fun _ => rfl
  readFile path := .of_gauge (Eval.readFile_gauge path)
  readLine := .of_gauge Eval.readLine_gauge
  clock := .of_gauge fun _ => rfl

theorem eval_steady (n : Nat) (form : Value) (f : FrameId) : (eval n form f).Steady := by
  induction n generalizing form f with
  | zero => exact fun _ h => absurd h (Outcome.not_answers_halt _ _)
  | succ n ih =>
    have hrun : ((eval n).run n form f).Steady :=
      @Congruence.run _ (eval n) (eval n) Eval.steady_congruence ih n n (Nat.le_refl n) form f
    exact hrun.deeper

/-! ### Entering -/

theorem ends_iff_continues {form : Value} {f : FrameId} {s : State} {o : Outcome Value}
    (h : s.gauge.depth < s.gauge.limit) :
    Ends form f s o ↔ ∃ o₁, Continues form f s.enter o₁ ∧ o = o₁.leave := by
  have hdeeper : ∀ n, eval (n + 1) form f s = ((eval n).run n form f s.enter).leave :=
    fun n => Eval.deeper_of_lt h
  constructor
  · rintro ⟨ho, n, hn⟩
    cases n with
    | zero =>
      subst hn
      exact absurd ho (Outcome.not_answers_halt _ _)
    | succ n =>
      rw [hdeeper] at hn
      rw [← hn, Outcome.answers_leave] at ho
      exact ⟨_, ⟨ho, n, n, rfl⟩, hn.symm⟩
  · rintro ⟨o₁, hc, rfl⟩
    obtain ⟨ho, N, hN⟩ := continues_iff_settles.mp hc
    refine ⟨o₁.answers_leave.mpr ho, N + 1, ?_⟩
    exact (hdeeper N).trans (congrArg Outcome.leave (hN N (Nat.le_refl N) N (Nat.le_refl N)))

end SmallLisp
