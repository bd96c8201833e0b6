import SmallLisp.Proofs.Evaluation.Level

/-!
# Evaluation without a depth limit

`unguarded` evaluates as `eval` does, but nothing counts how deeply evaluations are nested. As long
as no evaluation is refused the two agree up to the gauge: what `eval` answers without a refusal
`unguarded` answers too, and `eval` answers what `unguarded` does, without a refusal, wherever the
limit leaves room for as many levels as there is fuel.
-/

namespace SmallLisp

open Evaluator

/-- The value of a form in a frame, where evaluations may be nested without limit. -/
def unguarded : Nat → Evaluator
  | 0 => fun _ _ => .halt .outOfFuel
  | fuel + 1 => fun form f => Evaluator.run (unguarded fuel) fuel form f

/-! ### Gauges -/

/-- A state with another gauge. -/
def State.regauge (s : State) (g : Gauge) : State := { s with gauge := g }

@[simp] theorem State.regauge_gauge (s : State) (g : Gauge) : (s.regauge g).gauge = g := rfl

@[simp] theorem State.regauge_regauge (s : State) (g g' : Gauge) :
    (s.regauge g).regauge g' = s.regauge g' := rfl

@[simp] theorem State.regauge_self (s : State) : s.regauge s.gauge = s := rfl

/-- An outcome whose state has another gauge. -/
def Outcome.regauge {α : Type} (o : Outcome α) (g : Gauge) : Outcome α :=
  match o with
  | .value a s => .value a (s.regauge g)
  | .error e s => .error e (s.regauge g)
  | .halt h s => .halt h (s.regauge g)

@[simp] theorem Outcome.regauge_value {α : Type} (a : α) (s : State) (g : Gauge) :
    (value a s).regauge g = value a (s.regauge g) := rfl

@[simp] theorem Outcome.regauge_error {α : Type} (e : Error) (s : State) (g : Gauge) :
    (error e s : Outcome α).regauge g = error e (s.regauge g) := rfl

@[simp] theorem Outcome.answers_regauge {α : Type} (o : Outcome α) (g : Gauge) :
    (o.regauge g).Answers ↔ o.Answers := by
  cases o <;> rfl

@[simp] theorem Outcome.regauge_regauge {α : Type} (o : Outcome α) (g g' : Gauge) :
    (o.regauge g).regauge g' = o.regauge g' := by
  cases o <;> rfl

@[simp] theorem Outcome.state_regauge {α : Type} (o : Outcome α) (g : Gauge) :
    (o.regauge g).state = o.state.regauge g := by
  cases o <;> rfl

@[simp] theorem Outcome.regauge_self {α : Type} (o : Outcome α) :
    o.regauge o.state.gauge = o := by
  cases o <;> rfl

/-! ### Runs without refusals -/

namespace Eval

variable {α β : Type} {T : Gauge → Gauge}

/-- Whether every answer of an evaluation that meets no refusal is one of another evaluation too,
where gauges are changed by `T`. Refusals are only ever added. -/
def Carries (T : Gauge → Gauge) (m m' : Eval α) : Prop := ∀ s, (m s).Answers →
  s.gauge.refusals ≤ (m s).state.gauge.refusals ∧
    ((m s).state.gauge.refusals = s.gauge.refusals →
      m' (s.regauge (T s.gauge)) = (m s).regauge (T (m s).state.gauge))

theorem Carries.bind {m m' : Eval α} {k k' : α → Eval β} (h : m.Carries T m')
    (hk : ∀ a, (k a).Carries T (k' a)) : (m >>= k).Carries T (m' >>= k') := by
  intro s ho
  rcases bind_cases rfl ho with ⟨a, s₁, hm, hka⟩ | ⟨e, s₁, hm, he⟩
  · rw [← hka] at ho ⊢
    obtain ⟨hle, heq⟩ := h s (by rw [hm]; trivial)
    obtain ⟨hle', heq'⟩ := hk a s₁ ho
    rw [hm] at hle heq
    have hle₁ : s.gauge.refusals ≤ s₁.gauge.refusals := hle
    refine ⟨Nat.le_trans hle₁ hle', fun hsame => ?_⟩
    have h₁ : s₁.gauge.refusals = s.gauge.refusals := by omega
    rw [bind_value (heq h₁)]
    exact heq' (hsame.trans h₁.symm)
  · obtain ⟨hle, heq⟩ := h s (by rw [hm]; trivial)
    rw [hm] at hle heq
    rw [he]
    exact ⟨hle, fun hsame => bind_error (heq hsame)⟩

theorem Carries.attempt {m m' : Eval α} (h : m.Carries T m') :
    m.attempt.Carries T m'.attempt := by
  intro s ho
  unfold Eval.attempt at ho ⊢
  have hs := h s
  cases hm : m s with
  | halt cause s₁ =>
    rw [hm] at ho
    exact absurd ho (Outcome.not_answers_halt _ _)
  | _ =>
    rw [hm] at hs
    obtain ⟨hle, heq⟩ := hs trivial
    exact ⟨hle, fun hsame => by rw [heq hsame]; rfl⟩

theorem Carries.of_state {m : Eval α} (hs : ∀ s, (m s).state.gauge = s.gauge)
    (hm : ∀ s g, m (s.regauge g) = (m s).regauge g) : m.Carries T m := by
  intro s _
  rw [hs s]
  exact ⟨Nat.le_refl _, fun _ => hm s _⟩

theorem readFile_regauge (path : String) (s : State) (g : Gauge) :
    Exchange.readFile path (s.regauge g) = (Exchange.readFile path s).regauge g := by
  unfold Exchange.readFile State.regauge
  cases s.disk.read? path with
  | none => rfl
  | some found =>
    cases found with
    | error cause => rfl
    | ok bytes =>
      dsimp only
      cases decodeText? bytes <;> rfl

theorem readLine_regauge (s : State) (g : Gauge) :
    Exchange.readLine (s.regauge g) = (Exchange.readLine s).regauge g := by
  unfold Exchange.readLine State.regauge
  dsimp only
  split
  · cases s.console.takeLine? with
    | none => rfl
    | some found =>
      obtain ⟨line, console⟩ := found
      dsimp only
      cases decodeText? line <;> rfl
  · rfl

theorem carries_congruence (T : Gauge → Gauge) : Congruence fun m m' => m.Carries T m' where
  exhausted _ := fun _ h => absurd h (Outcome.not_answers_halt _ _)
  pure _ := .of_state (fun _ => rfl) fun _ _ => rfl
  raise _ := .of_state (fun _ => rfl) fun _ _ => rfl
  bind := Carries.bind
  attempt := Carries.attempt
  heap := .of_state (fun _ => rfl) fun _ _ => rfl
  onHeap _ := .of_state (fun _ => rfl) fun _ _ => rfl
  onConsole _ := .of_state (fun _ => rfl) fun _ _ => rfl
  readFile path := .of_state (readFile_gauge path) (readFile_regauge path)
  readLine := .of_state readLine_gauge readLine_regauge
  clock := .of_state (fun _ => rfl) fun _ _ => rfl

/-! ### From guarded to unguarded -/

/-- Whether every answer of an evaluation that meets no refusal is one of another evaluation too,
whatever the gauge there. Refusals are only ever added. -/
def Loosens (m m' : Eval α) : Prop := ∀ s g, (m s).Answers →
  s.gauge.refusals ≤ (m s).state.gauge.refusals ∧
    ((m s).state.gauge.refusals = s.gauge.refusals → m' (s.regauge g) = (m s).regauge g)

theorem loosens_iff {m m' : Eval α} : m.Loosens m' ↔ ∀ g, m.Carries (fun _ => g) m' :=
  ⟨fun h g s => h s g, fun h s g => h g s⟩

theorem Loosens.deeper {m m' : Eval α} (h : m.Loosens m') : m.deeper.Loosens m' := by
  intro s g ho
  unfold Eval.deeper at ho ⊢
  split at ho
  · next hlt =>
    rw [if_pos hlt]
    have hs := h { s with gauge := s.gauge.enter } g
    cases hm : m { s with gauge := s.gauge.enter } with
    | halt cause s₁ =>
      rw [hm] at ho
      exact absurd ho (Outcome.not_answers_halt _ _)
    | _ =>
      rw [hm] at hs
      exact hs trivial
  · next hlt =>
    rw [if_neg hlt]
    exact ⟨Nat.le_succ _, fun hsame => absurd hsame (Nat.succ_ne_self _)⟩

/-! ### From unguarded to guarded -/

/-- Whether an evaluation answers, without a refusal, what another one answers, under every gauge
that leaves room for `room` more levels. -/
def FitsIn (room : Nat) (m m' : Eval α) : Prop := ∀ s g, (m s).Answers → g.depth + room ≤ g.limit →
  ∃ g', g'.depth = g.depth ∧ g'.limit = g.limit ∧ g'.refusals = g.refusals ∧
    m' (s.regauge g) = (m s).regauge g'

theorem FitsIn.of_regauge {room : Nat} {m : Eval α}
    (hm : ∀ s g, m (s.regauge g) = (m s).regauge g) : m.FitsIn room m :=
  fun s g _ _ => ⟨g, rfl, rfl, rfl, hm s g⟩

theorem FitsIn.bind {room : Nat} {m m' : Eval α} {k k' : α → Eval β} (h : m.FitsIn room m')
    (hk : ∀ a, (k a).FitsIn room (k' a)) : (m >>= k).FitsIn room (m' >>= k') := by
  intro s g ho hroom
  rcases bind_cases rfl ho with ⟨a, s₁, hm, hka⟩ | ⟨e, s₁, hm, he⟩
  · rw [← hka] at ho ⊢
    obtain ⟨g₁, hd, hl, hr, heq⟩ := h s g (by rw [hm]; trivial) hroom
    rw [hm] at heq
    obtain ⟨g₂, hd', hl', hr', heq'⟩ := hk a s₁ g₁ ho (by omega)
    exact ⟨g₂, hd'.trans hd, hl'.trans hl, hr'.trans hr, (bind_value heq).trans heq'⟩
  · obtain ⟨g₁, hd, hl, hr, heq⟩ := h s g (by rw [hm]; trivial) hroom
    rw [hm] at heq
    rw [he]
    exact ⟨g₁, hd, hl, hr, bind_error heq⟩

theorem FitsIn.attempt {room : Nat} {m m' : Eval α} (h : m.FitsIn room m') :
    m.attempt.FitsIn room m'.attempt := by
  intro s g ho hroom
  unfold Eval.attempt at ho ⊢
  have hs := h s g
  cases hm : m s with
  | halt cause s₁ =>
    rw [hm] at ho
    exact absurd ho (Outcome.not_answers_halt _ _)
  | _ =>
    rw [hm] at hs
    obtain ⟨g', hd, hl, hr, heq⟩ := hs trivial hroom
    exact ⟨g', hd, hl, hr, by rw [heq]; rfl⟩

theorem FitsIn.deeper {room : Nat} {m m' : Eval α} (h : m.FitsIn room m') :
    m.FitsIn (room + 1) m'.deeper := by
  intro s g ho hroom
  have hlt : g.depth < g.limit := by omega
  obtain ⟨g', hd, hl, hr, heq⟩ := h s g.enter ho (by simp only [Gauge.enter]; omega)
  refine ⟨g'.leave, by simp only [Gauge.leave, hd, Gauge.enter, Nat.add_sub_cancel], hl, hr, ?_⟩
  have hin : m' { s.regauge g with gauge := (s.regauge g).gauge.enter } = (m s).regauge g' := heq
  unfold Eval.deeper
  rw [if_pos (by exact hlt), hin]
  cases hm : m s with
  | halt cause s₁ =>
    rw [hm] at ho
    exact absurd ho (Outcome.not_answers_halt _ _)
  | _ => rfl

theorem fitsIn_congruence (room : Nat) : Congruence fun m m' => m.FitsIn room m' where
  exhausted _ := fun _ _ h => absurd h (Outcome.not_answers_halt _ _)
  pure _ := .of_regauge fun _ _ => rfl
  raise _ := .of_regauge fun _ _ => rfl
  bind := FitsIn.bind
  attempt := FitsIn.attempt
  heap := .of_regauge fun _ _ => rfl
  onHeap _ := .of_regauge fun _ _ => rfl
  onConsole _ := .of_regauge fun _ _ => rfl
  readFile path := .of_regauge (readFile_regauge path)
  readLine := .of_regauge readLine_regauge
  clock := .of_regauge fun _ _ => rfl

end Eval

/-! ### The two evaluators -/

theorem eval_loosens (n : Nat) (form : Value) (f : FrameId) :
    (eval n form f).Loosens (unguarded n form f) := by
  induction n generalizing form f with
  | zero => exact fun _ _ h => absurd h (Outcome.not_answers_halt _ _)
  | succ n ih =>
    refine Eval.Loosens.deeper (Eval.loosens_iff.mpr fun g => ?_)
    exact (Eval.carries_congruence fun _ => g).run (fun form f => Eval.loosens_iff.mp (ih form f) g)
      (Nat.le_refl n) form f

theorem unguarded_fitsIn (n : Nat) (form : Value) (f : FrameId) :
    (unguarded n form f).FitsIn n (eval n form f) := by
  induction n generalizing form f with
  | zero => exact fun _ _ h => absurd h (Outcome.not_answers_halt _ _)
  | succ n ih => exact ((Eval.fitsIn_congruence n).run ih (Nat.le_refl n) form f).deeper

theorem unguarded_extends {n n' : Nat} (h : n ≤ n') (form : Value) (f : FrameId) :
    (unguarded n form f).Extends (unguarded n' form f) := by
  induction n generalizing n' form f with
  | zero => exact fun s => .inl ⟨s, rfl⟩
  | succ n ih =>
    obtain ⟨k, rfl⟩ : ∃ k, n' = k + 1 := ⟨n' - 1, by omega⟩
    have hk : n ≤ k := by omega
    exact Eval.extends_congruence.run (fun form f => ih hk form f) hk form f

end SmallLisp
