import Mathlib
import SmallLisp.Proofs.Evaluation.Expansion
import SmallLisp.Proofs.Evaluation.Instantiation
import SmallLisp.Proofs.Evaluation.TailPosition
import SmallLisp.Proofs.Heap.Frames

/-!
# Unwinding

However an evaluation ends, it leaves the depth at which it began, and no turn of the loop is ever
taken above the limit. What a tried form has done before it failed remains: the handler of the error
begins in the state that the tried form has left, at the depth at which the tried form began, in a
new frame that binds what was caught and nothing else. The main statement is
`unwinding_restores_depth`.
-/

namespace SmallLisp

open Evaluator

/-! ### Turns above the limit -/

/-- The loop, where every turn that begins above the limit does something else. -/
def Evaluator.runBelow (eval : Evaluator) (above : Eval Value) : Nat → Value → FrameId → Eval Value
  | 0, _, _ => .halt .outOfFuel
  | fuel + 1, form, f => fun s =>
    if s.gauge.depth ≤ s.gauge.limit then
      (do
        match ← eval.expand fuel form f with
        | .list (head :: args) _ =>
          match ← eval.stepList fuel head args f with
          | .done v => return v
          | .goOn next g => runBelow eval above fuel next g
        | form => eval.evalData form f) s
    else above s

/-- The value of a form, where every turn of a loop above the limit does something else. -/
def evalBelow (above : Eval Value) : Nat → Evaluator
  | 0 => fun _ _ => .halt .outOfFuel
  | fuel + 1 => fun form f =>
    .deeper (Evaluator.runBelow (evalBelow above fuel) above fuel form f)

theorem Eval.Steady.bind_congr {α β : Type} {m : Eval α} (h : m.Steady) {k k' : α → Eval β}
    {s : State} (hk : ∀ a s₁, s.Level s₁ → k a s₁ = k' a s₁) : (m >>= k) s = (m >>= k') s := by
  rw [Eval.bind_apply, Eval.bind_apply]
  cases hm : m s with
  | value a s₁ =>
    have hlevel := h s (by rw [hm]; trivial)
    rw [hm] at hlevel
    exact hk a s₁ hlevel
  | error e s₁ => rfl
  | halt cause s₁ => rfl

theorem stepList_steady (n k : Nat) (head : Value) (args : List Value) (f : FrameId) :
    ((eval n).stepList k head args f).Steady :=
  @Congruence.stepList _ (eval n) (eval n) Eval.steady_congruence (eval_steady n) k k
    (Nat.le_refl k) head args f

theorem runBelow_eq (above : Eval Value) (n k : Nat) (form : Value) (f : FrameId) {s : State}
    (hs : s.gauge.depth ≤ s.gauge.limit) :
    (eval n).runBelow above k form f s = (eval n).run k form f s := by
  induction k generalizing form f s with
  | zero => rfl
  | succ k ih =>
    have hbelow : ∀ s₁, s.Level s₁ → s₁.gauge.depth ≤ s₁.gauge.limit := by
      intro s₁ hlevel
      rw [hlevel.depth, hlevel.limit]
      exact hs
    unfold runBelow
    rw [if_pos hs]
    -- Expansion and steps leave the depth at which the turn began, so the next turn begins there.
    refine (expand_steady n k form f).bind_congr fun expanded s₁ h₁ => ?_
    cases expanded with
    | list items m =>
      cases items with
      | nil => rfl
      | cons head args =>
        refine (stepList_steady n k head args f).bind_congr fun step s₂ h₂ => ?_
        cases step with
        | done v => rfl
        | goOn next g => exact ih next g (hbelow s₂ (h₁.trans h₂))
    | _ => rfl

theorem evalBelow_eq (above : Eval Value) (n : Nat) : evalBelow above n = eval n := by
  induction n with
  | zero => rfl
  | succ n ih =>
    funext form f s
    change Eval.deeper ((evalBelow above n).runBelow above n form f) s = _
    rw [ih]
    by_cases hlt : s.gauge.depth < s.gauge.limit
    · have hin : s.enter.gauge.depth ≤ s.enter.gauge.limit := hlt
      have heval : eval (n + 1) form f s = ((eval n).run n form f s.enter).leave :=
        Eval.deeper_of_lt hlt
      rw [Eval.deeper_of_lt hlt, runBelow_eq above n n form f hin, heval]
    · have heval : eval (n + 1) form f s = _ := Eval.deeper_of_not_lt hlt
      rw [Eval.deeper_of_not_lt hlt, heval]

/-! ### The greatest depth -/

/-- Whether an evaluation keeps the limit, and is at no time deeper than the limit or than
evaluations were before. -/
def Eval.StaysInLimit {α : Type} (m : Eval α) : Prop := ∀ s,
  (m s).state.gauge.limit = s.gauge.limit ∧
    (m s).state.gauge.peak ≤ max s.gauge.peak s.gauge.limit

theorem Eval.StaysInLimit.of_gauge {α : Type} {m : Eval α}
    (h : ∀ s, (m s).state.gauge = s.gauge) : m.StaysInLimit := by
  intro s
  rw [h s]
  exact ⟨rfl, Nat.le_max_left _ _⟩

theorem Eval.StaysInLimit.bind {α β : Type} {m : Eval α} {k : α → Eval β} (h : m.StaysInLimit)
    (hk : ∀ a, (k a).StaysInLimit) : (m >>= k).StaysInLimit := by
  intro s
  have hs := h s
  rw [Eval.bind_apply]
  cases hm : m s with
  | value a s₁ =>
    rw [hm] at hs
    obtain ⟨hlimit, hpeak⟩ := hs
    obtain ⟨hlimit', hpeak'⟩ := hk a s₁
    simp only [Outcome.state] at hlimit hpeak
    refine ⟨hlimit'.trans hlimit, ?_⟩
    change (k a s₁).state.gauge.peak ≤ _
    omega
  | _ =>
    rw [hm] at hs
    exact hs

theorem Eval.StaysInLimit.attempt {α : Type} {m : Eval α} (h : m.StaysInLimit) :
    m.attempt.StaysInLimit := by
  intro s
  have hs := h s
  unfold Eval.attempt
  cases hm : m s with
  | _ =>
    rw [hm] at hs
    exact hs

theorem Eval.StaysInLimit.deeper {α : Type} {m : Eval α} (h : m.StaysInLimit) :
    m.deeper.StaysInLimit := by
  intro s
  by_cases hlt : s.gauge.depth < s.gauge.limit
  · have hleave : ∀ o : Outcome α, o.leave.state.gauge.limit = o.state.gauge.limit ∧
        o.leave.state.gauge.peak = o.state.gauge.peak := by
      intro o
      cases o <;> exact ⟨rfl, rfl⟩
    obtain ⟨hlimit, hpeak⟩ := h s.enter
    obtain ⟨hlimit', hpeak'⟩ := hleave (m s.enter)
    simp only [State.enter, Gauge.enter] at hlimit hpeak hlimit' hpeak'
    rw [Eval.deeper_of_lt hlt]
    refine ⟨hlimit'.trans hlimit, ?_⟩
    simp only [State.enter, Gauge.enter]
    omega
  · rw [Eval.deeper_of_not_lt hlt]
    exact ⟨rfl, Nat.le_max_left _ _⟩

theorem Eval.staysInLimit_congruence : Congruence fun m _ => m.StaysInLimit where
  exhausted _ := .of_gauge fun _ => rfl
  pure _ := .of_gauge fun _ => rfl
  raise _ := .of_gauge fun _ => rfl
  bind := Eval.StaysInLimit.bind
  attempt := Eval.StaysInLimit.attempt
  heap := .of_gauge fun _ => rfl
  onHeap _ := .of_gauge fun _ => rfl
  onConsole _ := .of_gauge fun _ => rfl
  readFile path := .of_gauge (Eval.readFile_gauge path)
  readLine := .of_gauge Eval.readLine_gauge
  clock := .of_gauge fun _ => rfl

theorem eval_staysInLimit (n : Nat) (form : Value) (f : FrameId) :
    (eval n form f).StaysInLimit := by
  induction n generalizing form f with
  | zero => exact .of_gauge fun _ => rfl
  | succ n ih =>
    have hrun : ((eval n).run n form f).StaysInLimit :=
      @Congruence.run _ (eval n) (eval n) Eval.staysInLimit_congruence ih n n (Nat.le_refl n) form f
    exact hrun.deeper

/-! ### What is tried -/

/-- The form `(try* body (catch* x handler))`. -/
def Value.tried (body : Value) (x : Symbol) (handler : Value) (m m' : Option Value) : Value :=
  .list [.named "try*", body, .list [.named "catch*", .symbol x, handler] m'] m

/-- `Attempts body x handler f s o`: the body has a value, or fails and leaves a state in which the
handler has the outcome `o`. There it is evaluated in a new frame, which binds the symbol to what was
thrown or to the wording of a fault. -/
inductive Attempts (body : Value) (x : Symbol) (handler : Value) (f : FrameId) (s : State) :
    Outcome Value → Prop where
  | returns {v s₁} (h : Ends body f s (.value v s₁)) : Attempts body x handler f s (.value v s₁)
  | thrown {v s₁ o} (h : Ends body f s (.error (.thrown v) s₁))
      (hh : Ends handler s₁.heap.frames.size (s₁.below f [(x.name, v)]) o) :
      Attempts body x handler f s o
  | failed {fault s₁ o} (h : Ends body f s (.error (.fault fault) s₁))
      (hh : Ends handler s₁.heap.frames.size (s₁.below f [(x.name, .str fault.message)]) o) :
      Attempts body x handler f s o

section

variable {body handler : Value} {x : Symbol} {f : FrameId} {s : State} {o : Outcome Value}

theorem Attempts.handled {e : Error} {s₁ : State} (h : Ends body f s (.error e s₁))
    (hh : Ends handler s₁.heap.frames.size (s₁.below f [(x.name, e.caught)]) o) :
    Attempts body x handler f s o := by
  cases e with
  | thrown v => exact .thrown h hh
  | fault fault => exact .failed h hh

/-- How an attempt comes to its outcome: the body has it, or its error is handled. -/
theorem Attempts.cases_handled (h : Attempts body x handler f s o) :
    (∃ v s₁, Ends body f s (.value v s₁) ∧ o = .value v s₁) ∨
      ∃ e s₁, Ends body f s (.error e s₁) ∧
        Ends handler s₁.heap.frames.size (s₁.below f [(x.name, e.caught)]) o := by
  cases h with
  | returns h => exact .inl ⟨_, _, h, rfl⟩
  | thrown h hh => exact .inr ⟨_, _, h, hh⟩
  | failed h hh => exact .inr ⟨_, _, h, hh⟩

theorem handle_eq (eval : Evaluator) (f : FrameId) (x : Symbol) (handler : Value) (e : Error)
    (s : State) : Special.handle eval f x handler e s =
      eval handler s.heap.frames.size (s.below f [(x.name, e.caught)]) := by
  have hbound : (s.below f []).withHeap ((s.below f []).heap.set s.heap.frames.size x e.caught) =
      s.below f [(x.name, e.caught)] := congrArg s.withHeap Heap.set_newFrame
  rw [← hbound]
  exact Eval.bind_value (childOf_eq rfl)

theorem settles_attempt_iff :
    Settles (fun n k => (Construct.attempt body (some (x, handler))).step (eval n) k f >>=
      (eval n).follow k) s o ↔ Attempts body x handler f s o := by
  simp only [attempt_follow]
  constructor
  · rintro ⟨ho, N, hN⟩
    have hrun := hN N (Nat.le_refl N) N (Nat.le_refl N)
    rcases Eval.bind_cases hrun ho with ⟨result, s₁, hbody, hrest⟩ | ⟨e, s₁, hbody, _⟩
    · rcases Eval.attempt_cases hbody trivial with ⟨v, s₂, hv, hresult⟩ | ⟨e, s₂, he, hresult⟩
      · cases hresult
        subst hrest
        exact .returns ⟨trivial, N, hv⟩
      · cases hresult
        have hhandled := (handle_eq (eval N) f x handler e s₁).symm.trans hrest
        exact .handled ⟨trivial, N, he⟩ ⟨ho, N, hhandled⟩
    · rcases Eval.attempt_cases hbody trivial with ⟨_, _, _, hresult⟩ | ⟨_, _, _, hresult⟩
      · cases hresult
      · cases hresult
  · intro h
    rcases h.cases_handled with ⟨v, s₁, hbody, rfl⟩ | ⟨e, s₁, hbody, hh⟩
    · exact (ends_iff_settles.mp hbody).attempt_value.bind (.of_eq trivial fun _ _ => rfl)
    · obtain ⟨ho, N, hN⟩ := ends_iff_settles.mp hh
      have hhandled : Settles (fun n _ => Special.handle (eval n) f x handler e) s₁ o :=
        ⟨ho, N, fun n hn k hk => (handle_eq (eval n) f x handler e s₁).trans (hN n hn k hk)⟩
      exact (ends_iff_settles.mp hbody).attempt_error.bind hhandled

theorem continues_tried_iff (hm : ¬ s.heap.IsMacro f "try*") (m m' : Option Value) :
    Continues (.tried body x handler m m') f s o ↔ Attempts body x handler f s o := by
  have hnone := macroCall?_named hm [body, .list [.named "catch*", .symbol x, handler] m'] m
  have hfinish : ∀ n k, (eval n).finish k (.tried body x handler m m') f s =
      ((Construct.attempt body (some (x, handler))).step (eval n) k f >>= (eval n).follow k) s :=
    fun n k => congrFun (finish_construct rfl rfl (eval n) k m f) s
  rw [continues_iff_settles]
  exact (settles_run_iff hnone).trans ((Settles.congr_iff hfinish).trans settles_attempt_iff)

end

/-! ### The main statement -/

/-- Every value and every error leaves the depth and the limit as they were, and no turn is taken
above the limit: the loop in which such turns do something else, whatever it is, behaves alike. A
tried form with a handler, where `try*` is no macro, comes to what the attempt of its body comes to,
and the handler begins at the depth and under the limit at which the body began. -/
theorem unwinding_restores_depth :
    (∀ n form f s, (eval n form f s).Answers → s.Level (eval n form f s).state) ∧
    (∀ above n, evalBelow above n = eval n) ∧
    (∀ n form f s, (eval n form f s).state.gauge.peak ≤ max s.gauge.peak s.gauge.limit) ∧
    ∀ body x handler m m' f s, ¬ s.heap.IsMacro f "try*" →
      (∀ o, Continues (.tried body x handler m m') f s o ↔ Attempts body x handler f s o) ∧
      (s.gauge.depth < s.gauge.limit → ∀ o, Ends (.tried body x handler m m') f s o ↔
        ∃ o₁, Attempts body x handler f s.enter o₁ ∧ o = o₁.leave) ∧
      ∀ e s₁ bindings, Ends body f s (.error e s₁) → s.Level (s₁.below f bindings) := by
  refine ⟨eval_steady, evalBelow_eq, fun n form f s => (eval_staysInLimit n form f s).2, ?_⟩
  intro body x handler m m' f s hm
  have hentered : ¬ s.enter.heap.IsMacro f "try*" := hm
  refine ⟨fun o => continues_tried_iff hm m m', fun hlt o => ?_, fun e s₁ bindings h => ?_⟩
  · rw [ends_iff_continues hlt]
    exact exists_congr fun o₁ => and_congr_left fun _ => continues_tried_iff hentered m m'
  · have hlevel := h.level
    exact ⟨hlevel.depth, hlevel.limit⟩

/-- The body `(do (deep) 1)` of a function `deep`, which nests without end. -/
def Value.sampleDeep : Value := .ofList [.named "do", .ofList [.named "deep"], .int 1]

/-- A state whose root binds this function, with further frames below. -/
def State.sampleDeep (more : List Frame) (g : Gauge) : State :=
  ⟨⟨(⟨[("deep", .closure ⟨0, ⟨[], none⟩, 0, false⟩ .sampleDeep none)], none⟩ :: more).toArray, #[],
    1⟩, g, ⟨[], true, "", ""⟩, .empty, 0⟩

/-- What a handler is told of a form that was refused for its depth. -/
def sampleRefusal : String := "Stack overflow: maximum recursion depth (3) exceeded"

/-- The states behind a call of `deep` under the limit 3, and behind the handling of its error. -/
def State.sampleRefused (depth : Nat) (handled : List Frame) : State :=
  .sampleDeep (⟨[], some 0⟩ :: handled) ⟨depth, 3, 3, 1⟩

theorem unwinding_restores_depth_sampleDeep :
    Ends (.tried (.ofList [.named "deep"]) ⟨"e"⟩ (.named "e") none none) 0
      (.sampleDeep [] (.atRest 3)) (.value (.str sampleRefusal)
        (.sampleRefused 0 [⟨[("e", .str sampleRefusal)], some 0⟩])) ∧
    (State.sampleDeep [] ⟨1, 3, 1, 0⟩).Level (.sampleRefused 1 []) := by
  have hm : ¬ (State.sampleDeep [] (.atRest 3)).heap.IsMacro 0 "try*" :=
    not_isMacro_of_unbound (by cbv)
  have hlt : (State.sampleDeep [] (.atRest 3)).gauge.depth <
      (State.sampleDeep [] (.atRest 3)).gauge.limit := by
    decide
  have hbody : Ends (.ofList [.named "deep"]) 0 (.sampleDeep [] ⟨1, 3, 1, 0⟩)
      (.error (.fault (.tooDeep 3)) (.sampleRefused 1 [])) := ⟨trivial, 9, by cbv⟩
  have hmessage : (Fault.tooDeep 3).message = sampleRefusal := by decide
  have hhandler : Ends (.named "e") 2
      ((State.sampleRefused 1 []).below 0 [("e", .str sampleRefusal)])
      (.value (.str sampleRefusal)
        (.sampleRefused 1 [⟨[("e", .str sampleRefusal)], some 0⟩])) := ⟨trivial, 9, by cbv⟩
  rw [← hmessage] at hhandler
  obtain ⟨hsteady, _, _, htried⟩ := unwinding_restores_depth
  obtain ⟨_, hends, _⟩ := htried (.ofList [.named "deep"]) ⟨"e"⟩ (.named "e") none none 0 _ hm
  obtain ⟨_, n, hn⟩ := hbody
  have hlevel := hsteady n (.ofList [.named "deep"]) 0 (.sampleDeep [] ⟨1, 3, 1, 0⟩)
  rw [hn] at hlevel
  exact ⟨(hends hlt _).mpr ⟨_, .failed ⟨trivial, n, hn⟩ hhandler, rfl⟩, hlevel trivial⟩

/-- A state in which `try*` is bound to a macro that gives one. -/
def State.samplePreemptedTry : State :=
  ⟨⟨#[⟨[("try*", .closure ⟨0, ⟨[⟨"body"⟩, ⟨"clause"⟩], none⟩, 0, true⟩ (.int 1) none)], none⟩], #[],
    1⟩, .atRest 9, ⟨[], true, "", ""⟩, .empty, 0⟩

/-- A macro takes precedence over the special form `try*`, whose body is then not evaluated. -/
theorem try_of_macro :
    (∃ s, eval 9 (.tried (.int 2) ⟨"e"⟩ (.named "e") none none) 0 .samplePreemptedTry =
      .value (.int 1) s ∧ s.gauge.refusals = 0) ∧
    (∃ s, Ends (.int 2) 0 State.samplePreemptedTry.enter (.value (.int 2) s)) ∧
    ∀ v s, Attempts (.int 2) ⟨"e"⟩ (.named "e") 0 State.samplePreemptedTry.enter (.value v s) →
      v = .int 2 := by
  have hbody : Ends (.int 2) 0 State.samplePreemptedTry.enter
      (.value (.int 2) (State.samplePreemptedTry.regauge ⟨1, 9, 2, 0⟩)) := ⟨trivial, 9, by cbv⟩
  refine ⟨⟨_, by cbv, rfl⟩, ⟨_, hbody⟩, fun v s h => ?_⟩
  cases h with
  | returns h =>
    cases (ends_iff_settles.mp h).unique (ends_iff_settles.mp hbody)
    rfl
  | thrown h => cases (ends_iff_settles.mp h).unique (ends_iff_settles.mp hbody)
  | failed h => cases (ends_iff_settles.mp h).unique (ends_iff_settles.mp hbody)

end SmallLisp
