import Mathlib
import SmallLisp.Proofs.Evaluation.Depth
import SmallLisp.Proofs.Evaluation.Parts

/-!
# Higher limits

An evaluation that fits under its depth limit fits under every higher one, and there it does the
same. Only a refusal shows what the limit is: it is an error that a program can catch, so that
evaluations with refusals may differ. The main statement is `eval_under_higher_limit`.
-/

namespace SmallLisp

open Evaluator

/-! ### Limits -/

/-- A gauge whose limit is higher by `k`. -/
def Gauge.raise (k : Nat) (g : Gauge) : Gauge := { g with limit := g.limit + k }

/-- A state under another limit. -/
def State.withLimit (s : State) (limit : Nat) : State :=
  s.regauge { s.gauge with limit := limit }

/-- An outcome whose state is under another limit. -/
def Outcome.withLimit {α : Type} (o : Outcome α) (limit : Nat) : Outcome α :=
  o.regauge { o.state.gauge with limit := limit }

theorem Gauge.raise_sub {g : Gauge} {limit : Nat} (h : g.limit ≤ limit) :
    g.raise (limit - g.limit) = { g with limit := limit } := by
  have hlimit : g.limit + (limit - g.limit) = limit := by omega
  unfold Gauge.raise
  rw [hlimit]

theorem Outcome.leave_raise {α : Type} {o : Outcome α} (ho : o.Answers) (k : Nat) :
    (o.regauge (o.state.gauge.raise k)).leave =
      o.leave.regauge (o.leave.state.gauge.raise k) := by
  cases o with
  | halt h s => exact absurd ho (Outcome.not_answers_halt h s)
  | _ => rfl

theorem Outcome.refusals_leave {α : Type} (o : Outcome α) :
    o.leave.state.gauge.refusals = o.state.gauge.refusals := by
  cases o <;> rfl

/-! ### Raising the limit -/

theorem Eval.Carries.deeper {α : Type} {k : Nat} {m m' : Eval α}
    (h : m.Carries (Gauge.raise k) m') : m.deeper.Carries (Gauge.raise k) m'.deeper := by
  intro s ho
  by_cases hlt : s.gauge.depth < s.gauge.limit
  · have hlt' : s.gauge.depth < s.gauge.limit + k := by omega
    rw [Eval.deeper_of_lt hlt] at ho ⊢
    rw [Outcome.answers_leave] at ho
    obtain ⟨hle, heq⟩ := h s.enter ho
    rw [Outcome.refusals_leave]
    refine ⟨hle, fun hsame => ?_⟩
    have hin : m' (s.regauge (s.gauge.raise k)).enter = _ := heq hsame
    rw [Eval.deeper_of_lt hlt', hin]
    exact Outcome.leave_raise ho k
  · rw [Eval.deeper_of_not_lt hlt]
    exact ⟨Nat.le_succ _, fun hsame => absurd hsame (Nat.succ_ne_self _)⟩

theorem eval_carries (k n : Nat) (form : Value) (f : FrameId) :
    (eval n form f).Carries (Gauge.raise k) (eval n form f) := by
  induction n generalizing form f with
  | zero => exact fun _ h => absurd h (Outcome.not_answers_halt _ _)
  | succ n ih =>
    exact ((Eval.carries_congruence (Gauge.raise k)).run ih (Nat.le_refl n) form f).deeper

/-- An evaluation that answers without a refusal gives the same answer under every higher limit, in
the same state, and is not refused there either. -/
theorem eval_under_higher_limit {n : Nat} {form : Value} {f : FrameId} {s : State}
    {o : Outcome Value} {limit : Nat} (h : eval n form f s = o) (ho : o.Answers)
    (hfits : o.state.gauge.refusals = s.gauge.refusals) (hlimit : s.gauge.limit ≤ limit) :
    eval n form f (s.withLimit limit) = o.withLimit limit ∧
      (o.withLimit limit).state.gauge.refusals = (s.withLimit limit).gauge.refusals := by
  subst h
  have hcarried := (eval_carries (limit - s.gauge.limit) n form f s ho).2 hfits
  have hsteady := (eval_steady n form f s ho).limit
  have hraised : (eval n form f s).state.gauge.limit ≤ limit := by omega
  rw [Gauge.raise_sub hlimit, ← hsteady, Gauge.raise_sub hraised] at hcarried
  refine ⟨hcarried, ?_⟩
  unfold Outcome.withLimit
  rw [Outcome.state_regauge]
  exact hfits

/-- A state with one frame that binds `throw`, under a depth limit. -/
def State.sampleThrow (limit : Nat) : State :=
  ⟨⟨#[⟨[("throw", .native .throw 0 none)], none⟩], #[], 1⟩, .atRest limit,
    ⟨[], true, "", ""⟩, .empty, 0⟩

/-- The form `(try* (throw 7) (catch* e e))`. -/
def Value.sampleTry : Value :=
  .ofList [.named "try*", .ofList [.named "throw", .int 7],
    .ofList [.named "catch*", .named "e", .named "e"]]

/-- The state behind this form, where a new frame binds what was caught. -/
def State.sampleCaught (caught : Value) (g : Gauge) : State :=
  ((State.sampleThrow g.limit).regauge g).withHeap
    ⟨#[⟨[("throw", .native .throw 0 none)], none⟩, ⟨[("e", caught)], some 0⟩], #[], 1⟩

theorem eval_sampleTry : eval 9 .sampleTry 0 (.sampleThrow 3) =
    .value (.int 7) (.sampleCaught (.int 7) ⟨0, 3, 3, 0⟩) := by
  cbv

theorem eval_under_higher_limit_sampleTry :
    (State.sampleCaught (.int 7) ⟨0, 3, 3, 0⟩).gauge.refusals = 0 ∧
    (State.sampleThrow 3).gauge.limit ≤ 40 ∧
    eval 9 .sampleTry 0 (.sampleThrow 40) =
      .value (.int 7) (.sampleCaught (.int 7) ⟨0, 40, 3, 0⟩) := by
  refine ⟨rfl, by decide, ?_⟩
  exact (eval_under_higher_limit eval_sampleTry trivial rfl (by decide : 3 ≤ 40)).1

end SmallLisp
