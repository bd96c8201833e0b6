import Mathlib
import SmallLisp.Proofs.Evaluation.Level
import SmallLisp.Proofs.Evaluation.Turns

/-!
# Expansion before evaluation

What a form expands to is no macro call in the state that its expansion has left, so it expands to
itself from there on, whatever the macros on the way have defined. The loop comes from a form to
what it comes to from its expansion, and fails where the expansion fails. The main statement is
`evaluation_expands_first`.
-/

namespace SmallLisp

open Evaluator

section

variable {form expanded : Value} {f : FrameId} {s s₁ : State} {k : Nat}

/-! ### Rounds of expansion -/

/-- How an expansion comes to an answer: the form is no macro call, the macro that it calls fails,
or expansion goes on with what the macro gives. -/
theorem expand_cases {eval : Evaluator} {o : Outcome Value} (h : eval.expand k form f s = o)
    (ho : o.Answers) :
    (s.heap.macroCall? f form = none ∧ o = .value form s) ∨
      ∃ j fn body args, s.heap.macroCall? f form = some (fn, body, args) ∧ k = j + 1 ∧
        ((∃ e s₁, (enter fn args >>= fun frame => eval body frame) s = .error e s₁ ∧
            o = .error e s₁) ∨
          ∃ next s₁, (enter fn args >>= fun frame => eval body frame) s = .value next s₁ ∧
            eval.expand j next f s₁ = o) := by
  cases k with
  | zero =>
    subst h
    exact absurd ho (Outcome.not_answers_halt _ _)
  | succ j =>
    rw [expand_succ] at h
    cases hm : s.heap.macroCall? f form with
    | none =>
      rw [hm] at h
      exact .inl ⟨rfl, h.symm⟩
    | some target =>
      obtain ⟨fn, body, args⟩ := target
      rw [hm] at h
      refine .inr ⟨j, fn, body, args, rfl, rfl, ?_⟩
      rcases Eval.bind_cases h ho with ⟨next, s₁, hnext, hrest⟩ | ⟨e, s₁, he, rfl⟩
      · exact .inr ⟨next, s₁, hnext, hrest⟩
      · exact .inl ⟨e, s₁, he, rfl⟩

theorem macroCall?_of_expand {eval : Evaluator}
    (h : eval.expand k form f s = .value expanded s₁) :
    s₁.heap.macroCall? f expanded = none := by
  induction k generalizing form s with
  | zero => cases h
  | succ k ih =>
    rcases expand_cases h trivial with ⟨hm, ho⟩ | ⟨j, _, _, _, _, hk, hround⟩
    · cases ho
      exact hm
    · obtain rfl : k = j := Nat.succ.inj hk
      rcases hround with ⟨e, s', _, ho⟩ | ⟨next, s', _, hrest⟩
      · cases ho
      · exact ih hrest

theorem expand_of_no_call (hm : s.heap.macroCall? f form = none) (eval : Evaluator) (k : Nat) :
    eval.expand (k + 1) form f s = .value form s := by
  rw [expand_succ, hm]

theorem expand_steady (n k : Nat) (form : Value) (f : FrameId) :
    ((eval n).expand k form f).Steady := by
  have hsteady : ∀ form f, (eval n form f).Steady := eval_steady n
  exact @Congruence.expand _ (eval n) (eval n) Eval.steady_congruence hsteady k k (Nat.le_refl k)
    form f

/-! ### The loop behind an expansion -/

theorem Continues.unique {o o' : Outcome Value} (h : Continues form f s o)
    (h' : Continues form f s o') : o = o' :=
  (continues_iff_settles.mp h).unique (continues_iff_settles.mp h')

/-- What a macro gives with some fuel it gives with more. -/
theorem settles_macroBody {n : Nat} {fn : Lambda} {body : Value} {args : List Value}
    {o : Outcome Value} (h : (enter fn args >>= fun frame => eval n body frame) s = o)
    (ho : o.Answers) :
    Settles (fun n _ => enter fn args >>= fun frame => eval n body frame) s o := by
  refine .of_extends (fun hn => ?_) h ho
  exact (Eval.Extends.refl (enter fn args)).bind fun frame => eval_extends hn body frame

theorem continues_iff_of_expand {n : Nat} {o : Outcome Value}
    (h : (eval n).expand k form f s = .value expanded s₁) :
    Continues form f s o ↔ Continues expanded f s₁ o := by
  induction k generalizing form s with
  | zero => cases h
  | succ k ih =>
    rcases expand_cases h trivial with ⟨_, ho⟩ | ⟨j, _, _, _, hm, hk, hround⟩
    · cases ho
      exact Iff.rfl
    · obtain rfl : k = j := Nat.succ.inj hk
      rcases hround with ⟨e, s', _, ho⟩ | ⟨next, s', hnext, hrest⟩
      · cases ho
      · have hmacro := settles_macroBody hnext trivial
        rw [← ih hrest, continues_iff_settles, continues_iff_settles]
        exact settles_run_expansion_iff hm hmacro

theorem continues_of_expand_error {n : Nat} {e : Error}
    (h : (eval n).expand k form f s = .error e s₁) : Continues form f s (.error e s₁) := by
  induction k generalizing form s with
  | zero => cases h
  | succ k ih =>
    rcases expand_cases h trivial with ⟨_, ho⟩ | ⟨j, _, _, _, hm, hk, hround⟩
    · cases ho
    · obtain rfl : k = j := Nat.succ.inj hk
      rw [continues_iff_settles]
      rcases hround with ⟨e', s', he, ho⟩ | ⟨next, s', hnext, hrest⟩
      · cases ho
        exact settles_run_expansionFails hm (settles_macroBody he trivial)
      · have hbehind := continues_iff_settles.mp (ih hrest)
        exact (settles_run_expansion_iff hm (settles_macroBody hnext trivial)).mpr hbehind

end

/-! ### The main statement -/

/-- If a form expands, then its expansion is no macro call in the state that was left, expands to
itself there without a change, and is what the loop comes to the same from, at the same depth. If
its expansion fails, the loop fails in the same way. -/
theorem evaluation_expands_first (form : Value) (f : FrameId) (s : State) :
    (∀ n k expanded s₁, (eval n).expand k form f s = .value expanded s₁ →
      s₁.heap.macroCall? f expanded = none ∧
      (∀ n k, (eval n).expand (k + 1) expanded f s₁ = .value expanded s₁) ∧ s.Level s₁ ∧
      ∀ o, Continues form f s o ↔ Continues expanded f s₁ o) ∧
    ∀ n k e s₁, (eval n).expand k form f s = .error e s₁ →
      ∀ o, Continues form f s o ↔ o = .error e s₁ := by
  constructor
  · intro n k expanded s₁ h
    have hm := macroCall?_of_expand h
    have hlevel := expand_steady n k form f s
    rw [h] at hlevel
    exact ⟨hm, fun n k => expand_of_no_call hm (eval n) k, hlevel trivial,
      fun o => continues_iff_of_expand h⟩
  · intro n k e s₁ h o
    have herror := continues_of_expand_error h
    constructor
    · exact fun ho => ho.unique herror
    · rintro rfl
      exact herror

/-- The body `(do (eval (quote (define m 5))) (quote (m)))` of a macro `m`, which binds `m` anew
and expands to a call of it. -/
def Value.sampleRebinding : Value :=
  .ofList [.named "do",
    .ofList [.named "eval", .ofList [.named "quote",
      .ofList [.named "define", .named "m", .int 5]]],
    .ofList [.named "quote", .ofList [.named "m"]]]

/-- A state whose root binds `eval`, and `m` to what is given, with further frames below. -/
def State.sampleRebound (m : Value) (more : List Frame) (g : Gauge) : State :=
  ⟨⟨(⟨[("eval", .native (.eval 0) 0 none), ("m", m)], none⟩ :: more).toArray, #[], 2⟩, g,
    ⟨[], true, "", ""⟩, .empty, 0⟩

/-- The state in which `m` is a macro with this body, inside of an evaluation. -/
def State.sampleMacro : State :=
  .sampleRebound (.closure ⟨1, ⟨[], none⟩, 0, true⟩ .sampleRebinding none) [] ⟨1, 9, 1, 0⟩

/-- A macro with one parameter. -/
def Value.sampleUnary : Value := .closure ⟨1, ⟨[⟨"x"⟩], none⟩, 0, true⟩ .nil none

def State.sampleUnary : State := .sampleRebound .sampleUnary [] ⟨1, 9, 1, 0⟩

theorem expand_sampleRebinding :
    (eval 9).expand 9 (.ofList [.named "m"]) 0 .sampleMacro =
      .value (.ofList [.named "m"]) (.sampleRebound (.int 5) [⟨[], some 0⟩] ⟨1, 9, 5, 0⟩) := by
  cbv

theorem expand_sampleUnary :
    (eval 9).expand 9 (.ofList [.named "m"]) 0 .sampleUnary =
      .error (.fault (.arity (.exactly 1) 0 none)) .sampleUnary := by
  cbv

theorem evaluation_expands_first_sampleRebinding :
    (State.sampleMacro.heap.macroCall? 0 (.ofList [.named "m"])).isSome = true ∧
    (∀ o, Continues (.ofList [.named "m"]) 0 .sampleMacro o ↔
      Continues (.ofList [.named "m"]) 0
        (.sampleRebound (.int 5) [⟨[], some 0⟩] ⟨1, 9, 5, 0⟩) o) ∧
    ∀ o, Continues (.ofList [.named "m"]) 0 .sampleUnary o ↔
      o = .error (.fault (.arity (.exactly 1) 0 none)) .sampleUnary := by
  refine ⟨by cbv, ?_, ?_⟩
  · exact ((evaluation_expands_first _ _ _).1 9 9 _ _ expand_sampleRebinding).2.2.2
  · exact (evaluation_expands_first _ _ _).2 9 9 _ _ expand_sampleUnary

end SmallLisp
