import SmallLisp.Proofs.Evaluation.Parts

/-!
# Turns of the loop

What the loop comes to from a form, in terms of what a turn does with it. The evaluator of the
nested evaluations may be any that fuel is given to. A form that is no macro call is finished as it
stands, and one that is a macro call takes the loop to what the loop takes its expansion to. A call
goes on in the same way wherever it stands.
-/

namespace SmallLisp

open Evaluator

theorem expand_extends (eval : Evaluator) {k k' : Nat} (h : k ≤ k') (form : Value) (f : FrameId) :
    (eval.expand k form f).Extends (eval.expand k' form f) :=
  Eval.extends_congruence.expand (fun form f => .refl (eval form f)) h form f

theorem finish_extends (eval : Evaluator) {k k' : Nat} (h : k ≤ k') (form : Value) (f : FrameId) :
    (eval.finish k form f).Extends (eval.finish k' form f) := by
  have C := Eval.extends_congruence
  have hsame : ∀ form f, (eval form f).Extends (eval form f) := fun form f => .refl _
  cases form with
  | list items m =>
    cases items with
    | nil => exact .refl _
    | cons head args =>
      refine (C.stepList hsame h head args f).bind fun step => ?_
      cases step with
      | done v => exact .refl _
      | goOn form g => exact C.run hsame h form g
  | _ => exact .refl _

section

variable {E : Nat → Evaluator} {form : Value} {f : FrameId} {s s₁ : State} {o : Outcome Value}

/-- A form that is no macro call is finished as it stands. -/
theorem run_eq_finish (hm : s.heap.macroCall? f form = none) (eval : Evaluator) (k : Nat) :
    eval.run (k + 2) form f s = eval.finish (k + 1) form f s := by
  rw [run_succ, expand_succ_bind, hm]

theorem settles_run_iff (hm : s.heap.macroCall? f form = none) :
    Settles (fun n k => (E n).run k form f) s o ↔ Settles (fun n k => (E n).finish k form f) s o := by
  constructor
  · rintro ⟨ho, N, hN⟩
    refine ⟨ho, N + 1, fun n hn k hk => ?_⟩
    obtain ⟨j, rfl⟩ : ∃ j, k = j + 1 := ⟨k - 1, by omega⟩
    exact (run_eq_finish hm (E n) j).symm.trans (hN n (by omega) (j + 2) (by omega))
  · rintro ⟨ho, N, hN⟩
    refine ⟨ho, N + 2, fun n hn k hk => ?_⟩
    obtain ⟨j, rfl⟩ : ∃ j, k = j + 2 := ⟨k - 2, by omega⟩
    exact (run_eq_finish hm (E n) j).trans (hN n (by omega) (j + 1) (by omega))

theorem settles_run_expansion_iff {fn : Lambda} {body expanded : Value} {args : List Value}
    (hm : s.heap.macroCall? f form = some (fn, body, args))
    (hx : Settles (fun n _ => enter fn args >>= fun frame => E n body frame) s
      (.value expanded s₁)) :
    Settles (fun n k => (E n).run k form f) s o ↔
      Settles (fun n k => (E n).run k expanded f) s₁ o := by
  obtain ⟨_, N, hN⟩ := hx
  have hturn : ∀ n ≥ N, ∀ j, (E n).run (j + 1 + 1) form f s =
      ((E n).expand j expanded f >>= fun form => (E n).finish (j + 1) form f) s₁ := by
    intro n hn j
    rw [run_succ, expand_succ_bind, hm]
    exact Eval.bind_value (hN n hn N (Nat.le_refl N))
  constructor
  · rintro ⟨ho, N', hN'⟩
    refine ⟨ho, max N N' + 2, fun n hn k hk => ?_⟩
    obtain ⟨j, rfl⟩ : ∃ j, k = j + 1 + 1 := ⟨k - 2, by omega⟩
    have hrun := (hturn n (by omega) j).symm.trans (hN' n (by omega) (j + 1 + 1) (by omega))
    -- A turn from the expansion itself has one more unit of fuel to expand it further.
    have hext := (expand_extends (E n) (Nat.le_succ j) expanded f).bind
      fun form => .refl ((E n).finish (j + 1) form f)
    change (E n).run (j + 1 + 1) expanded f s₁ = o
    rw [run_succ]
    exact hext.answer hrun ho
  · rintro ⟨ho, N', hN'⟩
    refine ⟨ho, max N N' + 2, fun n hn k hk => ?_⟩
    obtain ⟨j, rfl⟩ : ∃ j, k = j + 1 + 1 := ⟨k - 2, by omega⟩
    have hrun : (E n).run (j + 1) expanded f s₁ = o := hN' n (by omega) (j + 1) (by omega)
    rw [run_succ] at hrun
    have hext := (Eval.Extends.refl ((E n).expand j expanded f)).bind
      fun form => finish_extends (E n) (Nat.le_succ j) form f
    exact (hturn n (by omega) j).trans (hext.answer hrun ho)

theorem settles_run_expansionFails {fn : Lambda} {body : Value} {args : List Value} {e : Error}
    (hm : s.heap.macroCall? f form = some (fn, body, args))
    (hx : Settles (fun n _ => enter fn args >>= fun frame => E n body frame) s (.error e s₁)) :
    Settles (fun n k => (E n).run k form f) s (.error e s₁) := by
  obtain ⟨_, N, hN⟩ := hx
  refine ⟨trivial, N + 2, fun n hn k hk => ?_⟩
  obtain ⟨j, rfl⟩ : ∃ j, k = j + 1 + 1 := ⟨k - 2, by omega⟩
  change (E n).run (j + 1 + 1) form f s = _
  rw [run_succ, expand_succ_bind, hm]
  exact Eval.bind_error (hN n (by omega) (j + N) (by omega))

/-! ### Data -/

theorem settles_literal (h : form.IsLiteral) (f : FrameId) (s : State) :
    Settles (fun n k => (E n).run k form f) s (.value form s) := by
  refine (settles_run_iff (macroCall?_literal h s.heap f)).mpr (.of_eq trivial fun n k => ?_)
  rw [finish_literal h]
  rfl

theorem finish_bound {eval : Evaluator} {x : Symbol} {v : Value} (k : Nat)
    (h : s.heap.lookup? f x = some v) : eval.finish k (.symbol x) f s = .value v s :=
  evalData_bound h eval

theorem finish_unbound {eval : Evaluator} {x : Symbol} (k : Nat)
    (h : s.heap.lookup? f x = none) :
    eval.finish k (.symbol x) f s = .error (.fault (.undefinedSymbol x)) s :=
  evalData_unbound h eval

/-! ### Lists -/

theorem finish_construct {head : Value} {args : List Value} {op : Special} {c : Construct}
    (hop : Special.ofHead? head = some op) (hc : op.parse args = .ok c) (eval : Evaluator)
    (fuel : Nat) (m : Option Value) (f : FrameId) :
    eval.finish fuel (.list (head :: args) m) f = c.step eval fuel f >>= eval.follow fuel := by
  change eval.stepList fuel head args f >>= eval.follow fuel = _
  rw [stepList_special hop, step_eq, hc, Eval.ofExcept_ok, pure_bind]

theorem finish_malformed {head : Value} {args : List Value} {op : Special} {fault : Fault}
    (hop : Special.ofHead? head = some op) (hc : op.parse args = .error fault) (eval : Evaluator)
    (fuel : Nat) (m : Option Value) (f : FrameId) :
    eval.finish fuel (.list (head :: args) m) f = .fail fault := by
  change eval.stepList fuel head args f >>= eval.follow fuel = _
  rw [stepList_special hop, step_eq, hc]
  rfl

theorem finish_call {head : Value} (hop : Special.ofHead? head = none) (eval : Evaluator)
    (fuel : Nat) (args : List Value) (m : Option Value) (f : FrameId) :
    eval.finish fuel (.list (head :: args) m) f = (eval head f >>= fun fn =>
      Eval.forEach (eval · f) args >>= fun vs =>
        eval.stepApply fuel fn vs >>= eval.follow fuel) := by
  change eval.stepList fuel head args f >>= eval.follow fuel = _
  rw [stepList_call hop]
  simp only [bind_assoc]

/-- Where the form of a `try*` form fails, what is left to do is to handle the error. -/
theorem run_of_caught {eval : Evaluator} {k : Nat} {head body handler : Value} {args : List Value}
    {m : Option Value} {x : Symbol} {e : Error} (hop : Special.ofHead? head = some .tryForm)
    (hm : s.heap.macroCall? f (.list (head :: args) m) = none)
    (hparts : Special.attempt args = .ok (body, some (x, handler)))
    (hbody : eval body f s = .error e s₁) :
    eval.run (k + 2) (.list (head :: args) m) f s = Special.handle eval f x handler e s₁ := by
  have hparse : Special.tryForm.parse args = .ok (.attempt body (some (x, handler))) := by
    unfold Special.parse
    rw [hparts]
    rfl
  have hattempt : (eval body f).attempt s = .value (.error e) s₁ := by
    unfold Eval.attempt
    rw [hbody]
  rw [run_eq_finish hm, finish_construct hop hparse, attempt_follow, Eval.bind_value hattempt]

end

/-! ### Calls -/

/-- `eval.ComesToCall k form f s fn vs t`: the evaluation of a form comes to an ordinary call, of a
function with some arguments, in a state `t`. By then it has expanded the form and has evaluated the
head and the arguments that it has expanded to. -/
inductive Evaluator.ComesToCall (eval : Evaluator) (k : Nat) (form : Value) (f : FrameId)
    (s : State) (fn : Value) (vs : List Value) (t : State) : Prop where
  | ordinary {head args m s₁ s₂}
      (hexpand : eval.expand k form f s = .value (.list (head :: args) m) s₁)
      (hop : Special.ofHead? head = none) (hhead : eval head f s₁ = .value fn s₂)
      (hargs : Eval.forEach (eval · f) args s₂ = .value vs t)

/-- Nothing of the form and of its frame counts from there on. -/
theorem run_of_comesToCall {eval : Evaluator} {k : Nat} {form fn : Value} {f : FrameId}
    {vs : List Value} {s t : State} (h : eval.ComesToCall k form f s fn vs t) :
    eval.run (k + 1) form f s = (eval.stepApply k fn vs >>= eval.follow k) t := by
  obtain ⟨hexpand, hop, hhead, hargs⟩ := h
  rw [run_succ, Eval.bind_value hexpand, finish_call hop, Eval.bind_value hhead,
    Eval.bind_value hargs]

/-- `eval.ExpandsOnce form f s fn args`: a form is the call of a macro on some forms, and what that
gives is no macro call. -/
inductive Evaluator.ExpandsOnce (eval : Evaluator) (form : Value) (f : FrameId) (s : State) :
    Value → List Value → Prop where
  | macroCall {fn body m args} (hm : s.heap.macroCall? f form = some (fn, body, args))
      (hstop : ∀ v t, eval.call 1 (.closure fn body m) args s = .value v t →
        t.heap.macroCall? f v = none) : eval.ExpandsOnce form f s (.closure fn body m) args

/-- Its expansion is what the call gives, with which the frame has nothing to do. -/
theorem expand_of_once {eval : Evaluator} {form fn : Value} {f : FrameId} {s : State}
    {args : List Value} (h : eval.ExpandsOnce form f s fn args) (k : Nat) :
    eval.expand (k + 2) form f s = eval.call 1 fn args s := by
  obtain @⟨fn, body, m, args, hm, hstop⟩ := h
  have hcall : eval.call 1 (.closure fn body m) args =
      (enter fn args >>= fun frame => eval body frame) := rfl
  rw [expand_succ, hm]
  dsimp only
  rw [← hcall, Eval.bind_apply]
  cases ho : eval.call 1 (.closure fn body m) args s with
  | value v t =>
    dsimp only
    rw [expand_succ, hstop v t ho]
  | error => rfl
  | halt => rfl

end SmallLisp
