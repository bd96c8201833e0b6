import Mathlib
import SmallLisp.Proofs.Evaluation.Level
import SmallLisp.Proofs.Evaluation.Turns

/-!
# Tail positions

Tail positions cost no depth. Where the next step of a form is a tail step, the evaluation of the
form comes to what the loop comes to from the form in tail position, at the depth that it is at. A
chain of tail steps is therefore as deep as one of its steps, however long it is.
-/

namespace SmallLisp

open Evaluator

/-! ### Tail steps -/

/-- Forms in a frame end in values, one after another. -/
def EndsAll (forms : List Value) (f : FrameId) (s : State) (vs : List Value) (s₁ : State) : Prop :=
  ∃ n, Eval.forEach (eval n · f) forms s = .value vs s₁

/-- The expressions of a binding list end in values, each in the frame with the ones before it. -/
def EndsBinding (pairs : List (Value × Value)) (f : FrameId) (s s₁ : State) : Prop :=
  ∃ n, Special.bindAll (eval n) f pairs s = .value () s₁

/-- `GoesOn c f s next g s₁`: the special form `c` goes on with `next` in the frame `g`, in the
state `s₁` that the evaluations before it have left. -/
inductive GoesOn : Construct → FrameId → State → Value → FrameId → State → Prop where
  | yes {condition yes no f s v s₁} (h : Ends condition f s (.value v s₁))
      (hv : v.isTruthy = true) : GoesOn (.branch condition yes no) f s yes f s₁
  | no {condition yes no f s v s₁} (h : Ends condition f s (.value v s₁))
      (hv : v.isTruthy = false) : GoesOn (.branch condition yes (some no)) f s no f s₁
  | last {forms form f s vs s₁} (h : EndsAll forms f s vs s₁) :
      GoesOn (.sequence (forms ++ [form])) f s form f s₁
  | letBody {bindings body f s frame heap s₁}
      (hframe : s.heap.addFrame (some f) [] = (frame, heap))
      (h : EndsBinding bindings frame (s.withHeap heap) s₁) :
      GoesOn (.letIn bindings body) f s body frame s₁
  | template {form f s} : GoesOn (.quasiquote form) f s form.template f s

/-- `TailStep calls form f s next g s₁`: the next step of `form` in the frame `f` and the state `s`
is to go on with `next` in the frame `g` and the state `s₁`. It is a call if `calls` is 1. -/
inductive TailStep : Nat → Value → FrameId → State → Value → FrameId → State → Prop where
  | special {head args m f s op c next g s₁}
      (hm : s.heap.macroCall? f (.list (head :: args) m) = none)
      (hop : Special.ofHead? head = some op) (hc : op.parse args = .ok c)
      (h : GoesOn c f s next g s₁) : TailStep 0 (.list (head :: args) m) f s next g s₁
  | expansion {form f s fn body args bindings frame heap expanded s₁}
      (hm : s.heap.macroCall? f form = some (fn, body, args))
      (hb : Heap.bindings? fn.params args = .ok bindings)
      (hframe : s.heap.addFrame (some fn.scope) bindings = (frame, heap))
      (h : Ends body frame (s.withHeap heap) (.value expanded s₁)) :
      TailStep 0 form f s expanded f s₁
  | call {head args m f s fn body meta' vs s₁ bindings frame heap}
      (hm : s.heap.macroCall? f (.list (head :: args) m) = none)
      (hop : Special.ofHead? head = none)
      (hargs : EndsAll (head :: args) f s (.closure fn body meta' :: vs) s₁)
      (hb : Heap.bindings? fn.params vs = .ok bindings)
      (hframe : s₁.heap.addFrame (some fn.scope) bindings = (frame, heap)) :
      TailStep 1 (.list (head :: args) m) f s body frame (s₁.withHeap heap)

/-- Tail steps in turn, with the number of calls among them. -/
inductive TailChain : Nat → Value → FrameId → State → Value → FrameId → State → Prop where
  | done {form f s} : TailChain 0 form f s form f s
  | step {calls n form f s next g s₁ last h s₂} (hstep : TailStep calls form f s next g s₁)
      (hrest : TailChain n next g s₁ last h s₂) : TailChain (calls + n) form f s last h s₂

/-! ### Nested evaluations -/

section

variable {f : FrameId} {s s₁ : State}

theorem EndsAll.settles {forms vs : List Value} (h : EndsAll forms f s vs s₁) :
    Settles (fun n _ => Eval.forEach (eval n · f) forms) s (.value vs s₁) := by
  obtain ⟨N, hN⟩ := h
  refine .of_extends (fun hn => ?_) hN trivial
  exact Eval.extends_congruence.forEach (eval_extends hn · f) forms

theorem EndsAll.of_cons {form v : Value} {rest vs : List Value}
    (h : EndsAll (form :: rest) f s (v :: vs) s₁) :
    ∃ s', Ends form f s (.value v s') ∧ EndsAll rest f s' vs s₁ := by
  obtain ⟨n, hn⟩ := h
  rcases Eval.bind_cases hn trivial with ⟨v', s', hv, hn⟩ | ⟨e, s', _, he⟩
  · rcases Eval.bind_cases hn trivial with ⟨vs', s'', hvs, hn⟩ | ⟨e, s'', _, he⟩
    · cases hn
      exact ⟨s', ⟨trivial, n, hv⟩, n, hvs⟩
    · cases he
  · cases he

theorem EndsAll.level {forms vs : List Value} (h : EndsAll forms f s vs s₁) : s.Level s₁ := by
  obtain ⟨N, hN⟩ := h
  have hsteady : (Eval.forEach (eval N · f) forms).Steady :=
    @Congruence.forEach _ Eval.steady_congruence _ _ _ (eval N · f) (eval_steady N · f) forms
  have hlevel := hsteady s
  rw [hN] at hlevel
  exact hlevel trivial

theorem EndsBinding.settles {pairs : List (Value × Value)} (h : EndsBinding pairs f s s₁) :
    Settles (fun n _ => Special.bindAll (eval n) f pairs) s (.value () s₁) := by
  obtain ⟨N, hN⟩ := h
  refine .of_extends (fun hn => ?_) hN trivial
  exact Eval.extends_congruence.bindAll (eval_extends hn) f pairs

theorem EndsBinding.level {pairs : List (Value × Value)} (h : EndsBinding pairs f s s₁) :
    s.Level s₁ := by
  obtain ⟨N, hN⟩ := h
  have hsteady : (Special.bindAll (eval N) f pairs).Steady :=
    @Congruence.bindAll _ (eval N) (eval N) Eval.steady_congruence (eval_steady N) f pairs
  have hlevel := hsteady s
  rw [hN] at hlevel
  exact hlevel trivial

theorem Ends.level {form : Value} {o : Outcome Value} (h : Ends form f s o) : s.Level o.state := by
  obtain ⟨ho, n, rfl⟩ := h
  exact eval_steady n form f s ho

theorem sequence_append (eval : Evaluator) (f : FrameId) (forms : List Value) (form : Value) :
    Special.sequence eval f (forms ++ [form]) =
      Eval.forEach (eval · f) forms >>= fun _ => pure (.goOn form f) := by
  induction forms with
  | nil => rfl
  | cons first rest ih =>
    have hrest : Special.sequence eval f (first :: (rest ++ [form])) =
        eval first f >>= fun _ => Special.sequence eval f (rest ++ [form]) := by
      cases rest <;> rfl
    rw [List.cons_append, hrest, ih]
    change _ = (eval first f >>= fun v => Eval.forEach (eval · f) rest >>= fun vs =>
      pure (v :: vs)) >>= _
    simp only [bind_assoc, pure_bind]

theorem GoesOn.settles {c : Construct} {next : Value} {g : FrameId}
    (h : GoesOn c f s next g s₁) :
    Settles (fun n k => c.step (eval n) k f) s (.value (.goOn next g) s₁) := by
  cases h with
  | yes h hv =>
    refine (ends_iff_settles.mp h).bind (.of_eq trivial fun n k => ?_)
    rw [hv]
    rfl
  | no h hv =>
    refine (ends_iff_settles.mp h).bind (.of_eq trivial fun n k => ?_)
    rw [hv]
    rfl
  | @last forms _ _ _ _ _ h =>
    have hall : Settles (fun n _ => Eval.forEach (eval n · f) forms >>= fun _ =>
        pure (Step.goOn next f)) s (.value (.goOn next f) s₁) :=
      h.settles.bind (.of_eq trivial fun _ _ => rfl)
    exact hall.congr fun n k => congrFun (sequence_append (eval n) f forms next) s
  | @letBody bindings _ _ _ _ heap _ hframe h =>
    have hchild : Settles (fun _ _ => Special.childOf f) s (.value g (s.withHeap heap)) :=
      .of_eq trivial fun _ _ => childOf_eq hframe
    exact hchild.bind (h.settles.bind (.of_eq trivial fun _ _ => rfl))
  | template => exact .of_eq trivial fun _ _ => rfl

theorem GoesOn.level {c : Construct} {next : Value} {g : FrameId} (h : GoesOn c f s next g s₁) :
    s.Level s₁ := by
  cases h with
  | yes h _ => exact h.level
  | no h _ => exact h.level
  | last h => exact h.level
  | letBody _ h => exact ⟨h.level.depth, h.level.limit⟩
  | template => exact .refl s

end

/-! ### One tail step -/

section

variable {calls n : Nat} {form next : Value} {f g : FrameId} {s s₁ : State} {o : Outcome Value}

theorem TailStep.level (h : TailStep calls form f s next g s₁) : s.Level s₁ := by
  cases h with
  | special _ _ _ h => exact h.level
  | expansion _ _ _ h => exact ⟨h.level.depth, h.level.limit⟩
  | call _ _ hargs _ _ => exact ⟨hargs.level.depth, hargs.level.limit⟩

theorem TailStep.continues_iff (h : TailStep calls form f s next g s₁) :
    Continues form f s o ↔ Continues next g s₁ o := by
  rw [continues_iff_settles, continues_iff_settles]
  cases h with
  | @special head args m _ _ _ c _ _ _ hm hop hc h =>
    have hfinish : ∀ n k, (eval n).finish k (.list (head :: args) m) f s =
        (c.step (eval n) k f >>= (eval n).follow k) s :=
      fun n k => congrFun (finish_construct hop hc (eval n) k m f) s
    rw [settles_run_iff hm, Settles.congr_iff hfinish, h.settles.bind_iff]
    exact Iff.rfl
  | @expansion _ _ _ fn body args _ frame heap _ _ hm hb hframe h =>
    have henter : Settles (fun _ _ => enter fn args) s (.value frame (s.withHeap heap)) :=
      .of_eq trivial fun _ _ => enter_ok hb hframe
    exact settles_run_expansion_iff hm (henter.bind (ends_iff_settles.mp h))
  | @call head args m _ _ fn _ meta' vs s₂ _ _ heap hm hop hargs hb hframe =>
    obtain ⟨s', hhead, hrest⟩ := hargs.of_cons
    have hfinish : ∀ n k, (eval n).finish k (.list (head :: args) m) f s =
        (eval n head f >>= fun fn => Eval.forEach (eval n · f) args >>= fun vs =>
          (eval n).stepApply k fn vs >>= (eval n).follow k) s :=
      fun n k => congrFun (finish_call hop (eval n) k args m f) s
    have henter : Settles (fun _ _ => enter fn vs) s₂ (.value g (s₂.withHeap heap)) :=
      .of_eq trivial fun _ _ => enter_ok hb hframe
    have hbody : ∀ n k, ((eval n).stepApply k (.closure fn next meta') vs >>= (eval n).follow k) s₂ =
        (enter fn vs >>= fun frame => (eval n).run k next frame) s₂ := by
      intro n k
      simp only [stepApply, bind_assoc, pure_bind]
      rfl
    rw [settles_run_iff hm, Settles.congr_iff hfinish, (ends_iff_settles.mp hhead).bind_iff,
      hrest.settles.bind_iff, Settles.congr_iff hbody, henter.bind_iff]

/-! ### Chains -/

theorem TailChain.level (h : TailChain n form f s next g s₁) : s.Level s₁ := by
  induction h with
  | done => exact .refl _
  | step hstep _ ih => exact hstep.level.trans ih

theorem TailChain.continues_iff (h : TailChain n form f s next g s₁) :
    Continues form f s o ↔ Continues next g s₁ o := by
  induction h with
  | done => exact Iff.rfl
  | step hstep _ ih => exact hstep.continues_iff.trans ih

theorem TailChain.append {m : Nat} {last : Value} {h : FrameId} {s₂ : State}
    (hfirst : TailChain n form f s next g s₁) (hrest : TailChain m next g s₁ last h s₂) :
    TailChain (n + m) form f s last h s₂ := by
  induction hfirst with
  | done => rwa [Nat.zero_add]
  | step hstep _ ih =>
    rw [Nat.add_assoc]
    exact .step hstep (ih hrest)

/-! ### No other steps -/

theorem step_done_ne {m : Eval Value} :
    (m >>= fun v => pure (Step.done v)) s ≠ .value (.goOn next g) s₁ := by
  intro h
  rcases Eval.bind_cases h trivial with ⟨v, s', _, h⟩ | ⟨e, s', _, h⟩
  · cases h
  · cases h

theorem goesOn_of_sequence {forms : List Value}
    (h : Special.sequence (eval n) f forms s = .value (.goOn next g) s₁) :
    GoesOn (.sequence forms) f s next g s₁ := by
  rcases List.eq_nil_or_concat forms with rfl | ⟨init, last, rfl⟩
  · cases h
  · rw [List.concat_eq_append, sequence_append] at *
    rcases Eval.bind_cases h trivial with ⟨vs, s', hvs, h⟩ | ⟨e, s', _, h⟩
    · cases h
      exact .last ⟨n, hvs⟩
    · cases h

theorem goesOn_of_step {c : Construct} {k : Nat}
    (h : c.step (eval n) k f s = .value (.goOn next g) s₁) : GoesOn c f s next g s₁ := by
  cases c with
  | define x expr =>
    rcases Eval.bind_cases h trivial with ⟨v, s', _, h⟩ | ⟨e, s', _, h⟩
    · exact absurd h step_done_ne
    · cases h
  | letIn pairs body =>
    rcases Eval.bind_cases h trivial with ⟨frame, s', hframe, h⟩ | ⟨e, s', _, h⟩
    · rcases Eval.bind_cases h trivial with ⟨u, s'', hpairs, h⟩ | ⟨e, s'', _, h⟩
      · cases h
        cases hframe
        exact .letBody rfl ⟨n, hpairs⟩
      · cases h
    · cases h
  | quote form => cases h
  | quasiquote template =>
    cases h
    exact .template
  | defineMacro x expr =>
    rcases Eval.bind_cases h trivial with ⟨v, s', _, h⟩ | ⟨e, s', _, h⟩
    · cases v with
      | closure fn body m => cases h
      | _ => cases h
    · cases h
  | macroExpand form => exact absurd h step_done_ne
  | attempt form handler =>
    rcases Eval.bind_cases h trivial with ⟨r, s', _, h⟩ | ⟨e, s', _, h⟩
    · cases r with
      | ok v => cases h
      | error e =>
        cases handler with
        | none => cases h
        | some clause => exact absurd h step_done_ne
    · cases h
  | sequence forms => exact goesOn_of_sequence h
  | branch condition yes no =>
    rcases Eval.bind_cases h trivial with ⟨v, s', hv, h⟩ | ⟨e, s', _, h⟩
    · cases htruth : v.isTruthy with
      | true =>
        rw [htruth] at h
        cases h
        exact .yes ⟨trivial, n, hv⟩ htruth
      | false =>
        rw [htruth] at h
        cases no with
        | none => cases h
        | some no =>
          cases h
          exact .no ⟨trivial, n, hv⟩ htruth
    · cases h
  | abstraction params body => cases h

/-- A turn of the loop goes on with a form by a tail step only. -/
theorem tailStep_of_stepList {head : Value} {args : List Value} {m : Option Value} {k : Nat}
    (hm : s.heap.macroCall? f (.list (head :: args) m) = none)
    (h : (eval n).stepList k head args f s = .value (.goOn next g) s₁) :
    ∃ calls, TailStep calls (.list (head :: args) m) f s next g s₁ := by
  cases hop : Special.ofHead? head with
  | some op =>
    rw [stepList_special hop, step_eq] at h
    cases hc : op.parse args with
    | error fault =>
      rw [hc] at h
      cases h
    | ok c =>
      rw [hc] at h
      exact ⟨0, .special hm hop hc (goesOn_of_step h)⟩
  | none =>
    rw [stepList_call hop] at h
    rcases Eval.bind_cases h trivial with ⟨fn, s', hfn, h⟩ | ⟨e, s', _, h⟩
    · rcases Eval.bind_cases h trivial with ⟨vs, s'', hvs, h⟩ | ⟨e, s'', _, h⟩
      · by_cases hclosure : ∃ fn' body m', fn = .closure fn' body m'
        · obtain ⟨fn', body, m', rfl⟩ := hclosure
          have hargs : EndsAll (head :: args) f s (.closure fn' body m' :: vs) s'' :=
            ⟨n, (Eval.bind_value hfn).trans (Eval.bind_value hvs)⟩
          cases hb : Heap.bindings? fn'.params vs with
          | error fault =>
            have henter : stepApply (eval n) k (.closure fn' body m') vs s'' = _ :=
              Eval.bind_error (enter_error s'' hb)
            rw [henter] at h
            cases h
          | ok bindings =>
            have henter : stepApply (eval n) k (.closure fn' body m') vs s'' = _ :=
              Eval.bind_value (enter_ok hb rfl)
            rw [henter] at h
            cases h
            exact ⟨1, .call hm hop hargs hb rfl⟩
        · rw [stepApply_of_not_closure hclosure] at h
          exact absurd h step_done_ne
      · cases h
    · cases h

end

/-! ### No depth -/

/-- An evaluation that is entered on a form with a tail step comes to what the loop comes to from
the form in tail position, one level below where it began. However many calls a chain of tail steps
has, the evaluation succeeds under the limit under which the nested evaluations of each step do. -/
theorem tail_positions_cost_no_depth :
    (∀ calls form f s next g s₁, s.gauge.depth < s.gauge.limit →
      TailStep calls form f s.enter next g s₁ →
        s₁.gauge.depth = s.gauge.depth + 1 ∧ s₁.gauge.limit = s.gauge.limit ∧
          ∀ o, Ends form f s o ↔ ∃ o₁, Continues next g s₁ o₁ ∧ o = o₁.leave) ∧
    ∀ n form f s next g s₁ v s₂, s.gauge.depth < s.gauge.limit →
      TailChain n form f s.enter next g s₁ → Continues next g s₁ (.value v s₂) →
        Ends form f s (.value v s₂.leave) := by
  constructor
  · intro calls form f s next g s₁ hlt hstep
    refine ⟨hstep.level.depth, hstep.level.limit, fun o => ?_⟩
    rw [ends_iff_continues hlt]
    exact exists_congr fun o₁ => and_congr_left fun _ => hstep.continues_iff
  · intro n form f s next g s₁ v s₂ hlt hchain hlast
    rw [ends_iff_continues hlt]
    exact ⟨.value v s₂, hchain.continues_iff.mpr hlast, rfl⟩

/-- The form `(again go)` for a truth value. -/
def Value.sampleCall (go : Bool) : Value := .ofList [.named "again", .bool go]

/-- The body `(if go (again false) 7)` of the function `again`. -/
def Value.sampleBody : Value :=
  .ofList [.named "if", .named "go", .sampleCall false, .int 7]

/-- The function `again`. -/
def Lambda.sample : Lambda := ⟨0, ⟨[⟨"go"⟩], none⟩, 0, false⟩

/-- The state behind some calls of `again`, which the first frame binds, under the limit 2. -/
def State.sampleCalls (gos : List Bool) (depth peak : Nat) : State :=
  ⟨⟨(⟨[("again", .closure .sample .sampleBody none)], none⟩ ::
    gos.map fun go => ⟨[("go", .bool go)], some 0⟩).toArray, #[], 0⟩, ⟨depth, 2, peak, 0⟩,
    ⟨[], true, "", ""⟩, .empty, 0⟩

theorem tailStep_sampleCall_true :
    TailStep 1 (.sampleCall true) 0 (.sampleCalls [] 1 1) .sampleBody 1
      (.sampleCalls [true] 1 2) := by
  have hargs : EndsAll [.named "again", .bool true] 0 (.sampleCalls [] 1 1)
      [.closure .sample .sampleBody none, .bool true] (.sampleCalls [] 1 2) := ⟨9, by cbv⟩
  have hbindings : Heap.bindings? Lambda.sample.params [.bool true] = .ok [("go", .bool true)] := by
    cbv
  exact .call (by cbv) rfl hargs hbindings rfl

theorem tailChain_sampleCall :
    TailChain 2 (.sampleCall true) 0 (.sampleCalls [] 1 1) (.int 7) 2
      (.sampleCalls [true, false] 1 2) := by
  have hgo : Ends (.named "go") 1 (.sampleCalls [true] 1 2)
      (.value (.bool true) (.sampleCalls [true] 1 2)) := ⟨trivial, 9, by cbv⟩
  have hyes : TailStep 0 .sampleBody 1 (.sampleCalls [true] 1 2) (.sampleCall false) 1
      (.sampleCalls [true] 1 2) := .special (by cbv) rfl rfl (.yes hgo rfl)
  have hargs : EndsAll [.named "again", .bool false] 1 (.sampleCalls [true] 1 2)
      [.closure .sample .sampleBody none, .bool false] (.sampleCalls [true] 1 2) := ⟨9, by cbv⟩
  have hbindings : Heap.bindings? Lambda.sample.params [.bool false] =
      .ok [("go", .bool false)] := by
    cbv
  have hcall : TailStep 1 (.sampleCall false) 1 (.sampleCalls [true] 1 2) .sampleBody 2
      (.sampleCalls [true, false] 1 2) := .call (by cbv) rfl hargs hbindings rfl
  have hstop : Ends (.named "go") 2 (.sampleCalls [true, false] 1 2)
      (.value (.bool false) (.sampleCalls [true, false] 1 2)) := ⟨trivial, 9, by cbv⟩
  have hno : TailStep 0 .sampleBody 2 (.sampleCalls [true, false] 1 2) (.int 7) 2
      (.sampleCalls [true, false] 1 2) := .special (by cbv) rfl rfl (.no hstop rfl)
  have hrest : TailChain (0 + (1 + (0 + 0))) .sampleBody 1 (.sampleCalls [true] 1 2) (.int 7) 2
      (.sampleCalls [true, false] 1 2) := .step hyes (.step hcall (.step hno .done))
  exact .step tailStep_sampleCall_true hrest

theorem tail_positions_cost_no_depth_sampleCall :
    (∀ o, Ends (.sampleCall true) 0 (.sampleCalls [] 0 0) o ↔
      ∃ o₁, Continues .sampleBody 1 (.sampleCalls [true] 1 2) o₁ ∧ o = o₁.leave) ∧
    Ends (.sampleCall true) 0 (.sampleCalls [] 0 0)
      (.value (.int 7) (.sampleCalls [true, false] 0 2)) := by
  obtain ⟨hstep, hchain⟩ := tail_positions_cost_no_depth
  have hlt : (State.sampleCalls [] 0 0).gauge.depth < (State.sampleCalls [] 0 0).gauge.limit := by
    decide
  have hlast : Continues (.int 7) 2 (.sampleCalls [true, false] 1 2)
      (.value (.int 7) (.sampleCalls [true, false] 1 2)) := ⟨trivial, 1, 3, by cbv⟩
  exact ⟨(hstep 1 _ 0 _ _ 1 _ hlt tailStep_sampleCall_true).2.2,
    hchain 2 _ 0 _ _ 2 _ _ _ hlt tailChain_sampleCall hlast⟩

end SmallLisp
