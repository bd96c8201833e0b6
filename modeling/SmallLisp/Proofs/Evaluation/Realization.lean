import SmallLisp.Proofs.Evaluation.Depth
import SmallLisp.Proofs.Evaluation.Natural
import SmallLisp.Proofs.Evaluation.Turns

/-!
# Derivations are answers

What follows from the rules is what evaluation without a depth limit answers, once it has fuel
enough. The induction is on derivations: each rule tells what the evaluator does with a form, a
call, an expansion or a binding list, and fuel that is enough for its premises is, with a little
more, enough for its conclusion.
-/

namespace SmallLisp

open Evaluator

section

variable {form : Value} {f : FrameId} {s s₁ : State} {o : Outcome Value}

theorem Settles.nested (h : Settles (fun n k => (unguarded n).run k form f) s o) :
    Settles (fun n _ => unguarded n form f) s o := by
  obtain ⟨ho, N, hN⟩ := h
  refine ⟨ho, N + 1, fun n hn _ _ => ?_⟩
  obtain ⟨j, rfl⟩ : ∃ j, n = j + 1 := ⟨n - 1, by omega⟩
  exact hN j (by omega) j (by omega)

/-! ### Calls -/

theorem Settles.of_closure {fn : Lambda} {body : Value} {m : Option Value} {args : List Value}
    (h : Settles (fun n k => (unguarded n).call k (.closure fn body m) args) s o) :
    Settles (fun n _ => enter fn args >>= fun frame => unguarded n body frame) s o := by
  obtain ⟨ho, N, hN⟩ := h
  exact ⟨ho, N, fun n hn _ _ => hN n hn (N + 1) (by omega)⟩

theorem settles_stepApply {fn : Value} {args : List Value}
    (h : Settles (fun n k => (unguarded n).call k fn args) s o) :
    Settles (fun n k => (unguarded n).stepApply k fn args >>= (unguarded n).follow k) s o := by
  by_cases hfn : ∃ fn' body m, fn = .closure fn' body m
  · obtain ⟨fn', body, m, rfl⟩ := hfn
    obtain ⟨ho, N, hN⟩ := h.of_closure
    refine ⟨ho, N, fun n hn k hk => ?_⟩
    have hbody := hN (N + 1) (by omega) N (by omega)
    simp only [stepApply, bind_assoc, pure_bind]
    refine Eval.Extends.answer (.bind (.refl _) fun frame => ?_) hbody ho
    exact Eval.extends_congruence.run (fun form f => unguarded_extends hn form f) hk body frame
  · refine h.congr fun n k => ?_
    rw [stepApply_of_not_closure hfn, bind_assoc]
    simp only [pure_bind, follow_done, bind_pure]

end

theorem call_direct {fn : Native} {args : List Value} (hc : fn.callback? args = none)
    (eval : Evaluator) (k identity : Nat) (m : Option Value) :
    eval.call (k + 1) (.native fn identity m) args = fn.perform args := by
  change eval.callNative (eval.call k) fn args = _
  rw [callNative_eq, hc]

theorem call_callback {fn : Native} {args : List Value} {r : Except Fault Callback}
    (hc : fn.callback? args = some r) (eval : Evaluator) (k identity : Nat) (m : Option Value) :
    eval.call (k + 1) (.native fn identity m) args =
      Eval.ofExcept r >>= fun c => c.run eval (eval.call k) := by
  change eval.callNative (eval.call k) fn args = _
  rw [callNative_eq, hc]

theorem call_notFunction {v : Value} (hv : ¬ v.IsFunction) (eval : Evaluator) (k : Nat)
    (args : List Value) (s : State) :
    eval.call (k + 1) v args s = .error (.fault (.notCallable (s.heap.print true v))) s := by
  cases v with
  | closure | native => exact absurd trivial hv
  | _ => rfl

/-! ### Special forms -/

theorem step_done (eval : Evaluator) (k : Nat) (m : Eval Value) :
    (m >>= fun v => pure (.done v)) >>= eval.follow k = m := by
  simp only [bind_assoc, pure_bind, follow_done, bind_pure]

theorem settles_handler {x : Symbol} {handler v : Value} {f frame : FrameId} {s : State}
    {heap : Heap} {o : Outcome Value} (hframe : s.heap.addFrame (some f) [] = (frame, heap))
    (h : Settles (fun n _ => unguarded n handler frame) (s.withHeap (heap.set frame x v)) o) :
    Settles (fun n k => (Special.childOf f >>= fun frame => Special.bindIn frame x v >>= fun _ =>
      unguarded n handler frame >>= fun v => pure (.done v)) >>= (unguarded n).follow k) s o := by
  have hbound : Settles (fun n _ => Special.childOf f >>= fun frame =>
      Special.bindIn frame x v >>= fun _ => unguarded n handler frame) s o :=
    .bind (.of_eq trivial fun _ _ => childOf_eq hframe) (.bind (.of_eq trivial fun _ _ => rfl) h)
  refine hbound.congr fun n k => ?_
  simp only [bind_assoc, pure_bind, follow_done, bind_pure]

theorem settles_defineMacroOfOther {x : Symbol} {expr v : Value} {f : FrameId} {s s₁ : State}
    (h : Settles (fun n _ => unguarded n expr f) s (.value v s₁))
    (hv : ∀ fn body m, v ≠ .closure fn body m) :
    Settles (fun n k => (Construct.defineMacro x expr).step (unguarded n) k f) s
      (.error (.fault (.wrongKind Special.defineMacro.name "fn" v)) s₁) := by
  refine h.bind (.of_eq trivial fun n k => ?_)
  cases v with
  | closure fn body m => exact absurd rfl (hv fn body m)
  | _ => rfl

/-! ### Entries -/

theorem settles_entry {entry : String × Value} {f : FrameId} {s s₁ : State} {v : Value}
    (h : Settles (fun n _ => unguarded n entry.2 f) s (.value v s₁)) :
    Settles (fun n _ => evalData.evalEntry (unguarded n) f entry) s (.value (entry.1, v) s₁) := by
  have hkey := (settles_literal (literal_of_key entry.1) f s).nested
  refine hkey.bind ?_
  simp only [Value.key?_ofKey]
  exact h.bind (.of_eq trivial fun _ _ => rfl)

theorem settles_entryFails {entry : String × Value} {f : FrameId} {s s₁ : State} {e : Error}
    (h : Settles (fun n _ => unguarded n entry.2 f) s (.error e s₁)) :
    Settles (fun n _ => evalData.evalEntry (unguarded n) f entry) s (.error e s₁) := by
  have hkey := (settles_literal (literal_of_key entry.1) f s).nested
  refine hkey.bind ?_
  simp only [Value.key?_ofKey]
  exact h.bind_error

/-! ### The rules -/

mutual

theorem Evaluates.settles : ∀ {form f s o}, Evaluates form f s o →
    Settles (fun n k => (unguarded n).run k form f) s o
  | _, _, _, _, .bound h => (settles_run_iff rfl).mpr (.of_eq trivial fun _ _ => finish_bound _ h)
  | _, _, _, _, .unbound h => (settles_run_iff rfl).mpr (.of_eq trivial fun _ _ => finish_unbound _ h)
  | _, _, _, _, .vector h => (settles_run_iff rfl).mpr (h.settles.bind (.of_eq trivial fun _ _ => rfl))
  | _, _, _, _, .vectorFails h => (settles_run_iff rfl).mpr h.settles.bind_error
  | _, _, _, _, .map h => (settles_run_iff rfl).mpr (h.settles.bind (.of_eq trivial fun _ _ => rfl))
  | _, _, _, _, .mapFails h => (settles_run_iff rfl).mpr h.settles.bind_error
  | _, _, _, _, .literal h => settles_literal h _ _
  | _, _, _, _, .expansion hm h ho =>
    (settles_run_expansion_iff hm h.settles.of_closure).mpr ho.settles
  | _, _, _, _, .expansionFails hm h => settles_run_expansionFails hm h.settles.of_closure
  | _, _, _, _, .special hm hop hc h =>
    (settles_run_iff hm).mpr (h.settles.congr fun _ _ => congrFun (finish_construct hop hc ..) _)
  | _, _, _, _, .malformed hm hop hc =>
    (settles_run_iff hm).mpr (.of_eq trivial fun _ _ => congrFun (finish_malformed hop hc ..) _)
  | _, _, _, _, .call hm hop (.cons hfn hvs) h =>
    (settles_run_iff hm).mpr
      ((hfn.settles.nested.bind (hvs.settles.bind (settles_stepApply h.settles))).congr
        fun _ _ => congrFun (finish_call hop ..) _)
  | _, _, _, _, .callFails hm hop (.headFails hfn) =>
    (settles_run_iff hm).mpr (hfn.settles.nested.bind_error.congr
      fun _ _ => congrFun (finish_call hop ..) _)
  | _, _, _, _, .callFails hm hop (.restFails hfn hvs) =>
    (settles_run_iff hm).mpr ((hfn.settles.nested.bind hvs.settles.bind_error).congr
      fun _ _ => congrFun (finish_call hop ..) _)

theorem EvaluatesAll.settles : ∀ {forms f s o}, EvaluatesAll forms f s o →
    Settles (fun n _ => Eval.forEach (unguarded n · f) forms) s o
  | _, _, _, _, .nil => .of_eq trivial fun _ _ => rfl
  | _, _, _, _, .cons h hs =>
    h.settles.nested.bind (hs.settles.bind (.of_eq trivial fun _ _ => rfl))
  | _, _, _, _, .headFails h => h.settles.nested.bind_error
  | _, _, _, _, .restFails h hs => h.settles.nested.bind hs.settles.bind_error

theorem EvaluatesEntries.settles : ∀ {entries f s o}, EvaluatesEntries entries f s o →
    Settles (fun n _ => Eval.forEach (evalData.evalEntry (unguarded n) f) entries) s o
  | _, _, _, _, .nil => .of_eq trivial fun _ _ => rfl
  | _, _, _, _, .cons h hs =>
    (settles_entry h.settles.nested).bind (hs.settles.bind (.of_eq trivial fun _ _ => rfl))
  | _, _, _, _, .headFails h => (settles_entryFails h.settles.nested).bind_error
  | _, _, _, _, .restFails h hs => (settles_entry h.settles.nested).bind hs.settles.bind_error

theorem Performs.settles : ∀ {c f s o}, Performs c f s o →
    Settles (fun n k => c.step (unguarded n) k f >>= (unguarded n).follow k) s o
  | _, _, _, _, .define h =>
    .bind (h.settles.nested.bind (.of_eq trivial fun _ _ => rfl)) (.of_eq trivial fun _ _ => rfl)
  | _, _, _, _, .defineFails h => .bind_error h.settles.nested.bind_error
  | _, _, _, _, .letIn hframe hs h =>
    .bind (.bind (.of_eq trivial fun _ _ => childOf_eq hframe)
      (hs.settles.bind (.of_eq trivial fun _ _ => rfl))) h.settles
  | _, _, _, _, .letFails hframe hs =>
    .bind_error (.bind (.of_eq trivial fun _ _ => childOf_eq hframe) hs.settles.bind_error)
  | _, _, _, _, .quote => .of_eq trivial fun _ _ => rfl
  | _, _, _, _, .quasiquote h => h.settles
  | _, _, _, _, .defineMacro h hid =>
    .bind (h.settles.nested.bind (.bind (.of_eq trivial fun _ _ => addIdentity_eq hid)
      (.of_eq trivial fun _ _ => rfl))) (.of_eq trivial fun _ _ => rfl)
  | _, _, _, _, .defineMacroFails h => .bind_error h.settles.nested.bind_error
  | _, _, _, _, .defineMacroOfOther h hv =>
    .bind_error (settles_defineMacroOfOther h.settles.nested hv)
  | _, _, _, _, .macroExpand h =>
    (h.settles.congr fun _ _ => congrFun (step_done ..) _)
  | _, _, _, _, .attempt h =>
    .bind (h.settles.nested.attempt_value.bind (.of_eq trivial fun _ _ => rfl))
      (.of_eq trivial fun _ _ => rfl)
  | _, _, _, _, .attemptFails h =>
    .bind_error (h.settles.nested.attempt_error.bind (.of_eq trivial fun _ _ => rfl))
  | _, _, _, _, .handle h hframe hh =>
    (h.settles.nested.attempt_error.bind (settles_handler hframe hh.settles.nested)).congr
      fun _ _ => congrFun (bind_assoc ..) _
  | _, _, _, _, .nothing => .of_eq trivial fun _ _ => rfl
  | _, _, _, _, .last h => h.settles
  | _, _, _, _, .next h hs =>
    (h.settles.nested.bind hs.settles).congr fun _ _ => congrFun (bind_assoc _ _ _) _
  | _, _, _, _, .nextFails h => .bind_error h.settles.nested.bind_error
  | _, _, _, _, .yes h hv hb =>
    (h.settles.nested.bind (hb.settles.congr fun _ _ => by rw [hv]; rfl)).congr
      fun _ _ => congrFun (bind_assoc ..) _
  | _, _, _, _, .no h hv hb =>
    (h.settles.nested.bind (hb.settles.congr fun _ _ => by rw [hv]; rfl)).congr
      fun _ _ => congrFun (bind_assoc ..) _
  | _, _, _, _, .neither h hv =>
    .bind (h.settles.nested.bind (.of_eq trivial fun _ _ => by rw [hv]; rfl))
      (.of_eq trivial fun _ _ => rfl)
  | _, _, _, _, .conditionFails h => .bind_error h.settles.nested.bind_error
  | _, _, _, _, .abstraction hid =>
    .bind (.bind (.of_eq trivial fun _ _ => addIdentity_eq hid) (.of_eq trivial fun _ _ => rfl))
      (.of_eq trivial fun _ _ => rfl)

theorem Binds.settles : ∀ {pairs f s o}, Binds pairs f s o →
    Settles (fun n _ => Special.bindAll (unguarded n) f pairs) s o
  | _, _, _, _, .nil => .of_eq trivial fun _ _ => rfl
  | _, _, _, _, .cons hx h hs =>
    .bind (.of_eq trivial fun _ _ => by rw [hx]; rfl)
      (h.settles.nested.bind (.bind (.of_eq trivial fun _ _ => rfl) hs.settles))
  | _, _, _, _, .noSymbol hx => .bind_error (.of_eq trivial fun _ _ => by rw [hx]; rfl)
  | _, _, _, _, .fails hx h =>
    .bind (.of_eq trivial fun _ _ => by rw [hx]; rfl) h.settles.nested.bind_error

theorem Expands.settles : ∀ {form f s o}, Expands form f s o →
    Settles (fun n k => (unguarded n).expand k form f) s o
  | _, _, _, _, .done hm => .of_succ (.of_eq trivial fun _ _ => by rw [expand_succ, hm])
  | _, _, _, _, .step hm h ho =>
    .of_succ ((h.settles.of_closure.bind ho.settles).congr fun _ _ => by rw [expand_succ, hm])
  | _, _, _, _, .fails hm h =>
    .of_succ (h.settles.of_closure.bind_error.congr fun _ _ => by rw [expand_succ, hm])

theorem Applies.settles : ∀ {fn args s o}, Applies fn args s o →
    Settles (fun n k => (unguarded n).call k fn args) s o
  | _, _, _, _, .closure hb hframe h =>
    .of_succ (.bind (.of_eq trivial fun _ _ => enter_ok hb hframe) h.settles.nested)
  | _, _, _, _, .wrongCount hb =>
    .of_succ (.bind_error (.of_eq trivial fun _ _ => enter_error _ hb))
  | _, _, _, _, .direct hc h ho =>
    .of_succ (.of_eq ho fun _ _ => (congrFun (call_direct hc ..) _).trans h)
  | _, _, _, _, .callback hc h =>
    .of_succ (h.settles.congr fun _ _ => congrFun (call_callback hc ..) _)
  | _, _, _, _, .misuse hc =>
    .of_succ (.of_eq trivial fun _ _ => congrFun (call_callback hc ..) _)
  | _, _, _, _, .notFunction hv =>
    .of_succ (.of_eq trivial fun _ _ => call_notFunction hv ..)

theorem Invokes.settles : ∀ {c s o}, Invokes c s o →
    Settles (fun n k => c.run (unguarded n) ((unguarded n).call k)) s o
  | _, _, _, .eval h => h.settles.nested
  | _, _, _, .apply h => h.settles
  | _, _, _, .map h => h.settles.bind (.of_eq trivial fun _ _ => rfl)
  | _, _, _, .mapFails h => h.settles.bind_error
  | _, _, _, .swap h =>
    .bind (.of_eq trivial fun _ _ => rfl) (h.settles.bind (.of_eq trivial fun _ _ => rfl))
  | _, _, _, .swapFails h => .bind (.of_eq trivial fun _ _ => rfl) h.settles.bind_error

theorem AppliesEach.settles : ∀ {fn columns s o}, AppliesEach fn columns s o →
    Settles (fun n k => Eval.forEach ((unguarded n).call k fn) columns) s o
  | _, _, _, _, .nil => .of_eq trivial fun _ _ => rfl
  | _, _, _, _, .cons h hs => h.settles.bind (hs.settles.bind (.of_eq trivial fun _ _ => rfl))
  | _, _, _, _, .headFails h => h.settles.bind_error
  | _, _, _, _, .restFails h hs => h.settles.bind hs.settles.bind_error

end

end SmallLisp
