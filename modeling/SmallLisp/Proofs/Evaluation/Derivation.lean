import SmallLisp.Proofs.Evaluation.Depth
import SmallLisp.Proofs.Evaluation.Natural

/-!
# Answers have derivations

What evaluation without a depth limit answers follows from the rules. The proof goes through the
evaluator part by part: an evaluator whose answers have derivations gives calls, expansions, special
forms and loops whose answers have derivations. `Derives` is kept from one level of nesting to the
next, and inside a level from one turn of the loop to the one before it.
-/

namespace SmallLisp

open Evaluator

/-- Whether all answers of an evaluator follow from the rules. -/
def Evaluator.Derives (eval : Evaluator) : Prop :=
  ∀ form f s o, eval form f s = o → o.Answers → Evaluates form f s o

section

variable {eval : Evaluator}

theorem evaluatesAll_of_forEach (heval : eval.Derives) {forms : List Value} {f : FrameId} {s : State}
    {o : Outcome (List Value)} (h : Eval.forEach (eval · f) forms s = o) (ho : o.Answers) :
    EvaluatesAll forms f s o := by
  induction forms generalizing s o with
  | nil =>
    subst h
    exact .nil
  | cons form rest ih =>
    rcases Eval.bind_cases h ho with ⟨v, s₁, hv, h⟩ | ⟨e, s₁, he, rfl⟩
    · have hform := heval form f s _ hv trivial
      rcases Eval.bind_cases h ho with ⟨vs, s₂, hvs, h⟩ | ⟨e, s₂, he, rfl⟩
      · subst h
        exact .cons hform (ih hvs trivial)
      · exact .restFails hform (ih he trivial)
    · exact .headFails (heval form f s _ he trivial)

theorem evaluates_literal {form : Value} {f : FrameId} {s : State} {o : Outcome Value}
    (hform : form.IsLiteral) (h : Evaluates form f s o) : o = .value form s := by
  cases h with
  | literal => rfl
  | expansion hm | expansionFails hm => simp [macroCall?_literal hform] at hm
  | special | malformed | call | callFails => simp [Value.IsLiteral] at hform
  | _ => exact hform.elim

theorem evaluatesEntries_of_forEach (heval : eval.Derives) {entries : List (String × Value)}
    {f : FrameId} {s : State} {o : Outcome (List (String × Value))}
    (h : Eval.forEach (evalData.evalEntry eval f) entries s = o) (ho : o.Answers) :
    EvaluatesEntries entries f s o := by
  induction entries generalizing s o with
  | nil =>
    subst h
    exact .nil
  | cons entry rest ih =>
    obtain ⟨key, form⟩ := entry
    -- The key is its own value, so an entry is evaluated as its form is.
    have hentry : ∀ {o}, evalData.evalEntry eval f (key, form) s = o → o.Answers →
        (∃ v s₁, Evaluates form f s (.value v s₁) ∧ o = .value (key, v) s₁) ∨
          ∃ e s₁, Evaluates form f s (.error e s₁) ∧ o = .error e s₁ := by
      intro o h ho
      rcases Eval.bind_cases h ho with ⟨k, s₁, hk, h⟩ | ⟨e, s₁, he, rfl⟩
      · obtain ⟨rfl, rfl⟩ := evaluates_literal (literal_of_key key) (heval _ f s _ hk trivial)
        rw [Value.key?_ofKey] at h
        rcases Eval.bind_cases h ho with ⟨v, s₁, hv, h⟩ | ⟨e, s₁, he, rfl⟩
        · exact .inl ⟨v, s₁, heval form f s _ hv trivial, h.symm⟩
        · exact .inr ⟨e, s₁, heval form f s _ he trivial, rfl⟩
      · cases evaluates_literal (literal_of_key key) (heval _ f s _ he trivial)
    rcases Eval.bind_cases h ho with ⟨v, s₁, hv, h⟩ | ⟨e, s₁, he, rfl⟩
    · rcases hentry hv trivial with ⟨w, s₂, hform, heq⟩ | ⟨e, s₂, _, heq⟩
      · obtain ⟨rfl, rfl⟩ := heq
        rcases Eval.bind_cases h ho with ⟨es, s₂, hes, h⟩ | ⟨e, s₂, he, rfl⟩
        · subst h
          exact .cons hform (ih hes trivial)
        · exact .restFails hform (ih he trivial)
      · cases heq
    · rcases hentry he trivial with ⟨w, s₂, _, heq⟩ | ⟨e, s₂, hform, heq⟩
      · cases heq
      · obtain ⟨rfl, rfl⟩ := heq
        exact .headFails hform

/-! ### Calls -/

theorem appliesEach_of_forEach {call : Value → List Value → Eval Value} {fn : Value}
    (hcall : ∀ args s o, call fn args s = o → o.Answers → Applies fn args s o)
    {columns : List (List Value)} {s : State} {o : Outcome (List Value)}
    (h : Eval.forEach (call fn) columns s = o) (ho : o.Answers) : AppliesEach fn columns s o := by
  induction columns generalizing s o with
  | nil =>
    subst h
    exact .nil
  | cons args rest ih =>
    rcases Eval.bind_cases h ho with ⟨v, s₁, hv, h⟩ | ⟨e, s₁, he, rfl⟩
    · have hfirst := hcall args s _ hv trivial
      rcases Eval.bind_cases h ho with ⟨vs, s₂, hvs, h⟩ | ⟨e, s₂, he, rfl⟩
      · subst h
        exact .cons hfirst (ih hvs trivial)
      · exact .restFails hfirst (ih he trivial)
    · exact .headFails (hcall args s _ he trivial)

theorem invokes_of_run (heval : eval.Derives) {call : Value → List Value → Eval Value}
    (hcall : ∀ fn args s o, call fn args s = o → o.Answers → Applies fn args s o) {c : Callback}
    {s : State} {o : Outcome Value} (h : c.run eval call s = o) (ho : o.Answers) :
    Invokes c s o := by
  cases c with
  | eval form root => exact .eval (heval form root s o h ho)
  | apply fn args => exact .apply (hcall fn args s o h ho)
  | map fn columns =>
    rcases Eval.bind_cases h ho with ⟨vs, s₁, hvs, h⟩ | ⟨e, s₁, he, rfl⟩
    · subst h
      exact .map (appliesEach_of_forEach (hcall fn) hvs trivial)
    · exact .mapFails (appliesEach_of_forEach (hcall fn) he trivial)
  | swap id fn more =>
    have h : (call fn (s.heap.atoms.getD id .nil :: more) >>= Cell.assign id) s = o := h
    rcases Eval.bind_cases h ho with ⟨v, s₁, hv, h⟩ | ⟨e, s₁, he, rfl⟩
    · subst h
      exact .swap (hcall _ _ s _ hv trivial)
    · exact .swapFails (hcall _ _ s _ he trivial)

theorem applies_of_enter (heval : eval.Derives) {fn : Lambda} {body : Value} {args : List Value}
    {s : State} {o : Outcome Value} (m : Option Value)
    (h : (enter fn args >>= fun frame => eval body frame) s = o) (ho : o.Answers) :
    Applies (.closure fn body m) args s o := by
  cases hb : Heap.bindings? fn.params args with
  | error fault =>
    rw [Eval.bind_error (enter_error s hb)] at h
    subst h
    exact .wrongCount hb
  | ok bindings =>
    rw [Eval.bind_value (enter_ok hb rfl)] at h
    exact .closure hb rfl (heval body _ _ o h ho)

theorem applies_of_call (heval : eval.Derives) (k : Nat) (fn : Value) (args : List Value) (s : State)
    (o : Outcome Value) (h : eval.call k fn args s = o) (ho : o.Answers) : Applies fn args s o := by
  induction k generalizing fn args s o with
  | zero =>
    subst h
    exact absurd ho (Outcome.not_answers_halt _ _)
  | succ k ih =>
    cases fn with
    | closure fn body m => exact applies_of_enter heval m h ho
    | native fn identity m =>
      have h : eval.callNative (eval.call k) fn args s = o := h
      rw [callNative_eq] at h
      cases hc : fn.callback? args with
      | none =>
        rw [hc] at h
        exact .direct hc h ho
      | some parsed =>
        rw [hc] at h
        cases parsed with
        | error fault =>
          subst h
          exact .misuse hc
        | ok c => exact .callback hc (invokes_of_run heval ih h ho)
    | _ =>
      subst h
      exact .notFunction id

/-! ### Expansion -/

theorem expands_of_expand (heval : eval.Derives) {k : Nat} {form : Value} {f : FrameId} {s : State}
    {o : Outcome Value} (h : eval.expand k form f s = o) (ho : o.Answers) : Expands form f s o := by
  induction k generalizing form s with
  | zero =>
    subst h
    exact absurd ho (Outcome.not_answers_halt _ _)
  | succ k ih =>
    rw [expand_succ] at h
    cases hm : s.heap.macroCall? f form with
    | none =>
      rw [hm] at h
      subst h
      exact .done hm
    | some target =>
      obtain ⟨fn, body, args⟩ := target
      rw [hm] at h
      rcases Eval.bind_cases h ho with ⟨expanded, s₁, hx, h⟩ | ⟨e, s₁, he, rfl⟩
      · exact .step hm (applies_of_enter heval none hx trivial) (ih h)
      · exact .fails hm (applies_of_enter heval none he trivial)

/-! ### Special forms -/

theorem binds_of_bindAll (heval : eval.Derives) {pairs : List (Value × Value)} {f : FrameId}
    {s : State} {o : Outcome Unit} (h : Special.bindAll eval f pairs s = o) (ho : o.Answers) :
    Binds pairs f s o := by
  induction pairs generalizing s with
  | nil =>
    subst h
    exact .nil
  | cons pair rest ih =>
    obtain ⟨target, expr⟩ := pair
    unfold Special.bindAll at h
    cases hx : Special.letForm.symbolOf target with
    | error fault =>
      rw [hx] at h
      subst h
      exact .noSymbol hx
    | ok x =>
      rw [hx] at h
      have h : (eval expr f >>= fun v => Special.bindIn f x v >>= fun _ =>
        Special.bindAll eval f rest) s = o := h
      rcases Eval.bind_cases h ho with ⟨v, s₁, hv, h⟩ | ⟨e, s₁, he, rfl⟩
      · exact .cons hx (heval expr f s _ hv trivial) (ih h)
      · exact .fails hx (heval expr f s _ he trivial)

theorem performs_of_sequence (heval : eval.Derives) {j : Nat} (hrun : Derives (eval.run j))
    {forms : List Value} {f : FrameId} {s : State} {o : Outcome Value}
    (h : (Special.sequence eval f forms >>= eval.follow j) s = o) (ho : o.Answers) :
    Performs (.sequence forms) f s o := by
  induction forms generalizing s with
  | nil =>
    subst h
    exact .nothing
  | cons form rest ih =>
    cases rest with
    | nil => exact .last (hrun form f s o h ho)
    | cons second rest =>
      unfold Special.sequence at h
      rw [bind_assoc] at h
      rcases Eval.bind_cases h ho with ⟨v, s₁, hv, h⟩ | ⟨e, s₁, he, rfl⟩
      · exact .next (heval form f s _ hv trivial) (ih h)
      · exact .nextFails (heval form f s _ he trivial)

theorem performs_of_defineMacro (heval : eval.Derives) {k j : Nat} {x : Symbol} {expr : Value}
    {f : FrameId} {s : State} {o : Outcome Value}
    (h : ((Construct.defineMacro x expr).step eval k f >>= eval.follow j) s = o) (ho : o.Answers) :
    Performs (.defineMacro x expr) f s o := by
  simp only [Construct.step, bind_assoc] at h
  rcases Eval.bind_cases h ho with ⟨v, s₁, hv, h⟩ | ⟨e, s₁, he, rfl⟩
  · have hexpr := heval expr f s _ hv trivial
    cases v with
    | closure fn body m =>
      simp only [bind_assoc, pure_bind] at h
      subst h
      exact .defineMacro hexpr rfl
    | _ =>
      subst h
      exact .defineMacroOfOther hexpr fun _ _ _ => nofun
  · exact .defineMacroFails (heval expr f s _ he trivial)

theorem performs_of_attempt (heval : eval.Derives) {k j : Nat} {form : Value}
    {handler : Option (Symbol × Value)} {f : FrameId} {s : State} {o : Outcome Value}
    (h : ((Construct.attempt form handler).step eval k f >>= eval.follow j) s = o) (ho : o.Answers) :
    Performs (.attempt form handler) f s o := by
  simp only [Construct.step, bind_assoc] at h
  rcases Eval.bind_cases h ho with ⟨r, s₁, hr, h⟩ | ⟨e, s₁, he, rfl⟩
  · rcases Eval.attempt_cases hr trivial with ⟨v, s₂, hv, heq⟩ | ⟨e, s₂, he, heq⟩
    · obtain ⟨rfl, rfl⟩ := heq
      simp only [pure_bind] at h
      subst h
      exact .attempt (heval form f s _ hv trivial)
    · obtain ⟨rfl, rfl⟩ := heq
      have hform := heval form f s _ he trivial
      cases handler with
      | none =>
        subst h
        exact .attemptFails hform
      | some clause =>
        obtain ⟨x, handler⟩ := clause
        simp only [bind_assoc, pure_bind, follow_done, bind_pure] at h
        exact .handle hform rfl (heval handler _ _ o h ho)
  · rcases Eval.attempt_cases he trivial with ⟨_, _, _, heq⟩ | ⟨_, _, _, heq⟩ <;> cases heq

theorem performs_of_branch (heval : eval.Derives) {k j : Nat} (hrun : Derives (eval.run j))
    {condition yes : Value} {no : Option Value} {f : FrameId} {s : State} {o : Outcome Value}
    (h : ((Construct.branch condition yes no).step eval k f >>= eval.follow j) s = o)
    (ho : o.Answers) : Performs (.branch condition yes no) f s o := by
  simp only [Construct.step, bind_assoc] at h
  rcases Eval.bind_cases h ho with ⟨v, s₁, hv, h⟩ | ⟨e, s₁, he, rfl⟩
  · have hcond := heval condition f s _ hv trivial
    cases hb : v.isTruthy with
    | true =>
      rw [hb] at h
      exact .yes hcond hb (hrun yes f s₁ o h ho)
    | false =>
      rw [hb] at h
      cases no with
      | none =>
        simp only [pure_bind] at h
        subst h
        exact .neither hcond hb
      | some no => exact .no hcond hb (hrun no f s₁ o h ho)
  · exact .conditionFails (heval condition f s _ he trivial)

theorem performs_of_step (heval : eval.Derives) {k : Nat} {j : Nat} (hrun : Derives (eval.run j))
    {c : Construct} {f : FrameId} {s : State} {o : Outcome Value}
    (h : (c.step eval k f >>= eval.follow j) s = o) (ho : o.Answers) : Performs c f s o := by
  cases c with
  | define x expr =>
    simp only [Construct.step, bind_assoc, pure_bind] at h
    rcases Eval.bind_cases h ho with ⟨v, s₁, hv, h⟩ | ⟨e, s₁, he, rfl⟩
    · subst h
      exact .define (heval expr f s _ hv trivial)
    · exact .defineFails (heval expr f s _ he trivial)
  | letIn pairs body =>
    simp only [Construct.step, bind_assoc, pure_bind] at h
    have h : (Special.bindAll eval s.heap.frames.size pairs >>= fun _ =>
      eval.follow j (.goOn body s.heap.frames.size)) (s.withHeap (s.heap.addFrame (some f) []).2) = o := h
    rcases Eval.bind_cases h ho with ⟨u, s₁, hu, h⟩ | ⟨e, s₁, he, rfl⟩
    · exact .letIn rfl (binds_of_bindAll heval hu trivial) (hrun body _ s₁ o h ho)
    · exact .letFails rfl (binds_of_bindAll heval he trivial)
  | quote form =>
    simp only [Construct.step, pure_bind] at h
    subst h
    exact .quote
  | quasiquote template =>
    simp only [Construct.step, pure_bind] at h
    exact .quasiquote (hrun _ f s o h ho)
  | defineMacro x expr => exact performs_of_defineMacro heval h ho
  | macroExpand form =>
    simp only [Construct.step, bind_assoc, pure_bind] at h
    rcases Eval.bind_cases h ho with ⟨v, s₁, hv, h⟩ | ⟨e, s₁, he, rfl⟩
    · subst h
      exact .macroExpand (expands_of_expand heval hv trivial)
    · exact .macroExpand (expands_of_expand heval he trivial)
  | attempt form handler => exact performs_of_attempt heval h ho
  | sequence forms => exact performs_of_sequence heval hrun h ho
  | branch condition yes no => exact performs_of_branch heval hrun h ho
  | abstraction params body =>
    simp only [Construct.step, bind_assoc, pure_bind] at h
    subst h
    exact .abstraction rfl

/-! ### The loop -/

theorem applies_of_stepApply (heval : eval.Derives) {k : Nat} {j : Nat} (hrun : Derives (eval.run j))
    {fn : Value} {args : List Value} {s : State} {o : Outcome Value}
    (h : (eval.stepApply k fn args >>= eval.follow j) s = o) (ho : o.Answers) : Applies fn args s o := by
  by_cases hfn : ∃ fn' body m, fn = .closure fn' body m
  · obtain ⟨fn', body, m, rfl⟩ := hfn
    simp only [stepApply, bind_assoc, pure_bind] at h
    exact @applies_of_enter (eval.run j) hrun fn' body args s o m h ho
  · rw [stepApply_of_not_closure hfn, bind_assoc] at h
    simp only [pure_bind, follow_done, bind_pure] at h
    exact applies_of_call heval k fn args s o h ho

theorem evaluates_of_stepList (heval : eval.Derives) {k : Nat} {j : Nat} (hrun : Derives (eval.run j))
    {head : Value} {args : List Value} {m : Option Value} {f : FrameId} {s : State}
    {o : Outcome Value} (hm : s.heap.macroCall? f (.list (head :: args) m) = none)
    (h : (eval.stepList k head args f >>= eval.follow j) s = o) (ho : o.Answers) :
    Evaluates (.list (head :: args) m) f s o := by
  cases hop : Special.ofHead? head with
  | some op =>
    rw [stepList_special hop, step_eq, bind_assoc] at h
    cases hc : op.parse args with
    | error fault =>
      rw [hc] at h
      subst h
      exact .malformed hm hop hc
    | ok c =>
      rw [hc, Eval.ofExcept_ok, pure_bind] at h
      exact .special hm hop hc (performs_of_step heval hrun h ho)
  | none =>
    rw [stepList_call hop, bind_assoc] at h
    rcases Eval.bind_cases h ho with ⟨fn, s₁, hfn, h⟩ | ⟨e, s₁, he, rfl⟩
    · have hhead := heval head f s _ hfn trivial
      rw [bind_assoc] at h
      rcases Eval.bind_cases h ho with ⟨vs, s₂, hvs, h⟩ | ⟨e, s₂, he, rfl⟩
      · have hargs := evaluatesAll_of_forEach heval hvs trivial
        exact .call hm hop (.cons hhead hargs) (applies_of_stepApply heval hrun h ho)
      · exact .callFails hm hop (.restFails hhead (evaluatesAll_of_forEach heval he trivial))
    · exact .callFails hm hop (.headFails (heval head f s _ he trivial))

theorem evaluates_of_evalData (heval : eval.Derives) {form : Value}
    (hform : ∀ head args m, form ≠ .list (head :: args) m) {f : FrameId} {s : State}
    {o : Outcome Value} (h : eval.evalData form f s = o) (ho : o.Answers) :
    Evaluates form f s o := by
  cases form with
  | symbol x =>
    cases hx : s.heap.lookup? f x with
    | some v =>
      rw [evalData_bound hx] at h
      subst h
      exact .bound hx
    | none =>
      rw [evalData_unbound hx] at h
      subst h
      exact .unbound hx
  | vector items m =>
    rcases Eval.bind_cases h ho with ⟨vs, s₁, hvs, h⟩ | ⟨e, s₁, he, rfl⟩
    · subst h
      exact .vector (evaluatesAll_of_forEach heval hvs trivial)
    · exact .vectorFails (evaluatesAll_of_forEach heval he trivial)
  | map entries m =>
    rcases Eval.bind_cases h ho with ⟨es, s₁, hes, h⟩ | ⟨e, s₁, he, rfl⟩
    · subst h
      exact .map (evaluatesEntries_of_forEach heval hes trivial)
    · exact .mapFails (evaluatesEntries_of_forEach heval he trivial)
  | list items m =>
    cases items with
    | nil =>
      subst h
      exact .literal rfl
    | cons head args => exact absurd rfl (hform head args m)
  | _ =>
    subst h
    exact .literal trivial

theorem evaluates_of_finish (heval : eval.Derives) {j : Nat} (hrun : Derives (eval.run j))
    {form : Value} {f : FrameId} {s : State} {o : Outcome Value}
    (hm : s.heap.macroCall? f form = none) (h : eval.finish j form f s = o) (ho : o.Answers) :
    Evaluates form f s o := by
  by_cases hform : ∃ head args m, form = .list (head :: args) m
  · obtain ⟨head, args, m, rfl⟩ := hform
    exact evaluates_of_stepList heval hrun hm h ho
  · have hdata : ∀ head args m, form ≠ .list (head :: args) m :=
      fun head args m heq => hform ⟨head, args, m, heq⟩
    rw [finish_of_not_call hdata] at h
    exact evaluates_of_evalData heval hdata h ho

theorem evaluates_of_expand (heval : eval.Derives) {i j : Nat} (hrun : Derives (eval.run j))
    {form : Value} {f : FrameId} {s : State} {o : Outcome Value}
    (h : (eval.expand i form f >>= fun expanded => eval.finish j expanded f) s = o)
    (ho : o.Answers) : Evaluates form f s o := by
  induction i generalizing form s with
  | zero =>
    subst h
    exact absurd ho (Outcome.not_answers_halt _ _)
  | succ i ih =>
    rw [expand_succ_bind] at h
    cases hm : s.heap.macroCall? f form with
    | none =>
      rw [hm] at h
      exact evaluates_of_finish heval hrun hm h ho
    | some target =>
      obtain ⟨fn, body, args⟩ := target
      rw [hm] at h
      rcases Eval.bind_cases h ho with ⟨expanded, s₁, hx, h⟩ | ⟨e, s₁, he, rfl⟩
      · exact .expansion hm (applies_of_enter heval none hx trivial) (ih h)
      · exact .expansionFails hm (applies_of_enter heval none he trivial)

theorem run_derives (heval : eval.Derives) (k : Nat) : Derives (eval.run k) := by
  induction k with
  | zero =>
    intro form f s o h ho
    subst h
    exact absurd ho (Outcome.not_answers_halt _ _)
  | succ k ih =>
    intro form f s o h ho
    rw [run_succ] at h
    exact evaluates_of_expand heval ih h ho

end

theorem unguarded_derives (n : Nat) : Derives (unguarded n) := by
  induction n with
  | zero =>
    intro form f s o h ho
    subst h
    exact absurd ho (Outcome.not_answers_halt _ _)
  | succ n ih => exact run_derives ih n

end SmallLisp
