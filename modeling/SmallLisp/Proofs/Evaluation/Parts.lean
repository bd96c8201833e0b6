import SmallLisp.Proofs.Evaluation.Fuel

/-!
# The parts of evaluation

The parts of special forms, and the arguments of functions that call functions, are checked before
anything is evaluated. A special form of the right shape is a `Construct`, and a call of such a
function with fitting arguments is a `Callback`. Here the evaluator is written in these terms:
`step_eq` and `callNative_eq` take the checks apart from what is done, and `run_succ` cuts a turn of
the loop into expansion and what follows it.
-/

namespace SmallLisp

open Evaluator

/-! ### The parts of special forms -/

/-- The parts of a special form of the right shape. -/
inductive Construct where
  | define (s : Symbol) (expr : Value)
  | letIn (bindings : List (Value × Value)) (body : Value)
  | quote (form : Value)
  | quasiquote (template : Value)
  | defineMacro (s : Symbol) (expr : Value)
  | macroExpand (form : Value)
  | attempt (form : Value) (handler : Option (Symbol × Value))
  | sequence (forms : List Value)
  | branch (condition yes : Value) (no : Option Value)
  | abstraction (params : Params) (body : Value)

/-- The parts of a special form, or what is wrong with its shape. -/
def Special.parse (op : Special) (args : List Value) : Except Fault Construct :=
  match op with
  | define => (op.definition args).map fun (s, expr) => .define s expr
  | letForm => (bindings args).map fun (pairs, body) => .letIn pairs body
  | quote => (op.single args).map .quote
  | quasiquote => (op.single args).map .quasiquote
  | defineMacro => (op.definition args).map fun (s, expr) => .defineMacro s expr
  | macroExpand => (op.single args).map .macroExpand
  | tryForm => (Special.attempt args).map fun (form, handler) => .attempt form handler
  | doForm => .ok (.sequence args)
  | ifForm =>
    match args with
    | [condition, yes] => .ok (.branch condition yes none)
    | [condition, yes, no] => .ok (.branch condition yes (some no))
    | args => .error (op.malformed ("expected 2 or 3 arguments, got " ++ toString args.length))
  | lambda => (Special.abstraction args).map fun (params, body) => .abstraction params body

/-- The special form that a form heads, if it does. -/
def Special.ofHead? (head : Value) : Option Special :=
  head.symbol?.bind fun s => Special.ofName? s.name

/-- Whether a form is its own value: all forms are but symbols, vectors, maps and lists with a
head. -/
def Value.IsLiteral : Value → Prop
  | .symbol _ => False
  | .vector _ _ => False
  | .map _ _ => False
  | .list items _ => items = []
  | _ => True

theorem macroCall?_literal {form : Value} (hform : form.IsLiteral) (h : Heap) (f : FrameId) :
    h.macroCall? f form = none := by
  cases form with
  | list items m =>
    obtain rfl : items = [] := hform
    rfl
  | _ => rfl

theorem macroCall?_native {h : Heap} {f : FrameId} {x : Symbol} {fn : Native} {identity : Nat}
    {m : Option Value} (hx : h.lookup? f x = some (.native fn identity m)) (args : List Value)
    (m' : Option Value) : h.macroCall? f (.list (.symbol x :: args) m') = none := by
  unfold Heap.macroCall?
  dsimp only
  rw [hx]

theorem literal_of_key (key : String) : (Value.ofKey key).IsLiteral := by
  unfold Value.ofKey
  split <;> trivial

/-! ### The parts of calls -/

/-- The call of a native function that calls back, with its arguments taken apart: `eval` of a form,
`apply` of a function to arguments, `map` of a function over columns, `swap!` of the content of an
atom by a function with further arguments. -/
inductive Callback where
  | eval (form : Value) (root : FrameId)
  | apply (fn : Value) (args : List Value)
  | map (fn : Value) (columns : List (List Value))
  | swap (id : AtomId) (fn : Value) (more : List Value)

/-- The parts of a call that calls back, or what is wrong with its arguments; `none` for a native
function that never calls back. -/
def Native.callback? (fn : Native) (args : List Value) : Option (Except Fault Callback) :=
  match fn with
  | .eval root => some ((one fn.name args).map fun form => .eval form root)
  | .higherOrder .apply => some do
    let (f, row, more) ← twoOrMore fn.name args
    let spread ← itemsOrNil fn.name (more.getLastD row)
    return .apply f ((row :: more).dropLast ++ spread)
  | .higherOrder .map => some do
    let (f, row, more) ← twoOrMore fn.name args
    let row ← itemsOrNil fn.name row
    let more ← more.mapM (itemsOrNil fn.name)
    return .map f (columns row more)
  | .cell .swap => some do
    let (target, f, more) ← twoOrMore fn.name args
    return .swap (← atom fn.name target) f more
  | _ => none

/-- What a native function that never calls back does: there is nothing to evaluate or to call. -/
def Native.perform (fn : Native) (args : List Value) : Eval Value :=
  Evaluator.callNative (fun _ _ => .halt .outOfFuel) (fun _ _ => .halt .outOfFuel) fn args

/-- The macro that a closure becomes, as a new function. -/
def Lambda.toMacro (fn : Lambda) (identity : Nat) : Lambda :=
  { fn with identity := identity, isMacro := true }

/-- Whether a value can be called. -/
def Value.IsFunction : Value → Prop
  | .closure _ _ _ => True
  | .native _ _ _ => True
  | _ => False

/-- A state with another heap. -/
def State.withHeap (s : State) (h : Heap) : State := { s with heap := h }

/-- A state with a new frame below another one. -/
def State.below (s : State) (f : FrameId) (bindings : Table Value) : State :=
  s.withHeap (s.heap.addFrame (some f) bindings).2

/-! ### What special forms do -/

/-- One step of a special form whose parts are known. -/
def Construct.step (eval : Evaluator) (fuel : Nat) (c : Construct) (f : FrameId) : Eval Step :=
  match c with
  | define s expr => do return .done (← Special.bindIn f s (← eval expr f))
  | letIn pairs body => do
    let frame ← Special.childOf f
    Special.bindAll eval frame pairs
    return .goOn body frame
  | quote form => return .done form
  | quasiquote template => return .goOn template.template f
  | defineMacro s expr => do
    match ← eval expr f with
    | .closure fn body m =>
      let identity ← .onHeap Heap.addIdentity
      return .done (← Special.bindIn f s (.closure (fn.toMacro identity) body m))
    | v => .fail (.wrongKind Special.defineMacro.name "fn" v)
  | macroExpand form => do return .done (← eval.expand fuel form f)
  | attempt form handler => do
    match ← (eval form f).attempt, handler with
    | .ok v, _ => return .done v
    | .error e, none => .raise e
    | .error e, some (s, handler) => return .done (← Special.handle eval f s handler e)
  | sequence forms => Special.sequence eval f forms
  | branch condition yes no => do
    match (← eval condition f).isTruthy, no with
    | true, _ => return .goOn yes f
    | false, some no => return .goOn no f
    | false, none => return .done .nil
  | abstraction params body => do
    let identity ← .onHeap Heap.addIdentity
    return .done (.closure ⟨identity, params, f, false⟩ body none)

theorem step_eq (eval : Evaluator) (fuel : Nat) (op : Special) (args : List Value) (f : FrameId) :
    op.step eval fuel args f = Eval.ofExcept (op.parse args) >>= fun c => c.step eval fuel f := by
  cases op with
  | define =>
    unfold Special.step Special.parse
    cases Special.define.definition args <;> rfl
  | letForm =>
    unfold Special.step Special.parse
    cases Special.bindings args <;> rfl
  | quote =>
    unfold Special.step Special.parse
    cases Special.quote.single args <;> rfl
  | quasiquote =>
    unfold Special.step Special.parse
    cases Special.quasiquote.single args <;> rfl
  | defineMacro =>
    unfold Special.step Special.parse
    cases Special.defineMacro.definition args <;> rfl
  | macroExpand =>
    unfold Special.step Special.parse
    cases Special.macroExpand.single args <;> rfl
  | tryForm =>
    unfold Special.step Special.parse
    cases Special.attempt args <;> rfl
  | doForm => rfl
  | ifForm =>
    match args with
    | [condition, yes] =>
      refine congrArg (eval condition f >>= ·) (funext fun v => ?_)
      cases v.isTruthy <;> rfl
    | [condition, yes, no] =>
      refine congrArg (eval condition f >>= ·) (funext fun v => ?_)
      cases v.isTruthy <;> rfl
    | [] => rfl
    | [_] => rfl
    | _ :: _ :: _ :: _ :: _ => rfl
  | lambda =>
    unfold Special.step Special.parse
    cases Special.abstraction args <;> rfl

theorem childOf_eq {f frame : FrameId} {s : State} {heap : Heap}
    (hframe : s.heap.addFrame (some f) [] = (frame, heap)) :
    Special.childOf f s = .value frame (s.withHeap heap) := by
  change Outcome.value (s.heap.addFrame (some f) []).1
    (s.withHeap (s.heap.addFrame (some f) []).2) = _
  rw [hframe]

theorem addIdentity_eq {identity : Nat} {s : State} {heap : Heap}
    (hid : s.heap.addIdentity = (identity, heap)) :
    Eval.onHeap Heap.addIdentity s = .value identity (s.withHeap heap) := by
  change Outcome.value s.heap.addIdentity.1 (s.withHeap s.heap.addIdentity.2) = _
  rw [hid]

/-! ### What native functions do -/

/-- What a native function that calls back does with fitting arguments. -/
def Callback.run (eval : Evaluator) (call : Value → List Value → Eval Value) :
    Callback → Eval Value
  | .eval form root => eval form root
  | .apply fn args => call fn args
  | .map fn columns => do return .ofList (← Eval.forEach (call fn) columns)
  | .swap id fn more => do
    let v ← call fn ((← Cell.content id) :: more)
    Cell.assign id v

theorem callNative_eq (eval : Evaluator) (call : Value → List Value → Eval Value) (fn : Native)
    (args : List Value) :
    eval.callNative call fn args =
      match fn.callback? args with
      | none => fn.perform args
      | some c => Eval.ofExcept c >>= fun c => c.run eval call := by
  cases fn with
  | eval root => simp [Evaluator.callNative, Native.callback?, Native.name, Callback.run]
  | higherOrder op =>
    cases op with
    | apply =>
      simp [Evaluator.callNative, HigherOrder.run, Native.callback?, Native.name, Callback.run]
    | map =>
      simp [Evaluator.callNative, HigherOrder.run_map, HigherOrder.mapAll, Native.callback?,
        Native.name, Callback.run]
  | cell op =>
    cases op with
    | swap => simp [Evaluator.callNative, Cell.run, Native.callback?, Native.name, Callback.run]
    | _ => rfl
  | _ => rfl

/-! ### Calls -/

namespace Evaluator

theorem enter_ok {fn : Lambda} {args : List Value} {bindings : Table Value} {s : State}
    {frame : FrameId} {heap : Heap} (hb : Heap.bindings? fn.params args = .ok bindings)
    (hframe : s.heap.addFrame (some fn.scope) bindings = (frame, heap)) :
    enter fn args s = .value frame (s.withHeap heap) := by
  rw [enter_eq, hb]
  change Outcome.value (s.heap.addFrame (some fn.scope) bindings).1
    (s.withHeap (s.heap.addFrame (some fn.scope) bindings).2) = _
  rw [hframe]

theorem enter_error {fn : Lambda} {args : List Value} {fault : Fault} (s : State)
    (hb : Heap.bindings? fn.params args = .error fault) :
    enter fn args s = .error (.fault fault) s := by
  rw [enter_eq, hb]
  rfl

end Evaluator

/-! ### Turns of the loop -/

namespace Evaluator

/-- What the loop does with the outcome of a step. -/
def follow (eval : Evaluator) (fuel : Nat) : Step → Eval Value
  | .done v => pure v
  | .goOn next g => eval.run fuel next g

@[simp] theorem follow_done (eval : Evaluator) (fuel : Nat) (v : Value) :
    eval.follow fuel (.done v) = pure v := rfl

/-- What the loop does with a form whose errors are handled. -/
theorem attempt_follow (eval : Evaluator) (fuel : Nat) (form : Value) (x : Symbol)
    (handler : Value) (f : FrameId) :
    (Construct.attempt form (some (x, handler))).step eval fuel f >>= eval.follow fuel =
      ((eval form f).attempt >>= fun result =>
        match result with
        | .ok v => pure v
        | .error e => Special.handle eval f x handler e) := by
  unfold Construct.step
  rw [bind_assoc]
  refine congrArg ((eval form f).attempt >>= ·) (funext fun result => ?_)
  cases result with
  | ok v => rfl
  | error e => simp only [bind_assoc, pure_bind, follow_done, bind_pure]

/-- What a turn of the loop does with a form that is no macro call. -/
def finish (eval : Evaluator) (fuel : Nat) (form : Value) (f : FrameId) : Eval Value :=
  match form with
  | .list (head :: args) _ => eval.stepList fuel head args f >>= eval.follow fuel
  | form => eval.evalData form f

/-- What is done with a function and its arguments in a turn of the loop. -/
def stepApply (eval : Evaluator) (fuel : Nat) (fn : Value) (args : List Value) : Eval Step :=
  match fn with
  | .closure fn body _ => do return .goOn body (← enter fn args)
  | fn => do return .done (← eval.call fuel fn args)

theorem stepApply_of_not_closure {fn : Value} (hfn : ¬ ∃ fn' body m, fn = .closure fn' body m)
    (eval : Evaluator) (fuel : Nat) (args : List Value) :
    eval.stepApply fuel fn args = eval.call fuel fn args >>= fun v => pure (.done v) := by
  cases fn with
  | closure fn body m => exact absurd ⟨fn, body, m, rfl⟩ hfn
  | _ => rfl

theorem stepList_special {head : Value} {op : Special} (hop : Special.ofHead? head = some op)
    (eval : Evaluator) (fuel : Nat) (args : List Value) (f : FrameId) :
    eval.stepList fuel head args f = op.step eval fuel args f := by
  unfold Special.ofHead? at hop
  unfold stepList
  rw [hop]

theorem stepList_call {head : Value} (hop : Special.ofHead? head = none) (eval : Evaluator)
    (fuel : Nat) (args : List Value) (f : FrameId) :
    eval.stepList fuel head args f = (eval head f >>= fun fn =>
      Eval.forEach (eval · f) args >>= fun vs => eval.stepApply fuel fn vs) := by
  unfold Special.ofHead? at hop
  unfold stepList
  rw [hop]
  refine congrArg (eval head f >>= ·) (funext fun fn => ?_)
  refine congrArg (Eval.forEach (eval · f) args >>= ·) (funext fun vs => ?_)
  cases fn <;> rfl

theorem expand_succ (eval : Evaluator) (fuel : Nat) (form : Value) (f : FrameId) (s : State) :
    eval.expand (fuel + 1) form f s =
      match s.heap.macroCall? f form with
      | none => .value form s
      | some (fn, body, args) =>
        ((enter fn args >>= fun frame => eval body frame) >>= fun expanded =>
          eval.expand fuel expanded f) s := by
  change (match s.heap.macroCall? f form with
    | none => (pure form : Eval Value)
    | some (fn, body, args) => enter fn args >>= fun frame => eval body frame >>= fun expanded =>
        eval.expand fuel expanded f) s = _
  cases s.heap.macroCall? f form with
  | none => rfl
  | some target => simp only [bind_assoc]

theorem expand_succ_bind {α : Type} (eval : Evaluator) (fuel : Nat) (form : Value) (f : FrameId)
    (k : Value → Eval α) (s : State) :
    (eval.expand (fuel + 1) form f >>= k) s =
      match s.heap.macroCall? f form with
      | none => k form s
      | some (fn, body, args) =>
        ((enter fn args >>= fun frame => eval body frame) >>= fun expanded =>
          eval.expand fuel expanded f >>= k) s := by
  rw [Eval.bind_apply, expand_succ]
  cases s.heap.macroCall? f form with
  | none => rfl
  | some target =>
    dsimp only
    rw [← Eval.bind_apply, bind_assoc]

theorem evalData_bound {f : FrameId} {s : State} {x : Symbol} {v : Value}
    (h : s.heap.lookup? f x = some v) (eval : Evaluator) :
    eval.evalData (.symbol x) f s = .value v s := by
  refine (Eval.bind_value (rfl : Eval.heap s = .value s.heap s)).trans ?_
  rw [h]
  rfl

theorem evalData_unbound {f : FrameId} {s : State} {x : Symbol}
    (h : s.heap.lookup? f x = none) (eval : Evaluator) :
    eval.evalData (.symbol x) f s = .error (.fault (.undefinedSymbol x)) s := by
  refine (Eval.bind_value (rfl : Eval.heap s = .value s.heap s)).trans ?_
  rw [h]
  rfl

theorem finish_of_not_call {form : Value} (h : ∀ head args m, form ≠ .list (head :: args) m)
    (eval : Evaluator) (fuel : Nat) (f : FrameId) :
    eval.finish fuel form f = eval.evalData form f := by
  cases form with
  | list items m =>
    cases items with
    | nil => rfl
    | cons head args => exact absurd rfl (h head args m)
  | _ => rfl

theorem finish_literal {form : Value} (h : form.IsLiteral) (eval : Evaluator) (fuel : Nat)
    (f : FrameId) : eval.finish fuel form f = pure form := by
  cases form with
  | list items m =>
    obtain rfl : items = [] := h
    rfl
  | symbol | vector | map => exact h.elim
  | _ => rfl

theorem run_succ (eval : Evaluator) (fuel : Nat) (form : Value) (f : FrameId) :
    eval.run (fuel + 1) form f = eval.expand fuel form f >>= fun form => eval.finish fuel form f := by
  refine congrArg (eval.expand fuel form f >>= ·) (funext fun form => ?_)
  cases form with
  | list items m =>
    cases items with
    | nil => rfl
    | cons head args =>
      refine congrArg (eval.stepList fuel head args f >>= ·) (funext fun step => ?_)
      cases step <;> rfl
  | _ => rfl

/-- One turn of the loop, which goes on by `next`. -/
def turn (eval : Evaluator) (fuel : Nat) (next : Evaluator) : Evaluator := fun form f => do
  match ← eval.expand fuel form f with
  | .list (head :: args) _ =>
    match ← eval.stepList fuel head args f with
    | .done v => return v
    | .goOn form g => next form g
  | form => eval.evalData form f

theorem run_turn (eval : Evaluator) (fuel : Nat) :
    eval.run (fuel + 1) = eval.turn fuel (eval.run fuel) := rfl

end Evaluator

end SmallLisp
