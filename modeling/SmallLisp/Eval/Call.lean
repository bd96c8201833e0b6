import SmallLisp.Native.Arithmetic
import SmallLisp.Native.Cell
import SmallLisp.Native.Collection
import SmallLisp.Native.Comparison
import SmallLisp.Native.Exchange
import SmallLisp.Native.HigherOrder
import SmallLisp.Native.Predicate
import SmallLisp.Native.Sequence
import SmallLisp.Native.Wording

/-!
# Calls

What calling a function value does. A closure is called by evaluating its body in a new frame
below the one it was made in. The evaluation of forms is a parameter here, `eval`.
-/

namespace SmallLisp

/-- The evaluation of a form in a frame. -/
abbrev Evaluator := Value → FrameId → Eval Value

namespace Evaluator

/-- Makes the frame of a call. -/
def enter (fn : Lambda) (args : List Value) : Eval FrameId :=
  .onHeapOrFail fun h => h.bind fn.scope fn.params args

theorem enter_eq (fn : Lambda) (args : List Value) :
    enter fn args = Eval.ofExcept (Heap.bindings? fn.params args) >>= fun bindings =>
      Eval.onHeap fun h => h.addFrame (some fn.scope) bindings := by
  unfold enter Heap.bind
  cases Heap.bindings? fn.params args <;> rfl

def notCallable (v : Value) : Eval Value := do
  .fail (.notCallable ((← Eval.heap).print true v))

/-- Calls a native function. Functions that call their argument do so by `call`. -/
def callNative (eval : Evaluator) (call : Value → List Value → Eval Value) (fn : Native)
    (args : List Value) : Eval Value :=
  match fn with
  | .arithmetic op => .ofExcept (op.run args)
  | .comparison op => .ofExcept (op.run args)
  | .predicate op => .ofExcept (op.run args)
  | .wording op => do .ofExcept (op.run (← Eval.heap) args)
  | .exchange op => op.run args
  | .collection op => .ofExcept (op.run args)
  | .sequence op => .ofExcept (op.run args)
  | .higherOrder op => op.run call args
  | .metadata op => op.run args
  | .cell op => op.run call args
  | .throw => do .raise (.thrown (← .ofExcept (Native.one fn.name args)))
  | .eval root => do eval (← .ofExcept (Native.one fn.name args)) root
  | .gather _ => pure (.ofVector args)

/-- Calls a value with arguments. Native functions call one another at most `fuel` deep. -/
def call (eval : Evaluator) : Nat → Value → List Value → Eval Value
  | 0, _, _ => .halt .outOfFuel
  | fuel + 1, f, args =>
    match f with
    | .closure fn body _ => do eval body (← enter fn args)
    | .native fn _ _ => callNative eval (call eval fuel) fn args
    | v => notCallable v

end Evaluator

end SmallLisp
