import SmallLisp.Eval.Call

/-!
# Macro expansion

A list is a macro call when its head is a symbol bound to a macro. It expands to what the macro
gives for the unevaluated forms behind the head, and expansion goes on until the result is no
macro call.
-/

namespace SmallLisp

/-- The macro that a form calls, its body, and the forms that it is called on. -/
def Heap.macroCall? (h : Heap) (f : FrameId) : Value → Option (Lambda × Value × List Value)
  | .list (.symbol s :: args) _ =>
    match h.lookup? f s with
    | some (.closure fn body _) => if fn.isMacro then some (fn, body, args) else none
    | _ => none
  | _ => none

/-- Expands a form in a frame, in at most `fuel` steps. -/
def Evaluator.expand (eval : Evaluator) : Nat → Value → FrameId → Eval Value
  | 0, _, _ => .halt .outOfFuel
  | fuel + 1, form, f => do
    match (← Eval.heap).macroCall? f form with
    | none => return form
    | some (fn, body, args) =>
      let expansion ← eval body (← enter fn args)
      expand eval fuel expansion f

end SmallLisp
