import SmallLisp.Eval.Special

/-!
# Evaluation

A form is evaluated by steps. A form in tail position takes the place of the form it belongs to,
so that tail calls use no depth; every other evaluation inside a form is one level deeper. Before
each step macro calls are expanded.
-/

namespace SmallLisp

namespace Evaluator

/-- The value of a form that is no call: symbols are looked up, the parts of vectors and maps are
evaluated in turn, and everything else is its own value. -/
def evalData (eval : Evaluator) (form : Value) (f : FrameId) : Eval Value :=
  match form with
  | .symbol s => do
    match (← Eval.heap).lookup? f s with
    | some v => return v
    | none => .fail (.undefinedSymbol s)
  | .vector items _ => do
    return .ofVector (← Eval.forEach (eval · f) items)
  | .map entries _ => do
    let entries ← Eval.forEach (evalEntry eval f) entries
    return .ofTable (Table.ofList entries)
  | v => return v
where
  evalEntry (eval : Evaluator) (f : FrameId) (entry : String × Value) :
      Eval (String × Value) := do
    let k ← eval (.ofKey entry.1) f
    match k.key? with
    | some key => return (key, ← eval entry.2 f)
    | none => .fail (.wrongKind "map key" "string or keyword" k)

/-- One step of a call: the head and the arguments are evaluated in turn, and the body of a
closure is in tail position. -/
def stepCall (eval : Evaluator) (fuel : Nat) (head : Value) (args : List Value) (f : FrameId) :
    Eval Step := do
  let fn ← eval head f
  let args ← Eval.forEach (eval · f) args
  match fn with
  | .closure fn body _ => return .goOn body (← enter fn args)
  | fn => return .done (← eval.call fuel fn args)

def stepList (eval : Evaluator) (fuel : Nat) (head : Value) (args : List Value) (f : FrameId) :
    Eval Step :=
  match head.symbol?.bind fun s => Special.ofName? s.name with
  | some op => op.step eval fuel args f
  | none => stepCall eval fuel head args f

/-- Evaluates a form by at most `fuel` steps, with `eval` for the evaluations inside. -/
def run (eval : Evaluator) : Nat → Value → FrameId → Eval Value
  | 0, _, _ => .halt .outOfFuel
  | fuel + 1, form, f => do
    -- Only after expansion is it known whether a form is a call.
    match ← eval.expand fuel form f with
    | .list (head :: args) _ =>
      match ← stepList eval fuel head args f with
      | .done v => return v
      | .goOn next g => run eval fuel next g
    | form => evalData eval form f

end Evaluator

/-- The value of a form in a frame. The fuel bounds the nesting of evaluations and the steps of
each. -/
def eval : Nat → Evaluator
  | 0 => fun _ _ => .halt .outOfFuel
  | fuel + 1 => fun form f => .deeper (Evaluator.run (eval fuel) fuel form f)

end SmallLisp
