import SmallLisp.Eval.Expansion
import SmallLisp.Value.Template

/-!
# Special forms

The forms whose parts are not evaluated like arguments. A special form either has a value or goes
on with another form in some frame; that form is in tail position and is not evaluated here.
-/

namespace SmallLisp

/-- What one step of evaluation gives: a value, or the form and frame to go on with. -/
inductive Step where
  | done (v : Value)
  | goOn (form : Value) (f : FrameId)

inductive Special where
  | define
  | letForm
  | quote
  | quasiquote
  | defineMacro
  | macroExpand
  | tryForm
  | doForm
  | ifForm
  | lambda
  deriving DecidableEq, Repr

namespace Special

def ofName? : String → Option Special
  | "define" => some define
  | "let*" => some letForm
  | "quote" => some quote
  | "quasiquote" => some quasiquote
  | "defmacro!" => some defineMacro
  | "macroExpand" => some macroExpand
  | "macroexpand" => some macroExpand
  | "try*" => some tryForm
  | "do" => some doForm
  | "if" => some ifForm
  | "lambda" => some lambda
  | _ => none

def name : Special → String
  | define => "define"
  | letForm => "let*"
  | quote => "quote"
  | quasiquote => "quasiquote"
  | defineMacro => "defmacro!"
  | macroExpand => "macroExpand"
  | tryForm => "try*"
  | doForm => "do"
  | ifForm => "if"
  | lambda => "lambda"

/-! ### The shape of special forms -/

def malformed (op : Special) (message : String) : Fault := .invalidSyntax op.name message

/-- The fault of a special form that takes `expected` forms and is given others. -/
def wrongCount (op : Special) (expected : Nat) (args : List Value) : Fault :=
  op.malformed ("expected " ++ toString expected ++ " argument(s), got " ++
    toString args.length)

/-- The symbol that a form must be. -/
def symbolOf (op : Special) (form : Value) : Except Fault Symbol :=
  match form.symbol? with
  | some s => .ok s
  | none => .error (op.malformed ("expected a symbol, got " ++ form.kind))

/-- The only form of a special form. -/
def single (op : Special) : List Value → Except Fault Value
  | [form] => .ok form
  | args => .error (op.wrongCount 1 args)

def definition (op : Special) : List Value → Except Fault (Symbol × Value)
  | [target, expr] => return (← op.symbolOf target, expr)
  | args => .error (op.wrongCount 2 args)

/-- Some forms as one: `nil` for none, and a `do` of several. -/
def body : List Value → Value
  | [] => .nil
  | [form] => form
  | forms => .ofList (.named "do" :: forms)

/-- The forms of a binding list two by two, and the body behind them. -/
def bindings : List Value → Except Fault (List (Value × Value) × Value)
  | [] => .error (letForm.malformed "expected a binding list")
  | first :: forms =>
    match first.items? with
    | none =>
      .error (letForm.malformed ("bindings must be a list or vector, got " ++ first.kind))
    | some items =>
      match pairs? items with
      | none => .error (letForm.malformed "bindings must contain an even number of forms")
      | some pairs => .ok (pairs, body forms)

/-- The symbol and the handler of a `catch*` clause. -/
def clause (form : Value) : Except Fault (Symbol × Value) :=
  match form with
  | .list items _ =>
    if (items.head?.map (·.isNamed "catch*")).getD false then
      match items with
      | [_, target, handler] =>
        match target.symbol? with
        | some s => .ok (s, handler)
        | none =>
          .error (tryForm.malformed ("catch* binding must be a symbol, got " ++ target.kind))
      | _ => .error (tryForm.malformed "catch* requires a binding and a handler")
    else .error (tryForm.malformed "expected a catch* clause")
  | v => .error (tryForm.malformed ("expected a catch* clause, got " ++ v.kind))

/-- The tried form and the clause of its errors, if there is one. -/
def attempt : List Value → Except Fault (Value × Option (Symbol × Value))
  | [form] => .ok (form, none)
  | [form, handler] => return (form, some (← clause handler))
  | args => .error (tryForm.malformed
      ("expected a body and an optional catch* clause, got " ++ toString args.length ++
        " forms"))

/-- The parameters that symbols stand for. The rest mark stands in front of the last one. -/
def params : List Value → Except Fault Params
  | [] => .ok ⟨[], none⟩
  | form :: forms => do
    let s ← lambda.symbolOf form
    if s.isRestMark then
      match forms with
      | [] => .error (lambda.malformed "& must be followed by a parameter")
      | rest :: more =>
        let rest ← lambda.symbolOf rest
        if more.isEmpty then return ⟨[], some rest⟩
        else .error (lambda.malformed "only one parameter may follow &")
    else
      let others ← params forms
      return { others with required := s :: others.required }

/-- The parameters that a form stands for. -/
def parameters (form : Value) : Except Fault Params :=
  match form.items? with
  | none => .error (lambda.malformed ("parameters must be a list or vector, got " ++ form.kind))
  | some items => params items

def abstraction : List Value → Except Fault (Params × Value)
  | [] => .error (lambda.malformed "expected a parameter list")
  | first :: forms => return (← parameters first, body forms)

/-! ### Their evaluation -/

/-- Binds a symbol in a frame and gives the value. -/
def bindIn (f : FrameId) (s : Symbol) (v : Value) : Eval Value :=
  .onHeap fun h => (v, h.set f s v)

def childOf (f : FrameId) : Eval FrameId := .onHeap fun h => h.addFrame (some f) []

/-- Binds symbols to the values of expressions in turn; each binding is seen by the next. -/
def bindAll (eval : Evaluator) (f : FrameId) : List (Value × Value) → Eval Unit
  | [] => pure ()
  | (target, expr) :: rest => do
    let s ← .ofExcept (letForm.symbolOf target)
    let _ ← bindIn f s (← eval expr f)
    bindAll eval f rest

/-- Evaluates forms in turn up to the last one, which is in tail position. -/
def sequence (eval : Evaluator) (f : FrameId) : List Value → Eval Step
  | [] => return .done .nil
  | [form] => return .goOn form f
  | form :: forms => do
    let _ ← eval form f
    sequence eval f forms

/-- Evaluates the handler of an error in a new frame, where a symbol is bound to what was thrown. -/
def handle (eval : Evaluator) (f : FrameId) (s : Symbol) (handler : Value) (e : Error) :
    Eval Value := do
  let frame ← childOf f
  let _ ← bindIn frame s e.caught
  eval handler frame

/-- One step of a special form in a frame, with the forms behind its head. Macro expansion takes
at most `fuel` steps. -/
def step (eval : Evaluator) (fuel : Nat) (op : Special) (args : List Value) (f : FrameId) :
    Eval Step := do
  match op with
  | define =>
    let (s, expr) ← .ofExcept (op.definition args)
    return .done (← bindIn f s (← eval expr f))
  | letForm =>
    let (pairs, form) ← .ofExcept (bindings args)
    let frame ← childOf f
    bindAll eval frame pairs
    return .goOn form frame
  | quote => return .done (← .ofExcept (op.single args))
  | quasiquote => return .goOn (← .ofExcept (op.single args)).template f
  | defineMacro =>
    let (s, expr) ← .ofExcept (op.definition args)
    match ← eval expr f with
    | .closure fn form m =>
      let identity ← .onHeap Heap.addIdentity
      -- The closure stays a function wherever it is bound; the macro is a new one.
      let fn := { fn with identity := identity, isMacro := true }
      return .done (← bindIn f s (.closure fn form m))
    | v => .fail (.wrongKind op.name "fn" v)
  | macroExpand => return .done (← eval.expand fuel (← .ofExcept (op.single args)) f)
  | tryForm =>
    let (form, handler) ← .ofExcept (attempt args)
    match ← (eval form f).attempt, handler with
    | .ok v, _ => return .done v
    | .error e, none => .raise e
    -- Neither the tried form nor the handler is in tail position.
    | .error e, some (s, handler) => return .done (← handle eval f s handler e)
  | doForm => sequence eval f args
  | ifForm =>
    match args with
    | [condition, yes] =>
      if (← eval condition f).isTruthy then return .goOn yes f else return .done .nil
    | [condition, yes, no] =>
      return .goOn (if (← eval condition f).isTruthy then yes else no) f
    | args => .fail (op.malformed
        ("expected 2 or 3 arguments, got " ++ toString args.length))
  | lambda =>
    let (params, form) ← .ofExcept (abstraction args)
    let identity ← .onHeap Heap.addIdentity
    return .done (.closure ⟨identity, params, f, false⟩ form none)

end Special

end SmallLisp
