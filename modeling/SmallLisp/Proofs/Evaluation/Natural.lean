import SmallLisp.Proofs.Evaluation.Parts

/-!
# Natural semantics

What forms evaluate to, as rules: `Evaluates form f s o` says that `form` has the outcome `o` in the
frame `f` and the state `s`. No rule knows of a loop, of fuel or of a depth. A form in tail position
is evaluated like every other part of a form, and so are the body of a called closure and what a
macro call or a template expands to. The gauge of the state takes no part.
-/

namespace SmallLisp

mutual

/-- `Evaluates form f s o`: in the frame `f` and the state `s` the form has the outcome `o`. -/
inductive Evaluates : Value → FrameId → State → Outcome Value → Prop where
  | bound {x f s v} (h : s.heap.lookup? f x = some v) : Evaluates (.symbol x) f s (.value v s)
  | unbound {x f s} (h : s.heap.lookup? f x = none) :
      Evaluates (.symbol x) f s (.error (.fault (.undefinedSymbol x)) s)
  | vector {items m f s vs s₁} (h : EvaluatesAll items f s (.value vs s₁)) :
      Evaluates (.vector items m) f s (.value (.ofVector vs) s₁)
  | vectorFails {items m f s e s₁} (h : EvaluatesAll items f s (.error e s₁)) :
      Evaluates (.vector items m) f s (.error e s₁)
  | map {entries m f s es s₁} (h : EvaluatesEntries entries f s (.value es s₁)) :
      Evaluates (.map entries m) f s (.value (.ofTable (Table.ofList es)) s₁)
  | mapFails {entries m f s e s₁} (h : EvaluatesEntries entries f s (.error e s₁)) :
      Evaluates (.map entries m) f s (.error e s₁)
  | literal {form f s} (h : form.IsLiteral) : Evaluates form f s (.value form s)
  | expansion {form f s fn body args expanded s₁ o}
      (hm : s.heap.macroCall? f form = some (fn, body, args))
      (h : Applies (.closure fn body none) args s (.value expanded s₁))
      (ho : Evaluates expanded f s₁ o) : Evaluates form f s o
  | expansionFails {form f s fn body args e s₁}
      (hm : s.heap.macroCall? f form = some (fn, body, args))
      (h : Applies (.closure fn body none) args s (.error e s₁)) : Evaluates form f s (.error e s₁)
  | special {head args m f s op c o} (hm : s.heap.macroCall? f (.list (head :: args) m) = none)
      (hop : Special.ofHead? head = some op) (hc : op.parse args = .ok c)
      (h : Performs c f s o) : Evaluates (.list (head :: args) m) f s o
  | malformed {head args m f s op fault}
      (hm : s.heap.macroCall? f (.list (head :: args) m) = none)
      (hop : Special.ofHead? head = some op) (hc : op.parse args = .error fault) :
      Evaluates (.list (head :: args) m) f s (.error (.fault fault) s)
  | call {head args m f s fn vs s₁ o} (hm : s.heap.macroCall? f (.list (head :: args) m) = none)
      (hop : Special.ofHead? head = none)
      (hargs : EvaluatesAll (head :: args) f s (.value (fn :: vs) s₁))
      (h : Applies fn vs s₁ o) : Evaluates (.list (head :: args) m) f s o
  | callFails {head args m f s e s₁} (hm : s.heap.macroCall? f (.list (head :: args) m) = none)
      (hop : Special.ofHead? head = none)
      (hargs : EvaluatesAll (head :: args) f s (.error e s₁)) :
      Evaluates (.list (head :: args) m) f s (.error e s₁)

/-- The values of some forms in turn, up to the first that fails. -/
inductive EvaluatesAll : List Value → FrameId → State → Outcome (List Value) → Prop where
  | nil {f s} : EvaluatesAll [] f s (.value [] s)
  | cons {form rest f s v s₁ vs s₂} (h : Evaluates form f s (.value v s₁))
      (hs : EvaluatesAll rest f s₁ (.value vs s₂)) :
      EvaluatesAll (form :: rest) f s (.value (v :: vs) s₂)
  | headFails {form rest f s e s₁} (h : Evaluates form f s (.error e s₁)) :
      EvaluatesAll (form :: rest) f s (.error e s₁)
  | restFails {form rest f s v s₁ e s₂} (h : Evaluates form f s (.value v s₁))
      (hs : EvaluatesAll rest f s₁ (.error e s₂)) :
      EvaluatesAll (form :: rest) f s (.error e s₂)

/-- The entries of a map literal with the values of their forms in turn. Keys stay as they are. -/
inductive EvaluatesEntries : List (String × Value) → FrameId → State →
    Outcome (List (String × Value)) → Prop where
  | nil {f s} : EvaluatesEntries [] f s (.value [] s)
  | cons {key form rest f s v s₁ es s₂} (h : Evaluates form f s (.value v s₁))
      (hs : EvaluatesEntries rest f s₁ (.value es s₂)) :
      EvaluatesEntries ((key, form) :: rest) f s (.value ((key, v) :: es) s₂)
  | headFails {key form rest f s e s₁} (h : Evaluates form f s (.error e s₁)) :
      EvaluatesEntries ((key, form) :: rest) f s (.error e s₁)
  | restFails {key form rest f s v s₁ e s₂} (h : Evaluates form f s (.value v s₁))
      (hs : EvaluatesEntries rest f s₁ (.error e s₂)) :
      EvaluatesEntries ((key, form) :: rest) f s (.error e s₂)

/-- What a special form does. -/
inductive Performs : Construct → FrameId → State → Outcome Value → Prop where
  | define {x expr f s v s₁} (h : Evaluates expr f s (.value v s₁)) :
      Performs (.define x expr) f s (.value v (s₁.withHeap (s₁.heap.set f x v)))
  | defineFails {x expr f s e s₁} (h : Evaluates expr f s (.error e s₁)) :
      Performs (.define x expr) f s (.error e s₁)
  | letIn {bindings body f s frame heap u s₁ o}
      (hframe : s.heap.addFrame (some f) [] = (frame, heap))
      (hs : Binds bindings frame (s.withHeap heap) (.value u s₁))
      (h : Evaluates body frame s₁ o) : Performs (.letIn bindings body) f s o
  | letFails {bindings body f s frame heap e s₁}
      (hframe : s.heap.addFrame (some f) [] = (frame, heap))
      (hs : Binds bindings frame (s.withHeap heap) (.error e s₁)) :
      Performs (.letIn bindings body) f s (.error e s₁)
  | quote {form f s} : Performs (.quote form) f s (.value form s)
  | quasiquote {template f s o} (h : Evaluates template.template f s o) :
      Performs (.quasiquote template) f s o
  | defineMacro {x expr f s fn body m s₁ identity heap}
      (h : Evaluates expr f s (.value (.closure fn body m) s₁))
      (hid : s₁.heap.addIdentity = (identity, heap)) :
      Performs (.defineMacro x expr) f s (.value (.closure (fn.toMacro identity) body m)
        (s₁.withHeap (heap.set f x (.closure (fn.toMacro identity) body m))))
  | defineMacroFails {x expr f s e s₁} (h : Evaluates expr f s (.error e s₁)) :
      Performs (.defineMacro x expr) f s (.error e s₁)
  | defineMacroOfOther {x expr f s v s₁} (h : Evaluates expr f s (.value v s₁))
      (hv : ∀ fn body m, v ≠ .closure fn body m) :
      Performs (.defineMacro x expr) f s
        (.error (.fault (.wrongKind Special.defineMacro.name "fn" v)) s₁)
  | macroExpand {form f s o} (h : Expands form f s o) : Performs (.macroExpand form) f s o
  | attempt {form handler f s v s₁} (h : Evaluates form f s (.value v s₁)) :
      Performs (.attempt form handler) f s (.value v s₁)
  | attemptFails {form f s e s₁} (h : Evaluates form f s (.error e s₁)) :
      Performs (.attempt form none) f s (.error e s₁)
  | handle {form x handler f s e s₁ frame heap o} (h : Evaluates form f s (.error e s₁))
      (hframe : s₁.heap.addFrame (some f) [] = (frame, heap))
      (hh : Evaluates handler frame (s₁.withHeap (heap.set frame x e.caught)) o) :
      Performs (.attempt form (some (x, handler))) f s o
  | nothing {f s} : Performs (.sequence []) f s (.value .nil s)
  | last {form f s o} (h : Evaluates form f s o) : Performs (.sequence [form]) f s o
  | next {form second rest f s v s₁ o} (h : Evaluates form f s (.value v s₁))
      (hs : Performs (.sequence (second :: rest)) f s₁ o) :
      Performs (.sequence (form :: second :: rest)) f s o
  | nextFails {form second rest f s e s₁} (h : Evaluates form f s (.error e s₁)) :
      Performs (.sequence (form :: second :: rest)) f s (.error e s₁)
  | yes {condition yes no f s v s₁ o} (h : Evaluates condition f s (.value v s₁))
      (hv : v.isTruthy = true) (hb : Evaluates yes f s₁ o) :
      Performs (.branch condition yes no) f s o
  | no {condition yes no f s v s₁ o} (h : Evaluates condition f s (.value v s₁))
      (hv : v.isTruthy = false) (hb : Evaluates no f s₁ o) :
      Performs (.branch condition yes (some no)) f s o
  | neither {condition yes f s v s₁} (h : Evaluates condition f s (.value v s₁))
      (hv : v.isTruthy = false) : Performs (.branch condition yes none) f s (.value .nil s₁)
  | conditionFails {condition yes no f s e s₁} (h : Evaluates condition f s (.error e s₁)) :
      Performs (.branch condition yes no) f s (.error e s₁)
  | abstraction {params body f s identity heap} (hid : s.heap.addIdentity = (identity, heap)) :
      Performs (.abstraction params body) f s
        (.value (.closure ⟨identity, params, f, false⟩ body none) (s.withHeap heap))

/-- What the bindings of a binding list do in turn, each in the frame that the others are in. -/
inductive Binds : List (Value × Value) → FrameId → State → Outcome Unit → Prop where
  | nil {f s} : Binds [] f s (.value () s)
  | cons {target expr rest x f s v s₁ o} (hx : Special.letForm.symbolOf target = .ok x)
      (h : Evaluates expr f s (.value v s₁))
      (hs : Binds rest f (s₁.withHeap (s₁.heap.set f x v)) o) :
      Binds ((target, expr) :: rest) f s o
  | noSymbol {target expr rest f s fault} (hx : Special.letForm.symbolOf target = .error fault) :
      Binds ((target, expr) :: rest) f s (.error (.fault fault) s)
  | fails {target expr rest x f s e s₁} (hx : Special.letForm.symbolOf target = .ok x)
      (h : Evaluates expr f s (.error e s₁)) : Binds ((target, expr) :: rest) f s (.error e s₁)

/-- What a form expands to, which is no macro call. -/
inductive Expands : Value → FrameId → State → Outcome Value → Prop where
  | done {form f s} (hm : s.heap.macroCall? f form = none) : Expands form f s (.value form s)
  | step {form f s fn body args expanded s₁ o}
      (hm : s.heap.macroCall? f form = some (fn, body, args))
      (h : Applies (.closure fn body none) args s (.value expanded s₁))
      (ho : Expands expanded f s₁ o) : Expands form f s o
  | fails {form f s fn body args e s₁} (hm : s.heap.macroCall? f form = some (fn, body, args))
      (h : Applies (.closure fn body none) args s (.error e s₁)) : Expands form f s (.error e s₁)

/-- What calling a value with arguments does. -/
inductive Applies : Value → List Value → State → Outcome Value → Prop where
  | closure {fn : Lambda} {body m args s bindings frame heap o}
      (hb : Heap.bindings? fn.params args = .ok bindings)
      (hframe : s.heap.addFrame (some fn.scope) bindings = (frame, heap))
      (h : Evaluates body frame (s.withHeap heap) o) : Applies (.closure fn body m) args s o
  | wrongCount {fn : Lambda} {body m args s fault}
      (hb : Heap.bindings? fn.params args = .error fault) :
      Applies (.closure fn body m) args s (.error (.fault fault) s)
  | direct {fn : Native} {identity m args s o} (hc : fn.callback? args = none)
      (h : fn.perform args s = o) (ho : o.Answers) : Applies (.native fn identity m) args s o
  | callback {fn : Native} {identity m args s c o} (hc : fn.callback? args = some (.ok c))
      (h : Invokes c s o) : Applies (.native fn identity m) args s o
  | misuse {fn : Native} {identity m args s fault}
      (hc : fn.callback? args = some (.error fault)) :
      Applies (.native fn identity m) args s (.error (.fault fault) s)
  | notFunction {v args s} (hv : ¬ v.IsFunction) :
      Applies v args s (.error (.fault (.notCallable (s.heap.print true v))) s)

/-- What a native function that calls back does. -/
inductive Invokes : Callback → State → Outcome Value → Prop where
  | eval {form root s o} (h : Evaluates form root s o) : Invokes (.eval form root) s o
  | apply {fn args s o} (h : Applies fn args s o) : Invokes (.apply fn args) s o
  | map {fn columns s vs s₁} (h : AppliesEach fn columns s (.value vs s₁)) :
      Invokes (.map fn columns) s (.value (.ofList vs) s₁)
  | mapFails {fn columns s e s₁} (h : AppliesEach fn columns s (.error e s₁)) :
      Invokes (.map fn columns) s (.error e s₁)
  | swap {id fn more s v s₁}
      (h : Applies fn (s.heap.atoms.getD id .nil :: more) s (.value v s₁)) :
      Invokes (.swap id fn more) s (.value v (s₁.withHeap (s₁.heap.setAtom id v)))
  | swapFails {id fn more s e s₁}
      (h : Applies fn (s.heap.atoms.getD id .nil :: more) s (.error e s₁)) :
      Invokes (.swap id fn more) s (.error e s₁)

/-- The values of a function for some lists of arguments in turn, up to the first that fails. -/
inductive AppliesEach : Value → List (List Value) → State → Outcome (List Value) → Prop where
  | nil {fn s} : AppliesEach fn [] s (.value [] s)
  | cons {fn args rest s v s₁ vs s₂} (h : Applies fn args s (.value v s₁))
      (hs : AppliesEach fn rest s₁ (.value vs s₂)) :
      AppliesEach fn (args :: rest) s (.value (v :: vs) s₂)
  | headFails {fn args rest s e s₁} (h : Applies fn args s (.error e s₁)) :
      AppliesEach fn (args :: rest) s (.error e s₁)
  | restFails {fn args rest s v s₁ e s₂} (h : Applies fn args s (.value v s₁))
      (hs : AppliesEach fn rest s₁ (.error e s₂)) :
      AppliesEach fn (args :: rest) s (.error e s₂)

end

end SmallLisp
