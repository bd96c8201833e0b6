import SmallLisp.Eval.Loop
import SmallLisp.Proofs.Native.Columns

/-!
# Congruences of evaluations

The evaluator is built from a few ways to make evaluations: values, errors, sequences, attempts,
and operations on the parts of the state. A relation between evaluations that all of these respect
is respected by the native functions, the special forms and the loop too. The main statements are
`Congruence.call`, `Congruence.expand` and `Congruence.run`: evaluators that are related form by
form give related calls, expansions and loops. What follows about fuel and about depth are
instances of them.
-/

namespace SmallLisp

open Evaluator

/-- A relation between evaluations that every way to make an evaluation respects. An evaluation
without fuel is related to every other one. -/
structure Congruence (R : ∀ {α : Type}, Eval α → Eval α → Prop) : Prop where
  exhausted : ∀ {α : Type} (m : Eval α), R (Eval.halt .outOfFuel) m
  pure : ∀ {α : Type} (a : α), R (pure a) (pure a)
  raise : ∀ {α : Type} (e : Error), R (Eval.raise e : Eval α) (Eval.raise e)
  bind : ∀ {α β : Type} {m m' : Eval α} {k k' : α → Eval β},
    R m m' → (∀ a, R (k a) (k' a)) → R (m >>= k) (m' >>= k')
  attempt : ∀ {α : Type} {m m' : Eval α}, R m m' → R m.attempt m'.attempt
  heap : R Eval.heap Eval.heap
  onHeap : ∀ {α : Type} (change : Heap → α × Heap), R (Eval.onHeap change) (Eval.onHeap change)
  onConsole : ∀ change : Console → Console, R (Eval.onConsole change) (Eval.onConsole change)
  readFile : ∀ path : String, R (Exchange.readFile path) (Exchange.readFile path)
  readLine : R Exchange.readLine Exchange.readLine
  clock : R (fun s => .value (.int s.clock) s : Eval Value) (fun s => .value (.int s.clock) s)

namespace Congruence

variable {R : ∀ {α : Type}, Eval α → Eval α → Prop}

/-! ### Native functions -/

theorem ofExcept (C : Congruence R) {α : Type} (r : Except Fault α) :
    R (Eval.ofExcept r) (Eval.ofExcept r) := by
  cases r with
  | ok a => exact C.pure a
  | error fault => exact C.raise (.fault fault)

theorem forEach (C : Congruence R) {α β : Type} {visit visit' : α → Eval β}
    (h : ∀ a, R (visit a) (visit' a)) (as : List α) :
    R (Eval.forEach visit as) (Eval.forEach visit' as) := by
  induction as with
  | nil => exact C.pure []
  | cons a rest ih =>
    refine C.bind (h a) fun b => ?_
    exact C.bind ih fun bs => C.pure (b :: bs)

theorem cell (C : Congruence R) {call call' : Value → List Value → Eval Value}
    (hcall : ∀ f args, R (call f args) (call' f args)) (op : Cell) (args : List Value) :
    R (Cell.run call op args) (Cell.run call' op args) := by
  have hcontent : ∀ id, R (Cell.content id) (Cell.content id) :=
    fun id => C.bind C.heap fun h => C.pure _
  cases op with
  | atom => exact C.bind (C.ofExcept _) fun v => C.onHeap _
  | deref => exact C.bind (C.ofExcept _) fun id => hcontent id
  | reset =>
    refine C.bind (C.ofExcept _) fun pair => ?_
    exact C.bind (C.ofExcept _) fun id => C.onHeap _
  | swap =>
    refine C.bind (C.ofExcept _) fun triple => ?_
    refine C.bind (C.ofExcept _) fun id => ?_
    refine C.bind (hcontent id) fun old => ?_
    exact C.bind (hcall _ _) fun v => C.onHeap _

theorem higherOrder (C : Congruence R) {call call' : Value → List Value → Eval Value}
    (hcall : ∀ f args, R (call f args) (call' f args)) (op : HigherOrder) (args : List Value) :
    R (HigherOrder.run call op args) (HigherOrder.run call' op args) := by
  cases op with
  | apply =>
    refine C.bind (C.ofExcept _) fun triple => ?_
    exact C.bind (C.ofExcept _) fun spread => hcall _ _
  | map =>
    rw [HigherOrder.run_map, HigherOrder.run_map]
    refine C.bind (C.ofExcept _) fun triple => ?_
    refine C.bind (C.ofExcept _) fun row => ?_
    refine C.bind (C.ofExcept _) fun more => ?_
    exact C.bind (C.forEach (hcall _) _) fun vs => C.pure _

theorem metadata (C : Congruence R) (op : Metadata) (args : List Value) :
    R (Metadata.run op args) (Metadata.run op args) := by
  cases op with
  | withMeta =>
    refine C.bind (C.ofExcept _) fun pair => ?_
    refine C.bind (C.onHeap _) fun identity => ?_
    split
    · exact C.pure _
    · exact C.raise _
  | getMeta => exact C.bind (C.ofExcept _) fun v => C.pure _

theorem exchange (C : Congruence R) (op : Exchange) (args : List Value) :
    R (Exchange.run op args) (Exchange.run op args) := by
  have hprint : ∀ readable, R (Exchange.printLine readable args) (Exchange.printLine readable args) :=
    fun readable => C.bind C.heap fun h => C.bind (C.onConsole _) fun _ => C.pure _
  cases op with
  | prn => exact hprint true
  | println => exact hprint false
  | readString =>
    refine C.bind (C.ofExcept _) fun source => ?_
    split
    · exact C.pure _
    · exact C.raise _
  | slurp =>
    refine C.bind (C.ofExcept _) fun path => ?_
    exact C.bind (C.readFile path) fun text => C.pure _
  | readline =>
    refine C.bind (C.ofExcept _) fun prompt => ?_
    refine C.bind (C.onConsole _) fun _ => ?_
    refine C.bind C.readLine fun line => ?_
    split
    · exact C.pure _
    · exact C.pure _
  | timeMs => exact C.bind (C.ofExcept _) fun _ => C.clock

/-! ### Calls -/

section Evaluators

variable {eval eval' : Evaluator}

theorem enter (C : Congruence R) (fn : Lambda) (args : List Value) :
    R (Evaluator.enter fn args) (Evaluator.enter fn args) := by
  rw [enter_eq]
  exact C.bind (C.ofExcept _) fun _ => C.onHeap _

theorem notCallable (C : Congruence R) (v : Value) :
    R (Evaluator.notCallable v) (Evaluator.notCallable v) :=
  C.bind C.heap fun _ => C.raise _

theorem callNative (C : Congruence R) (heval : ∀ form f, R (eval form f) (eval' form f))
    {call call' : Value → List Value → Eval Value}
    (hcall : ∀ f args, R (call f args) (call' f args)) (fn : Native) (args : List Value) :
    R (Evaluator.callNative eval call fn args) (Evaluator.callNative eval' call' fn args) := by
  cases fn with
  | wording op => exact C.bind C.heap fun h => C.ofExcept _
  | exchange op => exact C.exchange op args
  | higherOrder op => exact C.higherOrder hcall op args
  | metadata op => exact C.metadata op args
  | cell op => exact C.cell hcall op args
  | throw => exact C.bind (C.ofExcept _) fun v => C.raise _
  | eval root => exact C.bind (C.ofExcept _) fun form => heval form root
  | gather name => exact C.pure _
  | _ => exact C.ofExcept _

theorem call (C : Congruence R) (heval : ∀ form f, R (eval form f) (eval' form f)) {n n' : Nat}
    (h : n ≤ n') (fn : Value) (args : List Value) : R (eval.call n fn args) (eval'.call n' fn args) := by
  induction n generalizing n' fn args with
  | zero => exact C.exhausted _
  | succ n ih =>
    obtain ⟨k, rfl⟩ : ∃ k, n' = k + 1 := ⟨n' - 1, by omega⟩
    have hcall : ∀ g args, R (eval.call n g args) (eval'.call k g args) :=
      fun g args => ih (by omega) g args
    cases fn with
    | closure fn body m => exact C.bind (C.enter fn args) fun frame => heval body frame
    | native fn identity m => exact C.callNative heval hcall fn args
    | _ => exact C.notCallable _

/-! ### Evaluation -/

theorem expand (C : Congruence R) (heval : ∀ form f, R (eval form f) (eval' form f)) {n n' : Nat}
    (h : n ≤ n') (form : Value) (f : FrameId) : R (eval.expand n form f) (eval'.expand n' form f) := by
  induction n generalizing n' form with
  | zero => exact C.exhausted _
  | succ n ih =>
    obtain ⟨k, rfl⟩ : ∃ k, n' = k + 1 := ⟨n' - 1, by omega⟩
    refine C.bind C.heap fun heap => ?_
    cases heap.macroCall? f form with
    | none => exact C.pure form
    | some target =>
      obtain ⟨fn, body, args⟩ := target
      refine C.bind (C.enter fn args) fun frame => ?_
      exact C.bind (heval body frame) fun expansion => ih (by omega) expansion

theorem bindAll (C : Congruence R) (heval : ∀ form f, R (eval form f) (eval' form f)) (f : FrameId)
    (pairs : List (Value × Value)) :
    R (Special.bindAll eval f pairs) (Special.bindAll eval' f pairs) := by
  induction pairs with
  | nil => exact C.pure ()
  | cons pair rest ih =>
    refine C.bind (C.ofExcept _) fun s => ?_
    refine C.bind (heval pair.2 f) fun v => ?_
    exact C.bind (C.onHeap _) fun _ => ih

theorem sequence (C : Congruence R) (heval : ∀ form f, R (eval form f) (eval' form f)) (f : FrameId)
    (forms : List Value) : R (Special.sequence eval f forms) (Special.sequence eval' f forms) := by
  induction forms with
  | nil => exact C.pure _
  | cons form rest ih =>
    cases rest with
    | nil => exact C.pure _
    | cons next rest => exact C.bind (heval form f) fun _ => ih

theorem step (C : Congruence R) (heval : ∀ form f, R (eval form f) (eval' form f)) {n n' : Nat}
    (h : n ≤ n') (op : Special) (args : List Value) (f : FrameId) :
    R (op.step eval n args f) (op.step eval' n' args f) := by
  cases op with
  | define =>
    refine C.bind (C.ofExcept _) fun pair => ?_
    refine C.bind (heval _ _) fun v => ?_
    exact C.bind (C.onHeap _) fun _ => C.pure _
  | letForm =>
    refine C.bind (C.ofExcept _) fun pair => ?_
    refine C.bind (C.onHeap _) fun frame => ?_
    exact C.bind (C.bindAll heval frame _) fun _ => C.pure _
  | quote => exact C.bind (C.ofExcept _) fun _ => C.pure _
  | quasiquote => exact C.bind (C.ofExcept _) fun _ => C.pure _
  | defineMacro =>
    refine C.bind (C.ofExcept _) fun pair => ?_
    refine C.bind (heval _ _) fun v => ?_
    cases v with
    | closure fn body m =>
      refine C.bind (C.onHeap _) fun identity => ?_
      exact C.bind (C.onHeap _) fun _ => C.pure _
    | _ => exact C.raise _
  | macroExpand =>
    refine C.bind (C.ofExcept _) fun form => ?_
    exact C.bind (C.expand heval h form f) fun _ => C.pure _
  | tryForm =>
    refine C.bind (C.ofExcept _) fun pair => ?_
    obtain ⟨form, handler⟩ := pair
    refine C.bind (C.attempt (heval form f)) fun r => ?_
    cases r with
    | ok v => exact C.pure _
    | error e =>
      cases handler with
      | none => exact C.raise e
      | some clause =>
        refine C.bind ?_ fun _ => C.pure _
        refine C.bind (C.onHeap _) fun frame => ?_
        exact C.bind (C.onHeap _) fun _ => heval _ _
  | doForm => exact C.sequence heval f args
  | ifForm =>
    match args with
    | [condition, yes] =>
      refine C.bind (heval condition f) fun v => ?_
      split
      · exact C.pure _
      · exact C.pure _
    | [condition, yes, no] => exact C.bind (heval condition f) fun v => C.pure _
    | [] => exact C.raise _
    | [_] => exact C.raise _
    | _ :: _ :: _ :: _ :: _ => exact C.raise _
  | lambda =>
    refine C.bind (C.ofExcept _) fun pair => ?_
    exact C.bind (C.onHeap _) fun identity => C.pure _

theorem evalData (C : Congruence R) (heval : ∀ form f, R (eval form f) (eval' form f)) (form : Value)
    (f : FrameId) : R (eval.evalData form f) (eval'.evalData form f) := by
  have hentry : ∀ entry, R (evalData.evalEntry eval f entry) (evalData.evalEntry eval' f entry) := by
    intro entry
    refine C.bind (heval _ _) fun k => ?_
    split
    · exact C.bind (heval _ _) fun v => C.pure _
    · exact C.raise _
  cases form with
  | symbol s =>
    refine C.bind C.heap fun heap => ?_
    split
    · exact C.pure _
    · exact C.raise _
  | vector items m => exact C.bind (C.forEach (heval · f) items) fun vs => C.pure _
  | map entries m => exact C.bind (C.forEach hentry entries) fun es => C.pure _
  | _ => exact C.pure _

theorem stepList (C : Congruence R) (heval : ∀ form f, R (eval form f) (eval' form f)) {n n' : Nat}
    (h : n ≤ n') (head : Value) (args : List Value) (f : FrameId) :
    R (eval.stepList n head args f) (eval'.stepList n' head args f) := by
  unfold Evaluator.stepList
  split
  · exact C.step heval h _ args f
  · refine C.bind (heval head f) fun fn => ?_
    refine C.bind (C.forEach (heval · f) args) fun vs => ?_
    cases fn with
    | closure fn body m => exact C.bind (C.enter fn vs) fun frame => C.pure _
    | _ => exact C.bind (C.call heval h _ vs) fun v => C.pure _

theorem run (C : Congruence R) (heval : ∀ form f, R (eval form f) (eval' form f)) {n n' : Nat}
    (h : n ≤ n') (form : Value) (f : FrameId) : R (eval.run n form f) (eval'.run n' form f) := by
  induction n generalizing n' form f with
  | zero => exact C.exhausted _
  | succ n ih =>
    obtain ⟨k, rfl⟩ : ∃ k, n' = k + 1 := ⟨n' - 1, by omega⟩
    have hk : n ≤ k := by omega
    refine C.bind (C.expand heval hk form f) fun expanded => ?_
    split
    · refine C.bind (C.stepList heval hk _ _ f) fun step => ?_
      cases step with
      | done v => exact C.pure v
      | goOn next g => exact ih hk next g
    · exact C.evalData heval _ f

end Evaluators

end Congruence

end SmallLisp
