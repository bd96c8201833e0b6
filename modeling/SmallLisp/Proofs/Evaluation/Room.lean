import SmallLisp.Proofs.Evaluation.Agreement
import SmallLisp.Proofs.Evaluation.Level
import SmallLisp.Proofs.Evaluation.Turns

/-!
# Room for nested evaluations

How deep evaluations nest, told by the levels that they need below their own. A form that
`EndsWithin` some room has an outcome, and is not refused anything, wherever the limit leaves that
room; one that `ContinuesWithin` it does so in tail position, inside an evaluation that has been
entered. The rules are those of natural semantics, as far as they are needed for the macros of the
prelude. A form in tail position has the room of the form whose place it takes, and every other part
has one level less.
-/

namespace SmallLisp

open Evaluator

/-- Whether two gauges differ in nothing but how deep evaluations were at most. -/
structure Gauge.Alike (g g' : Gauge) : Prop where
  depth : g'.depth = g.depth
  limit : g'.limit = g.limit
  refusals : g'.refusals = g.refusals

namespace Gauge.Alike

variable {g g' g'' : Gauge}

theorem refl (g : Gauge) : g.Alike g := ⟨rfl, rfl, rfl⟩

theorem trans (h : g.Alike g') (h' : g'.Alike g'') : g.Alike g'' :=
  ⟨h'.depth.trans h.depth, h'.limit.trans h.limit, h'.refusals.trans h.refusals⟩

theorem room (h : g.Alike g') {room : Nat} (hroom : g.depth + room ≤ g.limit) :
    g'.depth + room ≤ g'.limit := by
  rw [h.depth, h.limit]
  exact hroom

theorem leave (h : g.enter.Alike g') : g.Alike g'.leave := by
  refine ⟨?_, h.limit, h.refusals⟩
  simp only [Gauge.leave, h.depth, Gauge.enter, Nat.add_sub_cancel]

end Gauge.Alike

/-- Whether an outcome is reached under every gauge that leaves room for some levels, and nothing is
refused then. -/
structure Within {α : Type} (room : Nat) (R : State → Outcome α → Prop) (s : State)
    (o : Outcome α) : Prop where
  kept : o.state.gauge = s.gauge
  reached : ∀ g, g.depth + room ≤ g.limit → ∃ g', g.Alike g' ∧ R (s.regauge g) (o.regauge g')

abbrev SettlesWithin {α : Type} (room : Nat) (m : Nat → Nat → Eval α) : State → Outcome α → Prop :=
  Within room (Settles m)

/-- Whether a form has an outcome with some levels of room for its evaluation. -/
abbrev EndsWithin (room : Nat) (form : Value) (f : FrameId) : State → Outcome Value → Prop :=
  Within room (Ends form f)

/-- Whether the loop comes to an outcome from a form, with some levels of room for the evaluations
inside. -/
abbrev ContinuesWithin (room : Nat) (form : Value) (f : FrameId) : State → Outcome Value → Prop :=
  Within room (Continues form f)

section

variable {α β : Type} {room room' : Nat} {s s₁ : State}

/-! ### Sequences -/

namespace Within

variable {R R' : State → Outcome α → Prop} {o : Outcome α}

theorem imp (h : Within room R s o) (himp : ∀ g o', R (s.regauge g) o' → R' (s.regauge g) o') :
    Within room R' s o := by
  refine ⟨h.kept, fun g hroom => ?_⟩
  obtain ⟨g', halike, hr⟩ := h.reached g hroom
  exact ⟨g', halike, himp g _ hr⟩

theorem mono (h : Within room R s o) (hle : room ≤ room') : Within room' R s o :=
  ⟨h.kept, fun g hroom => h.reached g (by omega)⟩

end Within

namespace SettlesWithin

variable {m m' : Nat → Nat → Eval α} {next : Nat → Nat → α → Eval β}

theorem of_eq {o : Outcome α} (ho : o.Answers) (hkept : o.state.gauge = s.gauge)
    (h : ∀ g n k, m n k (s.regauge g) = o.regauge g) : SettlesWithin room m s o :=
  ⟨hkept, fun g _ => ⟨g, .refl g, .of_eq ((Outcome.answers_regauge o g).mpr ho) (h g)⟩⟩

theorem congr {o : Outcome α} (h : SettlesWithin room m s o) (hm : ∀ n k, m' n k = m n k) :
    SettlesWithin room m' s o :=
  h.imp fun _ _ hs => hs.congr fun n k => congrFun (hm n k) _

theorem of_succ {o : Outcome α} (h : SettlesWithin room (fun n k => m n (k + 1)) s o) :
    SettlesWithin room m s o :=
  h.imp fun _ _ hs => hs.of_succ

theorem bind {a : α} {o : Outcome β} (h : SettlesWithin room m s (.value a s₁))
    (hnext : SettlesWithin room (fun n k => next n k a) s₁ o) :
    SettlesWithin room (fun n k => m n k >>= next n k) s o := by
  refine ⟨hnext.kept.trans h.kept, fun g hroom => ?_⟩
  obtain ⟨g₁, halike, hs⟩ := h.reached g hroom
  obtain ⟨g₂, halike', hs'⟩ := hnext.reached g₁ (halike.room hroom)
  exact ⟨g₂, halike.trans halike', hs.bind hs'⟩

theorem bind_error {e : Error} (h : SettlesWithin room m s (.error e s₁)) :
    SettlesWithin room (fun n k => m n k >>= next n k) s (.error e s₁) := by
  refine ⟨h.kept, fun g hroom => ?_⟩
  obtain ⟨g₁, halike, hs⟩ := h.reached g hroom
  exact ⟨g₁, halike, hs.bind_error⟩

end SettlesWithin

variable {form : Value} {f : FrameId} {o : Outcome Value}

theorem EndsWithin.settles (h : EndsWithin room form f s o) :
    SettlesWithin room (fun n _ => eval n form f) s o :=
  h.imp fun _ _ => ends_iff_settles.mp

theorem ContinuesWithin.settles (h : ContinuesWithin room form f s o) :
    SettlesWithin room (fun n k => (eval n).run k form f) s o :=
  h.imp fun _ _ => continues_iff_settles.mp

/-! ### Levels -/

theorem Outcome.leave_regauge {o : Outcome α} (ho : o.Answers) (g : Gauge) :
    (o.regauge g).leave = o.regauge g.leave := by
  cases o with
  | halt cause s => exact absurd ho (Outcome.not_answers_halt cause s)
  | _ => rfl

/-- The evaluation of a form takes one level more than the loop inside. -/
theorem ContinuesWithin.ends (h : ContinuesWithin room form f s o) :
    EndsWithin (room + 1) form f s o := by
  refine ⟨h.kept, fun g hroom => ?_⟩
  have hlt : g.depth < g.limit := by omega
  have hinside : g.enter.depth + room ≤ g.enter.limit := by
    simp only [Gauge.enter]
    omega
  obtain ⟨g', halike, hc⟩ := h.reached g.enter hinside
  have ho : o.Answers := (Outcome.answers_regauge o g').mp hc.1
  refine ⟨g'.leave, halike.leave, ?_⟩
  rw [← Outcome.leave_regauge ho]
  exact (ends_iff_continues hlt).mpr ⟨_, hc, rfl⟩

theorem EndsWithin.evaluates (h : EndsWithin room form f s o) : Evaluates form f s o := by
  obtain ⟨g', halike, ho, n, hn⟩ := h.reached ⟨0, room, 0, 0⟩ (Nat.le_of_eq (Nat.zero_add room))
  have hsame : (o.regauge g').state.gauge.refusals = 0 := by
    rw [Outcome.state_regauge]
    exact halike.refusals
  have hloose := eval_loosens n form f (s.regauge ⟨0, room, 0, 0⟩) s.gauge
  rw [hn] at hloose
  have heval := (hloose ho).2 hsame
  rw [Outcome.regauge_regauge, ← h.kept, Outcome.regauge_self, State.regauge_regauge,
    h.kept] at heval
  exact unguarded_derives n form f s o heval ((Outcome.answers_regauge o g').mp ho)

/-- What a form ends in with some room is what `eval` answers, with one amount of fuel or more. -/
theorem EndsWithin.eval_eventually (h : EndsWithin room form f s o) {g : Gauge}
    (hroom : g.depth + room ≤ g.limit) :
    ∃ g', g.Alike g' ∧ ∃ N, ∀ n ≥ N, eval n form f (s.regauge g) = o.regauge g' := by
  obtain ⟨g', halike, ho, N, hN⟩ := h.reached g hroom
  exact ⟨g', halike, N, fun n hn => (eval_extends hn form f).answer hN ho⟩

/-! ### Turns -/

theorem ContinuesWithin.of_finish (hm : s.heap.macroCall? f form = none)
    (h : SettlesWithin room (fun n k => (eval n).finish k form f) s o) :
    ContinuesWithin room form f s o :=
  h.imp fun g _ hs => continues_iff_settles.mpr ((settles_run_iff (s := s.regauge g) hm).mpr hs)

theorem ContinuesWithin.literal (h : form.IsLiteral) :
    ContinuesWithin room form f s (.value form s) := by
  refine .of_finish (macroCall?_literal h s.heap f) (.of_eq trivial rfl fun g n k => ?_)
  rw [finish_literal h]
  rfl

theorem ContinuesWithin.bound {x : Symbol} {v : Value} (h : s.heap.lookup? f x = some v) :
    ContinuesWithin room (.symbol x) f s (.value v s) := by
  refine .of_finish rfl (.of_eq trivial rfl fun g n k => ?_)
  have hbound : (s.regauge g).heap.lookup? f x = some v := h
  exact finish_bound k hbound

section

variable {lam : Lambda} {body : Value} {args : List Value} {bindings : Table Value}
  {frame : FrameId} {heap : Heap}

theorem entersWithin (hb : Heap.bindings? lam.params args = .ok bindings)
    (hframe : s.heap.addFrame (some lam.scope) bindings = (frame, heap)) :
    SettlesWithin room (fun _ _ => enter lam args) s (.value frame (s.withHeap heap)) :=
  .of_eq trivial rfl fun g _ _ => enter_ok (s := s.regauge g) hb hframe

/-- The loop comes from a macro call to what it comes to from the expansion. -/
theorem ContinuesWithin.expansion {expanded : Value}
    (hm : s.heap.macroCall? f form = some (lam, body, args))
    (hb : Heap.bindings? lam.params args = .ok bindings)
    (hframe : s.heap.addFrame (some lam.scope) bindings = (frame, heap))
    (h : EndsWithin room body frame (s.withHeap heap) (.value expanded s₁))
    (ho : ContinuesWithin room expanded f s₁ o) : ContinuesWithin room form f s o := by
  have hgives : SettlesWithin room (fun n _ => enter lam args >>= fun frame => eval n body frame) s
      (.value expanded s₁) := (entersWithin hb hframe).bind h.settles
  refine ⟨ho.kept.trans hgives.kept, fun g hroom => ?_⟩
  obtain ⟨g₁, halike, hs⟩ := hgives.reached g hroom
  obtain ⟨g₂, halike', hc⟩ := ho.reached g₁ (halike.room hroom)
  refine ⟨g₂, halike.trans halike', ?_⟩
  rw [continues_iff_settles] at hc ⊢
  exact (settles_run_expansion_iff (s := s.regauge g) hm hs).mpr hc

theorem ContinuesWithin.expansionFails {e : Error}
    (hm : s.heap.macroCall? f form = some (lam, body, args))
    (hb : Heap.bindings? lam.params args = .ok bindings)
    (hframe : s.heap.addFrame (some lam.scope) bindings = (frame, heap))
    (h : EndsWithin room body frame (s.withHeap heap) (.error e s₁)) :
    ContinuesWithin room form f s (.error e s₁) := by
  have hgives : SettlesWithin room (fun n _ => enter lam args >>= fun frame => eval n body frame) s
      (.error e s₁) := (entersWithin hb hframe).bind h.settles
  refine ⟨hgives.kept, fun g hroom => ?_⟩
  obtain ⟨g₁, halike, hs⟩ := hgives.reached g hroom
  have hfails := settles_run_expansionFails (s := s.regauge g) hm hs
  exact ⟨g₁, halike, continues_iff_settles.mpr hfails⟩

end

/-! ### Calls -/

/-- What the arguments of a call come to in turn, with some levels of room. -/
abbrev ArgumentsWithin (room : Nat) (forms : List Value) (f : FrameId) :
    State → Outcome (List Value) → Prop :=
  SettlesWithin room fun n _ => Eval.forEach (eval n · f) forms

/-- What calling a value comes to, with some levels of room. -/
abbrev CallsWithin (room : Nat) (fn : Value) (args : List Value) : State → Outcome Value → Prop :=
  SettlesWithin room fun n k => (eval n).call k fn args

/-- What calling a value in tail position comes to, with some levels of room. -/
abbrev TailCallsWithin (room : Nat) (fn : Value) (args : List Value) :
    State → Outcome Value → Prop :=
  SettlesWithin room fun n k => (eval n).stepApply k fn args >>= (eval n).follow k

variable {fn v : Value} {args vs : List Value} {s₂ : State} {e : Error}

theorem ArgumentsWithin.nil : ArgumentsWithin room [] f s (.value [] s) :=
  .of_eq trivial rfl fun _ _ _ => rfl

theorem ArgumentsWithin.cons (h : EndsWithin room form f s (.value v s₁))
    (hs : ArgumentsWithin room args f s₁ (.value vs s₂)) :
    ArgumentsWithin room (form :: args) f s (.value (v :: vs) s₂) :=
  h.settles.bind (hs.bind (.of_eq trivial rfl fun _ _ _ => rfl))

theorem ArgumentsWithin.headFails (h : EndsWithin room form f s (.error e s₁)) :
    ArgumentsWithin room (form :: args) f s (.error e s₁) :=
  h.settles.bind_error

theorem ArgumentsWithin.restFails (h : EndsWithin room form f s (.value v s₁))
    (hs : ArgumentsWithin room args f s₁ (.error e s₂)) :
    ArgumentsWithin room (form :: args) f s (.error e s₂) :=
  h.settles.bind hs.bind_error

section

variable {head : Value} {m : Option Value}
  (hm : s.heap.macroCall? f (.list (head :: args) m) = none) (hop : Special.ofHead? head = none)
include hm hop

/-- A call evaluates its head, then its arguments, and then calls in tail position. -/
theorem ContinuesWithin.of_call
    (h : SettlesWithin room (fun n k => eval n head f >>= fun fn =>
      Eval.forEach (eval n · f) args >>= fun vs => (eval n).stepApply k fn vs >>= (eval n).follow k)
      s o) : ContinuesWithin room (.list (head :: args) m) f s o :=
  .of_finish hm (h.congr fun n k => finish_call hop (eval n) k args m f)

theorem ContinuesWithin.call (hhead : EndsWithin room head f s (.value fn s₁))
    (hargs : ArgumentsWithin room args f s₁ (.value vs s₂)) (h : TailCallsWithin room fn vs s₂ o) :
    ContinuesWithin room (.list (head :: args) m) f s o :=
  .of_call hm hop (hhead.settles.bind (hargs.bind h))

theorem ContinuesWithin.callFails (hhead : EndsWithin room head f s (.value fn s₁))
    (hargs : ArgumentsWithin room args f s₁ (.error e s₂)) :
    ContinuesWithin room (.list (head :: args) m) f s (.error e s₂) :=
  .of_call hm hop (hhead.settles.bind hargs.bind_error)

end

section

variable {lam : Lambda} {body : Value} {m : Option Value} {bindings : Table Value}
  {frame : FrameId} {heap : Heap}

/-- The body of a closure is one level below the call. -/
theorem CallsWithin.closure (hb : Heap.bindings? lam.params args = .ok bindings)
    (hframe : s.heap.addFrame (some lam.scope) bindings = (frame, heap))
    (h : EndsWithin room body frame (s.withHeap heap) o) :
    CallsWithin room (.closure lam body m) args s o :=
  .of_succ ((entersWithin hb hframe).bind h.settles)

/-- In tail position the body of a closure takes the place of the call. -/
theorem TailCallsWithin.closure (hb : Heap.bindings? lam.params args = .ok bindings)
    (hframe : s.heap.addFrame (some lam.scope) bindings = (frame, heap))
    (h : ContinuesWithin room body frame (s.withHeap heap) o) :
    TailCallsWithin room (.closure lam body m) args s o := by
  refine SettlesWithin.congr ((entersWithin hb hframe).bind h.settles) fun n k => ?_
  simp only [stepApply, bind_assoc, pure_bind]
  rfl

end

theorem CallsWithin.tail (h : CallsWithin room fn args s o)
    (hfn : ¬ ∃ lam body m, fn = .closure lam body m) : TailCallsWithin room fn args s o := by
  refine h.congr fun n k => ?_
  rw [stepApply_of_not_closure hfn, bind_assoc]
  simp only [pure_bind, follow_done, bind_pure]

theorem CallsWithin.direct {op : Native} {identity : Nat} {m : Option Value}
    (hc : op.callback? args = none) (ho : o.Answers) (hkept : o.state.gauge = s.gauge)
    (h : ∀ g, op.perform args (s.regauge g) = o.regauge g) :
    CallsWithin room (.native op identity m) args s o :=
  .of_succ (.of_eq ho hkept fun g _ _ => (congrFun (call_direct hc ..) _).trans (h g))

/-- What is swapped into an atom is computed at the level of the call. -/
theorem CallsWithin.swap {id : AtomId} {more : List Value} {op : Native} {identity : Nat}
    {m : Option Value} (hc : op.callback? args = some (.ok (.swap id fn more)))
    (h : CallsWithin room fn (s.heap.atoms.getD id .nil :: more) s (.value v s₁)) :
    CallsWithin room (.native op identity m) args s
      (.value v (s₁.withHeap (s₁.heap.setAtom id v))) := by
  have hcontent : SettlesWithin room (fun _ _ => Cell.content id) s
      (.value (s.heap.atoms.getD id .nil) s) := .of_eq trivial rfl fun _ _ _ => rfl
  have hassigned : SettlesWithin room (fun _ _ => Cell.assign id v) s₁
      (.value v (s₁.withHeap (s₁.heap.setAtom id v))) := .of_eq trivial rfl fun _ _ _ => rfl
  have hswap : SettlesWithin room (fun n k => Cell.content id >>= fun old =>
      (eval n).call k fn (old :: more) >>= Cell.assign id) s
        (.value v (s₁.withHeap (s₁.heap.setAtom id v))) := hcontent.bind (h.bind hassigned)
  refine .of_succ (hswap.congr fun n k => ?_)
  rw [call_callback hc]
  rfl

/-! ### Special forms -/

/-- What a special form comes to, with some levels of room for its parts. -/
abbrev PerformsWithin (room : Nat) (c : Construct) (f : FrameId) : State → Outcome Value → Prop :=
  SettlesWithin room fun n k => c.step (eval n) k f >>= (eval n).follow k

theorem ContinuesWithin.special {head : Value} {m : Option Value} {op : Special} {c : Construct}
    (hm : s.heap.macroCall? f (.list (head :: args) m) = none)
    (hop : Special.ofHead? head = some op) (hc : op.parse args = .ok c)
    (h : PerformsWithin room c f s o) : ContinuesWithin room (.list (head :: args) m) f s o :=
  .of_finish hm (SettlesWithin.congr h fun n k => finish_construct hop hc (eval n) k m f)

namespace PerformsWithin

theorem quote : PerformsWithin room (.quote form) f s (.value form s) :=
  .of_eq trivial rfl fun _ _ _ => rfl

theorem quasiquote {template : Value} (h : ContinuesWithin room template.template f s o) :
    PerformsWithin room (.quasiquote template) f s o :=
  h.settles

theorem abstraction {params : Params} {body : Value} {identity : Nat} {heap : Heap}
    (hid : s.heap.addIdentity = (identity, heap)) :
    PerformsWithin room (.abstraction params body) f s
      (.value (.closure ⟨identity, params, f, false⟩ body none) (s.withHeap heap)) := by
  cases hid
  exact .of_eq trivial rfl fun _ _ _ => rfl

/-- A `let*` of one symbol goes on with its body in a new frame that binds the symbol. -/
theorem letOne {x : Symbol} {expr body : Value}
    (h : EndsWithin room expr s.heap.frames.size (s.below f []) (.value v s₁))
    (hbody : ContinuesWithin room body s.heap.frames.size
      (s₁.withHeap (s₁.heap.set s.heap.frames.size x v)) o) :
    PerformsWithin room (.letIn [(.symbol x, expr)] body) f s o := by
  have hframe : SettlesWithin room (fun _ _ => Special.childOf f) s
      (.value s.heap.frames.size (s.below f [])) := .of_eq trivial rfl fun _ _ _ => rfl
  have hbound : SettlesWithin room
      (fun n _ => Special.bindAll (eval n) s.heap.frames.size [(.symbol x, expr)]) (s.below f [])
      (.value () (s₁.withHeap (s₁.heap.set s.heap.frames.size x v))) :=
    h.settles.bind (.of_eq trivial rfl fun _ _ _ => rfl)
  have hstep : SettlesWithin room
      (fun n k => (Construct.letIn [(.symbol x, expr)] body).step (eval n) k f) s
      (.value (.goOn body s.heap.frames.size)
        (s₁.withHeap (s₁.heap.set s.heap.frames.size x v))) :=
    hframe.bind (hbound.bind (.of_eq trivial rfl fun _ _ _ => rfl))
  exact hstep.bind hbody.settles

variable {condition first second : Value} {other : Option Value}

/-- What a branch goes on with, from whether its condition is true. -/
def chosen (first : Value) (other : Option Value) (f : FrameId) : Bool → Step
  | true => .goOn first f
  | false => (other.map (Step.goOn · f)).getD (.done .nil)

theorem branch_step (eval : Evaluator) (k : Nat) :
    (Construct.branch condition first other).step eval k f =
      eval condition f >>= fun v => pure (chosen first other f v.isTruthy) := by
  refine congrArg (eval condition f >>= ·) (funext fun v => ?_)
  cases v.isTruthy with
  | true => rfl
  | false => cases other <;> rfl

theorem branch (h : EndsWithin room condition f s (.value v s₁))
    (hs : SettlesWithin room (fun n k => (eval n).follow k (chosen first other f v.isTruthy)) s₁ o) :
    PerformsWithin room (.branch condition first other) f s o := by
  have hstep : SettlesWithin room
      (fun n _ => eval n condition f >>= fun v => pure (chosen first other f v.isTruthy)) s
      (.value (chosen first other f v.isTruthy) s₁) :=
    h.settles.bind (.of_eq trivial rfl fun _ _ _ => rfl)
  exact (hstep.bind hs).congr fun n k => congrArg (· >>= (eval n).follow k) (branch_step (eval n) k)

theorem yes (h : EndsWithin room condition f s (.value v s₁)) (hv : v.isTruthy = true)
    (hb : ContinuesWithin room first f s₁ o) :
    PerformsWithin room (.branch condition first other) f s o := by
  refine branch h ?_
  rw [hv]
  exact hb.settles

theorem no (h : EndsWithin room condition f s (.value v s₁)) (hv : v.isTruthy = false)
    (hb : ContinuesWithin room second f s₁ o) :
    PerformsWithin room (.branch condition first (some second)) f s o := by
  refine branch h ?_
  rw [hv]
  exact hb.settles

theorem neither (h : EndsWithin room condition f s (.value v s₁)) (hv : v.isTruthy = false) :
    PerformsWithin room (.branch condition first none) f s (.value .nil s₁) := by
  refine branch h ?_
  rw [hv]
  exact .of_eq trivial rfl fun _ _ _ => rfl

theorem conditionFails (h : EndsWithin room condition f s (.error e s₁)) :
    PerformsWithin room (.branch condition first other) f s (.error e s₁) :=
  .bind_error h.settles.bind_error

end PerformsWithin

end

end SmallLisp
