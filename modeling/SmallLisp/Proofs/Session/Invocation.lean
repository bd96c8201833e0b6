import Mathlib
import SmallLisp.Proofs.Evaluation.Agreement
import SmallLisp.Proofs.Evaluation.Instantiation
import SmallLisp.Session.Basic

/-!
# Ways to call a function

A function is called by a form that it heads, by a host program, under the name that it is bound to
in the root, or by `apply` on some arguments and a sequence of further ones. In the first case its
body takes the place of the form in the loop, and in the others it is evaluated one level deeper.
All of them come to what the rules say of a call, as `Applies` tells it. The main statement is
`invocations_agree`.
-/

namespace SmallLisp

open Session (root)

theorem Session.call_bound {s : State} {name : String} {fn : Value}
    (h : s.heap.lookup? root ⟨name⟩ = some fn) (n : Nat) (args : List Value) :
    Session.call n name args s = (eval n).call n fn args s := by
  unfold Session.call
  rw [Eval.bind_value (rfl : Session.get? name s = .value (s.heap.lookup? root ⟨name⟩) s), h]

/-! ### What evaluations realize -/

/-- Whether evaluations with more and more fuel in a state do what some outcomes tell: an answer
without a refusal is such an outcome, and such an outcome is the answer under every limit that is
large enough. -/
structure Realizes (p : Nat → Eval Value) (s : State) (R : Outcome Value → Prop) : Prop where
  told : ∀ {n o}, p n s = o → o.Answers → o.state.gauge.refusals = s.gauge.refusals →
    R (o.regauge s.gauge)
  eventually : ∀ {o}, R o → ∃ N, ∀ g, g.depth + N ≤ g.limit → ∃ g', g'.depth = g.depth ∧
    g'.limit = g.limit ∧ g'.refusals = g.refusals ∧ ∀ n ≥ N, p n (s.regauge g) = o.regauge g'

theorem Realizes.congr {p : Nat → Eval Value} {s : State} {R R' : Outcome Value → Prop}
    (h : Realizes p s R) (hR : ∀ o, R o ↔ R' o) : Realizes p s R' where
  told hp ho hsame := (hR _).mp (h.told hp ho hsame)
  eventually hr := h.eventually ((hR _).mpr hr)

theorem realizes_eval (form : Value) (f : FrameId) (s : State) :
    Realizes (fun n => eval n form f) s (Evaluates form f s) where
  told := evaluates_of_eval
  eventually := Evaluates.eval_eventually

section

variable {fn : Value} {args : List Value} {s : State} {o o' : Outcome Value}

theorem Applies.unique (h : Applies fn args s o) (h' : Applies fn args s o') : o = o' :=
  h.settles.unique h'.settles

theorem applies_of_guarded_call {n k : Nat} (h : (eval n).call k fn args s = o) (ho : o.Answers)
    (hsame : o.state.gauge.refusals = s.gauge.refusals) :
    Applies fn args s (o.regauge s.gauge) := by
  subst h
  have hcarries : ((eval n).call k fn args).Carries (fun _ => s.gauge)
      ((unguarded n).call k fn args) :=
    (Eval.carries_congruence fun _ => s.gauge).call
      (fun form f => Eval.loosens_iff.mp (eval_loosens n form f) s.gauge) (Nat.le_refl k) fn args
  have hloose := (hcarries s ho).2 hsame
  rw [State.regauge_self] at hloose
  have hanswers := (Outcome.answers_regauge _ s.gauge).mpr ho
  exact applies_of_call (unguarded_derives n) k fn args s _ hloose hanswers

theorem Applies.call_eventually (h : Applies fn args s o) :
    ∃ N, ∀ g, g.depth + N ≤ g.limit → ∃ g', g'.depth = g.depth ∧ g'.limit = g.limit ∧
      g'.refusals = g.refusals ∧ ∀ n ≥ N, ∀ k ≥ N,
        (eval n).call k fn args (s.regauge g) = o.regauge g' := by
  obtain ⟨ho, N, hN⟩ := h.settles
  have hcall : (unguarded N).call N fn args s = o := hN N (Nat.le_refl N) N (Nat.le_refl N)
  have hanswers : ((unguarded N).call N fn args s).Answers := by
    rw [hcall]
    exact ho
  have hfits : ((unguarded N).call N fn args).FitsIn N ((eval N).call N fn args) :=
    (Eval.fitsIn_congruence N).call (unguarded_fitsIn N) (Nat.le_refl N) fn args
  refine ⟨N, fun g hroom => ?_⟩
  obtain ⟨g', hd, hl, hr, heq⟩ := hfits s g hanswers hroom
  rw [hcall] at heq
  refine ⟨g', hd, hl, hr, fun n hn k hk => ?_⟩
  have hmore : ((eval N).call N fn args).Extends ((eval n).call k fn args) :=
    Eval.extends_congruence.call (eval_extends hn) hk fn args
  exact hmore.answer heq ((Outcome.answers_regauge o g').mpr ho)

theorem realizes_call (fn : Value) (args : List Value) (s : State) :
    Realizes (fun n => (eval n).call n fn args) s (Applies fn args s) where
  told := applies_of_guarded_call
  eventually h := by
    obtain ⟨N, hN⟩ := h.call_eventually
    refine ⟨N, fun g hroom => ?_⟩
    obtain ⟨g', hd, hl, hr, heq⟩ := hN g hroom
    exact ⟨g', hd, hl, hr, fun n hn => heq n hn n hn⟩

theorem realizes_named {name : String} (h : s.heap.lookup? root ⟨name⟩ = some fn)
    (args : List Value) : Realizes (fun n => Session.call n name args) s (Applies fn args s) where
  told hcall := by
    rw [Session.call_bound h] at hcall
    exact (realizes_call fn args s).told hcall
  eventually happlies := by
    obtain ⟨N, hN⟩ := (realizes_call fn args s).eventually happlies
    refine ⟨N, fun g hroom => ?_⟩
    obtain ⟨g', hd, hl, hr, heq⟩ := hN g hroom
    refine ⟨g', hd, hl, hr, fun n hn => ?_⟩
    have h' : (s.regauge g).heap.lookup? root ⟨name⟩ = some fn := h
    exact (Session.call_bound h' n args).trans (heq n hn)

/-! ### Calls by a form -/

/-- The form that gives a value unevaluated. -/
def Value.quoted (v : Value) : Value := .ofList [.named "quote", v]

theorem evaluatesAll_quoted_iff {f : FrameId} (hq : ¬ s.heap.IsMacro f "quote")
    {o : Outcome (List Value)} :
    EvaluatesAll (args.map Value.quoted) f s o ↔ o = .value args s := by
  induction args generalizing o with
  | nil =>
    constructor
    · intro h
      cases h
      rfl
    · rintro rfl
      exact .nil
  | cons v rest ih =>
    constructor
    · intro h
      cases h with
      | cons h hs =>
        cases (evaluates_quote_iff hq v).mp h
        cases ih.mp hs
        rfl
      | headFails h => cases (evaluates_quote_iff hq v).mp h
      | restFails h hs =>
        cases (evaluates_quote_iff hq v).mp h
        cases ih.mp hs
    · rintro rfl
      exact .cons ((evaluates_quote_iff hq v).mpr rfl) (ih.mpr rfl)

theorem ofHead?_literal (hfn : fn.IsLiteral) : Special.ofHead? fn = none := by
  cases fn with
  | symbol x => exact hfn.elim
  | _ => rfl

theorem macroCall?_literal_head (hfn : fn.IsLiteral) (h : Heap) (f : FrameId)
    (forms : List Value) (m : Option Value) : h.macroCall? f (.list (fn :: forms) m) = none := by
  cases fn with
  | symbol x => exact hfn.elim
  | _ => rfl

/-- A form whose head is its own value and whose other parts are quoted calls that value with what
is quoted. -/
theorem evaluates_literal_call_iff {f : FrameId} (hfn : fn.IsLiteral)
    (hq : ¬ s.heap.IsMacro f "quote") (m : Option Value) :
    Evaluates (.list (fn :: args.map Value.quoted) m) f s o ↔ Applies fn args s o := by
  have hnone := macroCall?_literal_head hfn s.heap f (args.map Value.quoted) m
  have hop := ofHead?_literal hfn
  have hhead : Evaluates fn f s (.value fn s) := .literal hfn
  have hargs : EvaluatesAll (args.map Value.quoted) f s (.value args s) :=
    (evaluatesAll_quoted_iff hq).mpr rfl
  constructor
  · intro h
    cases h with
    | literal h => cases h
    | expansion hm | expansionFails hm => cases hnone.symm.trans hm
    | special _ hop' | malformed _ hop' => cases hop.symm.trans hop'
    | call _ _ hall h =>
      cases hall with
      | cons hfirst hrest =>
        cases hfirst.unique hhead
        cases (evaluatesAll_quoted_iff hq).mp hrest
        exact h
    | callFails _ _ hall =>
      cases hall with
      | headFails hfirst => cases hfirst.unique hhead
      | restFails hfirst hrest =>
        cases hfirst.unique hhead
        cases (evaluatesAll_quoted_iff hq).mp hrest
  · exact fun h => .call hnone hop (.cons hhead hargs) h

/-! ### Calls by `apply` -/

theorem callback?_apply {last : Value} {back : List Value} (hlast : last.items? = some back)
    (fn : Value) (front : List Value) :
    (Native.higherOrder .apply).callback? (fn :: (front ++ [last])) =
      some (.ok (.apply fn (front ++ back))) := by
  have hspread : ∀ name, Native.itemsOrNil name last = .ok back := by
    intro name
    cases last with
    | list | vector =>
      cases hlast
      rfl
    | _ => cases hlast
  cases front with
  | nil =>
    simp [Native.callback?, Native.twoOrMore, hspread, bind, Except.bind, pure, Except.pure]
  | cons v rest =>
    have hinit : ((v :: rest) ++ [last]).dropLast = v :: rest := List.dropLast_concat
    rw [List.cons_append] at hinit
    simp [Native.callback?, Native.twoOrMore, hspread, hinit, bind, Except.bind, pure, Except.pure]

theorem applies_apply_iff {last : Value} {front back : List Value} {identity : Nat}
    {m : Option Value} (hlast : last.items? = some back) :
    Applies (.native (.higherOrder .apply) identity m) (fn :: (front ++ [last])) s o ↔
      Applies fn (front ++ back) s o := by
  have hcallback := callback?_apply hlast fn front
  constructor
  · intro h
    cases h with
    | direct hc => cases hcallback.symm.trans hc
    | misuse hc => cases hcallback.symm.trans hc
    | callback hc h =>
      cases hcallback.symm.trans hc
      cases h with
      | apply h => exact h
    | notFunction hv => exact absurd trivial hv
  · exact fun h => .callback hcallback (.apply h)

/-! ### The ways to call -/

/-- The ways to call a value with arguments in a state: by a form in a frame where `quote` is no
macro, by a host program, under a name in the root, and by `apply` on some arguments and a list or
vector of the others. -/
inductive WayToCall (fn : Value) (args : List Value) (s : State) : (Nat → Eval Value) → Prop where
  | form {f m} (hq : ¬ s.heap.IsMacro f "quote") :
      WayToCall fn args s fun n => eval n (.list (fn :: args.map Value.quoted) m) f
  | direct : WayToCall fn args s fun n => (eval n).call n fn args
  | named {name} (h : s.heap.lookup? root ⟨name⟩ = some fn) :
      WayToCall fn args s fun n => Session.call n name args
  | spread {front back last identity m} (hargs : front ++ back = args)
      (hlast : last.items? = some back) :
      WayToCall fn args s fun n =>
        (eval n).call n (.native (.higherOrder .apply) identity m) (fn :: (front ++ [last]))

theorem WayToCall.realizes {p : Nat → Eval Value} (h : WayToCall fn args s p)
    (hfn : fn.IsLiteral) : Realizes p s (Applies fn args s) := by
  cases h with
  | form hq => exact (realizes_eval _ _ s).congr fun o => evaluates_literal_call_iff hfn hq _
  | direct => exact realizes_call fn args s
  | named h => exact realizes_named h args
  | spread hargs hlast =>
    subst hargs
    exact (realizes_call _ _ s).congr fun o => applies_apply_iff hlast

end

/-- Two ways to call a function, or a value that is none, have the same outcome and leave the same
state but for its gauge, as long as nothing is refused for its depth; and where one of them has an
outcome, the other one has it under every limit that is large enough. -/
theorem invocations_agree {fn : Value} {args : List Value} {s : State} {p q : Nat → Eval Value}
    (hfn : fn.IsLiteral) (hp : WayToCall fn args s p) (hq : WayToCall fn args s q) :
    (∀ n n' o o', p n s = o → o.Answers → o.state.gauge.refusals = s.gauge.refusals →
      q n' s = o' → o'.Answers → o'.state.gauge.refusals = s.gauge.refusals →
        o'.regauge s.gauge = o.regauge s.gauge) ∧
    ∀ n o, p n s = o → o.Answers → o.state.gauge.refusals = s.gauge.refusals →
      ∃ N, ∀ g, g.depth + N ≤ g.limit → ∃ g', g'.depth = g.depth ∧ g'.limit = g.limit ∧
        g'.refusals = g.refusals ∧ ∀ n ≥ N, q n (s.regauge g) = o.regauge g' := by
  constructor
  · intro n n' o o' h ho hsame h' ho' hsame'
    have hleft := (hp.realizes hfn).told h ho hsame
    have hright := (hq.realizes hfn).told h' ho' hsame'
    exact hright.unique hleft
  · intro n o h ho hsame
    have htold := (hp.realizes hfn).told h ho hsame
    obtain ⟨N, hN⟩ := (hq.realizes hfn).eventually htold
    refine ⟨N, fun g hroom => ?_⟩
    obtain ⟨g', hd, hl, hr, heq⟩ := hN g hroom
    refine ⟨g', hd, hl, hr, fun n hn => ?_⟩
    rw [heq n hn, Outcome.regauge_regauge]

/-- The body `(do (define x r) x)` of a function with the parameters `x` and, for the rest, `r`. -/
def Value.sampleKeepRest : Value :=
  .ofList [.named "do", .ofList [.named "define", .named "x", .named "r"], .named "x"]

/-- A macro with these parameters and this body. -/
def Value.sampleVariadic : Value :=
  .closure ⟨0, ⟨[⟨"x"⟩], some ⟨"r"⟩⟩, 0, true⟩ .sampleKeepRest none

/-- A state whose root binds this macro to `f`, with further frames below. -/
def State.sampleCallable (more : List Frame) (g : Gauge) : State :=
  ⟨⟨(⟨[("f", .sampleVariadic)], none⟩ :: more).toArray, #[], 1⟩, g, ⟨[], true, "", ""⟩, .empty, 0⟩

/-- The state behind a call of this macro with the integers 1, 2 and 3. -/
def State.sampleCalled (g : Gauge) : State :=
  .sampleCallable [⟨[("r", .ofList [.int 2, .int 3]), ("x", .ofList [.int 2, .int 3])], some 0⟩] g

theorem eval_sampleVariadic :
    eval 9 (.ofList (.sampleVariadic :: [.int 1, .int 2, .int 3].map Value.quoted)) 0
        (.sampleCallable [] (.atRest 9)) =
      .value (.ofList [.int 2, .int 3]) (.sampleCalled ⟨0, 9, 3, 0⟩) := by
  cbv

theorem invocations_agree_sampleVariadic :
    (∀ n o, Session.call n "f" [.int 1, .int 2, .int 3] (.sampleCallable [] (.atRest 9)) = o →
      o.Answers → o.state.gauge.refusals = 0 →
        o.regauge (.atRest 9) =
          .value (.ofList [.int 2, .int 3]) (.sampleCalled (.atRest 9))) ∧
    ∃ N, ∀ g, g.depth + N ≤ g.limit → ∃ g', ∀ n ≥ N,
      (eval n).call n (.native (.higherOrder .apply) 5 none)
          (.sampleVariadic :: ([.int 1] ++ [.ofVector [.int 2, .int 3]])) (.sampleCallable [] g) =
        .value (.ofList [.int 2, .int 3]) (.sampleCalled g') := by
  have hliteral : Value.sampleVariadic.IsLiteral := trivial
  have hq : ¬ (State.sampleCallable [] (.atRest 9)).heap.IsMacro 0 "quote" :=
    not_isMacro_of_unbound (by cbv)
  have hbound : (State.sampleCallable [] (.atRest 9)).heap.lookup? root ⟨"f"⟩ =
      some .sampleVariadic := by
    cbv
  have hform : WayToCall .sampleVariadic [.int 1, .int 2, .int 3] (.sampleCallable [] (.atRest 9))
      fun n => eval n (.ofList (.sampleVariadic :: [.int 1, .int 2, .int 3].map Value.quoted)) 0 :=
    .form hq
  have hspread : WayToCall .sampleVariadic [.int 1, .int 2, .int 3] (.sampleCallable [] (.atRest 9))
      fun n => (eval n).call n (.native (.higherOrder .apply) 5 none)
        (.sampleVariadic :: ([.int 1] ++ [.ofVector [.int 2, .int 3]])) :=
    .spread rfl rfl
  constructor
  · intro n o h ho hsame
    exact (invocations_agree hliteral hform (.named hbound)).1 9 n _ o eval_sampleVariadic trivial
      rfl h ho hsame
  · obtain ⟨N, hN⟩ :=
      (invocations_agree hliteral hform hspread).2 9 _ eval_sampleVariadic trivial rfl
    refine ⟨N, fun g hroom => ?_⟩
    obtain ⟨g', _, _, _, hspread⟩ := hN g hroom
    exact ⟨g', hspread⟩

end SmallLisp
