import Mathlib
import SmallLisp.Proofs.Evaluation.Derivation
import SmallLisp.Proofs.Evaluation.Realization

/-!
# The evaluator and the rules

Evaluation and the rules of natural semantics tell the same. An evaluation in which nothing was
refused for its depth has the outcome that the rules give, and no other one follows from them; and
what follows from the rules is what evaluation gives under every limit that is large enough.
-/

namespace SmallLisp

section

variable {form : Value} {f : FrameId} {s : State} {o o' : Outcome Value}

theorem Evaluates.answers (h : Evaluates form f s o) : o.Answers := h.settles.1

theorem Evaluates.eventually (h : Evaluates form f s o) :
    ∃ N, ∀ n ≥ N, unguarded n form f s = o := by
  obtain ⟨_, N, hN⟩ := h.settles.nested
  exact ⟨N, fun n hn => hN n hn N (Nat.le_refl N)⟩

theorem Evaluates.unique (h : Evaluates form f s o) (h' : Evaluates form f s o') : o = o' :=
  h.settles.unique h'.settles

theorem evaluates_iff_unguarded :
    Evaluates form f s o ↔ o.Answers ∧ ∃ n, unguarded n form f s = o := by
  constructor
  · intro h
    obtain ⟨N, hN⟩ := h.eventually
    exact ⟨h.answers, N, hN N (Nat.le_refl N)⟩
  · rintro ⟨ho, n, h⟩
    exact unguarded_derives n form f s o h ho

theorem evaluates_of_eval {n : Nat} (h : eval n form f s = o) (ho : o.Answers)
    (hsame : o.state.gauge.refusals = s.gauge.refusals) :
    Evaluates form f s (o.regauge s.gauge) := by
  subst h
  have hloose := (eval_loosens n form f s s.gauge ho).2 hsame
  rw [State.regauge_self] at hloose
  exact unguarded_derives n form f s _ hloose ((Outcome.answers_regauge _ _).mpr ho)

theorem evaluates_iff_of_eval {n : Nat} (h : eval n form f s = o) (ho : o.Answers)
    (hsame : o.state.gauge.refusals = s.gauge.refusals) (o' : Outcome Value) :
    Evaluates form f s o' ↔ o' = o.regauge s.gauge := by
  have hrules := evaluates_of_eval h ho hsame
  constructor
  · exact fun h' => h'.unique hrules
  · rintro rfl
    exact hrules

theorem Evaluates.eval_eventually (h : Evaluates form f s o) :
    ∃ N, ∀ g, g.depth + N ≤ g.limit → ∃ g', g'.depth = g.depth ∧ g'.limit = g.limit ∧
      g'.refusals = g.refusals ∧ ∀ n ≥ N, eval n form f (s.regauge g) = o.regauge g' := by
  obtain ⟨N, hN⟩ := h.eventually
  have hanswers : (unguarded N form f s).Answers := by
    rw [hN N (Nat.le_refl N)]
    exact h.answers
  refine ⟨N, fun g hroom => ?_⟩
  obtain ⟨g', hd, hl, hr, heq⟩ := unguarded_fitsIn N form f s g hanswers hroom
  rw [hN N (Nat.le_refl N)] at heq
  refine ⟨g', hd, hl, hr, fun n hn => ?_⟩
  exact (eval_extends hn form f).answer heq ((Outcome.answers_regauge o g').mpr h.answers)

/-- A macro call is evaluated as what it expands to. -/
theorem evaluates_expansion_iff {fn : Lambda} {body expanded : Value} {args : List Value}
    {s₁ : State} (hm : s.heap.macroCall? f form = some (fn, body, args))
    (h : Applies (.closure fn body none) args s (.value expanded s₁)) :
    Evaluates form f s o ↔ Evaluates expanded f s₁ o := by
  constructor
  · intro h'
    cases h' with
    | literal hl => cases (macroCall?_literal hl s.heap f).symm.trans hm
    | expansion hm' hx ho =>
      cases hm.symm.trans hm'
      cases hx.settles.unique h.settles
      exact ho
    | expansionFails hm' hx =>
      cases hm.symm.trans hm'
      cases hx.settles.unique h.settles
    | special hm' | malformed hm' | call hm' | callFails hm' => cases hm.symm.trans hm'
    | _ => cases hm
  · exact .expansion hm h

/-- A special form of the right shape, unless a macro takes its name, is evaluated by what it
performs. -/
theorem evaluates_special_iff {head : Value} {args : List Value} {m : Option Value} {op : Special}
    {c : Construct} (hm : s.heap.macroCall? f (.list (head :: args) m) = none)
    (hop : Special.ofHead? head = some op) (hc : op.parse args = .ok c) :
    Evaluates (.list (head :: args) m) f s o ↔ Performs c f s o := by
  constructor
  · intro h
    cases h with
    | literal hl => cases hl
    | expansion hm' | expansionFails hm' => cases hm.symm.trans hm'
    | special _ hop' hc' h =>
      cases hop.symm.trans hop'
      cases hc.symm.trans hc'
      exact h
    | malformed _ hop' hc' =>
      cases hop.symm.trans hop'
      cases hc.symm.trans hc'
    | call _ hop' | callFails _ hop' => cases hop.symm.trans hop'
  · exact .special hm hop hc

theorem evaluates_nativeCall {x : Symbol} {fn : Native} {identity : Nat} {m m' : Option Value}
    {args vs : List Value} {s₁ : State} (hop : Special.ofHead? (.symbol x) = none)
    (hx : s.heap.lookup? f x = some (.native fn identity m))
    (hargs : EvaluatesAll args f s (.value vs s₁)) (h : Applies (.native fn identity m) vs s₁ o) :
    Evaluates (.list (.symbol x :: args) m') f s o :=
  .call (macroCall?_native hx args m') hop (.cons (.bound hx) hargs) h

theorem Evaluates.nativeCall_cases {x : Symbol} {fn : Native} {identity : Nat}
    {m m' : Option Value} {args : List Value} (hop : Special.ofHead? (.symbol x) = none)
    (hx : s.heap.lookup? f x = some (.native fn identity m))
    (h : Evaluates (.list (.symbol x :: args) m') f s o) :
    (∃ vs s₁, EvaluatesAll args f s (.value vs s₁) ∧ Applies (.native fn identity m) vs s₁ o) ∨
      ∃ e s₁, EvaluatesAll args f s (.error e s₁) ∧ o = .error e s₁ := by
  have hnone := macroCall?_native hx args m'
  cases h with
  | literal h => cases h
  | expansion hm | expansionFails hm => cases hnone.symm.trans hm
  | special _ hop' | malformed _ hop' => cases hop.symm.trans hop'
  | call _ _ hargs h =>
    cases hargs with
    | cons hfn hargs =>
      cases hfn.unique (.bound hx)
      exact .inl ⟨_, _, hargs, h⟩
  | callFails _ _ hargs =>
    cases hargs with
    | headFails hfn => cases hfn.unique (.bound hx)
    | restFails hfn hargs =>
      cases hfn.unique (.bound hx)
      exact .inr ⟨_, _, hargs, rfl⟩

end

/-- An answer of `eval` that met no refusal is the one outcome that the rules give, and every
outcome that the rules give is the answer of `eval` under every limit that is large enough. -/
theorem eval_agrees_with_rules (form : Value) (f : FrameId) (s : State) :
    (∀ n o, eval n form f s = o → o.Answers → o.state.gauge.refusals = s.gauge.refusals →
      ∀ o', Evaluates form f s o' ↔ o' = o.regauge s.gauge) ∧
    ∀ o, Evaluates form f s o → ∃ N, ∀ g, g.depth + N ≤ g.limit → ∃ g', g'.depth = g.depth ∧
      g'.limit = g.limit ∧ g'.refusals = g.refusals ∧
        ∀ n ≥ N, eval n form f (s.regauge g) = o.regauge g' := by
  exact ⟨fun n o h ho hsame => evaluates_iff_of_eval h ho hsame, fun o h => h.eval_eventually⟩

/-- The state with one empty frame under a depth limit. -/
def State.sample (limit : Nat) : State :=
  ⟨⟨#[⟨[], none⟩], #[], 0⟩, .atRest limit, ⟨[], true, "", ""⟩, .empty, 0⟩

/-- The form `(let* (x 7) (if x x 0))`. -/
def Value.sampleLet : Value :=
  .ofList [.named "let*", .ofList [.named "x", .int 7],
    .ofList [.named "if", .named "x", .named "x", .int 0]]

theorem eval_sampleLet :
    eval 9 .sampleLet 0 (.sample 2) = .value (.int 7)
      (((State.sample 2).regauge ⟨0, 2, 2, 0⟩).withHeap
        ⟨#[⟨[], none⟩, ⟨[("x", .int 7)], some 0⟩], #[], 0⟩) := by
  cbv

theorem eval_agrees_with_rules_sampleLet :
    (∀ o, Evaluates .sampleLet 0 (.sample 2) o ↔ o = .value (.int 7)
      ((State.sample 2).withHeap ⟨#[⟨[], none⟩, ⟨[("x", .int 7)], some 0⟩], #[], 0⟩)) ∧
    ∃ N, ∀ g, g.depth + N ≤ g.limit → ∃ g', g'.depth = g.depth ∧
      ∀ n ≥ N, eval n .sampleLet 0 ((State.sample 2).regauge g) = .value (.int 7)
        (((State.sample 2).regauge g').withHeap
          ⟨#[⟨[], none⟩, ⟨[("x", .int 7)], some 0⟩], #[], 0⟩) := by
  have hiff := (eval_agrees_with_rules .sampleLet 0 (.sample 2)).1 9 _ eval_sampleLet trivial rfl
  refine ⟨hiff, ?_⟩
  obtain ⟨N, hN⟩ := (eval_agrees_with_rules .sampleLet 0 (.sample 2)).2 _ ((hiff _).mpr rfl)
  refine ⟨N, fun g hroom => ?_⟩
  obtain ⟨g', hd, _, _, heval⟩ := hN g hroom
  exact ⟨g', hd, heval⟩

end SmallLisp
