import SmallLisp.Proofs.Evaluation.Realization

/-!
# Quiet evaluations

Some evaluations change nothing but the gauge before they hand over to another one. Such an
evaluation `Defers` to the others: it fails in the state it began in, or comes to what one of them
comes to from there. One that hands over to nothing only `Gives` values. Nested evaluations may be
refused anywhere on the way, so all of this is said for every gauge.
-/

namespace SmallLisp

open Evaluator

namespace Eval

variable {α β : Type} {m : Eval α} {M : Eval α → Prop} {Q : α → Prop} {s : State}

/-- Whether every answer of an evaluation in a state, whatever the gauge, is an error that leaves
the state or the answer of one of some evaluations in that state. -/
def Defers (m : Eval α) (M : Eval α → Prop) (s : State) : Prop :=
  ∀ g, (m (s.regauge g)).Answers →
    (∃ e g', m (s.regauge g) = .error e (s.regauge g')) ∨
      ∃ m' g' g'', M m' ∧ m (s.regauge g) = (m' (s.regauge g')).regauge g''

/-- Whether every answer of an evaluation in a state leaves the state, and is an error or one of
some values. -/
def Gives (m : Eval α) (Q : α → Prop) (s : State) : Prop :=
  m.Defers (fun m' => ∃ a, Q a ∧ m' = pure a) s

theorem defers_of_not_answers (h : ∀ g, ¬ (m (s.regauge g)).Answers) : m.Defers M s :=
  fun g ho => absurd ho (h g)

theorem defers_self (h : M m) : m.Defers M s :=
  fun g _ => .inr ⟨m, g, _, h, (Outcome.regauge_self _).symm⟩

theorem defers_raise (e : Error) : (raise e : Eval α).Defers M s := fun g _ => .inl ⟨e, g, rfl⟩

theorem gives_pure {a : α} (h : Q a) : (pure a : Eval α).Gives Q s := defers_self ⟨a, h, rfl⟩

theorem Gives.bind {k : α → Eval β} {M : Eval β → Prop} (h : m.Gives Q s)
    (hk : ∀ a, Q a → (k a).Defers M s) : (m >>= k).Defers M s := by
  intro g ho
  rcases bind_cases rfl ho with ⟨a, s₁, hm, hka⟩ | ⟨e, s₁, hm, he⟩
  · have hgiven := h g (by rw [hm]; trivial)
    rw [hm] at hgiven
    rcases hgiven with ⟨e, g', he⟩ | ⟨_, g', g'', ⟨b, hb, rfl⟩, hv⟩
    · cases he
    · cases hv
      rw [bind_value hm] at ho ⊢
      exact hk a hb g'' ho
  · have hgiven := h g (by rw [hm]; trivial)
    rw [hm] at hgiven
    rw [he]
    rcases hgiven with ⟨e', g', he'⟩ | ⟨_, g', g'', ⟨b, hb, rfl⟩, hv⟩
    · exact .inl ⟨e', g', by cases he'; rfl⟩
    · cases hv

theorem Defers.deeper (h : m.Defers M s) : m.deeper.Defers M s := by
  intro g ho
  by_cases hlt : g.depth < g.limit
  · have hinner : m.deeper (s.regauge g) = (m (s.regauge g.enter)).leave := deeper_of_lt hlt
    rw [hinner] at ho ⊢
    have hm := (Outcome.answers_leave _).mp ho
    rcases h g.enter hm with ⟨e, g', he⟩ | ⟨m', g', g'', hM, hm'⟩
    · exact .inl ⟨e, g'.leave, by rw [he]; rfl⟩
    · right
      refine ⟨m', g', g''.leave, hM, ?_⟩
      rw [hm'] at hm ⊢
      cases hv : m' (s.regauge g') with
      | halt cause s₁ =>
        rw [hv] at hm
        exact absurd hm (Outcome.not_answers_halt _ _)
      | _ => rfl
  · exact .inl ⟨_, g.refuse, deeper_of_not_lt hlt⟩

end Eval

section

variable {s : State} {f : FrameId} {form : Value} {M : Eval Value → Prop}

theorem run_defers {eval : Evaluator} (hm : s.heap.macroCall? f form = none)
    (h : ∀ k, (eval.finish k form f).Defers M s) (k : Nat) : (eval.run k form f).Defers M s := by
  cases k with
  | zero => exact Eval.defers_of_not_answers fun _ => Outcome.not_answers_halt _ _
  | succ k =>
    rw [run_succ]
    cases k with
    | zero => exact Eval.defers_of_not_answers fun _ => Outcome.not_answers_halt _ _
    | succ k =>
      intro g
      have hturn : (eval.expand (k + 1) form f >>= fun form => eval.finish (k + 1) form f)
          (s.regauge g) = eval.finish (k + 1) form f (s.regauge g) := by
        have hm' : (s.regauge g).heap.macroCall? f form = none := hm
        rw [expand_succ_bind, hm']
      rw [hturn]
      exact h (k + 1) g

theorem eval_defers (hm : s.heap.macroCall? f form = none)
    (h : ∀ n k, ((eval n).finish k form f).Defers M s) (n : Nat) :
    (eval n form f).Defers M s := by
  cases n with
  | zero => exact Eval.defers_of_not_answers fun _ => Outcome.not_answers_halt _ _
  | succ n => exact (run_defers hm (h n) n).deeper

theorem literal_gives (h : form.IsLiteral) (n : Nat) : (eval n form f).Gives (· = form) s := by
  refine eval_defers (macroCall?_literal h s.heap f) (fun n k => ?_) n
  rw [finish_literal h]
  exact Eval.gives_pure rfl

theorem string_gives (text : String) (n : Nat) : (eval n (.str text) f).Gives (· = .str text) s := by
  have hliteral : (Value.str text).IsLiteral := trivial
  exact literal_gives hliteral n

theorem bound_gives {x : Symbol} {v : Value} (h : s.heap.lookup? f x = some v) (n : Nat) :
    (eval n (.symbol x) f).Gives (· = v) s := by
  refine eval_defers rfl (fun n k g _ => .inr ⟨pure v, g, g, ⟨v, rfl, rfl⟩, ?_⟩) n
  have hbound : (s.regauge g).heap.lookup? f x = some v := h
  exact finish_bound k hbound

theorem arguments_give_nil (n : Nat) : (Eval.forEach (eval n · f) []).Gives (· = []) s :=
  Eval.gives_pure rfl

theorem arguments_give_cons {n : Nat} {Q : Value → Prop} {P : List Value → Prop}
    {rest : List Value} (h : (eval n form f).Gives Q s)
    (hs : (Eval.forEach (eval n · f) rest).Gives P s) :
    (Eval.forEach (eval n · f) (form :: rest)).Gives
      (fun vs => ∃ v more, Q v ∧ P more ∧ vs = v :: more) s :=
  h.bind fun v hv => hs.bind fun more hmore => Eval.gives_pure ⟨v, more, hv, hmore, rfl⟩

/-- A call of a native function defers to what the function does, if its arguments only give
values. -/
theorem nativeCall_defers {x : Symbol} {fn : Native} {identity : Nat} {m m' : Option Value}
    {args : List Value} {P : List Value → Prop} (hop : Special.ofHead? (.symbol x) = none)
    (hx : s.heap.lookup? f x = some (.native fn identity m))
    (hargs : ∀ n, (Eval.forEach (eval n · f) args).Gives P s)
    (hcall : ∀ vs, P vs → ∀ n k, ((eval n).callNative ((eval n).call k) fn vs).Defers M s)
    (n : Nat) : (eval n (.list (.symbol x :: args) m') f).Defers M s := by
  refine eval_defers (macroCall?_native hx args m') (fun n k => ?_) n
  rw [finish_call hop]
  refine (bound_gives hx n).bind ?_
  rintro _ rfl
  refine (hargs n).bind fun vs hvs => ?_
  have hfn : ¬ ∃ fn' body m', Value.native fn identity m = .closure fn' body m' := by
    rintro ⟨_, _, _, h⟩
    cases h
  rw [stepApply_of_not_closure hfn, bind_assoc]
  simp only [pure_bind, follow_done, bind_pure]
  cases k with
  | zero => exact Eval.defers_of_not_answers fun _ => Outcome.not_answers_halt _ _
  | succ k => exact hcall vs hvs n k

end

end SmallLisp
