import SmallLisp.Proofs.Evaluation.Constants
import SmallLisp.Proofs.Evaluation.Instantiation
import SmallLisp.Proofs.Value.Nesting

/-!
# How deep templates nest

A template expands to an expression that nests with the number of its elements. Evaluations nest like
the expression that they evaluate. So no limit is high enough for all flat templates, and the limit
that a template needs is known from its expression. The main statement is
`template_nests_with_length`.
-/

namespace SmallLisp

/-! ### Templates without forms to fill in -/

namespace Value

mutual

/-- What a template without forms to fill in is filled to. -/
def rebuilt : Value → Value
  | list items m =>
    match items with
    | [] => list [] m
    | _ :: _ => ofList (rebuiltAll items)
  | vector items m =>
    match items with
    | [] => vector [] m
    | _ :: _ => ofList (rebuiltAll items)
  | v => v

def rebuiltAll : List Value → List Value
  | [] => []
  | t :: rest => t.rebuilt :: rebuiltAll rest

end

theorem unquoted_of_items {t : Value} {items : List Value} (h : t.items? = some items) :
    t.unquoted = unquotedItems items := by
  cases t with
  | list _ _ | vector _ _ =>
    cases h
    rfl
  | _ => cases h

/-- A list of templates without forms to fill in begins with an element and with no mark. -/
theorem unquotedItems_cons_eq_nil {first : Value} {rest : List Value}
    (h : unquotedItems (first :: rest) = []) :
    first.isNamed "unquote" = false ∧ first.argsOf? "splice-unquote" = none ∧
      first.unquoted = [] ∧ unquotedItems rest = [] := by
  rw [unquotedItems] at h
  cases hu : first.isNamed "unquote" with
  | true =>
    rw [hu] at h
    cases h
  | false =>
    rw [hu, if_neg Bool.false_ne_true] at h
    cases hargs : first.argsOf? "splice-unquote" with
    | some args =>
      rw [hargs] at h
      cases h
    | none =>
      rw [hargs] at h
      exact ⟨rfl, rfl, List.append_eq_nil_iff.mp h⟩

theorem templateItems_cons {first : Value} {rest : List Value}
    (h : unquotedItems (first :: rest) = []) :
    templateItems (first :: rest) = ofList [named "cons", first.template, templateItems rest] := by
  obtain ⟨hu, hargs, _⟩ := unquotedItems_cons_eq_nil h
  rw [templateItems, hu, hargs, if_neg Bool.false_ne_true]

theorem not_isNamed_of_unquotedItems {items : List Value} (h : unquotedItems items = []) :
    ∀ v ∈ items, v.isNamed "unquote" = false := by
  induction items with
  | nil => nofun
  | cons first rest ih =>
    obtain ⟨hu, _, _, hrest⟩ := unquotedItems_cons_eq_nil h
    intro v hv
    cases hv with
    | head => exact hu
    | tail _ hv => exact ih hrest v hv

end Value

/-! ### The evaluation of their expressions -/

section

variable {h : Heap} {f : FrameId} {form : Value} {v : Value} {n k i : Nat}

theorem takesIn_run (hm : h.macroCall? f form = none)
    (hfinish : ((eval n).finish (k + 1) form f).TakesIn h i v) :
    ((eval n).run (k + 2) form f).TakesIn h i v := by
  have hexpand : ((eval n).expand (k + 1) form f).TakesIn h 0 form := by
    refine .of_eq fun s hs => ?_
    rw [Evaluator.expand_succ, hs, hm]
  have hbind := hexpand.bind (k := fun form => (eval n).finish (k + 1) form f) hfinish
  rw [Nat.zero_max] at hbind
  rw [Evaluator.run_succ]
  exact hbind

theorem takesIn_bound {x : Symbol} (hx : h.lookup? f x = some v) :
    (eval (n + 3) (.symbol x) f).TakesIn h 1 v := by
  have hfinish : ((eval (n + 2)).finish (n + 1) (.symbol x) f).TakesIn h 0 v :=
    .of_eq fun s hs => Evaluator.evalData_bound (hs.symm ▸ hx) (eval (n + 2))
  exact (takesIn_run rfl hfinish).deeper

theorem takesIn_quote (hq : ¬ h.IsMacro f "quote") (v : Value) :
    ((eval n).run (k + 2) (.ofList [.named "quote", v]) f).TakesIn h 0 v :=
  takesIn_run (macroCall?_named hq [v] none) (.of_eq fun _ _ => rfl)

/-- A call of a native function on two forms takes a level more than they take, and one at least for
the name of the function. -/
theorem takesIn_join (op : Sequence) {identity : Nat} {m : Option Value} {first second w u : Value}
    {j : Nat} (hop : Special.ofHead? (.named op.name) = none)
    (hx : h.lookup? f ⟨op.name⟩ = some (.native (.sequence op) identity m))
    (hfirst : ((eval (n + 2)).run (n + 2) first f).TakesIn h i v)
    (hsecond : ((eval (n + 2)).run (n + 2) second f).TakesIn h j w)
    (hrun : op.run [v, w] = .ok u) :
    ((eval (n + 3)).run (k + 2) (.ofList [.named op.name, first, second]) f).TakesIn h
      (max i j + 1) u := by
  have hhead : (eval (n + 3) (.named op.name) f).TakesIn h 1 (.native (.sequence op) identity m) :=
    takesIn_bound hx
  have hargs : (Eval.forEach (eval (n + 3) · f) [first, second]).TakesIn h
      (max (i + 1) (max (j + 1) 0)) [v, w] :=
    hfirst.deeper.bind ((hsecond.deeper.bind (.pure [w])).map (v :: ·))
  have hcall : ((eval (n + 3)).stepApply (k + 1) (.native (.sequence op) identity m)
      [v, w]).TakesIn h 0 (.done u) := by
    refine .of_eq fun s _ => ?_
    change (Eval.ofExcept (op.run [v, w]) >>= fun v => pure (Step.done v)) s = _
    rw [hrun]
    rfl
  have hlevels : max i j + 1 = max (max 1 (max (max (i + 1) (max (j + 1) 0)) 0)) 0 := by omega
  refine takesIn_run (macroCall?_native hx _ _) ?_
  change ((eval (n + 3)).stepList (k + 1) (.named op.name) [first, second] f >>=
    (eval (n + 3)).follow (k + 1)).TakesIn h _ u
  rw [Evaluator.stepList_call hop, hlevels]
  exact (hhead.bind (hargs.bind hcall)).bind (.pure u)

mutual

/-- The expression of a template without forms to fill in gives the template, rebuilt of lists. It
takes a level for each nesting but the two innermost ones, those of a quotation. -/
theorem takesIn_template (hbuilds : h.BuildsTemplates f) (t : Value) {n : Nat}
    (ht : t.unquoted = []) (hn : t.template.nesting ≤ n) (k : Nat) :
    ((eval n).run (k + 2) t.template f).TakesIn h (t.template.nesting - 2) t.rebuilt := by
  cases t with
  | list items m | vector items m =>
    cases items with
    | nil => exact takesIn_quote hbuilds.quote _
    | cons first rest => exact takesIn_templateItems hbuilds (first :: rest) ht hn k
  | _ => exact takesIn_quote hbuilds.quote _

theorem takesIn_templateItems (hbuilds : h.BuildsTemplates f) (items : List Value) {n : Nat}
    (ht : Value.unquotedItems items = []) (hn : (Value.templateItems items).nesting ≤ n) (k : Nat) :
    ((eval n).run (k + 2) (Value.templateItems items) f).TakesIn h
      ((Value.templateItems items).nesting - 2) (.ofList (Value.rebuiltAll items)) := by
  cases items with
  | nil => exact takesIn_quote hbuilds.quote _
  | cons first rest =>
    obtain ⟨_, _, hfirst, hrest⟩ := Value.unquotedItems_cons_eq_nil ht
    obtain ⟨identity, m, hx⟩ := hbuilds.cons
    have htwo := Value.length_le_nesting_templateItems (Value.not_isNamed_of_unquotedItems hrest)
    rw [Value.templateItems_cons ht, Value.nesting_call] at hn ⊢
    obtain ⟨n, rfl⟩ : ∃ n', n = n' + 3 := ⟨n - 3, by omega⟩
    have hjoin := takesIn_join .cons (k := k) rfl hx
      (takesIn_template hbuilds first (n := n + 2) hfirst (by omega) n)
      (takesIn_templateItems hbuilds rest (n := n + 2) hrest (by omega) n) rfl
    have hlevels : max first.template.nesting (Value.templateItems rest).nesting + 1 - 2 =
      max (first.template.nesting - 2) ((Value.templateItems rest).nesting - 2) + 1 := by omega
    rw [hlevels]
    exact hjoin

end

theorem takesIn_quasiquote (hq : ¬ h.IsMacro f "quasiquote") (hbuilds : h.BuildsTemplates f)
    {t : Value} (ht : t.unquoted = []) (hn : t.template.nesting ≤ n + 3) (m : Option Value) :
    (eval (n + 4) (.list [.named "quasiquote", t] m) f).TakesIn h (t.template.nesting - 2 + 1)
      t.rebuilt := by
  have hfinish : ((eval (n + 3)).finish (n + 2) (.list [.named "quasiquote", t] m) f).TakesIn h
      (t.template.nesting - 2) t.rebuilt := takesIn_template hbuilds t ht hn n
  exact (takesIn_run (macroCall?_named hq [t] m) hfinish).deeper

end

/-! ### The main statement -/

/-- The expression of a template nests no deeper than the template, but for a factor that is the
greatest number of elements in it, and that number does count: the expression of a list or vector
nests once for each element. If it has no forms to fill in, it is rebuilt where the limit leaves room
for as many levels as its expression nests, but for the innermost one, and is refused for being too
deep everywhere else. -/
theorem template_nests_with_length (t : Value) :
    t.template.nesting ≤ t.nesting * (t.width + 1) + 1 ∧
    ∀ items : List Value, t.items? = some items →
      ((∀ v ∈ items, v.isNamed "unquote" = false) → items.length + 2 ≤ t.template.nesting) ∧
      (t.unquoted = [] → ∀ (f : FrameId) (s : State) (m : Option Value) (n : Nat),
        ¬ s.heap.IsMacro f "quasiquote" → s.heap.BuildsTemplates f → t.template.nesting + 2 ≤ n →
          (s.gauge.depth + t.template.nesting ≤ s.gauge.limit + 1 → ∃ g, s.gauge.Alike g ∧
            eval n (.list [.named "quasiquote", t] m) f s = .value t.rebuilt (s.regauge g)) ∧
          (s.gauge.limit + 1 < s.gauge.depth + t.template.nesting → ∃ g, s.Level (s.regauge g) ∧
            eval n (.list [.named "quasiquote", t] m) f s =
              .error (.fault (.tooDeep s.gauge.limit)) (s.regauge g))) := by
  refine ⟨t.nesting_template_le, fun items hitems => ?_⟩
  have hlength : (∀ v ∈ items, v.isNamed "unquote" = false) →
      items.length + 2 ≤ t.template.nesting := by
    intro hnames
    rw [Value.nesting_template_of_items hitems]
    exact Value.length_le_nesting_templateItems hnames
  refine ⟨hlength, fun ht f s m n hq hbuilds hn => ?_⟩
  have hunquoted := (Value.unquoted_of_items hitems).symm.trans ht
  have htwo := hlength (Value.not_isNamed_of_unquotedItems hunquoted)
  obtain ⟨n, rfl⟩ : ∃ n', n = n' + 4 := ⟨n - 4, by omega⟩
  have htakes := takesIn_quasiquote hq hbuilds ht (n := n) (by omega) m
  refine ⟨fun hroom => htakes.given s rfl (.inr (by omega)), fun hroom => htakes.refused s rfl ?_⟩
  unfold Gauge.HasRoom
  omega

/-- A list of ones, as many as are asked for. -/
def Value.sampleFlat (n : Nat) : Value := .ofList (List.replicate n (.int 1))

theorem Value.length_le_nesting_sampleFlat (n : Nat) :
    n + 2 ≤ (Value.sampleFlat n).template.nesting := by
  have hnames : ∀ v ∈ List.replicate n (Value.int 1), v.isNamed "unquote" = false := by
    intro v hv
    rw [List.eq_of_mem_replicate hv]
    rfl
  have hlength := Value.length_le_nesting_templateItems hnames
  rw [List.length_replicate] at hlength
  rwa [Value.nesting_template_of_items (t := .sampleFlat n) rfl]

/-- Filling a list of three ones takes four levels. -/
theorem template_nests_with_length_sampleFlat :
    3 + 2 ≤ (Value.sampleFlat 3).template.nesting ∧
    (∃ s, eval 7 (.ofList [.named "quasiquote", .sampleFlat 3]) 0
      ((State.sampleTemplates []).regauge (.atRest 4)) = .value (.sampleFlat 3) s) ∧
    ∃ s, eval 7 (.ofList [.named "quasiquote", .sampleFlat 3]) 0
      ((State.sampleTemplates []).regauge (.atRest 3)) = .error (.fault (.tooDeep 3)) s := by
  have hq : ¬ (State.sampleTemplates []).heap.IsMacro 0 "quasiquote" :=
    not_isMacro_of_unbound (by cbv)
  have hbuilds : (State.sampleTemplates []).heap.BuildsTemplates 0 :=
    Heap.buildsTemplates_sample rfl
  obtain ⟨hlength, heval⟩ := (template_nests_with_length (.sampleFlat 3)).2 _ rfl
  have hruns := fun g => heval rfl 0 ((State.sampleTemplates []).regauge g) none 7 hq hbuilds
    (by decide)
  obtain ⟨g, _, hvalue⟩ := (hruns (.atRest 4)).1 (by decide)
  obtain ⟨g', _, herror⟩ := (hruns (.atRest 3)).2 (by decide)
  exact ⟨hlength (by decide), ⟨_, hvalue⟩, ⟨_, herror⟩⟩

theorem Value.nesting_sampleFlat (n : Nat) : (Value.sampleFlat n).nesting = 1 := by
  have hitems : Value.nestingOfAll (List.replicate n (.int 1)) = 0 := by
    induction n with
    | zero => rfl
    | succ n ih => exact Nat.max_eq_zero_iff.mpr ⟨rfl, ih⟩
  exact congrArg (· + 1) hitems

/-- The nesting of the expression is not bounded by the nesting of the template alone. -/
theorem template_nesting_unbounded :
    ¬ ∃ k, ∀ t : Value, t.template.nesting ≤ k * (t.nesting + 1) := by
  rintro ⟨k, hbound⟩
  have hlength := Value.length_le_nesting_sampleFlat (2 * k)
  have hflat := hbound (.sampleFlat (2 * k))
  rw [Value.nesting_sampleFlat] at hflat
  omega

end SmallLisp
