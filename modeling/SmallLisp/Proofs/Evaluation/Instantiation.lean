import Mathlib
import SmallLisp.Proofs.Evaluation.Agreement

/-!
# Templates that are filled

Filling a template, told of the template alone: the forms in it are evaluated where they stand, from
left to right, and the lists around them are built of the values. The expression that a template
expands to is evaluated to the same, as long as it means what it says, that is, as long as `quote`
is no macro and `cons` and `concat` are the native functions. The main statement is
`quasiquote_fills`.
-/

namespace SmallLisp

/-! ### Filling -/

/-- The list of the elements that a form to splice gives, and of those behind them. -/
def spliced (v behind : Value) : Except Fault Value := do
  let items ← Native.itemsOrNil "concat" v
  let others ← Native.itemsOrNil "concat" behind
  return .ofList (items ++ others)

/-- The list of an element, and of those behind it. -/
def prefixed (v behind : Value) : Except Fault Value := do
  let others ← Native.itemsOrNil "cons" behind
  return .ofList (v :: others)

/-- What two evaluations in turn come to when their values are joined. -/
inductive InTurn (first second : State → Outcome Value → Prop)
    (join : Value → Value → Except Fault Value) (s : State) : Outcome Value → Prop where
  | joined {v s₁ w s₂ o} (h : first s (.value v s₁)) (hs : second s₁ (.value w s₂))
      (ho : Eval.ofExcept (join v w) s₂ = o) : InTurn first second join s o
  | firstFails {e s₁} (h : first s (.error e s₁)) : InTurn first second join s (.error e s₁)
  | secondFails {v s₁ e s₂} (h : first s (.value v s₁)) (hs : second s₁ (.error e s₂)) :
      InTurn first second join s (.error e s₂)

theorem InTurn.congr {first first' second second' : State → Outcome Value → Prop}
    {join : Value → Value → Except Fault Value} {s : State} {o : Outcome Value}
    (h : ∀ o, first s o ↔ first' s o)
    (hs : ∀ v s₁, first s (.value v s₁) → ∀ o, second s₁ o ↔ second' s₁ o) :
    InTurn first second join s o ↔ InTurn first' second' join s o := by
  constructor
  · rintro (⟨hv, hw, ho⟩ | ⟨he⟩ | ⟨hv, he⟩)
    · exact .joined ((h _).mp hv) ((hs _ _ hv _).mp hw) ho
    · exact .firstFails ((h _).mp he)
    · exact .secondFails ((h _).mp hv) ((hs _ _ hv _).mp he)
  · rintro (⟨hv, hw, ho⟩ | ⟨he⟩ | ⟨hv, he⟩)
    · exact .joined ((h _).mpr hv) ((hs _ _ ((h _).mpr hv) _).mpr hw) ho
    · exact .firstFails ((h _).mpr he)
    · exact .secondFails ((h _).mpr hv) ((hs _ _ ((h _).mpr hv) _).mpr he)

mutual

/-- `Fills f t s o`: filling the template `t` in the frame `f` and the state `s` has the
outcome `o`. -/
def Fills (f : FrameId) : Value → State → Outcome Value → Prop
  | .list items m =>
    match items with
    | [] => fun s o => o = .value (.list [] m) s
    | _ :: _ => FillsItems f items
  | .vector items m =>
    match items with
    | [] => fun s o => o = .value (.vector [] m) s
    | _ :: _ => FillsItems f items
  | t => fun s o => o = .value t s

/-- What filling some templates in turn comes to: the list of what they give. -/
def FillsItems (f : FrameId) : List Value → State → Outcome Value → Prop
  | [] => fun s o => o = .value (.ofList []) s
  | first :: rest =>
    if first.isNamed "unquote" then Evaluates (rest.headD .nil) f
    else match first.argsOf? "splice-unquote" with
      | some args => InTurn (Evaluates (args.headD .nil) f) (FillsItems f rest) spliced
      | none => InTurn (Fills f first) (FillsItems f rest) prefixed

end

mutual

/-- Whether something holds wherever filling a template comes to a part of it. -/
def Throughout (P : State → Prop) (f : FrameId) : Value → State → Prop
  | .list items _ => ThroughoutItems P f items
  | .vector items _ => ThroughoutItems P f items
  | _ => P

def ThroughoutItems (P : State → Prop) (f : FrameId) : List Value → State → Prop
  | [] => P
  | first :: rest => fun s => P s ∧ (first.isNamed "unquote" = false →
    match first.argsOf? "splice-unquote" with
    | some args => ∀ v s₁, Evaluates (args.headD .nil) f s (.value v s₁) →
        ThroughoutItems P f rest s₁
    | none => Throughout P f first s ∧ ∀ v s₁, Fills f first s (.value v s₁) →
        ThroughoutItems P f rest s₁)

end

namespace Value

mutual

/-- The forms in a template that are evaluated, from left to right. -/
def unquoted : Value → List Value
  | list items _ => unquotedItems items
  | vector items _ => unquotedItems items
  | _ => []

def unquotedItems : List Value → List Value
  | [] => []
  | first :: rest =>
    if first.isNamed "unquote" then [rest.headD nil]
    else match first.argsOf? "splice-unquote" with
      | some args => args.headD nil :: unquotedItems rest
      | none => unquoted first ++ unquotedItems rest

end

end Value

/-! ### The expression of a template -/

/-- Whether a name is bound to a macro, from a frame on outwards. -/
def Heap.IsMacro (h : Heap) (f : FrameId) (name : String) : Prop :=
  ∃ fn body m, h.lookup? f ⟨name⟩ = some (.closure fn body m) ∧ fn.isMacro = true

theorem not_isMacro_congr {h h' : Heap} {f f' : FrameId} {name : String}
    (hsame : h'.lookup? f' ⟨name⟩ = h.lookup? f ⟨name⟩) (hm : ¬ h.IsMacro f name) :
    ¬ h'.IsMacro f' name := by
  rintro ⟨fn, body, m, hx, hmacro⟩
  exact hm ⟨fn, body, m, hsame.symm.trans hx, hmacro⟩

theorem not_isMacro_of_unbound {h : Heap} {f : FrameId} {name : String}
    (hx : h.lookup? f ⟨name⟩ = none) : ¬ h.IsMacro f name := by
  rintro ⟨fn, body, m, hbound, _⟩
  cases hx.symm.trans hbound

/-- Whether the names in the expression of a template mean what they say. -/
structure Heap.BuildsTemplates (h : Heap) (f : FrameId) : Prop where
  quote : ¬ h.IsMacro f "quote"
  cons : ∃ identity m, h.lookup? f ⟨"cons"⟩ = some (.native (.sequence .cons) identity m)
  concat : ∃ identity m, h.lookup? f ⟨"concat"⟩ = some (.native (.sequence .concat) identity m)

section

variable {f : FrameId} {s : State} {o : Outcome Value}

theorem macroCall?_named {heap : Heap} {name : String} (h : ¬ heap.IsMacro f name)
    (args : List Value) (m : Option Value) :
    heap.macroCall? f (.list (.named name :: args) m) = none := by
  simp only [Heap.macroCall?, Value.named]
  split
  · next fn body m' hx =>
    rw [if_neg]
    exact fun hmacro => h ⟨fn, body, m', hx, hmacro⟩
  · rfl

theorem evaluates_quote_iff (h : ¬ s.heap.IsMacro f "quote") (v : Value) :
    Evaluates (.ofList [.named "quote", v]) f s o ↔ o = .value v s := by
  have hquote : Evaluates (.ofList [.named "quote", v]) f s (.value v s) :=
    .special (macroCall?_named h [v] none) rfl rfl .quote
  constructor
  · exact fun h' => h'.unique hquote
  · rintro rfl
    exact hquote

theorem applies_sequence_iff {op : Sequence} {identity : Nat} {m : Option Value}
    {args : List Value} :
    Applies (.native (.sequence op) identity m) args s o ↔ Eval.ofExcept (op.run args) s = o := by
  constructor
  · intro h
    cases h with
    | direct _ h _ => exact h
    | callback hc _ => cases hc
    | misuse hc => cases hc
    | notFunction hv => exact absurd trivial hv
  · intro h
    refine .direct rfl h ?_
    rw [← h]
    cases op.run args <;> trivial

/-- A call of a native function on two forms evaluates these in turn and joins their values. -/
theorem evaluates_join_iff {op : Sequence} {join : Value → Value → Except Fault Value}
    (hop : Special.ofHead? (.named op.name) = none) (hjoin : ∀ v w, op.run [v, w] = join v w)
    (hx : ∃ identity m, s.heap.lookup? f ⟨op.name⟩ = some (.native (.sequence op) identity m))
    (first second : Value) :
    Evaluates (.ofList [.named op.name, first, second]) f s o ↔
      InTurn (Evaluates first f) (Evaluates second f) join s o := by
  obtain ⟨identity, m, hx⟩ := hx
  constructor
  · intro h
    rcases h.nativeCall_cases hop hx with ⟨vs, s₁, hargs, h⟩ | ⟨e, s₁, hargs, rfl⟩
    · cases hargs with
      | cons hfirst hargs =>
        cases hargs with
        | cons hsecond hargs =>
          cases hargs
          rw [applies_sequence_iff, hjoin] at h
          exact .joined hfirst hsecond h
    · cases hargs with
      | headFails hfirst => exact .firstFails hfirst
      | restFails hfirst hargs =>
        cases hargs with
        | headFails hsecond => exact .secondFails hfirst hsecond
        | restFails _ hargs => cases hargs
  · rintro (⟨h, hs, ho⟩ | ⟨h⟩ | ⟨h, hs⟩)
    · refine evaluates_nativeCall hop hx (.cons h (.cons hs .nil)) ?_
      rwa [applies_sequence_iff, hjoin]
    · exact .callFails (macroCall?_native hx _ _) hop (.restFails (.bound hx) (.headFails h))
    · exact .callFails (macroCall?_native hx _ _) hop
        (.restFails (.bound hx) (.restFails h (.headFails hs)))

end

section

variable {f : FrameId}

theorem run_concat_eq (v behind : Value) : Sequence.concat.run [v, behind] = spliced v behind := by
  have hrun : Sequence.concat.run [v, behind] =
    ([v, behind].mapM (Native.itemsOrNil "concat") >>= fun parts =>
      .ok (.ofList parts.flatten)) := rfl
  simp only [hrun, spliced, List.mapM_cons, List.mapM_nil, bind_assoc, pure_bind,
    List.flatten_cons, List.flatten_nil, List.append_nil]
  rfl

theorem run_cons_eq (v behind : Value) : Sequence.cons.run [v, behind] = prefixed v behind := rfl

mutual

/-- The expression of a template is evaluated to what filling the template comes to. -/
theorem evaluates_template_iff (t : Value) {s : State} {o : Outcome Value}
    (h : Throughout (fun s => s.heap.BuildsTemplates f) f t s) :
    Evaluates t.template f s o ↔ Fills f t s o := by
  cases t with
  | list items m | vector items m =>
    cases items with
    | nil => exact evaluates_quote_iff h.quote _
    | cons first rest => exact evaluates_templateItems_iff (first :: rest) h
  | _ => exact evaluates_quote_iff h.quote _

theorem evaluates_templateItems_iff (items : List Value) {s : State} {o : Outcome Value}
    (h : ThroughoutItems (fun s => s.heap.BuildsTemplates f) f items s) :
    Evaluates (Value.templateItems items) f s o ↔ FillsItems f items s o := by
  cases items with
  | nil => exact evaluates_quote_iff h.quote _
  | cons first rest =>
    obtain ⟨hbuilds, hbehind⟩ := h
    rw [Value.templateItems, FillsItems]
    cases hu : first.isNamed "unquote" with
    | true => exact Iff.rfl
    | false =>
      replace hbehind := hbehind hu
      cases hargs : first.argsOf? "splice-unquote" with
      | some args =>
        rw [hargs] at hbehind
        refine (evaluates_join_iff rfl run_concat_eq hbuilds.concat _ _).trans ?_
        refine InTurn.congr (fun _ => Iff.rfl) fun v s₁ hv o => ?_
        exact evaluates_templateItems_iff rest (hbehind v s₁ hv)
      | none =>
        rw [hargs] at hbehind
        obtain ⟨hfirst, hrest⟩ := hbehind
        have hiff := fun o => @evaluates_template_iff first s o hfirst
        refine (evaluates_join_iff rfl run_cons_eq hbuilds.cons _ _).trans ?_
        -- What is behind is come to in the states that filling the first template leaves.
        refine InTurn.congr hiff fun v s₁ hv o => ?_
        exact evaluates_templateItems_iff rest (hrest v s₁ ((hiff _).mp hv))

end

/-- A template in a `quasiquote` form takes the place of that form. -/
theorem evaluates_quasiquote_iff {s : State} {o : Outcome Value}
    (h : ¬ s.heap.IsMacro f "quasiquote") (t : Value) (m : Option Value) :
    Evaluates (.list [.named "quasiquote", t] m) f s o ↔ Evaluates t.template f s o := by
  refine (evaluates_special_iff (macroCall?_named h [t] m) rfl rfl).trans ⟨fun h => ?_, .quasiquote⟩
  cases h with
  | quasiquote h => exact h

/-! ### The order of evaluation -/

theorem EvaluatesAll.append {forms more : List Value} {s s₁ s₂ : State} {vs ws : List Value}
    (h : EvaluatesAll forms f s (.value vs s₁)) (hs : EvaluatesAll more f s₁ (.value ws s₂)) :
    EvaluatesAll (forms ++ more) f s (.value (vs ++ ws) s₂) := by
  induction forms generalizing s vs with
  | nil =>
    cases h
    exact hs
  | cons form rest ih =>
    cases h with
    | cons h hrest => exact .cons h (ih hrest)

theorem EvaluatesAll.append_error {forms more : List Value} {s s₁ s₂ : State} {vs : List Value}
    {e : Error} (h : EvaluatesAll forms f s (.value vs s₁))
    (hs : EvaluatesAll more f s₁ (.error e s₂)) :
    EvaluatesAll (forms ++ more) f s (.error e s₂) := by
  induction forms generalizing s vs with
  | nil =>
    cases h
    exact hs
  | cons form rest ih =>
    cases h with
    | cons h hrest => exact .restFails h (ih hrest)

theorem EvaluatesAll.error_append {forms : List Value} {s s₁ : State} {e : Error}
    (h : EvaluatesAll forms f s (.error e s₁)) (more : List Value) :
    EvaluatesAll (forms ++ more) f s (.error e s₁) := by
  induction forms generalizing s with
  | nil => cases h
  | cons form rest ih =>
    cases h with
    | headFails h => exact .headFails h
    | restFails h hrest => exact .restFails h (ih hrest)

/-- What an evaluation can come to that evaluates some forms in turn, each once: all of them have
values, one of them fails and those behind it are not evaluated, or the values of those in front
do not fit. -/
inductive RunsThrough (forms : List Value) (f : FrameId) (s : State) : Outcome Value → Prop where
  | done {vs v s₁} (h : EvaluatesAll forms f s (.value vs s₁)) :
      RunsThrough forms f s (.value v s₁)
  | fails {e s₁} (h : EvaluatesAll forms f s (.error e s₁)) : RunsThrough forms f s (.error e s₁)
  | misfit {front vs name v s₁} (hfront : front <+: forms)
      (h : EvaluatesAll front f s (.value vs s₁)) :
      RunsThrough forms f s (.error (.fault (.wrongKind name "list or vector" v)) s₁)

theorem RunsThrough.of_evaluates {form : Value} {s : State} {o : Outcome Value}
    (h : Evaluates form f s o) : RunsThrough [form] f s o := by
  cases o with
  | value v s₁ => exact .done (.cons h .nil)
  | error e s₁ => exact .fails (.headFails h)
  | halt cause s₁ => exact absurd h.answers (Outcome.not_answers_halt _ _)

theorem RunsThrough.behind {forms more : List Value} {s s₁ : State} {vs : List Value}
    {o : Outcome Value} (h : EvaluatesAll forms f s (.value vs s₁))
    (hs : RunsThrough more f s₁ o) : RunsThrough (forms ++ more) f s o := by
  cases hs with
  | done hs => exact .done (h.append hs)
  | fails hs => exact .fails (h.append_error hs)
  | misfit hfront hs =>
    exact .misfit ((List.prefix_append_right_inj forms).mpr hfront) (h.append hs)

theorem RunsThrough.error_append {forms : List Value} {s s₁ : State} {e : Error}
    (h : RunsThrough forms f s (.error e s₁)) (more : List Value) :
    RunsThrough (forms ++ more) f s (.error e s₁) := by
  cases h with
  | fails h => exact .fails (h.error_append more)
  | misfit hfront h => exact .misfit (hfront.trans (List.prefix_append forms more)) h

/-- Whether the only fault of joining is a value that is no list or vector. -/
def JoinsLists (join : Value → Value → Except Fault Value) : Prop :=
  ∀ v w fault, join v w = .error fault → ∃ name u, fault = .wrongKind name "list or vector" u

theorem RunsThrough.inTurn {first second : State → Outcome Value → Prop}
    {join : Value → Value → Except Fault Value} {forms more : List Value} {s : State}
    {o : Outcome Value} (hjoin : JoinsLists join)
    (hfirst : ∀ o, first s o → RunsThrough forms f s o)
    (hsecond : ∀ s₁ o, second s₁ o → RunsThrough more f s₁ o)
    (h : InTurn first second join s o) : RunsThrough (forms ++ more) f s o := by
  rcases h with ⟨hv, hw, ho⟩ | ⟨he⟩ | ⟨hv, he⟩
  · cases hfirst _ hv with
    | done hvs =>
      cases hsecond _ _ hw with
      | done hws =>
        subst ho
        cases hresult : join _ _ with
        | ok u => exact .done (hvs.append hws)
        | error fault =>
          obtain ⟨name, u, rfl⟩ := hjoin _ _ _ hresult
          exact .misfit (List.prefix_refl _) (hvs.append hws)
  · exact (hfirst _ he).error_append more
  · cases hfirst _ hv with
    | done hvs => exact .behind hvs (hsecond _ _ he)

theorem itemsOrNil_bind_error {name : String} {v : Value} {fault : Fault}
    {k : List Value → Except Fault Value} (h : (Native.itemsOrNil name v >>= k) = .error fault) :
    fault = .wrongKind name "list or vector" v ∨ ∃ items, k items = .error fault := by
  cases hv : Native.itemsOrNil name v with
  | ok items =>
    rw [hv] at h
    exact .inr ⟨items, h⟩
  | error fault' =>
    rw [hv] at h
    cases h
    refine .inl ?_
    cases v <;> cases hv <;> rfl

theorem prefixed_joinsLists : JoinsLists prefixed := by
  intro v behind fault h
  rcases itemsOrNil_bind_error h with rfl | ⟨others, h⟩
  · exact ⟨_, _, rfl⟩
  · cases h

theorem spliced_joinsLists : JoinsLists spliced := by
  intro v behind fault h
  rcases itemsOrNil_bind_error h with rfl | ⟨items, h⟩
  · exact ⟨_, _, rfl⟩
  · rcases itemsOrNil_bind_error h with rfl | ⟨others, h⟩
    · exact ⟨_, _, rfl⟩
    · cases h

mutual

/-- Filling a template evaluates the forms in it in turn, each once. -/
theorem Fills.runsThrough (t : Value) {s : State} {o : Outcome Value} (h : Fills f t s o) :
    RunsThrough t.unquoted f s o := by
  cases t with
  | list items m | vector items m =>
    cases items with
    | nil =>
      subst h
      exact .done .nil
    | cons first rest => exact FillsItems.runsThrough (first :: rest) h
  | _ =>
    subst h
    exact .done .nil

theorem FillsItems.runsThrough (items : List Value) {s : State} {o : Outcome Value}
    (h : FillsItems f items s o) : RunsThrough (Value.unquotedItems items) f s o := by
  cases items with
  | nil =>
    subst h
    exact .done .nil
  | cons first rest =>
    rw [Value.unquotedItems]
    rw [FillsItems] at h
    cases hu : first.isNamed "unquote" with
    | true =>
      rw [hu] at h
      exact .of_evaluates h
    | false =>
      rw [hu] at h
      cases hargs : first.argsOf? "splice-unquote" with
      | some args =>
        rw [hargs] at h
        change RunsThrough ([args.headD .nil] ++ Value.unquotedItems rest) f s o
        exact .inTurn spliced_joinsLists (fun _ => .of_evaluates)
          (fun _ _ => FillsItems.runsThrough rest) h
      | none =>
        rw [hargs] at h
        exact .inTurn prefixed_joinsLists (fun _ => Fills.runsThrough first)
          (fun _ _ => FillsItems.runsThrough rest) h

end

end

/-! ### The main statement -/

/-- Evaluating a `quasiquote` form, if nothing is refused for its depth, fills its template, as long
as `quasiquote` is no macro and what the expression of the template is made of means what it says
wherever a part of the template is come to. The forms in the template are evaluated from left to
right, each once. -/
theorem quasiquote_fills (t : Value) (m : Option Value) (f : FrameId) (s : State)
    (hq : ¬ s.heap.IsMacro f "quasiquote")
    (h : Throughout (fun s => s.heap.BuildsTemplates f) f t s) :
    (∀ n o, eval n (.list [.named "quasiquote", t] m) f s = o → o.Answers →
      o.state.gauge.refusals = s.gauge.refusals →
        ∀ o', Fills f t s o' ↔ o' = o.regauge s.gauge) ∧
    (∀ o, Fills f t s o → ∃ N, ∀ g, g.depth + N ≤ g.limit → ∃ g', g'.depth = g.depth ∧
      g'.limit = g.limit ∧ g'.refusals = g.refusals ∧
        ∀ n ≥ N, eval n (.list [.named "quasiquote", t] m) f (s.regauge g) = o.regauge g') ∧
    ∀ o, Fills f t s o → RunsThrough t.unquoted f s o := by
  have hiff : ∀ o, Evaluates (.list [.named "quasiquote", t] m) f s o ↔ Fills f t s o :=
    fun o => (evaluates_quasiquote_iff hq t m).trans (evaluates_template_iff t h)
  refine ⟨fun n o heval ho hsame o' => ?_, fun o hfills => ?_, fun o => Fills.runsThrough t⟩
  · rw [← hiff]
    exact evaluates_iff_of_eval heval ho hsame o'
  · exact ((hiff o).mpr hfills).eval_eventually

/-- A heap with one frame, which binds `concat`, `cons` and what the table says. -/
def Heap.sampleTemplates (more : Table Value) : Heap :=
  ⟨#[⟨("concat", .native (.sequence .concat) 0 none) ::
    ("cons", .native (.sequence .cons) 1 none) :: more, none⟩], #[], 2⟩

theorem Heap.buildsTemplates_sample {more : Table Value} (h : more.get? "quote" = none) :
    (Heap.sampleTemplates more).BuildsTemplates 0 where
  quote := by
    rintro ⟨fn, body, m, hx, _⟩
    simp [Heap.lookup?, Heap.resolve?, Heap.sampleTemplates, Table.get?_cons, h] at hx
  cons := ⟨1, none, by
    simp [Heap.lookup?, Heap.resolve?, Heap.sampleTemplates, Table.get?_cons]⟩
  concat := ⟨0, none, by
    simp [Heap.lookup?, Heap.resolve?, Heap.sampleTemplates, Table.get?_cons]⟩

def State.sampleTemplates (more : Table Value) : State :=
  ⟨.sampleTemplates more, .atRest 9, ⟨[], true, "", ""⟩, .empty, 0⟩

/-- The template `((unquote (define x 5)) (splice-unquote xs) (unquote x))`. -/
def Value.sampleTemplate : Value :=
  .ofList [.ofList [.named "unquote", .ofList [.named "define", .named "x", .int 5]],
    .ofList [.named "splice-unquote", .named "xs"], .ofList [.named "unquote", .named "x"]]

/-- The states before and behind the definition in this template. -/
def State.sampleBefore : State := .sampleTemplates [("xs", .ofList [.int 7, .int 8])]

def State.sampleBehind : State :=
  .sampleTemplates [("x", .int 5), ("xs", .ofList [.int 7, .int 8])]

theorem throughout_sampleTemplate :
    Throughout (fun s => s.heap.BuildsTemplates 0) 0 .sampleTemplate .sampleBefore := by
  have hbefore : State.sampleBefore.heap.BuildsTemplates 0 := Heap.buildsTemplates_sample (by cbv)
  have hbehind : State.sampleBehind.heap.BuildsTemplates 0 := Heap.buildsTemplates_sample (by cbv)
  have hdefine : Evaluates (.ofList [.named "define", .named "x", .int 5]) 0 .sampleBefore
      (.value (.int 5) .sampleBehind) :=
    .special (by cbv) rfl rfl (.define (@Evaluates.literal (.int 5) _ _ trivial))
  have hxs : Evaluates (.named "xs") 0 .sampleBehind
      (.value (.ofList [.int 7, .int 8]) .sampleBehind) := .bound (by cbv)
  have hx : Evaluates (.named "x") 0 .sampleBehind (.value (.int 5) .sampleBehind) :=
    .bound (by cbv)
  have hunquote : (Value.named "unquote").isNamed "unquote" ≠ false := by decide
  refine ⟨hbefore, fun _ => ⟨⟨hbefore, (absurd · hunquote)⟩, fun v s₁ hfills => ?_⟩⟩
  cases hdefine.unique hfills
  refine ⟨hbehind, fun _ v s₁ hv => ?_⟩
  cases hxs.unique hv
  refine ⟨hbehind, fun _ => ⟨⟨hbehind, (absurd · hunquote)⟩, fun v s₁ hv => ?_⟩⟩
  cases hx.unique hv
  exact hbehind

theorem eval_sampleTemplate :
    eval 9 (.ofList [.named "quasiquote", .sampleTemplate]) 0 .sampleBefore =
      .value (.ofList [.int 5, .int 7, .int 8, .int 5])
        (State.sampleBehind.regauge ⟨0, 9, 4, 0⟩) := by
  cbv

theorem quasiquote_fills_sampleTemplate :
    (∀ o, Fills 0 .sampleTemplate .sampleBefore o ↔
      o = .value (.ofList [.int 5, .int 7, .int 8, .int 5]) .sampleBehind) ∧
    RunsThrough [.ofList [.named "define", .named "x", .int 5], .named "xs", .named "x"] 0
      .sampleBefore (.value (.ofList [.int 5, .int 7, .int 8, .int 5]) .sampleBehind) ∧
    ∃ N, ∀ n ≥ N, ∃ s, eval n (.ofList [.named "quasiquote", .sampleTemplate]) 0
      (State.sampleBefore.regauge (.atRest N)) =
        .value (.ofList [.int 5, .int 7, .int 8, .int 5]) s := by
  have hq : ¬ State.sampleBefore.heap.IsMacro 0 "quasiquote" := not_isMacro_of_unbound (by cbv)
  obtain ⟨hagrees, hconverse, horder⟩ :=
    quasiquote_fills .sampleTemplate none 0 .sampleBefore hq throughout_sampleTemplate
  have hiff := hagrees 9 _ eval_sampleTemplate trivial rfl
  have hfills := (hiff _).mpr rfl
  refine ⟨hiff, horder _ hfills, ?_⟩
  obtain ⟨N, hN⟩ := hconverse _ hfills
  obtain ⟨g', _, _, _, heval⟩ := hN (.atRest N) (by simp [Gauge.atRest])
  exact ⟨N, fun n hn => ⟨_, heval n hn⟩⟩

/-- A state in which `quasiquote` is bound to a macro that gives one. -/
def State.samplePreempted : State :=
  .sampleTemplates [("quasiquote", .closure ⟨2, ⟨[⟨"x"⟩], none⟩, 0, true⟩ (.int 1) none)]

/-- A macro takes precedence over the special form `quasiquote`, whose template is then not
filled. -/
theorem quasiquote_of_macro :
    Throughout (fun s => s.heap.BuildsTemplates 0) 0 (.int 2) .samplePreempted ∧
    (∃ s, eval 9 (.ofList [.named "quasiquote", .int 2]) 0 .samplePreempted = .value (.int 1) s ∧
      s.gauge.refusals = 0) ∧
    Fills 0 (.int 2) .samplePreempted (.value (.int 2) .samplePreempted) ∧
    ∀ v s, Fills 0 (.int 2) .samplePreempted (.value v s) → v = .int 2 := by
  refine ⟨Heap.buildsTemplates_sample (by cbv), ⟨_, by cbv, rfl⟩, rfl, ?_⟩
  intro v s h
  cases h
  rfl

end SmallLisp
