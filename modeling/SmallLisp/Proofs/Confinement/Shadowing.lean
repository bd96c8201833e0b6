import SmallLisp.Proofs.Confinement.Evaluator
import SmallLisp.Proofs.Evaluation.Turns

/-!
# Evaluation shadows and never rebinds

A run is confined to itself: the frames that may be written are the one that a form is evaluated
in, those that `eval` functions evaluate in, and the frames that the run adds. All other frames keep
their bindings and their parents, whatever is called and however the run ends. Calls, macro
expansions, `let*` forms and handlers write only in frames of their own. The main statement is
`evaluation_shadows`.
-/

namespace SmallLisp

open Evaluator

/-! ### Where `eval` functions evaluate -/

/-- Whether every `eval` function in a value evaluates in one of some frames. -/
def Value.EvaluatesIn (v : Value) (roots : FrameId → Prop) : Prop := ∀ g, .root g ∈ v.refs → roots g

/-- Whether every `eval` function that is bound in a frame or stored in an atom evaluates in one of
some frames. -/
structure Heap.EvaluatesIn (h : Heap) (roots : FrameId → Prop) : Prop where
  bound : ∀ {f : FrameId} {frame : Frame}, h.frames[f]? = some frame →
    ∀ entry ∈ frame.bindings, entry.2.EvaluatesIn roots
  stored : ∀ {id : AtomId} {v : Value}, h.atoms[id]? = some v → v.EvaluatesIn roots

/-- Whether an outcome leaves every frame of a state as it was, but for those that `eval` functions
evaluate in and some others, and no `eval` function that evaluates elsewhere. -/
structure Outcome.Shadows (roots : FrameId → Prop) (others : List FrameId) (s : State)
    (o : Outcome Value) : Prop where
  frames : ∀ g < s.heap.frames.size, g ∉ others → ¬ roots g →
    o.state.heap.frames[g]? = s.heap.frames[g]?
  heap : o.state.heap.EvaluatesIn roots
  value : ∀ v t, o = .value v t → v.EvaluatesIn roots
  error : ∀ e t, o = .error e t → e.caught.EvaluatesIn roots

theorem Outcome.Shadows.of_value {roots : FrameId → Prop} {others : List FrameId} {s t : State}
    {o : Outcome Value} {v : Value} (h : o.Shadows roots others s) (ho : o = .value v t) :
    t.heap.EvaluatesIn roots ∧ v.EvaluatesIn roots := by
  subst ho
  exact ⟨h.heap, h.value v t rfl⟩

theorem Outcome.Shadows.of_error {roots : FrameId → Prop} {others : List FrameId} {s t : State}
    {o : Outcome Value} {e : Error} (h : o.Shadows roots others s) (ho : o = .error e t) :
    t.heap.EvaluatesIn roots ∧ e.caught.EvaluatesIn roots := by
  subst ho
  exact ⟨h.heap, h.error e t rfl⟩

/-! ### A run beside itself -/

/-- The reach of everything there is, where only the given frames are open. -/
def Reach.everything (roots : FrameId → Prop) (others : List FrameId) : Reach where
  holds
    | .root g => roots g
    | _ => True
  opens g := g ∈ others ∨ roots g
  opens_of_root := .inr
  scope_of_opens _ := trivial

def Confinement.alone (roots : FrameId → Prop) (others : List FrameId) (s : State) : Confinement :=
  ⟨.everything roots others, s, s⟩

variable {roots : FrameId → Prop} {others : List FrameId} {s : State}

theorem admits_everything_iff {v : Value} :
    (Reach.everything roots others).Admits v ↔ v.EvaluatesIn roots := by
  constructor
  · exact fun h g hg => h (.root g) hg
  · intro h r hr
    cases r with
    | root g => exact h g hr
    | _ => trivial

theorem admits_alone_iff {v : Value} {h : Heap} :
    ((Confinement.alone roots others s).reach h).Admits v ↔ v.EvaluatesIn roots := by
  constructor
  · exact fun hv g hg => (hv (.root g) hg).resolve_right id
  · exact fun hv r hr => .inl (admits_everything_iff.mpr hv r hr)

theorem related_alone (hs : s.heap.EvaluatesIn roots) :
    (Confinement.alone roots others s).Related s s := by
  refine Confinement.related_start ?_ (.refl _ _) rfl rfl rfl rfl rfl rfl
  exact ⟨fun _ _ _ => trivial, fun _ hframe entry hentry =>
    admits_everything_iff.mpr (hs.bound hframe entry hentry),
    fun _ hv => admits_everything_iff.mpr (hs.stored hv)⟩

theorem shadows_of_keeps {m : Eval Value} (hs : s.heap.EvaluatesIn roots)
    (hm : (Confinement.alone roots others s).Keeps (.everything roots others) Reach.Admits m) :
    (m s).Shadows roots others s := by
  have hsub : (Reach.everything roots others).Sub
      ((Confinement.alone roots others s).reach s.heap) := ⟨.inl, .inl⟩
  have hsame := hm s s hsub (related_alone hs)
  have hstate : ∀ {t t' : State}, (Confinement.alone roots others s).Related t t' →
      (∀ g < s.heap.frames.size, g ∉ others → ¬ roots g →
        t.heap.frames[g]? = s.heap.frames[g]?) ∧ t.heap.EvaluatesIn roots := by
    intro t t' hr
    refine ⟨?_, ?_, ?_⟩
    · intro g hg hothers hroots
      refine (hr.heap.frames ?_).1
      rintro ((hother | hroot) | hadded)
      · exact hothers hother
      · exact hroots hroot
      · exact Nat.not_lt_of_le hadded.1 hg
    · intro f frame hframe entry hentry
      exact admits_alone_iff.mp (hr.heap.closed.bound (.inl trivial) hframe entry hentry)
    · intro id v hv
      exact admits_alone_iff.mp (hr.heap.closed.content (.inl trivial) hv)
  generalize m s = o at hsame ⊢
  cases hsame with
  | value _ hr hv =>
    obtain ⟨hframes, hheap⟩ := hstate hr
    refine ⟨hframes, hheap, ?_, ?_⟩
    · rintro _ _ ⟨⟩
      exact admits_alone_iff.mp hv
    · rintro _ _ ⟨⟩
  | error _ hr he =>
    obtain ⟨hframes, hheap⟩ := hstate hr
    refine ⟨hframes, hheap, ?_, ?_⟩
    · rintro _ _ ⟨⟩
    · rintro _ _ ⟨⟩
      exact admits_alone_iff.mp he
  | halt _ hr =>
    obtain ⟨hframes, hheap⟩ := hstate hr
    refine ⟨hframes, hheap, ?_, ?_⟩
    · rintro _ _ ⟨⟩
    · rintro _ _ ⟨⟩

/-! ### Evaluations and calls -/

theorem evaluatesIn_list {head : Value} {args : List Value} {m : Option Value}
    (h : (Value.list (head :: args) m).EvaluatesIn roots) :
    head.EvaluatesIn roots ∧ ∀ arg ∈ args, arg.EvaluatesIn roots := by
  have hadmits : (Reach.everything roots []).Admits (.list (head :: args) m) :=
    admits_everything_iff.mpr h
  obtain ⟨hhead, hargs⟩ := Reach.admitsAll_cons.mp (Reach.admits_list.mp hadmits).1
  exact ⟨admits_everything_iff.mp hhead, fun arg harg => admits_everything_iff.mp (hargs arg harg)⟩

theorem admitsAll_everything {vs : List Value} (h : ∀ v ∈ vs, v.EvaluatesIn roots) :
    (Reach.everything roots others).AdmitsAll vs := fun v hv => admits_everything_iff.mpr (h v hv)

section

variable (hs : s.heap.EvaluatesIn roots)
include hs

theorem eval_shadows (n : Nat) {form : Value} (hform : form.EvaluatesIn roots) (f : FrameId) :
    (eval n form f s).Shadows roots [f] s :=
  shadows_of_keeps hs (Confinement.eval_keeps _ n (admits_everything_iff.mpr hform)
    (.inl (List.mem_singleton_self f)))

theorem expand_shadows (n k : Nat) {form : Value} (hform : form.EvaluatesIn roots) (f : FrameId) :
    ((eval n).expand k form f s).Shadows roots [] s :=
  shadows_of_keeps hs (Confinement.expand_keeps_of (Confinement.eval_keeps _ n) k
    (admits_everything_iff.mpr hform) trivial)

theorem evaluatesIn_of_forEach {n : Nat} {args vs : List Value} {f : FrameId} {t : State}
    (hargs : ∀ arg ∈ args, arg.EvaluatesIn roots)
    (h : Eval.forEach (eval n · f) args s = .value vs t) :
    t.heap.EvaluatesIn roots ∧ ∀ v ∈ vs, v.EvaluatesIn roots := by
  induction args generalizing s vs with
  | nil =>
    cases h
    exact ⟨hs, nofun⟩
  | cons arg args ih =>
    obtain ⟨harg, hrest⟩ := List.forall_mem_cons.mp hargs
    rcases Eval.bind_cases h trivial with ⟨v, s₁, hv, h⟩ | ⟨_, _, _, h⟩
    · obtain ⟨hs₁, hvIn⟩ := (eval_shadows hs n harg f).of_value hv
      rcases Eval.bind_cases h trivial with ⟨more, s₂, hmore, h⟩ | ⟨_, _, _, h⟩
      · cases h
        obtain ⟨ht, hall⟩ := ih hs₁ hrest hmore
        exact ⟨ht, List.forall_mem_cons.mpr ⟨hvIn, hall⟩⟩
      · cases h
    · cases h

/-- What a call comes to, it comes to with `eval` functions that evaluate in the roots. -/
theorem evaluatesIn_of_comesToCall {n k : Nat} {form fn : Value} {f : FrameId} {vs : List Value}
    {t : State} (hform : form.EvaluatesIn roots) (h : (eval n).ComesToCall k form f s fn vs t) :
    t.heap.EvaluatesIn roots ∧ fn.EvaluatesIn roots ∧ ∀ v ∈ vs, v.EvaluatesIn roots := by
  obtain ⟨hexpand, _, hhead, hargs⟩ := h
  obtain ⟨hs₁, hexpanded⟩ := (expand_shadows hs n k hform f).of_value hexpand
  obtain ⟨hheadIn, hargsIn⟩ := evaluatesIn_list hexpanded
  obtain ⟨hs₂, hfn⟩ := (eval_shadows hs₁ n hheadIn f).of_value hhead
  obtain ⟨ht, hvs⟩ := evaluatesIn_of_forEach hs₂ hargsIn hargs
  exact ⟨ht, hfn, hvs⟩

/-- From where an ordinary call begins, the frame that it stands in is one like all others. -/
theorem run_call_shadows {n k : Nat} {form fn : Value} {f : FrameId} {vs : List Value} {t : State}
    (hform : form.EvaluatesIn roots) (h : (eval n).ComesToCall k form f s fn vs t) :
    ((eval n).run (k + 1) form f s).Shadows roots [] t := by
  obtain ⟨ht, hfn, hvs⟩ := evaluatesIn_of_comesToCall hs hform h
  rw [run_of_comesToCall h]
  exact shadows_of_keeps ht (Confinement.applied_keeps (Confinement.eval_keeps _ n) k
    (admits_everything_iff.mpr hfn) (admitsAll_everything hvs))

/-! ### Special forms -/

theorem run_let_shadows (n k : Nat) {head : Value} {args : List Value} {m : Option Value}
    {f : FrameId} (hop : Special.ofHead? head = some .letForm)
    (hm : s.heap.macroCall? f (.list (head :: args) m) = none)
    (hargs : ∀ arg ∈ args, arg.EvaluatesIn roots) :
    ((eval n).run k (.list (head :: args) m) f s).Shadows roots [] s := by
  match k with
  | 0 => exact shadows_of_keeps hs (.halt .outOfFuel)
  | 1 => exact shadows_of_keeps hs (.halt .outOfFuel)
  | k + 2 =>
    rw [run_eq_finish hm]
    exact shadows_of_keeps hs (Confinement.let_keeps (Confinement.eval_keeps _ n) (k + 1) hop
      (admitsAll_everything hargs) trivial)

/-- From where an error is caught, the frame that its handler stands in is one like all others. -/
theorem run_handler_shadows {n k : Nat} {head form handler : Value} {args : List Value}
    {m : Option Value} {f : FrameId} {x : Symbol} {e : Error} {t : State}
    (hop : Special.ofHead? head = some .tryForm)
    (hm : s.heap.macroCall? f (.list (head :: args) m) = none)
    (hargs : ∀ arg ∈ args, arg.EvaluatesIn roots)
    (hparts : Special.attempt args = .ok (form, some (x, handler)))
    (hform : eval n form f s = .error e t) :
    ((eval n).run (k + 2) (.list (head :: args) m) f s).Shadows roots [] t := by
  have hadmits : (Reach.everything roots []).AdmitsAll args := admitsAll_everything hargs
  obtain ⟨hformIn, hhandler⟩ := Special.attempt_admits hadmits _ hparts
  obtain ⟨ht, he⟩ := (eval_shadows hs n (admits_everything_iff.mp hformIn) f).of_error hform
  rw [run_of_caught hop hm hparts hform]
  exact shadows_of_keeps ht (Confinement.handle_keeps (Confinement.eval_keeps _ n) (hhandler _ rfl)
    (admits_everything_iff.mpr he) trivial)

end

/-! ### Shadowing -/

/-- Where all `eval` functions evaluate in some roots, an evaluation leaves every frame as it was
but its own and the roots, however it ends. From where an ordinary call begins, all frames stay as
they are but the roots, and so do they in a call that a function makes, in an expansion, in a `let*`
form, and from where an error is caught that a `try*` form handles. -/
theorem evaluation_shadows (hs : s.heap.EvaluatesIn roots) :
    (∀ n form f, form.EvaluatesIn roots → (eval n form f s).Shadows roots [f] s) ∧
    (∀ n k form f fn args t, form.EvaluatesIn roots →
      (eval n).ComesToCall k form f s fn args t →
        ((eval n).run (k + 1) form f s).Shadows roots [] t) ∧
    (∀ n k fn args, fn.EvaluatesIn roots → (∀ arg ∈ args, arg.EvaluatesIn roots) →
      ((eval n).call k fn args s).Shadows roots [] s) ∧
    (∀ n k form f, form.EvaluatesIn roots → ((eval n).expand k form f s).Shadows roots [] s) ∧
    (∀ n k head args m f, Special.ofHead? head = some .letForm →
      s.heap.macroCall? f (.list (head :: args) m) = none →
        (∀ arg ∈ args, arg.EvaluatesIn roots) →
          ((eval n).run k (.list (head :: args) m) f s).Shadows roots [] s) ∧
    ∀ n k head args m f form x handler e t, Special.ofHead? head = some .tryForm →
      s.heap.macroCall? f (.list (head :: args) m) = none →
        (∀ arg ∈ args, arg.EvaluatesIn roots) →
          Special.attempt args = .ok (form, some (x, handler)) → eval n form f s = .error e t →
            ((eval n).run (k + 2) (.list (head :: args) m) f s).Shadows roots [] t := by
  refine ⟨fun n form f hform => eval_shadows hs n hform f, ?_, ?_,
    fun n k form f hform => expand_shadows hs n k hform f, ?_, ?_⟩
  · exact fun n k form f fn args t hform hcall => run_call_shadows hs hform hcall
  · intro n k fn args hfn hargs
    exact shadows_of_keeps hs (Confinement.call_keeps _ n k (admits_everything_iff.mpr hfn)
      (admitsAll_everything hargs))
  · exact fun n k head args m f hop hm hargs => run_let_shadows hs n k hop hm hargs
  · exact fun n k head args m f form x handler e t hop hm hargs hparts hform =>
      run_handler_shadows hs hop hm hargs hparts hform

/-- A root that binds `eval`, and a frame below it that binds `x`, after some evaluation. -/
def State.sampleShadowed : State :=
  ⟨⟨#[⟨[("eval", .native (.eval 0) 0 none)], none⟩, ⟨[("x", .int 1)], some 0⟩], #[], 2⟩,
    ⟨0, 5, 1, 0⟩, ⟨[], true, "", ""⟩, .empty, 0⟩

/-- A function that was made in the frame below the root: its parameter is `x`, and its body defines
`x` anew. -/
def Value.sampleShadower : Value :=
  .closure ⟨1, ⟨[⟨"x"⟩], none⟩, 1, false⟩ (.ofList [.named "define", .named "x", .int 9]) none

/-- The call of this function with 2. -/
def Value.sampleShadowing : Value := .ofList [.sampleShadower, .int 2]

theorem evaluatesIn_sampleShadowed : State.sampleShadowed.heap.EvaluatesIn (· = 0) where
  bound := by
    intro f frame hframe entry hentry g hg
    match f, hframe with
    | 0, hframe =>
      cases hframe
      obtain rfl := List.mem_singleton.mp hentry
      cases List.mem_singleton.mp hg
      rfl
    | 1, hframe =>
      cases hframe
      obtain rfl := List.mem_singleton.mp hentry
      cases hg
    | f + 2, hframe => cases hframe
  stored := nofun

theorem evaluation_shadows_sampleShadowing :
    (eval 9 .sampleShadowing 0 .sampleShadowed).state.heap.frames[2]? =
      some ⟨[("x", .int 9)], some 1⟩ ∧
    (eval 9 .sampleShadowing 0 .sampleShadowed).state.heap.frames[1]? =
      some ⟨[("x", .int 1)], some 0⟩ ∧
    ((eval 9).run 9 .sampleShadowing 1 .sampleShadowed).state.heap.frames[1]? =
      some ⟨[("x", .int 1)], some 0⟩ := by
  have hform : Value.sampleShadowing.EvaluatesIn (· = 0) := by
    intro g hg
    cases List.mem_singleton.mp hg
  obtain ⟨heval, hcall, _⟩ := evaluation_shadows evaluatesIn_sampleShadowed
  have hframe := (heval 9 _ 0 hform).frames 1 (by decide) (by decide) (by decide)
  have hcalls : (eval 9).ComesToCall 8 .sampleShadowing 1 .sampleShadowed .sampleShadower [.int 2]
      .sampleShadowed := .ordinary (by cbv) rfl (by cbv) (by cbv)
  have hown := (hcall 9 8 _ 1 _ _ _ hform hcalls).frames 1 (by decide) (by decide) (by decide)
  exact ⟨by cbv, hframe.trans rfl, hown.trans rfl⟩

end SmallLisp
