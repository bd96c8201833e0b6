import Mathlib
import SmallLisp.Proofs.Session.Provision

/-!
# Selection among clauses

`cond` is a macro that expands to an `if` of its first clause and a `cond` of the others, so that
what it does comes about in as many expansions as there are tests. `Selects` tells it of the list of
forms alone: the tests are evaluated in turn up to the first one that is true, and its expression is
what the loop goes on with. The main statement is `cond_selects`.
-/

namespace SmallLisp

open Session (root)
open Prelude (call)

/-! ### Selection -/

/-- `Selects tests exprs forms s o`: among the clauses that the forms are, two by two, the first test
that is true selects its expression, which has the outcome `o`. Every round leaves the frame of its
macro call behind. -/
inductive Selects (tests exprs : Value → State → Outcome Value → Prop) :
    List Value → State → Outcome Value → Prop where
  | none {s} : Selects tests exprs [] s (.value .nil (s.calling []))
  | odd {form s} : Selects tests exprs [form] s
      (.error (.thrown (.str "odd number of forms to cond")) (s.calling [form]))
  | chosen {test expr rest s v s₁ o}
      (h : tests test (s.calling (test :: expr :: rest)) (.value v s₁)) (hv : v.isTruthy = true)
      (he : exprs expr s₁ o) : Selects tests exprs (test :: expr :: rest) s o
  | skipped {test expr rest s v s₁ o}
      (h : tests test (s.calling (test :: expr :: rest)) (.value v s₁)) (hv : v.isTruthy = false)
      (hrest : Selects tests exprs rest s₁ o) : Selects tests exprs (test :: expr :: rest) s o
  | fails {test expr rest s e s₁}
      (h : tests test (s.calling (test :: expr :: rest)) (.error e s₁)) :
      Selects tests exprs (test :: expr :: rest) s (.error e s₁)

/-- Whether something holds wherever a round of the selection begins. -/
def AtEachTest (P : State → Prop) (f : FrameId) : List Value → State → Prop
  | test :: expr :: rest, s => P s ∧ ∀ v s₁,
      Evaluates test f (s.calling (test :: expr :: rest)) (.value v s₁) → v.isTruthy = false →
        AtEachTest P f rest s₁
  | _, s => P s

/-! ### What `cond` needs -/

namespace Prelude

/-- The native functions that `cond` calls. -/
def condNatives : List Native :=
  [.sequence .count, .comparison .gt, .collection .list, .sequence .first, .sequence .nth, .throw,
    .sequence .cons, .sequence .rest]

/-- The special forms in its body and in what it expands to. -/
def condSpecials : List String := ["if", "quote"]

/-- The form in the body of `cond` that gives the expression of the first clause. -/
def condSelected : Value :=
  call "if" [call ">" [call "count" [.named "xs"], .int 1], call "nth" [.named "xs", .int 1],
    call "throw" [.str "odd number of forms to cond"]]

/-- The form in it that gives a `cond` of the other clauses. -/
def condOthers : Value :=
  call "cons" [quote (.named "cond"), call "rest" [call "rest" [.named "xs"]]]

/-- What is listed in it. -/
def condParts : List Value :=
  [quote (.named "if"), call "first" [.named "xs"], condSelected, condOthers]

/-- What `cond` expands to. -/
def condExpansion (test expr : Value) (rest : List Value) : Value :=
  call "if" [test, expr, call "cond" rest]

end Prelude

/-- Whether the root provides what `cond` calls, and a frame sees `cond` and no macro named `if`. -/
structure Heap.RunsCond (h : Heap) (f : FrameId) : Prop where
  provides : h.Provides Prelude.condNatives Prelude.condSpecials root
  cond : ∃ identity m, h.lookup? f ⟨"cond"⟩ =
    some (.closure ⟨identity, ⟨[], some ⟨"xs"⟩⟩, root, true⟩ Prelude.condBody m)
  branch : ¬ h.IsMacro f "if"

section

variable {f : FrameId} {s : State} {room : Nat} {forms rest : List Value} {test expr : Value}

namespace Heap.RunsCond

theorem lt_size (hr : s.heap.RunsCond f) : f < s.heap.frames.size := by
  obtain ⟨_, _, hcond⟩ := hr.cond
  exact Heap.lt_size_of_lookup? hcond

theorem root_lt_size (hr : s.heap.RunsCond f) : root < s.heap.frames.size := by
  obtain ⟨_, _, hcount⟩ := hr.provides.natives (.sequence .count) (by decide)
  exact Heap.lt_size_of_lookup? hcount

theorem calling (hr : s.heap.RunsCond f) (forms : List Value) :
    (s.calling forms).heap.Provides Prelude.condNatives Prelude.condSpecials s.heap.frames.size :=
  hr.provides.calling hr.root_lt_size (by decide) (by decide)

theorem branch_calling (hr : s.heap.RunsCond f) (forms : List Value) :
    ¬ (s.calling forms).heap.IsMacro f "if" :=
  not_isMacro_congr ((grows_calling s forms).lookup? hr.lt_size) hr.branch

theorem macroCall? (hr : s.heap.RunsCond f) (forms : List Value) (m : Option Value) :
    ∃ identity, s.heap.macroCall? f (.list (.named "cond" :: forms) m) =
      some (⟨identity, ⟨[], some ⟨"xs"⟩⟩, root, true⟩, Prelude.condBody, forms) := by
  obtain ⟨identity, m', hcond⟩ := hr.cond
  refine ⟨identity, ?_⟩
  simp only [Value.named, Heap.macroCall?, hcond]
  rfl

end Heap.RunsCond

/-! ### What `cond` expands to -/

section

variable (hp : s.heap.Provides Prelude.condNatives Prelude.condSpecials f)
  (hxs : s.heap.lookup? f ⟨"xs"⟩ = some (.ofList forms))
include hp hxs

/-- Whether there are more forms than a number. -/
theorem continues_moreThan (hlength : forms.length < 9223372036854775808) (k : Int64) :
    ContinuesWithin (room + 2) (call ">" [call "count" [.named "xs"], .int k]) f s
      (.value (.bool (decide (k.toInt < forms.length))) s) := by
  have hcount : ContinuesWithin (room + 1) (call "count" [.named "xs"]) f s
      (.value (.int (Int64.ofNat forms.length)) s) :=
    hp.ofForms (by decide : .sequence .count ∈ Prelude.condNatives) rfl hxs rfl
      (perform_count hlength)
  have hk : ContinuesWithin (room + 1) (.int k) f s (.value (.int k) s) := .literal trivial
  have hmore : (decide (k < Int64.ofNat forms.length) && true) =
      decide (k.toInt < forms.length) := by
    rw [Bool.and_true, decide_eq_decide, Int64.lt_iff_toInt_lt, Int64.toInt_ofNat_of_lt hlength]
  rw [← hmore]
  exact hp.direct (by decide : .comparison .gt ∈ Prelude.condNatives) rfl
    (.cons hcount.ends (.cons hk.ends .nil)) rfl fun _ => rfl

theorem continues_first : ContinuesWithin (room + 1) (call "first" [.named "xs"]) f s
    (.value (forms.headD .nil) s) :=
  hp.ofForms (by decide : .sequence .first ∈ Prelude.condNatives) rfl hxs rfl fun _ => rfl

theorem continues_condOthers : ContinuesWithin (room + 3) Prelude.condOthers f s
    (.value (call "cond" forms.tail.tail) s) := by
  have hrest : ContinuesWithin (room + 1) (call "rest" [.named "xs"]) f s
      (.value (.ofList forms.tail) s) :=
    hp.ofForms (by decide : .sequence .rest ∈ Prelude.condNatives) rfl hxs rfl fun _ => rfl
  have hothers : ContinuesWithin (room + 2) (call "rest" [call "rest" [.named "xs"]]) f s
      (.value (.ofList forms.tail.tail) s) :=
    hp.direct (by decide : .sequence .rest ∈ Prelude.condNatives) rfl (.cons hrest.ends .nil) rfl
      fun _ => rfl
  exact hp.cons (by decide) (hp.quote (by decide) (.named "cond")).ends hothers.ends

/-- Of some forms the body makes what it lists. -/
theorem ends_condBody {o : Outcome Value} (hsome : 0 < forms.length)
    (hlength : forms.length < 9223372036854775808)
    (h : ContinuesWithin (room + 4) (call "list" Prelude.condParts) f s o) :
    EndsWithin (room + 5) Prelude.condBody f s o := by
  have hmore : ContinuesWithin (room + 3) (call ">" [call "count" [.named "xs"], .int 0]) f s _ :=
    continues_moreThan hp hxs hlength 0
  have htrue : (Value.bool (decide ((0 : Int64).toInt < forms.length))).isTruthy = true := by
    have hpositive : (0 : Int64).toInt < forms.length := Int.natCast_pos.mpr hsome
    rw [decide_eq_true hpositive]
    rfl
  have hbody : ContinuesWithin (room + 4) Prelude.condBody f s o :=
    hp.special (by decide) rfl rfl (.yes hmore.ends htrue h)
  exact hbody.ends

end

variable (hp : s.heap.Provides Prelude.condNatives Prelude.condSpecials f)
include hp

theorem ends_condBody_nil (hxs : s.heap.lookup? f ⟨"xs"⟩ = some (.ofList [])) :
    EndsWithin (room + 5) Prelude.condBody f s (.value .nil s) := by
  have hnone : ContinuesWithin (room + 3) (call ">" [call "count" [.named "xs"], .int 0]) f s
      (.value (.bool false) s) := continues_moreThan hp hxs (Nat.zero_lt_succ _) 0
  have hbody : ContinuesWithin (room + 4) Prelude.condBody f s (.value .nil s) :=
    hp.special (by decide) rfl rfl (.neither hnone.ends rfl)
  exact hbody.ends

theorem ends_condBody_odd {form : Value}
    (hxs : s.heap.lookup? f ⟨"xs"⟩ = some (.ofList [form])) :
    EndsWithin (room + 5) Prelude.condBody f s
      (.error (.thrown (.str "odd number of forms to cond")) s) := by
  have hlength : [form].length < 9223372036854775808 := by
    rw [List.length_singleton]
    decide
  have hsingle : ContinuesWithin (room + 2) (call ">" [call "count" [.named "xs"], .int 1]) f s
      (.value (.bool false) s) := continues_moreThan hp hxs hlength 1
  have hmessage : ContinuesWithin (room + 2) (.str "odd number of forms to cond") f s
      (.value (.str "odd number of forms to cond") s) := .literal trivial
  have hthrow : ContinuesWithin (room + 3) (call "throw" [.str "odd number of forms to cond"]) f s
      (.error (.thrown (.str "odd number of forms to cond")) s) :=
    hp.native (by decide : .throw ∈ Prelude.condNatives) rfl (.cons hmessage.ends .nil)
      fun _ _ => .direct rfl trivial rfl fun _ => rfl
  have hselected : ContinuesWithin (room + 3) Prelude.condSelected f s
      (.error (.thrown (.str "odd number of forms to cond")) s) :=
    hp.special (by decide) rfl rfl (.no hsingle.ends rfl hthrow)
  have hquote : ContinuesWithin (room + 3) (Prelude.quote (.named "if")) f s
      (.value (.named "if") s) := hp.quote (by decide) (.named "if")
  have hfirst : ContinuesWithin (room + 3) (call "first" [.named "xs"]) f s (.value form s) :=
    continues_first hp hxs
  have hparts : ArgumentsWithin (room + 4) Prelude.condParts f s
      (.error (.thrown (.str "odd number of forms to cond")) s) :=
    .restFails hquote.ends (.restFails hfirst.ends (.headFails hselected.ends))
  exact ends_condBody hp hxs Nat.zero_lt_one hlength
    (hp.argumentFails (by decide : .collection .list ∈ Prelude.condNatives) rfl hparts)

theorem ends_condBody_cons
    (hxs : s.heap.lookup? f ⟨"xs"⟩ = some (.ofList (test :: expr :: rest)))
    (hlength : (test :: expr :: rest).length < 9223372036854775808) :
    EndsWithin (room + 5) Prelude.condBody f s
      (.value (Prelude.condExpansion test expr rest) s) := by
  have hmore : ContinuesWithin (room + 2) (call ">" [call "count" [.named "xs"], .int 1]) f s _ :=
    continues_moreThan hp hxs hlength 1
  have htrue : (Value.bool (decide ((1 : Int64).toInt <
      (test :: expr :: rest).length))).isTruthy = true := by
    have hseveral : (1 : Int64).toInt < (test :: expr :: rest).length := by
      have hone : (1 : Int64).toInt = 1 := by decide
      rw [hone, List.length_cons, List.length_cons]
      omega
    rw [decide_eq_true hseveral]
    rfl
  have hxsWithin : ContinuesWithin (room + 2) (.named "xs") f s _ := .bound hxs
  have hone : ContinuesWithin (room + 2) (.int 1) f s (.value (.int 1) s) := .literal trivial
  have hnth : ContinuesWithin (room + 3) (call "nth" [.named "xs", .int 1]) f s (.value expr s) :=
    hp.direct (by decide : .sequence .nth ∈ Prelude.condNatives) rfl
      (.cons hxsWithin.ends (.cons hone.ends .nil)) rfl fun _ => rfl
  have hselected : ContinuesWithin (room + 3) Prelude.condSelected f s (.value expr s) :=
    hp.special (by decide) rfl rfl (.yes hmore.ends htrue hnth)
  have hquote : ContinuesWithin (room + 3) (Prelude.quote (.named "if")) f s
      (.value (.named "if") s) := hp.quote (by decide) (.named "if")
  have hfirst : ContinuesWithin (room + 3) (call "first" [.named "xs"]) f s (.value test s) :=
    continues_first hp hxs
  have hothers : ContinuesWithin (room + 3) Prelude.condOthers f s
      (.value (call "cond" rest) s) := continues_condOthers hp hxs
  have hparts : ArgumentsWithin (room + 4) Prelude.condParts f s
      (.value [.named "if", test, expr, call "cond" rest] s) :=
    .cons hquote.ends (.cons hfirst.ends (.cons hselected.ends (.cons hothers.ends .nil)))
  exact ends_condBody hp hxs (Nat.zero_lt_succ _) hlength
    (hp.direct (by decide : .collection .list ∈ Prelude.condNatives) rfl hparts rfl fun _ => rfl)

omit hp

/-! ### Rounds -/

variable {m : Option Value} {o : Outcome Value}

theorem AtEachTest.holds {P : State → Prop} (h : AtEachTest P f forms s) : P s := by
  match forms with
  | [] => exact h
  | [_] => exact h
  | _ :: _ :: _ => exact h.1

theorem Heap.RunsCond.continues_nil (hr : s.heap.RunsCond f) :
    ContinuesWithin (room + 5) (.list [.named "cond"] m) f s (.value .nil (s.calling [])) := by
  obtain ⟨identity, hm⟩ := hr.macroCall? [] m
  have hbody : EndsWithin (room + 5) Prelude.condBody _ _ _ :=
    ends_condBody_nil (hr.calling []) (calling_forms s [])
  exact .expansion hm rfl rfl hbody (.literal trivial)

theorem Heap.RunsCond.continues_odd (hr : s.heap.RunsCond f) (form : Value) :
    ContinuesWithin (room + 5) (.list [.named "cond", form] m) f s
      (.error (.thrown (.str "odd number of forms to cond")) (s.calling [form])) := by
  obtain ⟨identity, hm⟩ := hr.macroCall? [form] m
  have hbody : EndsWithin (room + 5) Prelude.condBody _ _ _ :=
    ends_condBody_odd (hr.calling [form]) (calling_forms s [form])
  exact .expansionFails hm rfl rfl hbody

/-- A round of `cond` branches on its test, in the frame in which `cond` was called. -/
theorem Heap.RunsCond.continues_cons (hr : s.heap.RunsCond f)
    (hlength : (test :: expr :: rest).length < 9223372036854775808)
    (h : PerformsWithin (room + 5) (.branch test expr (some (call "cond" rest))) f
      (s.calling (test :: expr :: rest)) o) :
    ContinuesWithin (room + 5) (.list (.named "cond" :: test :: expr :: rest) m) f s o := by
  obtain ⟨identity, hm⟩ := hr.macroCall? (test :: expr :: rest) m
  have hbody : EndsWithin (room + 5) Prelude.condBody _ _ _ :=
    ends_condBody_cons (hr.calling _) (calling_forms s _) hlength
  have hif := macroCall?_named (hr.branch_calling (test :: expr :: rest))
    [test, expr, call "cond" rest] none
  exact .expansion hm rfl rfl hbody (.special hif rfl rfl h)

theorem Heap.RunsCond.evaluates_cons_iff (hr : s.heap.RunsCond f)
    (hlength : (test :: expr :: rest).length < 9223372036854775808) :
    Evaluates (.list (.named "cond" :: test :: expr :: rest) m) f s o ↔
      Performs (.branch test expr (some (call "cond" rest))) f
        (s.calling (test :: expr :: rest)) o := by
  obtain ⟨identity, hm⟩ := hr.macroCall? (test :: expr :: rest) m
  have hbody : EndsWithin 5 Prelude.condBody s.heap.frames.size (s.calling (test :: expr :: rest))
      (.value (Prelude.condExpansion test expr rest) (s.calling (test :: expr :: rest))) :=
    ends_condBody_cons (hr.calling _) (calling_forms s _) hlength
  have hif := macroCall?_named (hr.branch_calling (test :: expr :: rest))
    [test, expr, call "cond" rest] none
  rw [evaluates_expansion_iff hm (.closure rfl rfl hbody.evaluates)]
  exact evaluates_special_iff hif rfl rfl

/-- The rules give for `cond` what the selection among its clauses tells. -/
theorem evaluates_cond_iff : ∀ {forms : List Value} {s : State} {o : Outcome Value}
    (m : Option Value), AtEachTest (fun s => s.heap.RunsCond f) f forms s →
    forms.length < 9223372036854775808 →
    (Evaluates (.list (.named "cond" :: forms) m) f s o ↔
      Selects (Evaluates · f) (Evaluates · f) forms s o)
  | [], s, o, m, h, _ => by
    have hr : s.heap.RunsCond f := h
    have hnil : ContinuesWithin 5 (.list [.named "cond"] m) f s _ := hr.continues_nil
    constructor
    · intro h
      cases h.unique hnil.ends.evaluates
      exact .none
    · intro h
      cases h
      exact hnil.ends.evaluates
  | [form], s, o, m, h, _ => by
    have hr : s.heap.RunsCond f := h
    have hodd : ContinuesWithin 5 (.list [.named "cond", form] m) f s _ := hr.continues_odd form
    constructor
    · intro h
      cases h.unique hodd.ends.evaluates
      exact .odd
    · intro h
      cases h
      exact hodd.ends.evaluates
  | test :: expr :: rest, s, o, m, ⟨hr, hbehind⟩, hlength => by
    have hshorter : rest.length < 9223372036854775808 := by
      simp only [List.length_cons] at hlength
      omega
    rw [hr.evaluates_cons_iff hlength]
    constructor
    · intro h
      cases h with
      | yes h hv he => exact .chosen h hv he
      | no h hv hrest =>
        exact .skipped h hv ((evaluates_cond_iff none (hbehind _ _ h hv) hshorter).mp hrest)
      | conditionFails h => exact .fails h
    · intro h
      cases h with
      | chosen h hv he => exact .yes h hv he
      | skipped h hv hrest =>
        exact .no h hv ((evaluates_cond_iff none (hbehind _ _ h hv) hshorter).mpr hrest)
      | fails h => exact .conditionFails h

/-- However many clauses there are, `cond` needs the room that its tests need, or that of one
expansion. -/
theorem Selects.continuesWithin (hroom : 5 ≤ room)
    (h : Selects (EndsWithin room · f) (ContinuesWithin room · f) forms s o)
    (hr : AtEachTest (fun s => s.heap.RunsCond f) f forms s)
    (hlength : forms.length < 9223372036854775808) (m : Option Value) :
    ContinuesWithin room (.list (.named "cond" :: forms) m) f s o := by
  obtain ⟨more, rfl⟩ : ∃ more, room = more + 5 := ⟨room - 5, by omega⟩
  induction h generalizing m with
  | none => exact hr.holds.continues_nil
  | odd => exact hr.holds.continues_odd _
  | chosen h hv he => exact hr.1.continues_cons hlength (.yes h hv he)
  | skipped h hv _ ih =>
    obtain ⟨hfirst, hbehind⟩ := hr
    have hshorter : _ < 9223372036854775808 :=
      Nat.lt_of_le_of_lt (Nat.le_add_right _ 2) hlength
    have hothers := ih (hbehind _ _ h.evaluates hv) hshorter Option.none
    exact hfirst.continues_cons hlength (.no h hv hothers)
  | fails h => exact hr.1.continues_cons hlength (.conditionFails h)

end

/-! ### Sessions -/

/-- Whether a root binds what another one does, the arguments of the program apart, and no macro to
the names of the special forms that `cond` is made of, while a frame sees the `cond` of the other
root and no macro named `if`. -/
structure Heap.OffersCond (h₀ h : Heap) (f : FrameId) : Prop where
  kept : ∀ x v, x ≠ ⟨"*ARGV*"⟩ → h₀.lookup? root x = some v → h.lookup? root x = some v
  specials : ∀ name ∈ Prelude.condSpecials, ¬ h.IsMacro root name
  cond : h.lookup? f ⟨"cond"⟩ = h₀.lookup? root ⟨"cond"⟩
  branch : ¬ h.IsMacro f "if"

theorem lookup?_started_cond (language : String) :
    (Heap.started language).lookup? root ⟨"cond"⟩ =
      some (.closure ⟨64, ⟨[], some ⟨"xs"⟩⟩, root, true⟩ Prelude.condBody none) :=
  lookup?_started_prelude (by simp [Prelude.bound])

namespace Heap.OffersCond

variable {language : String} {h h' : Heap} {f : FrameId}

theorem runsCond (ho : (Heap.started language).OffersCond h f) : h.RunsCond f where
  provides := .of_kept ho.kept (by decide) ho.specials
  cond := ⟨64, none, ho.cond.trans (lookup?_started_cond language)⟩
  branch := ho.branch

theorem grow (ho : (Heap.started language).OffersCond h f) (hg : h.Grows h') :
    (Heap.started language).OffersCond h' f := by
  have hf : f < h.frames.size :=
    Heap.lt_size_of_lookup? (ho.cond.trans (lookup?_started_cond language))
  have hroot : root < h.frames.size :=
    Heap.lt_size_of_lookup? (ho.kept _ _ (by decide) (lookup?_started_cond language))
  refine ⟨fun x v hx hv => ?_, fun name hname => ?_, ?_, ?_⟩
  · rw [hg.lookup? hroot]
    exact ho.kept x v hx hv
  · exact not_isMacro_congr (hg.lookup? hroot) (ho.specials name hname)
  · rw [hg.lookup? hf]
    exact ho.cond
  · exact not_isMacro_congr (hg.lookup? hf) ho.branch

end Heap.OffersCond

theorem AtEachTest.imp {P P' : State → Prop} {f : FrameId} (himp : ∀ s, P s → P' s) :
    ∀ {forms : List Value} {s : State}, AtEachTest P f forms s → AtEachTest P' f forms s
  | [], s, h => himp s h
  | [_], s, h => himp s h
  | _ :: _ :: _, s, ⟨hp, hbehind⟩ =>
    ⟨himp s hp, fun v s₁ hv hfalse => AtEachTest.imp himp (hbehind v s₁ hv hfalse)⟩

/-- Where the root binds what a started session binds, the arguments of the program apart, `cond`
does what the selection among its clauses tells, as long as nothing is refused for its depth and the
tests leave what `cond` needs as it is. It goes on with the expression of the clause in tail
position, and needs no more room than the tests and that expression do, or than one expansion,
however many clauses there are. No machine holds a list that is too long to be counted. -/
theorem cond_selects {n₀ limit : Nat} {config : Config} {input : List UInt8} {disk : Disk}
    {clock : Int64} {s₀ s : State} {f : FrameId} {forms : List Value} (m : Option Value)
    (hstart : Session.start n₀ config (.initial limit input disk clock) = .value () s₀)
    (hoffers : AtEachTest (fun s => s₀.heap.OffersCond s.heap f) f forms s)
    (hlength : forms.length < 9223372036854775808) :
    (∀ n o, eval n (.list (.named "cond" :: forms) m) f s = o → o.Answers →
      o.state.gauge.refusals = s.gauge.refusals →
        ∀ o', Selects (Evaluates · f) (Evaluates · f) forms s o' ↔ o' = o.regauge s.gauge) ∧
    ∀ room o, 5 ≤ room → Selects (EndsWithin room · f) (ContinuesWithin room · f) forms s o →
      ContinuesWithin room (.list (.named "cond" :: forms) m) f s o ∧
        EndsWithin (room + 1) (.list (.named "cond" :: forms) m) f s o := by
  obtain ⟨_, rfl⟩ := (start_iff config limit input disk clock s₀).mp ⟨n₀, hstart⟩
  have hruns : AtEachTest (fun s => s.heap.RunsCond f) f forms s :=
    hoffers.imp fun _ ho => ho.runsCond
  constructor
  · intro n o h ho hsame o'
    rw [← evaluates_cond_iff m hruns hlength]
    exact evaluates_iff_of_eval h ho hsame o'
  · intro room o hroom h
    have hcontinues := h.continuesWithin hroom hruns hlength m
    exact ⟨hcontinues, hcontinues.ends⟩

/-- The clauses `false`, `1` and `true`, `7`. -/
def Value.sampleClauses : List Value := [.bool false, .int 1, .bool true, .int 7]

theorem offersCond_started :
    (Heap.started "rust").OffersCond (Heap.started "rust") root := by
  have hspecials : ∀ name ∈ Prelude.condSpecials, ¬ (Heap.started "rust").IsMacro root name :=
    not_isMacro_started (by decide)
  exact ⟨fun _ _ _ h => h, hspecials, rfl, hspecials "if" (by decide)⟩

theorem cond_selects_sampleClauses :
    ∃ s, EndsWithin 6 (.ofList (.named "cond" :: Value.sampleClauses)) root
      (.started {} [] .empty 0) (.value (.int 7) s) ∧
    ∃ n s', eval n (.ofList (.named "cond" :: Value.sampleClauses)) root
      ((State.started {} [] .empty 0).regauge (.atRest 6)) = .value (.int 7) s' := by
  let s : State := .started {} [] .empty 0
  have hgrown := grows_calling s Value.sampleClauses
  have hfalse : ∀ t, Evaluates (.bool false) root t (.value (.bool false) t) :=
    fun _ => .literal trivial
  have htrue : ∀ t, Evaluates (.bool true) root t (.value (.bool true) t) :=
    fun _ => .literal trivial
  have hoffers : AtEachTest (fun s => (Heap.started "rust").OffersCond s.heap root) root
      Value.sampleClauses s := by
    refine ⟨offersCond_started, fun v s₁ hv _ => ?_⟩
    cases hv.unique (hfalse _)
    refine ⟨offersCond_started.grow hgrown, fun v s₁ hv hnot => ?_⟩
    cases hv.unique (htrue _)
    cases hnot
  have hskipped : ∀ t, ContinuesWithin 4 (.bool false) root t (.value (.bool false) t) :=
    fun _ => .literal trivial
  have htaken : ∀ t, ContinuesWithin 4 (.bool true) root t (.value (.bool true) t) :=
    fun _ => .literal trivial
  have hselects : Selects (EndsWithin 5 · root) (ContinuesWithin 5 · root) Value.sampleClauses s
      (.value (.int 7) ((s.calling Value.sampleClauses).calling [.bool true, .int 7])) :=
    .skipped (hskipped _).ends rfl (.chosen (htaken _).ends rfl (.literal trivial))
  have hends := ((cond_selects none start_sample hoffers (by decide)).2 5 _ (by decide) hselects).2
  obtain ⟨g', _, N, hN⟩ := hends.eval_eventually (g := .atRest 6) (by decide)
  exact ⟨_, hends, N, _, hN N (Nat.le_refl N)⟩

end SmallLisp
