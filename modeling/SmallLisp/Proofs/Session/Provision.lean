import SmallLisp.Proofs.Evaluation.Instantiation
import SmallLisp.Proofs.Evaluation.Room
import SmallLisp.Proofs.Heap.Frames
import SmallLisp.Proofs.Session.Start

/-!
# What a frame provides

The bodies of the macros of the prelude are calls of native functions and special forms. Where a
frame sees these functions, and no macro under the names of these special forms, such a form
continues as the function or the special form does. A macro is called in a new frame below the root,
which binds its forms.
-/

namespace SmallLisp

open Session (root)
open Prelude (call)

/-- Whether a frame sees some native functions under their names, and no macro under some others. -/
structure Heap.Provides (h : Heap) (natives : List Native) (specials : List String)
    (f : FrameId) : Prop where
  natives : ∀ fn ∈ natives, ∃ identity m, h.lookup? f ⟨fn.name⟩ = some (.native fn identity m)
  specials : ∀ name ∈ specials, ¬ h.IsMacro f name

/-- The state in the call of a macro of the prelude. -/
def State.calling (s : State) (forms : List Value) : State :=
  s.below root [("xs", .ofList forms)]

theorem calling_forms (s : State) (forms : List Value) :
    (s.calling forms).heap.lookup? s.heap.frames.size ⟨"xs"⟩ = some (.ofList forms) :=
  Heap.lookup?_newFrame_bound rfl

theorem grows_calling (s : State) (forms : List Value) : s.heap.Grows (s.calling forms).heap :=
  .addFrame (.refl s.heap)

/-- In its call a macro of the prelude sees what the root does. -/
theorem calling_outer {s : State} (hroot : root < s.heap.frames.size) (forms : List Value)
    {x : Symbol} (hx : x.name ≠ "xs") :
    (s.calling forms).heap.lookup? s.heap.frames.size x = s.heap.lookup? root x := by
  have hfree : Table.get? [("xs", Value.ofList forms)] x.name = none := by
    rw [Table.get?_cons, if_neg hx]
    rfl
  exact Heap.lookup?_newFrame_outer hroot hfree

/-- A macro counts its forms, where an integer can be their number. -/
theorem perform_count {forms : List Value} (h : forms.length < 9223372036854775808) (s : State) :
    (Native.sequence .count).perform [.ofList forms] s =
      .value (.int (Int64.ofNat forms.length)) s := by
  have hcount : Sequence.count.run [.ofList forms] = .ok (.int (Int64.ofNat forms.length)) :=
    Sequence.counted_eq_ok_iff.mpr (Int64.toInt_ofNat_of_lt h)
  change Eval.ofExcept (Sequence.count.run [.ofList forms]) s = _
  rw [hcount]
  rfl

namespace Heap.Provides

variable {natives : List Native} {specials : List String} {f : FrameId} {s s₁ : State}
  {room : Nat} {args vs forms : List Value} {v w : Value} {o : Outcome Value} {fn : Native}

theorem of_lookup? {h h' : Heap} {f' : FrameId} (hp : h.Provides natives specials f)
    (hnatives : ∀ fn ∈ natives, h'.lookup? f' ⟨fn.name⟩ = h.lookup? f ⟨fn.name⟩)
    (hspecials : ∀ name ∈ specials, h'.lookup? f' ⟨name⟩ = h.lookup? f ⟨name⟩) :
    h'.Provides natives specials f' where
  natives := by
    intro fn hfn
    rw [hnatives fn hfn]
    exact hp.natives fn hfn
  specials name hname := not_isMacro_congr (hspecials name hname) (hp.specials name hname)

theorem calling (hp : s.heap.Provides natives specials root) (hroot : root < s.heap.frames.size)
    (hnatives : ∀ fn ∈ natives, fn.name ≠ "xs") (hspecials : ∀ name ∈ specials, name ≠ "xs") :
    (s.calling forms).heap.Provides natives specials s.heap.frames.size :=
  hp.of_lookup? (fun fn hfn => calling_outer hroot forms (hnatives fn hfn))
    fun name hname => calling_outer hroot forms (hspecials name hname)

/-- A root that binds what a started session binds provides the native functions. -/
theorem of_kept {language : String} {h : Heap}
    (hkept : ∀ x v, x ≠ ⟨"*ARGV*"⟩ → (Heap.started language).lookup? root x = some v →
      h.lookup? root x = some v)
    (hlisted : ∀ fn ∈ natives, fn ∈ Native.catalogue.concat (.eval root) ∧ fn.name ≠ "*ARGV*")
    (hspecials : ∀ name ∈ specials, ¬ h.IsMacro root name) :
    h.Provides natives specials root where
  natives := by
    intro fn hfn
    obtain ⟨hmem, hname⟩ := hlisted fn hfn
    obtain ⟨identity, hbound⟩ := lookup?_started_native language hmem
    exact ⟨identity, none, hkept _ _ (fun hx => hname (congrArg Symbol.name hx)) hbound⟩
  specials := hspecials

/-! ### Calls of native functions -/

theorem head (hp : s.heap.Provides natives specials f) (hfn : fn ∈ natives) :
    ∃ identity m, s.heap.macroCall? f (call fn.name args) = none ∧
      EndsWithin (room + 1) (.named fn.name) f s (.value (.native fn identity m) s) := by
  obtain ⟨identity, m, hx⟩ := hp.natives fn hfn
  exact ⟨identity, m, macroCall?_native hx args none, (ContinuesWithin.bound hx).ends⟩

theorem native (hp : s.heap.Provides natives specials f) (hfn : fn ∈ natives)
    (hop : Special.ofName? fn.name = none)
    (hargs : ArgumentsWithin (room + 1) args f s (.value vs s₁))
    (h : ∀ identity m, CallsWithin (room + 1) (.native fn identity m) vs s₁ o) :
    ContinuesWithin (room + 1) (call fn.name args) f s o := by
  obtain ⟨identity, m, hm, hhead⟩ := hp.head hfn
  refine .call hm hop hhead hargs ((h identity m).tail ?_)
  rintro ⟨_, _, _, h⟩
  cases h

theorem argumentFails (hp : s.heap.Provides natives specials f) (hfn : fn ∈ natives)
    (hop : Special.ofName? fn.name = none) {e : Error}
    (hargs : ArgumentsWithin (room + 1) args f s (.error e s₁)) :
    ContinuesWithin (room + 1) (call fn.name args) f s (.error e s₁) := by
  obtain ⟨identity, m, hm, hhead⟩ := hp.head hfn
  exact .callFails hm hop hhead hargs

/-- A function that never calls back and has no effect gives its value. -/
theorem direct (hp : s.heap.Provides natives specials f) (hfn : fn ∈ natives)
    (hop : Special.ofName? fn.name = none)
    (hargs : ArgumentsWithin (room + 1) args f s (.value vs s₁)) (hdirect : fn.callback? vs = none)
    (h : ∀ t, fn.perform vs t = .value v t) :
    ContinuesWithin (room + 1) (call fn.name args) f s (.value v s₁) :=
  hp.native hfn hop hargs fun _ _ => .direct hdirect trivial rfl fun g => h (s₁.regauge g)

/-- What a function gives for the forms of a macro. -/
theorem ofForms (hp : s.heap.Provides natives specials f) (hfn : fn ∈ natives)
    (hop : Special.ofName? fn.name = none) (hxs : s.heap.lookup? f ⟨"xs"⟩ = some (.ofList forms))
    (hdirect : fn.callback? [.ofList forms] = none)
    (h : ∀ t, fn.perform [.ofList forms] t = .value v t) :
    ContinuesWithin (room + 1) (call fn.name [.named "xs"]) f s (.value v s) :=
  hp.direct hfn hop (.cons (ContinuesWithin.bound hxs).ends .nil) hdirect h

theorem cons (hp : s.heap.Provides natives specials f) (hfn : .sequence .cons ∈ natives)
    {first rest : Value} (h : EndsWithin (room + 1) first f s (.value v s))
    (hs : EndsWithin (room + 1) rest f s (.value (.ofList vs) s)) :
    ContinuesWithin (room + 1) (call "cons" [first, rest]) f s (.value (.ofList (v :: vs)) s) :=
  hp.direct hfn rfl (.cons h (.cons hs .nil)) rfl fun _ => rfl

/-! ### Special forms -/

theorem special (hp : s.heap.Provides natives specials f) {name : String} {op : Special}
    {parts : Construct} (hname : name ∈ specials) (hop : Special.ofName? name = some op)
    (hparts : op.parse args = .ok parts) (h : PerformsWithin room parts f s o) :
    ContinuesWithin room (call name args) f s o :=
  .special (macroCall?_named (hp.specials name hname) args none) hop hparts h

theorem quote (hp : s.heap.Provides natives specials f) (hquote : "quote" ∈ specials)
    (form : Value) : ContinuesWithin room (Prelude.quote form) f s (.value form s) :=
  hp.special hquote rfl rfl .quote

end Heap.Provides

end SmallLisp
