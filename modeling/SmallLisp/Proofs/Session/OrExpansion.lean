import Mathlib
import SmallLisp.Proofs.Session.Provision

/-!
# What `or` expands to

`or` of one form is that form, and `or` of several ones binds the value of the first to a fresh
symbol and goes on with the others below that binding. A fresh symbol is an ordinary name with a
counter in it, which an atom holds. An expansion needs eleven levels of room, however many forms
there are: the levels are those of the calls in the body of `or`, which fill its template.
-/

namespace SmallLisp

open Session (root)
open Prelude (call)

/-! ### What `or` needs -/

namespace Prelude

/-- The native functions that `or` and the function of fresh symbols call. -/
def orNatives : List Native :=
  [.sequence .isEmpty, .comparison .eq, .sequence .count, .sequence .first, .sequence .rest,
    .sequence .cons, .sequence .concat, .wording .symbol, .wording .str, .cell .swap,
    .arithmetic .add]

/-- The special forms in their bodies and in what `or` expands to. -/
def orSpecials : List String := ["if", "let*", "quasiquote", "quote", "lambda"]

/-- All names that are looked up on the way, but for parameters and temporaries. -/
def orNames : List String :=
  ["or", "gensym", "*gensym-counter*"] ++ orNatives.map Native.name ++ orSpecials

/-- The name of the next fresh symbol, where `c` is the counter. -/
def freshName (c : Int64) : String := "G__" ++ Integer.text (c + 1)

/-- What `or` of several forms expands to, with a fresh symbol. -/
def orExpansion (fresh : Symbol) (first : Value) (rest : List Value) : Value :=
  call "let*" [.ofList [.symbol fresh, first],
    call "if" [.symbol fresh, .symbol fresh, call "or" rest]]

end Prelude

/-- Whether everything that `or` looks up means from a frame on outwards what it means in a session
that has started, where an atom holds the counter of the fresh symbols. -/
structure Heap.RunsOr (h : Heap) (id : AtomId) (f : FrameId) : Prop where
  or : ∃ identity m, h.lookup? f ⟨"or"⟩ =
    some (.closure ⟨identity, ⟨[], some ⟨"xs"⟩⟩, root, true⟩ Prelude.orBody m)
  gensym : ∃ identity m, h.lookup? f ⟨"gensym"⟩ =
    some (.closure ⟨identity, ⟨[], none⟩, root, false⟩ Prelude.gensymBody m)
  counter : h.lookup? f ⟨"*gensym-counter*"⟩ = some (.atom id)
  natives : ∀ fn ∈ Prelude.orNatives, ∃ identity m,
    h.lookup? f ⟨fn.name⟩ = some (.native fn identity m)
  specials : ∀ name ∈ Prelude.orSpecials, ¬ h.IsMacro f name

namespace Heap.RunsOr

variable {h h' : Heap} {id : AtomId} {f f' outer : FrameId} {key : String} {v : Value}

theorem of_lookup? (hr : h.RunsOr id f)
    (hsame : ∀ name ∈ Prelude.orNames, h'.lookup? f' ⟨name⟩ = h.lookup? f ⟨name⟩) :
    h'.RunsOr id f' where
  or := by
    rw [hsame "or" (by decide)]
    exact hr.or
  gensym := by
    rw [hsame "gensym" (by decide)]
    exact hr.gensym
  counter := by
    rw [hsame "*gensym-counter*" (by decide)]
    exact hr.counter
  natives := by
    intro fn hfn
    have hname : fn.name ∈ Prelude.orNames :=
      List.mem_append_left _ (List.mem_append_right _ (List.mem_map_of_mem hfn))
    rw [hsame fn.name hname]
    exact hr.natives fn hfn
  specials name hname :=
    not_isMacro_congr (hsame name (List.mem_append_right _ hname)) (hr.specials name hname)

theorem lt_size (hr : h.RunsOr id f) : f < h.frames.size := Heap.lt_size_of_lookup? hr.counter

theorem grow (hr : h.RunsOr id f) (hg : h.Grows h') : h'.RunsOr id f :=
  hr.of_lookup? fun _ _ => hg.lookup? hr.lt_size

/-- A frame that binds none of the names sees what the frame around it sees. -/
theorem child {bindings : Table Value} (hr : h.RunsOr id outer)
    (hframe : h.frames[f]? = some ⟨bindings, some outer⟩) (houter : outer < f)
    (hfree : ∀ name ∈ Prelude.orNames, bindings.get? name = none) : h.RunsOr id f :=
  hr.of_lookup? fun name hname => Heap.lookup?_of_outer hframe houter (hfree name hname)

theorem addFrame {bindings : Table Value} (hr : h.RunsOr id f)
    (hfree : ∀ name ∈ Prelude.orNames, bindings.get? name = none) :
    (h.addFrame (some f) bindings).2.RunsOr id h.frames.size :=
  (hr.grow (.addFrame (.refl h))).child Heap.frames_addFrame_size hr.lt_size hfree

theorem free_of_not_mem (hkey : key ∉ Prelude.orNames) :
    ∀ name ∈ Prelude.orNames, Table.get? [(key, v)] name = none := by
  intro name hname
  rw [Table.get?_cons, if_neg]
  · rfl
  · rintro rfl
    exact hkey hname

end Heap.RunsOr

section

variable {id : AtomId} {f : FrameId} {s s₁ : State} {forms rest : List Value} {first v : Value}
  {o : Outcome Value} {c : Int64} {room : Nat}

theorem Heap.RunsOr.provides (hr : s.heap.RunsOr id f) :
    s.heap.Provides Prelude.orNatives Prelude.orSpecials f :=
  ⟨hr.natives, hr.specials⟩

/-- The new frame of a `let*` binds the symbol alone, whatever its expression has added. -/
theorem grows_let {h : Heap} (hgrown : (s.below f []).heap.Grows h) (x : Symbol) (v : Value) :
    s.heap.Grows (h.set s.heap.frames.size x v) ∧
      (h.set s.heap.frames.size x v).frames[s.heap.frames.size]? =
        some ⟨[(x.name, v)], some f⟩ := by
  have hbelow : s.heap.Grows (s.below f []).heap := .addFrame (.refl _)
  have hlt : s.heap.frames.size < (s.below f []).heap.frames.size := by
    rw [State.below, State.withHeap, Heap.size_frames_addFrame]
    exact Nat.lt_succ_self _
  have hnew : (s.below f []).heap.frames[s.heap.frames.size]? = some ⟨[], some f⟩ :=
    Heap.frames_addFrame_size
  refine ⟨.set (.trans hbelow hgrown) (Nat.le_refl _), ?_⟩
  rw [Heap.frames_set_self, hgrown.frames _ hlt, hnew]
  rfl

/-! ### Fresh symbols -/

theorem run_add_one (hc : c.toInt < 9223372036854775807) :
    Arithmetic.add.run [.int 1, .int c] = .ok (.int (c + 1)) := by
  have hlow : -9223372036854775808 ≤ c.toInt := Int64.le_toInt c
  have hfits : Integer.Fits (1 + c.toInt) := by
    unfold Integer.Fits
    omega
  have hsum : Int64.ofInt (1 + c.toInt) = c + 1 := by
    rw [Int64.ofInt_add, Int64.ofInt_toInt]
    exact Int64.add_comm 1 c
  have hfit : Arithmetic.add.fit (1 + c.toInt) = .ok (c + 1) := by
    unfold Arithmetic.fit Integer.ofInt?
    rw [if_pos hfits, hsum]
  have hrun : Arithmetic.add.run [.int 1, .int c] =
      (Arithmetic.add.fit (1 + c.toInt) >>= fun n => .ok n) >>= fun n => .ok (.int n) := rfl
  rw [hrun, hfit]
  rfl

theorem perform_add_one (hc : c.toInt < 9223372036854775807) (s : State) :
    (Native.arithmetic .add).perform [.int 1, .int c] s = .value (.int (c + 1)) s := by
  change Eval.ofExcept (Arithmetic.add.run [.int 1, .int c]) s = _
  rw [run_add_one hc]
  rfl

theorem perform_freshName (s : State) :
    (Native.wording .str).perform [.str "G__", .int (c + 1)] s =
      .value (.str (Prelude.freshName c)) s := by
  have hprinted : s.heap.printList false "" [.str "G__", .int (c + 1)] = Prelude.freshName c := by
    simp [Heap.printList, Value.renderList, Value.renderAll, Value.render, joinWith,
      Prelude.freshName]
  change Outcome.value (Value.str (s.heap.printList false "" _)) s = _
  rw [hprinted]

/-- The function that counts up gives the next number, from a frame of its own. -/
theorem Heap.RunsOr.calls_increment (hr : s.heap.RunsOr id f)
    (hc : c.toInt < 9223372036854775807) (identity : Nat) :
    CallsWithin (room + 2)
      (.closure ⟨identity, ⟨[⟨"x"⟩], none⟩, f, false⟩ (call "+" [.int 1, .named "x"]) none)
      [.int c] s (.value (.int (c + 1)) (s.below f [("x", .int c)])) := by
  have hframe : (s.below f [("x", .int c)]).heap.RunsOr id s.heap.frames.size :=
    hr.addFrame (free_of_not_mem (by decide))
  have hx : (s.below f [("x", .int c)]).heap.lookup? s.heap.frames.size ⟨"x"⟩ = some (.int c) :=
    Heap.lookup?_newFrame_bound rfl
  have hone : ContinuesWithin room (.int 1) s.heap.frames.size (s.below f [("x", .int c)])
      (.value (.int 1) _) := .literal trivial
  have hnumber : ContinuesWithin room (.named "x") s.heap.frames.size (s.below f [("x", .int c)])
      (.value (.int c) _) := .bound hx
  have hbody : ContinuesWithin (room + 1) (call "+" [.int 1, .named "x"]) s.heap.frames.size
      (s.below f [("x", .int c)]) (.value (.int (c + 1)) (s.below f [("x", .int c)])) :=
    hframe.provides.direct (by decide : .arithmetic .add ∈ Prelude.orNatives) rfl
      (.cons hone.ends (.cons hnumber.ends .nil)) rfl (perform_add_one hc)
  exact .closure rfl rfl hbody.ends

/-- Counting up gives the next number and stores it. -/
theorem Heap.RunsOr.continues_countUp (hr : s.heap.RunsOr id f)
    (hatom : s.heap.atoms[id]? = some (.int c)) (hc : c.toInt < 9223372036854775807) :
    ∃ h', s.heap.Grows h' ∧ h'.atoms = s.heap.atoms.set! id (.int (c + 1)) ∧ ∀ room,
      ContinuesWithin (room + 2) Prelude.countUp f s (.value (.int (c + 1)) (s.withHeap h')) := by
  -- The function has taken an identity before it is called.
  let t : State := s.withHeap s.heap.addIdentity.2
  have hgrown : s.heap.Grows t.heap := .of_frames (.refl _) rfl
  have hcontent : t.heap.atoms.getD id .nil = .int c := by
    rw [Array.getD_eq_getD_getElem?]
    exact congrArg (Option.getD · .nil) hatom
  refine ⟨(t.below f [("x", .int c)]).heap.setAtom id (.int (c + 1)),
    .of_frames (.addFrame hgrown) rfl, rfl, fun room => ?_⟩
  have hcounter : ContinuesWithin (room + 1) (.named "*gensym-counter*") f s (.value (.atom id) s) :=
    .bound hr.counter
  have hfunction : ContinuesWithin (room + 1) Prelude.increment f s (.value
      (.closure ⟨s.heap.identities, ⟨[⟨"x"⟩], none⟩, f, false⟩
        (call "+" [.int 1, .named "x"]) none) t) :=
    hr.provides.special (by decide) rfl rfl (.abstraction rfl)
  have hcalls : CallsWithin (room + 2)
      (.closure ⟨s.heap.identities, ⟨[⟨"x"⟩], none⟩, f, false⟩ (call "+" [.int 1, .named "x"]) none)
      [t.heap.atoms.getD id .nil] t (.value (.int (c + 1)) (t.below f [("x", .int c)])) := by
    rw [hcontent]
    exact (hr.grow hgrown).calls_increment hc s.heap.identities
  exact hr.provides.native (by decide : .cell .swap ∈ Prelude.orNatives) rfl
    (.cons hcounter.ends (.cons hfunction.ends .nil)) fun _ _ => .swap rfl hcalls

/-- The function of fresh symbols gives the symbol of the next number. -/
theorem Heap.RunsOr.continues_gensym (hr : s.heap.RunsOr id f) (hroot : s.heap.RunsOr id root)
    (hatom : s.heap.atoms[id]? = some (.int c)) (hc : c.toInt < 9223372036854775807) :
    ∃ h', s.heap.Grows h' ∧ h'.atoms = s.heap.atoms.set! id (.int (c + 1)) ∧ ∀ room,
      ContinuesWithin (room + 4) (call "gensym" []) f s
        (.value (.symbol ⟨Prelude.freshName c⟩) (s.withHeap h')) := by
  obtain ⟨identity, m, hgensym⟩ := hr.gensym
  have hframe : (s.below root []).heap.RunsOr id s.heap.frames.size :=
    hroot.addFrame fun _ _ => rfl
  obtain ⟨h', hgrown, hatoms, hcount⟩ := hframe.continues_countUp hatom hc
  have hnone : ¬ s.heap.IsMacro f "gensym" := by
    rintro ⟨fn, body, m', hx, hmacro⟩
    cases hgensym.symm.trans hx
    cases hmacro
  refine ⟨h', .trans (.addFrame (.refl _)) hgrown, hatoms, fun room => ?_⟩
  have hprefix : ContinuesWithin (room + 2) (.str "G__") s.heap.frames.size (s.below root [])
      (.value (.str "G__") (s.below root [])) := .literal trivial
  have htext : ContinuesWithin (room + 3) (call "str" [.str "G__", Prelude.countUp])
      s.heap.frames.size (s.below root []) (.value (.str (Prelude.freshName c)) (s.withHeap h')) :=
    hframe.provides.direct (by decide : .wording .str ∈ Prelude.orNatives) rfl
      (.cons hprefix.ends (.cons (hcount room).ends .nil)) rfl perform_freshName
  have hsymbol : ContinuesWithin (room + 4) Prelude.gensymBody s.heap.frames.size (s.below root [])
      (.value (.symbol ⟨Prelude.freshName c⟩) (s.withHeap h')) :=
    hframe.provides.direct (by decide : .wording .symbol ∈ Prelude.orNatives) rfl
      (.cons htext.ends .nil) rfl fun _ => rfl
  have hfunction : ContinuesWithin (room + 3) (.named "gensym") f s _ := .bound hgensym
  exact .call (macroCall?_named hnone [] none) rfl hfunction.ends .nil (.closure rfl rfl hsymbol)

theorem freshName_not_mem (c : Int64) : Prelude.freshName c ∉ Prelude.orNames := by
  intro hmem
  have hother : ∀ name ∈ Prelude.orNames, name.toList.head? ≠ some 'G' := by decide
  refine hother _ hmem ?_
  rw [Prelude.freshName, String.toList_append]
  rfl

/-! ### The body of `or` -/

theorem Heap.RunsOr.calling (hroot : s.heap.RunsOr id root) (forms : List Value) :
    (s.calling forms).heap.RunsOr id s.heap.frames.size :=
  hroot.addFrame (free_of_not_mem (by decide))

section

variable (hr : s.heap.RunsOr id f) (hxs : s.heap.lookup? f ⟨"xs"⟩ = some (.ofList forms))
include hr hxs

theorem Heap.RunsOr.continues_isEmpty : ContinuesWithin (room + 1) (call "empty?" [.named "xs"]) f s
    (.value (.bool (forms.length == 0)) s) :=
  hr.provides.ofForms (by decide : .sequence .isEmpty ∈ Prelude.orNatives) rfl hxs rfl fun _ => rfl

theorem Heap.RunsOr.continues_isOne (hlength : forms.length < 9223372036854775808) :
    ContinuesWithin (room + 2) (call "=" [.int 1, call "count" [.named "xs"]]) f s
    (.value (.bool (1 == Int64.ofNat forms.length)) s) := by
  have hone : ContinuesWithin (room + 1) (.int 1) f s (.value (.int 1) s) := .literal trivial
  have hcount : ContinuesWithin (room + 1) (call "count" [.named "xs"]) f s
      (.value (.int (Int64.ofNat forms.length)) s) :=
    hr.provides.ofForms (by decide : .sequence .count ∈ Prelude.orNatives) rfl hxs rfl
      (perform_count hlength)
  have hequal : ∀ t, (Native.comparison .eq).perform [.int 1, .int (Int64.ofNat forms.length)] t =
      .value (.bool ((1 == Int64.ofNat forms.length) && true)) t := fun _ => rfl
  rw [Bool.and_true] at hequal
  exact hr.provides.direct (by decide : .comparison .eq ∈ Prelude.orNatives) rfl
    (.cons hone.ends (.cons hcount.ends .nil)) rfl hequal

theorem Heap.RunsOr.continues_first : ContinuesWithin (room + 1) (call "first" [.named "xs"]) f s
    (.value (forms.headD .nil) s) :=
  hr.provides.ofForms (by decide : .sequence .first ∈ Prelude.orNatives) rfl hxs rfl fun _ => rfl

theorem Heap.RunsOr.continues_rest : ContinuesWithin (room + 1) (call "rest" [.named "xs"]) f s
    (.value (.ofList forms.tail) s) :=
  hr.provides.ofForms (by decide : .sequence .rest ∈ Prelude.orNatives) rfl hxs rfl fun _ => rfl

end

theorem orTemplate_expression : Prelude.orTemplate.template =
    call "cons" [Prelude.quote (.named "let*"), call "cons" [
      call "cons" [.named "condvar", call "cons" [call "first" [.named "xs"],
        Prelude.quote (.ofList [])]],
      call "cons" [call "cons" [Prelude.quote (.named "if"), call "cons" [.named "condvar",
        call "cons" [.named "condvar", call "cons" [
          call "cons" [Prelude.quote (.named "or"),
            call "concat" [call "rest" [.named "xs"], Prelude.quote (.ofList [])]],
          Prelude.quote (.ofList [])]]]],
        Prelude.quote (.ofList [])]]] := by
  cbv

theorem Heap.RunsOr.continues_orTemplate (hr : s.heap.RunsOr id f) {fresh : Symbol}
    (hvar : s.heap.lookup? f ⟨"condvar"⟩ = some (.symbol fresh))
    (hxs : s.heap.lookup? f ⟨"xs"⟩ = some (.ofList (first :: rest))) :
    ContinuesWithin (room + 10) Prelude.orTemplate.template f s
      (.value (Prelude.orExpansion fresh first rest) s) := by
  have hp := hr.provides
  have hquote : ∀ room form, EndsWithin (room + 1) (Prelude.quote form) f s (.value form s) :=
    fun room form => (hp.quote (by decide) form).ends
  have hsymbol : ∀ room, EndsWithin (room + 1) (.named "condvar") f s (.value (.symbol fresh) s) :=
    fun room => (ContinuesWithin.bound hvar).ends
  have hconcat : ContinuesWithin (room + 2)
      (call "concat" [call "rest" [.named "xs"], Prelude.quote (.ofList [])]) f s
      (.value (.ofList rest) s) := by
    have hspliced : ∀ t, (Native.sequence .concat).perform [.ofList rest, .ofList []] t =
        .value (.ofList (rest ++ [])) t := fun _ => rfl
    rw [List.append_nil] at hspliced
    exact hp.direct (by decide : .sequence .concat ∈ Prelude.orNatives) rfl
      (.cons (hr.continues_rest hxs).ends (.cons (hquote _ _) .nil)) rfl hspliced
  have hor : ContinuesWithin (room + 3) _ f s (.value (call "or" rest) s) :=
    hp.cons (by decide) (hquote _ (.named "or")) hconcat.ends
  have hno : ContinuesWithin (room + 4) _ f s _ :=
    hp.cons (by decide) hor.ends (hquote _ (.ofList []))
  have hyes : ContinuesWithin (room + 5) _ f s _ := hp.cons (by decide) (hsymbol _) hno.ends
  have hcondition : ContinuesWithin (room + 6) _ f s _ := hp.cons (by decide) (hsymbol _) hyes.ends
  have hif : ContinuesWithin (room + 7) _ f s _ :=
    hp.cons (by decide) (hquote _ (.named "if")) hcondition.ends
  have hbody : ContinuesWithin (room + 8) _ f s _ :=
    hp.cons (by decide) hif.ends (hquote _ (.ofList []))
  have hexpr : ContinuesWithin (room + 7) _ f s _ :=
    hp.cons (by decide) (hr.continues_first hxs).ends (hquote _ (.ofList []))
  have hbinding : ContinuesWithin (room + 8) _ f s _ := hp.cons (by decide) (hsymbol _) hexpr.ends
  have hlet : ContinuesWithin (room + 9) _ f s _ := hp.cons (by decide) hbinding.ends hbody.ends
  rw [orTemplate_expression]
  exact hp.cons (by decide) (hquote _ (.named "let*")) hlet.ends

/-- The template is filled in a frame that binds the next fresh symbol. -/
theorem Heap.RunsOr.continues_orSeveral (hr : s.heap.RunsOr id f) (hroot : s.heap.RunsOr id root)
    (hatom : s.heap.atoms[id]? = some (.int c)) (hc : c.toInt < 9223372036854775807)
    (hxs : s.heap.lookup? f ⟨"xs"⟩ = some (.ofList (first :: rest))) :
    ∃ h', s.heap.Grows h' ∧ h'.atoms = s.heap.atoms.set! id (.int (c + 1)) ∧ ∀ room,
      ContinuesWithin (room + 10) Prelude.orSeveral f s
        (.value (Prelude.orExpansion ⟨Prelude.freshName c⟩ first rest) (s.withHeap h')) := by
  let f₁ := s.heap.frames.size
  have hbelow : s.heap.Grows (s.below f []).heap := .addFrame (.refl _)
  have hinner : (s.below f []).heap.RunsOr id f₁ := hr.addFrame fun _ _ => rfl
  obtain ⟨h₁, hgrown₁, hatoms, hgensym⟩ := hinner.continues_gensym (hroot.grow hbelow) hatom hc
  let h₂ := h₁.set f₁ ⟨"condvar"⟩ (.symbol ⟨Prelude.freshName c⟩)
  obtain ⟨hgrown₂, hframe⟩ := grows_let hgrown₁ ⟨"condvar"⟩ (.symbol ⟨Prelude.freshName c⟩)
  have hr₂ : (s.withHeap h₂).heap.RunsOr id f₁ :=
    (hr.grow hgrown₂).child hframe hr.lt_size (free_of_not_mem (by decide))
  have hvar : h₂.lookup? f₁ ⟨"condvar"⟩ = some (.symbol ⟨Prelude.freshName c⟩) :=
    Heap.lookup?_of_bound hframe rfl
  have hxs₂ : h₂.lookup? f₁ ⟨"xs"⟩ = some (.ofList (first :: rest)) := by
    rw [Heap.lookup?_of_outer hframe hr.lt_size rfl, hgrown₂.lookup? hr.lt_size]
    exact hxs
  refine ⟨h₂, hgrown₂, hatoms, fun room => ?_⟩
  have hfilled : ContinuesWithin (room + 10) (call "quasiquote" [Prelude.orTemplate]) f₁
      (s.withHeap h₂)
      (.value (Prelude.orExpansion ⟨Prelude.freshName c⟩ first rest) (s.withHeap h₂)) :=
    hr₂.provides.special (by decide) rfl rfl (.quasiquote (hr₂.continues_orTemplate hvar hxs₂))
  exact hr.provides.special (by decide) rfl rfl (.letOne (hgensym (room + 5)).ends hfilled)

/-! ### Expansions -/

theorem one_beq_ofNat {n : Nat} (hn : 1 < n) (hlt : n < 9223372036854775808) :
    (1 == Int64.ofNat n) = false := by
  rw [beq_eq_false_iff_ne]
  intro heq
  have hint : (1 : Int64).toInt = (Int64.ofNat n).toInt := congrArg Int64.toInt heq
  have hone : (1 : Int64).toInt = 1 := rfl
  rw [Int64.toInt_ofNat_of_lt hlt] at hint
  omega

theorem Heap.RunsOr.macroCall? (hr : s.heap.RunsOr id f) (forms : List Value) :
    ∃ identity, s.heap.macroCall? f (call "or" forms) =
      some (⟨identity, ⟨[], some ⟨"xs"⟩⟩, root, true⟩, Prelude.orBody, forms) := by
  obtain ⟨identity, m, hor⟩ := hr.or
  refine ⟨identity, ?_⟩
  simp only [call, Value.ofList, Value.named, Heap.macroCall?, hor]
  rfl

section

variable (hr : s.heap.RunsOr id f) (hroot : s.heap.RunsOr id root)
include hr hroot

/-- `or` of no form is `nil`. -/
theorem Heap.RunsOr.continues_nil :
    ContinuesWithin (room + 3) (call "or" []) f s (.value .nil (s.calling [])) := by
  obtain ⟨identity, hm⟩ := hr.macroCall? []
  have hempty : ContinuesWithin (room + 1) (call "empty?" [.named "xs"]) _ (s.calling []) _ :=
    (hroot.calling []).continues_isEmpty (calling_forms s [])
  have hbody : ContinuesWithin (room + 2) Prelude.orBody s.heap.frames.size (s.calling [])
      (.value .nil (s.calling [])) :=
    (hroot.calling []).provides.special (by decide) rfl rfl
      (.yes hempty.ends rfl (.literal trivial))
  exact .expansion hm rfl rfl hbody.ends (.literal trivial)

/-- `or` of one form goes on with that form. -/
theorem Heap.RunsOr.continues_single {form : Value}
    (h : ContinuesWithin (room + 4) form f (s.calling [form]) o) :
    ContinuesWithin (room + 4) (call "or" [form]) f s o := by
  obtain ⟨identity, hm⟩ := hr.macroCall? [form]
  have hin := hroot.calling [form]
  have hempty : ContinuesWithin (room + 2) (call "empty?" [.named "xs"]) _ (s.calling [form]) _ :=
    hin.continues_isEmpty (calling_forms s [form])
  have hone : ContinuesWithin (room + 2) _ _ (s.calling [form]) _ :=
    hin.continues_isOne (calling_forms s [form]) (by simp)
  have hfirst : ContinuesWithin (room + 3) Prelude.orSingle _ (s.calling [form]) (.value form _) :=
    hin.continues_first (calling_forms s [form])
  have hsome : ContinuesWithin (room + 3) Prelude.orSome _ (s.calling [form]) (.value form _) :=
    hin.provides.special (by decide) rfl rfl (.yes hone.ends rfl hfirst)
  have hbody : ContinuesWithin (room + 3) Prelude.orBody s.heap.frames.size (s.calling [form])
      (.value form (s.calling [form])) :=
    hin.provides.special (by decide) rfl rfl (.no hempty.ends rfl hsome)
  exact .expansion hm rfl rfl hbody.ends h

/-- `or` of several forms goes on with what binds the value of the first one to the next fresh
symbol, as long as they can be counted. -/
theorem Heap.RunsOr.continues_several (hatom : s.heap.atoms[id]? = some (.int c))
    (hc : c.toInt < 9223372036854775807) (hrest : rest ≠ [])
    (hlength : (first :: rest).length < 9223372036854775808) :
    ∃ h', s.heap.Grows h' ∧ h'.atoms = s.heap.atoms.set! id (.int (c + 1)) ∧ ∀ room o,
      ContinuesWithin (room + 11) (Prelude.orExpansion ⟨Prelude.freshName c⟩ first rest) f
        (s.withHeap h') o → ContinuesWithin (room + 11) (call "or" (first :: rest)) f s o := by
  obtain ⟨identity, hm⟩ := hr.macroCall? (first :: rest)
  have hin := hroot.calling (first :: rest)
  have hxs := calling_forms s (first :: rest)
  have hcalling := grows_calling s (first :: rest)
  obtain ⟨h', hgrown, hatoms, hseveral⟩ :=
    hin.continues_orSeveral (hroot.grow hcalling) hatom hc hxs
  have hnotOne : (1 == Int64.ofNat (first :: rest).length) = false := by
    have hseveral : 0 < rest.length := List.length_pos_iff.mpr hrest
    exact one_beq_ofNat (by rw [List.length_cons]; omega) hlength
  refine ⟨h', .trans hcalling hgrown, hatoms, fun room o ho => ?_⟩
  have hempty : ContinuesWithin (room + 9) (call "empty?" [.named "xs"]) _ (s.calling _) _ :=
    hin.continues_isEmpty hxs
  have hone : ContinuesWithin (room + 9) _ _ (s.calling _) _ :=
    hin.continues_isOne hxs hlength
  rw [hnotOne] at hone
  have hsome : ContinuesWithin (room + 10) Prelude.orSome _ (s.calling _) _ :=
    hin.provides.special (by decide) rfl rfl (.no hone.ends rfl (hseveral room))
  have hbody : ContinuesWithin (room + 10) Prelude.orBody _ (s.calling _) _ :=
    hin.provides.special (by decide) rfl rfl (.no hempty.ends rfl hsome)
  exact .expansion hm rfl rfl hbody.ends ho

end

/-! ### What the expansion comes to -/

theorem temporary_bound (s : State) (f : FrameId) (fresh : Symbol) (v : Value) :
    (s.below f [(fresh.name, v)]).heap.lookup? s.heap.frames.size fresh = some v :=
  Heap.lookup?_newFrame_bound (by rw [Table.get?_cons, if_pos rfl])

section

variable (hr : s.heap.RunsOr id f) {fresh : Symbol} (hfresh : fresh.name ∉ Prelude.orNames)
include hr hfresh

theorem Heap.RunsOr.temporary (v : Value) :
    (s.below f [(fresh.name, v)]).heap.RunsOr id s.heap.frames.size :=
  hr.addFrame (free_of_not_mem hfresh)

/-- The expansion binds its first form, whose value has no effect here, and branches on it. -/
theorem Heap.RunsOr.continues_orExpansion
    (hfirst : EndsWithin room first s.heap.frames.size (s.below f []) (.value v (s.below f [])))
    (h : PerformsWithin room
      (.branch (.symbol fresh) (.symbol fresh) (some (call "or" rest))) s.heap.frames.size
      (s.below f [(fresh.name, v)]) o) :
    ContinuesWithin room (Prelude.orExpansion fresh first rest) f s o := by
  have hbound : (s.below f []).withHeap ((s.below f []).heap.set s.heap.frames.size fresh v) =
      s.below f [(fresh.name, v)] := congrArg s.withHeap Heap.set_newFrame
  have hif : ContinuesWithin room (call "if" [.symbol fresh, .symbol fresh, call "or" rest])
      s.heap.frames.size (s.below f [(fresh.name, v)]) o :=
    (hr.temporary hfresh v).provides.special (by decide) rfl rfl h
  rw [← hbound] at hif
  exact hr.provides.special (by decide) rfl rfl (.letOne hfirst hif)

theorem Heap.RunsOr.continues_true (hv : v.isTruthy = true)
    (hfirst : EndsWithin (room + 1) first s.heap.frames.size (s.below f [])
      (.value v (s.below f []))) :
    ContinuesWithin (room + 1) (Prelude.orExpansion fresh first rest) f s
      (.value v (s.below f [(fresh.name, v)])) := by
  have htemporary : ∀ room, ContinuesWithin room (.symbol fresh) s.heap.frames.size _ (.value v _) :=
    fun _ => .bound (temporary_bound s f fresh v)
  exact hr.continues_orExpansion hfresh hfirst (.yes (htemporary room).ends hv (htemporary _))

theorem Heap.RunsOr.continues_false (hv : v.isTruthy = false)
    (hfirst : EndsWithin (room + 1) first s.heap.frames.size (s.below f [])
      (.value v (s.below f [])))
    (h : ContinuesWithin (room + 1) (call "or" rest) s.heap.frames.size
      (s.below f [(fresh.name, v)]) o) :
    ContinuesWithin (room + 1) (Prelude.orExpansion fresh first rest) f s o := by
  have htemporary : ContinuesWithin room (.symbol fresh) s.heap.frames.size _ (.value v _) :=
    .bound (temporary_bound s f fresh v)
  exact hr.continues_orExpansion hfresh hfirst (.no htemporary.ends hv h)

end

end

/-! ### Sessions -/

/-- The counter of the fresh symbols, if it is an integer. -/
def Heap.gensymCounter? (h : Heap) : Option Int64 :=
  match h.lookup? root ⟨"*gensym-counter*"⟩ with
  | some (.atom id) =>
    match h.atoms[id]? with
    | some (.int c) => some c
    | _ => none
  | _ => none

theorem gensymCounter?_eq_some_iff {h : Heap} {id : AtomId} {c : Int64}
    (hbound : h.lookup? root ⟨"*gensym-counter*"⟩ = some (.atom id)) :
    h.gensymCounter? = some c ↔ h.atoms[id]? = some (.int c) := by
  unfold Heap.gensymCounter?
  rw [hbound]
  dsimp only
  constructor
  · intro h
    split at h
    · next n hn =>
      cases h
      exact hn
    · cases h
  · intro hatom
    rw [hatom]

/-- A root that binds what a started session binds, the arguments of the program apart, runs `or`,
unless it binds a macro to the name of a special form. -/
theorem Heap.RunsOr.of_kept {language : String} {h : Heap}
    (hkept : ∀ x v, x ≠ ⟨"*ARGV*"⟩ → (Heap.started language).lookup? root x = some v →
      h.lookup? root x = some v)
    (hspecials : ∀ name ∈ Prelude.orSpecials, ¬ h.IsMacro root name) : h.RunsOr 0 root where
  or := ⟨67, none, hkept _ _ (by decide) (lookup?_started_prelude (by simp [Prelude.bound]))⟩
  gensym := ⟨65, none, hkept _ _ (by decide) (lookup?_started_prelude (by simp [Prelude.bound]))⟩
  counter := hkept _ _ (by decide) (lookup?_started_prelude (by simp [Prelude.bound]))
  natives := by
    have hprovides : h.Provides Prelude.orNatives Prelude.orSpecials root :=
      .of_kept hkept (by decide) hspecials
    exact hprovides.natives
  specials := hspecials

end SmallLisp
