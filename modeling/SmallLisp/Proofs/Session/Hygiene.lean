import Mathlib
import SmallLisp.Proofs.Session.OrExpansion

/-!
# The temporary of `or`

`or` of several forms binds the value of the first one to a fresh symbol and evaluates the others
below that binding. A fresh symbol is an ordinary name with a counter in it, which nothing keeps a
program from using: a symbol among the forms is captured where it has the name that comes next, and
no other one is. The main statement is `or_gives_value_unless_captured`.
-/

namespace SmallLisp

open Session (root)
open Prelude (call)

section

variable {id : AtomId} {s : State} {v : Value} {c : Int64} {fresh x : Symbol}

/-- The temporary hides what its symbol is bound to outside, and nothing else. -/
theorem lookup?_below_temporary (hroot : s.heap.RunsOr id root)
    (hx : s.heap.lookup? root x = some v) :
    (s.below root [(fresh.name, .nil)]).heap.lookup? s.heap.frames.size x =
      some (if x = fresh then .nil else v) := by
  split
  · next hsame =>
    rw [hsame]
    exact temporary_bound s root fresh .nil
  · next hne =>
    have hother : Table.get? [(fresh.name, Value.nil)] x.name = none := by
      rw [Table.get?_cons, if_neg]
      · rfl
      · exact fun hname => hne (congrArg Symbol.mk hname)
    exact (Heap.lookup?_newFrame_outer hroot.lt_size hother).trans hx

/-- Below the temporary `or` of a symbol is what the symbol is bound to there. -/
theorem Heap.RunsOr.continues_symbol (hroot : s.heap.RunsOr id root)
    (hfresh : fresh.name ∉ Prelude.orNames) (hx : s.heap.lookup? root x = some v) :
    ∃ h', s.heap.Grows h' ∧ h'.atoms = s.heap.atoms ∧
      ContinuesWithin 11 (Prelude.orExpansion fresh .nil [.symbol x]) root s
        (.value (if x = fresh then .nil else v) (s.withHeap h')) := by
  let s₁ := s.below root [(fresh.name, .nil)]
  have hgrown : s.heap.Grows s₁.heap := .addFrame (.refl _)
  have hr : s₁.heap.RunsOr id s.heap.frames.size := hroot.temporary hfresh .nil
  have hseen : (s₁.calling [.symbol x]).heap.lookup? s.heap.frames.size x =
      some (if x = fresh then .nil else v) :=
    ((grows_calling s₁ _).lookup? hr.lt_size).trans (lookup?_below_temporary hroot hx)
  have hnil : ContinuesWithin 10 .nil s.heap.frames.size (s.below root []) (.value .nil _) :=
    .literal trivial
  refine ⟨(s₁.calling [.symbol x]).heap, .addFrame hgrown, rfl, ?_⟩
  exact hroot.continues_false hfresh rfl hnil.ends
    (hr.continues_single (hroot.grow hgrown) (.bound hseen))

/-- `or` of `nil` and a symbol is the value of the symbol, unless that has the name that the next
fresh symbol gets. -/
theorem Heap.RunsOr.evaluates_or (hroot : s.heap.RunsOr id root)
    (hatom : s.heap.atoms[id]? = some (.int c)) (hc : c.toInt < 9223372036854775807)
    (hx : s.heap.lookup? root x = some v) :
    ∃ h', s.heap.Grows h' ∧ h'.atoms = s.heap.atoms.set! id (.int (c + 1)) ∧
      Evaluates (call "or" [.nil, .symbol x]) root s
        (.value (if x = ⟨Prelude.freshName c⟩ then .nil else v) (s.withHeap h')) := by
  have hlength : [Value.nil, .symbol x].length < 9223372036854775808 := by simp
  obtain ⟨h₁, hgrown₁, hatoms₁, hseveral⟩ := hroot.continues_several hroot hatom hc
    (List.cons_ne_nil (.symbol x) []) hlength
  have hroot₁ : (s.withHeap h₁).heap.RunsOr id root := hroot.grow hgrown₁
  have hx₁ : (s.withHeap h₁).heap.lookup? root x = some v :=
    (hgrown₁.lookup? hroot.lt_size).trans hx
  obtain ⟨h₂, hgrown₂, hatoms₂, hexpansion⟩ :=
    hroot₁.continues_symbol (freshName_not_mem c) hx₁
  exact ⟨h₂, .trans hgrown₁ hgrown₂, hatoms₂.trans hatoms₁, (hseveral 0 _ hexpansion).ends.evaluates⟩

end

/-! ### Sessions -/

/-- A heap whose root binds what a started session binds, the arguments of the program apart, and
binds no macro to the name of a special form. -/
theorem runsOr_of_kept {language : String} {h : Heap}
    (hkept : ∀ x v, x ≠ ⟨"*ARGV*"⟩ → (Heap.started language).lookup? root x = some v →
      h.lookup? root x = some v)
    (hspecials : ∀ name, (Special.ofName? name).isSome = true → ¬ h.IsMacro root name) :
    h.RunsOr 0 root := by
  have hspecial : ∀ name ∈ Prelude.orSpecials, (Special.ofName? name).isSome = true := by decide
  exact .of_kept hkept fun name hname => hspecials name (hspecial name hname)

/-- In a state whose root binds what a started session binds, the arguments of the program apart,
and no macro to the name of a special form, `or` of `nil` and a bound symbol gives the value of the
symbol, unless that has the name of the next fresh symbol, for which it gives `nil`. The counter has
gone up then, and all frames are as they were. -/
theorem or_gives_value_unless_captured {m limit : Nat} {config : Config} {input : List UInt8}
    {disk : Disk} {clock c : Int64} {s₀ s : State} {x : Symbol} {v : Value}
    (hstart : Session.start m config (.initial limit input disk clock) = .value () s₀)
    (hkept : ∀ y w, y ≠ ⟨"*ARGV*"⟩ → s₀.heap.lookup? root y = some w →
      s.heap.lookup? root y = some w)
    (hspecials : ∀ name, (Special.ofName? name).isSome = true → ¬ s.heap.IsMacro root name)
    (hcounter : s.heap.gensymCounter? = some c) (hc : c.toInt < 9223372036854775807)
    (hx : s.heap.lookup? root x = some v) :
    ∃ h', s.heap.Grows h' ∧ h'.gensymCounter? = some (c + 1) ∧
      (∀ n o, eval n (.ofList [.named "or", .nil, .symbol x]) root s = o → o.Answers →
        o.state.gauge.refusals = s.gauge.refusals →
          o.regauge s.gauge =
            .value (if x.name = Prelude.freshName c then .nil else v) (s.withHeap h')) ∧
      ∃ N, ∀ g, g.depth + N ≤ g.limit → ∃ g', ∀ n ≥ N,
        eval n (.ofList [.named "or", .nil, .symbol x]) root (s.regauge g) =
          .value (if x.name = Prelude.freshName c then .nil else v)
            ((s.withHeap h').regauge g') := by
  obtain ⟨_, rfl⟩ := (start_iff config limit input disk clock s₀).mp ⟨m, hstart⟩
  have hroot : s.heap.RunsOr 0 root := runsOr_of_kept hkept hspecials
  have hatom := (gensymCounter?_eq_some_iff hroot.counter).mp hcounter
  obtain ⟨h', hgrown, hatoms, hor⟩ := hroot.evaluates_or hatom hc hx
  have hsame : x = ⟨Prelude.freshName c⟩ ↔ x.name = Prelude.freshName c :=
    ⟨congrArg Symbol.name, congrArg Symbol.mk⟩
  simp only [hsame] at hor
  refine ⟨h', hgrown, ?_, ?_, ?_⟩
  · rw [gensymCounter?_eq_some_iff (hroot.grow hgrown).counter, hatoms]
    exact Array.getElem?_setIfInBounds_self_of_lt (Array.getElem?_eq_some_iff.mp hatom).1
  · intro n o h ho hsame
    exact (((evaluates_iff_of_eval h ho hsame) _).mp hor).symm
  · obtain ⟨N, hN⟩ := hor.eval_eventually
    refine ⟨N, fun g hroom => ?_⟩
    obtain ⟨g', _, _, _, heval⟩ := hN g hroom
    exact ⟨g', heval⟩

/-- A session that has started and then bound a name to 5. -/
def State.sampleNamed (name : String) : State :=
  let s : State := .started {} [] .empty 0
  s.withHeap (s.heap.set root ⟨name⟩ (.int 5))

section

variable {own : String}

theorem sampleNamed_own :
    (State.sampleNamed own).heap.lookup? root ⟨own⟩ = some (.int 5) := by
  refine Heap.lookup?_of_bound Heap.frames_set_self ?_
  rw [Table.get?_insert, if_pos rfl]

theorem sampleNamed_other {x : Symbol} (hx : x ≠ ⟨own⟩) :
    (State.sampleNamed own).heap.lookup? root x = (Heap.started "rust").lookup? root x :=
  Heap.lookup?_set_of_ne hx

theorem sampleNamed_specials {name : String} (h : (Special.ofName? name).isSome = true) :
    ¬ (State.sampleNamed own).heap.IsMacro root name := by
  rintro ⟨fn, body, m, hx, _⟩
  by_cases hname : (⟨name⟩ : Symbol) = ⟨own⟩
  · rw [hname] at hx
    cases sampleNamed_own.symm.trans hx
  · cases (specials_started h).symm.trans ((sampleNamed_other hname).symm.trans hx)

theorem sampleNamed_kept (hown : own ∉ Session.names) {x : Symbol} {v : Value}
    (hx : (Heap.started "rust").lookup? root x = some v) :
    (State.sampleNamed own).heap.lookup? root x = some v := by
  refine (sampleNamed_other ?_).trans hx
  rintro rfl
  cases (lookup?_started_eq_none "rust" hown).symm.trans hx

theorem sampleNamed_counter (hown : own ∉ Session.names) :
    (State.sampleNamed own).heap.gensymCounter? = some 0 := by
  have hbound := lookup?_started_prelude (v := .atom 0)
    (by simp [Prelude.bound] : ("*gensym-counter*", .atom 0) ∈ Prelude.bound "rust")
  exact (gensymCounter?_eq_some_iff (sampleNamed_kept hown hbound)).mpr rfl

end

theorem or_gives_value_unless_captured_sampleNamed :
    (∃ N, ∀ g, g.depth + N ≤ g.limit → ∃ s, ∀ n ≥ N,
      eval n (.ofList [.named "or", .nil, .named "G__2"]) root
        ((State.sampleNamed "G__2").regauge g) = .value (.int 5) s) ∧
    ∃ N, ∀ g, g.depth + N ≤ g.limit → ∃ s, ∀ n ≥ N,
      eval n (.ofList [.named "or", .nil, .named "G__1"]) root
        ((State.sampleNamed "G__1").regauge g) = .value .nil s := by
  have hnext : Prelude.freshName 0 = "G__1" := by decide
  have hbelow : (0 : Int64).toInt < 9223372036854775807 := by decide
  constructor
  · have hown : "G__2" ∉ Session.names := by decide +kernel
    obtain ⟨h', _, _, _, N, hN⟩ := or_gives_value_unless_captured start_sample
      (fun _ _ _ => sampleNamed_kept hown) (fun _ => sampleNamed_specials)
      (sampleNamed_counter hown) hbelow sampleNamed_own
    rw [hnext, if_neg (by decide)] at hN
    refine ⟨N, fun g hroom => ?_⟩
    obtain ⟨g', heval⟩ := hN g hroom
    exact ⟨_, heval⟩
  · have hown : "G__1" ∉ Session.names := by decide +kernel
    obtain ⟨h', _, _, _, N, hN⟩ := or_gives_value_unless_captured start_sample
      (fun _ _ _ => sampleNamed_kept hown) (fun _ => sampleNamed_specials)
      (sampleNamed_counter hown) hbelow sampleNamed_own
    rw [hnext, if_pos rfl] at hN
    refine ⟨N, fun g hroom => ?_⟩
    obtain ⟨g', heval⟩ := hN g hroom
    exact ⟨_, heval⟩

/-- In a session that has just started, `or` captures a variable with the name of the first fresh
symbol. -/
theorem or_captures_first_fresh_name : ∃ s₀ s₁ s₂,
    Session.start 6 {} (.initial 0 [] .empty 0) = .value () s₀ ∧
    Session.evalString 9 "(define G__1 5)" s₀ = .value (.int 5) s₁ ∧
    s₁.heap.lookup? root ⟨"G__1"⟩ = some (.int 5) ∧
    Session.evalString 20 "(or nil G__1)" s₁ = .value .nil s₂ ∧ s₂.gauge.refusals = 0 := by
  exact ⟨_, _, _, start_sample, by cbv, by cbv, by cbv, rfl⟩

end SmallLisp
