import Mathlib
import SmallLisp.Proofs.Session.Invocation
import SmallLisp.Proofs.Session.OrExpansion

/-!
# The first true alternative

`or` of quoted values is the first true one, or the last if none is true, and what stands behind a
true one is not evaluated. Every form but the last takes an expansion, which counts the fresh symbols
up and leaves a frame with the temporary, below which the others are looked at. The induction is on
the values, in the frame and with the counter that the ones in front have left. The main statement is
`or_short_circuits`.
-/

namespace SmallLisp

open Session (root)
open Prelude (call)

/-! ### Counting up -/

/-- Whether a heap has grown out of another one with a counter in an atom, which has gone up by a
number of steps at most, while the other atoms are as they were. -/
structure Heap.CountsUp (id : AtomId) (c : Int64) (steps : Nat) (h h' : Heap) : Prop where
  grows : h.Grows h'
  counter : ∃ k ≤ steps, h'.atoms[id]? = some (.int (c + Int64.ofNat k))
  atoms : ∀ i ≠ id, h'.atoms[i]? = h.atoms[i]?

namespace Heap.CountsUp

variable {id : AtomId} {c : Int64} {steps : Nat} {h h₁ h' : Heap}

/-- New frames leave the counter as it is. -/
theorem of_grows (hatom : h.atoms[id]? = some (.int c)) (hg : h.Grows h')
    (hatoms : h'.atoms = h.atoms) : CountsUp id c steps h h' := by
  refine ⟨hg, ⟨0, Nat.zero_le _, ?_⟩, fun i _ => by rw [hatoms]⟩
  rw [hatoms, hatom]
  exact congrArg (fun n => some (Value.int n)) (Int64.add_zero c).symm

theorem mono {more : Nat} (hc : CountsUp id c steps h h') (hle : steps ≤ more) :
    CountsUp id c more h h' := by
  obtain ⟨k, hk, hcounter⟩ := hc.counter
  exact ⟨hc.grows, ⟨k, Nat.le_trans hk hle, hcounter⟩, hc.atoms⟩

theorem step (hg : h.Grows h₁) (hatoms : h₁.atoms = h.atoms.set! id (.int (c + 1)))
    (hc : CountsUp id (c + 1) steps h₁ h') : CountsUp id c (steps + 1) h h' := by
  obtain ⟨k, hk, hcounter⟩ := hc.counter
  refine ⟨hg.trans hc.grows, ⟨k + 1, Nat.succ_le_succ hk, ?_⟩, fun i hi => ?_⟩
  · have hsum : c + 1 + Int64.ofNat k = c + Int64.ofNat (k + 1) := by
      rw [Int64.ofNat_add, Int64.add_comm (Int64.ofNat k), Int64.add_assoc]
      rfl
    rw [hcounter, hsum]
  · rw [hc.atoms i hi, hatoms]
    exact Array.getElem?_setIfInBounds_ne hi.symm

end Heap.CountsUp

theorem toInt_succ {c : Int64} (hc : c.toInt < 9223372036854775807) :
    (c + 1).toInt = c.toInt + 1 := by
  have hlow : -9223372036854775808 ≤ c.toInt := Int64.le_toInt c
  have hone : (1 : Int64).toInt = 1 := by decide
  rw [Int64.toInt_add, hone]
  apply Int.bmod_eq_of_le <;> omega

/-! ### The first true value -/

/-- The first true value of some, or the last one if none is true. -/
def firstTrue (vs : List Value) : Value := (vs.find? Value.isTruthy).getD (vs.getLastD .nil)

section

variable {v : Value} {vs us : List Value}

theorem firstTrue_of_true (hv : v.isTruthy = true) : firstTrue (v :: vs) = v := by
  unfold firstTrue
  rw [List.find?_cons_of_pos hv]
  rfl

theorem firstTrue_single (v : Value) : firstTrue [v] = v := by
  cases hv : v.isTruthy with
  | true => exact firstTrue_of_true hv
  | false =>
    unfold firstTrue
    rw [List.find?_cons_of_neg (by rw [hv]; decide)]
    rfl

theorem firstTrue_of_false (hv : v.isTruthy = false) (hvs : vs ≠ []) :
    firstTrue (v :: vs) = firstTrue vs := by
  obtain ⟨w, rest, rfl⟩ := List.exists_cons_of_ne_nil hvs
  unfold firstTrue
  rw [List.find?_cons_of_neg (by rw [hv]; decide)]
  rfl

theorem firstTrue_append (hus : ∀ u ∈ us, u.isTruthy = false) (hv : v.isTruthy = true) :
    firstTrue (us ++ [v]) = v := by
  unfold firstTrue
  rw [List.find?_append, List.find?_eq_none.mpr (fun u hu => by rw [hus u hu]; decide),
    List.find?_cons_of_pos hv]
  rfl

end

/-! ### The run -/

section

variable {id : AtomId} {f : FrameId} {s : State} {c : Int64} {v : Value} {forms rest : List Value}
  {room : Nat}

theorem Heap.RunsOr.ends_quoted (hr : s.heap.RunsOr id f) (v : Value) :
    EndsWithin (room + 1) v.quoted s.heap.frames.size (s.below f [])
      (.value v (s.below f [])) := by
  have hbelow : (s.below f []).heap.RunsOr id s.heap.frames.size := hr.addFrame fun _ _ => rfl
  exact (hbelow.provides.quote (by decide) v).ends

/-- `or` of one quoted value is that value. -/
theorem Heap.RunsOr.continues_quoted (hr : s.heap.RunsOr id f) (hroot : s.heap.RunsOr id root)
    (v : Value) : ContinuesWithin (room + 4) (call "or" [v.quoted]) f s
      (.value v (s.calling [v.quoted])) := by
  have hcalling := hr.grow (grows_calling s [v.quoted])
  exact hr.continues_single hroot (hcalling.provides.quote (by decide) v)

/-- A round of `or` counts up and binds the value of the first form to a temporary, in a frame below
which the others are looked at unless that value is true. -/
theorem Heap.RunsOr.continues_round (hr : s.heap.RunsOr id f) (hroot : s.heap.RunsOr id root)
    (hatom : s.heap.atoms[id]? = some (.int c)) (hc : c.toInt < 9223372036854775807)
    (hrest : rest ≠ []) (hlength : (v.quoted :: rest).length < 9223372036854775808) :
    ∃ h' f', s.heap.Grows h' ∧ h'.atoms = s.heap.atoms.set! id (.int (c + 1)) ∧ h'.RunsOr id f' ∧
      (v.isTruthy = true →
        ContinuesWithin 11 (call "or" (v.quoted :: rest)) f s (.value v (s.withHeap h'))) ∧
      (v.isTruthy = false → ∀ o, ContinuesWithin 11 (call "or" rest) f' (s.withHeap h') o →
        ContinuesWithin 11 (call "or" (v.quoted :: rest)) f s o) := by
  obtain ⟨h₁, hgrown, hatoms, hseveral⟩ := hr.continues_several hroot hatom hc hrest hlength
  have hr₁ : (s.withHeap h₁).heap.RunsOr id f := hr.grow hgrown
  have hfresh : (⟨Prelude.freshName c⟩ : Symbol).name ∉ Prelude.orNames := freshName_not_mem c
  refine ⟨_, _, .addFrame hgrown, hatoms, hr₁.temporary hfresh v, fun hv => ?_, fun hv o h => ?_⟩
  · exact hseveral 0 _ (hr₁.continues_true hfresh hv (hr₁.ends_quoted v))
  · exact hseveral 0 o (hr₁.continues_false hfresh hv (hr₁.ends_quoted v) h)

/-- `or` of some quoted values and what stands behind a true one is the first true value. -/
theorem Heap.RunsOr.continues_or {vs gs : List Value} (hr : s.heap.RunsOr id f)
    (hroot : s.heap.RunsOr id root) (hatom : s.heap.atoms[id]? = some (.int c))
    (hc : c.toInt + vs.length ≤ 9223372036854775807)
    (hlength : vs.length + gs.length < 9223372036854775808)
    (hstop : gs = [] ∨ ∃ v ∈ vs, v.isTruthy = true) :
    ∃ h', s.heap.CountsUp id c vs.length h' ∧ ContinuesWithin 11
      (call "or" (vs.map Value.quoted ++ gs)) f s (.value (firstTrue vs) (s.withHeap h')) := by
  induction vs generalizing f s c with
  | nil =>
    rcases hstop with rfl | ⟨v, hv, _⟩
    · exact ⟨(s.calling []).heap, .of_grows hatom (grows_calling s []) rfl, hr.continues_nil hroot⟩
    · cases hv
  | cons v vs ih =>
    by_cases hmore : vs.map Value.quoted ++ gs = []
    · obtain ⟨hvs, rfl⟩ := List.append_eq_nil_iff.mp hmore
      obtain rfl := List.map_eq_nil_iff.mp hvs
      rw [firstTrue_single]
      exact ⟨(s.calling [v.quoted]).heap, .of_grows hatom (grows_calling s [v.quoted]) rfl,
        hr.continues_quoted hroot v⟩
    · simp only [List.length_cons] at hc hlength
      have hbelow : c.toInt < 9223372036854775807 := by omega
      have hcounted : (v.quoted :: (vs.map Value.quoted ++ gs)).length < 9223372036854775808 := by
        simp only [List.length_cons, List.length_append, List.length_map]
        omega
      obtain ⟨h₁, f₁, hgrown, hatoms, hr₁, htrue, hfalse⟩ :=
        hr.continues_round hroot hatom hbelow hmore hcounted
      have hatom₁ : h₁.atoms[id]? = some (.int (c + 1)) := by
        rw [hatoms]
        exact Array.getElem?_setIfInBounds_self_of_lt (Array.getElem?_eq_some_iff.mp hatom).1
      cases hv : v.isTruthy with
      | true =>
        rw [firstTrue_of_true hv]
        exact ⟨h₁, .step hgrown hatoms (.of_grows hatom₁ (.refl h₁) rfl), htrue hv⟩
      | false =>
        -- Further forms that are not to be evaluated stand behind a true value, so not behind this.
        have hstop₁ : gs = [] ∨ ∃ w ∈ vs, w.isTruthy = true := by
          refine hstop.imp_right fun ⟨w, hw, htruthy⟩ => ?_
          rcases List.mem_cons.mp hw with rfl | hw
          · cases hv.symm.trans htruthy
          · exact ⟨w, hw, htruthy⟩
        have hvs : vs ≠ [] := by
          rintro rfl
          rcases hstop₁ with rfl | ⟨w, hw, _⟩
          · exact hmore rfl
          · cases hw
        have hnext : (c + 1).toInt + vs.length ≤ 9223372036854775807 := by
          rw [toInt_succ hbelow]
          omega
        have hroot₁ : (s.withHeap h₁).heap.RunsOr id root := hroot.grow hgrown
        obtain ⟨h', hcounts, hrun⟩ :=
          @ih f₁ (s.withHeap h₁) (c + 1) hr₁ hroot₁ hatom₁ hnext (by omega) hstop₁
        rw [firstTrue_of_false hv hvs]
        exact ⟨h', .step hgrown hatoms hcounts, hfalse hv _ hrun⟩

end

/-! ### Sessions -/

/-- Whether `or` of some forms gives a value in the root and leaves a heap: that is what is answered
if nothing is refused, and what is answered wherever there are twelve levels of room. Nothing but the
counter of the fresh symbols has changed then, and that once for each form at most. -/
structure OrGives (s : State) (c : Int64) (forms : List Value) (v : Value) (h' : Heap) : Prop where
  counts : ∃ id, s.heap.lookup? root ⟨"*gensym-counter*"⟩ = some (.atom id) ∧
    s.heap.CountsUp id c forms.length h'
  told : ∀ n o, eval n (.ofList (.named "or" :: forms)) root s = o → o.Answers →
    o.state.gauge.refusals = s.gauge.refusals → o.regauge s.gauge = .value v (s.withHeap h')
  reached : EndsWithin 12 (.ofList (.named "or" :: forms)) root s (.value v (s.withHeap h'))

/-- Where the root binds what a started session binds, the arguments of the program apart, and none
of the special forms that `or` is made of to a macro, `or` of quoted values gives the first true one,
the last one if none is true, and `nil` if there is none. What stands behind a true value is not
evaluated, whatever it is. The room that is needed does not depend on the number of forms, which is
one that `count` can give. -/
theorem or_short_circuits {m limit : Nat} {config : Config} {input : List UInt8} {disk : Disk}
    {clock c : Int64} {s₀ s : State}
    (hstart : Session.start m config (.initial limit input disk clock) = .value () s₀)
    (hkept : ∀ x v, x ≠ ⟨"*ARGV*"⟩ → s₀.heap.lookup? root x = some v →
      s.heap.lookup? root x = some v)
    (hspecials : ∀ name ∈ Prelude.orSpecials, ¬ s.heap.IsMacro root name)
    (hcounter : s.heap.gensymCounter? = some c) :
    (∀ vs : List Value, c.toInt + vs.length ≤ 9223372036854775807 →
      vs.length < 9223372036854775808 → ∃ h', OrGives s c (vs.map Value.quoted)
        ((vs.find? Value.isTruthy).getD (vs.getLastD .nil)) h') ∧
    ∀ us v gs, (∀ u ∈ us, u.isTruthy = false) → v.isTruthy = true →
      c.toInt + (us.length + 1) ≤ 9223372036854775807 →
        us.length + 1 + gs.length < 9223372036854775808 →
          ∃ h', OrGives s c ((us ++ [v]).map Value.quoted ++ gs) v h' := by
  obtain ⟨_, rfl⟩ := (start_iff config limit input disk clock s₀).mp ⟨m, hstart⟩
  have hroot : s.heap.RunsOr 0 root := .of_kept hkept hspecials
  have hatom := (gensymCounter?_eq_some_iff hroot.counter).mp hcounter
  have hgives : ∀ vs gs : List Value, c.toInt + vs.length ≤ 9223372036854775807 →
      vs.length + gs.length < 9223372036854775808 →
      (gs = [] ∨ ∃ v ∈ vs, v.isTruthy = true) →
        ∃ h', OrGives s c (vs.map Value.quoted ++ gs) (firstTrue vs) h' := by
    intro vs gs hc hlength hstop
    obtain ⟨h', hcounts, hrun⟩ := hroot.continues_or hroot hatom hc hlength hstop
    have hsteps : vs.length ≤ (vs.map Value.quoted ++ gs).length := by
      rw [List.length_append, List.length_map]
      exact Nat.le_add_right _ _
    refine ⟨h', ⟨0, hroot.counter, hcounts.mono hsteps⟩, fun n o h ho hsame => ?_, hrun.ends⟩
    exact ((evaluates_iff_of_eval h ho hsame _).mp hrun.ends.evaluates).symm
  constructor
  · intro vs hc hlength
    obtain ⟨h', hor⟩ := hgives vs [] hc hlength (.inl rfl)
    rw [List.append_nil] at hor
    exact ⟨h', hor⟩
  · intro us v gs hus hv hc hlength
    have hmem : v ∈ us ++ [v] := List.mem_append_right us (List.mem_singleton_self v)
    have hcount : (us ++ [v]).length = us.length + 1 := by
      rw [List.length_append, List.length_singleton]
    rw [← hcount] at hlength
    have hcounted : c.toInt + (us ++ [v]).length ≤ 9223372036854775807 := by
      rw [hcount]
      exact hc
    obtain ⟨h', hor⟩ := hgives (us ++ [v]) gs hcounted hlength (.inr ⟨v, hmem, hv⟩)
    rw [firstTrue_append hus hv] at hor
    exact ⟨h', hor⟩

theorem or_short_circuits_sampleSession :
    (∃ h', OrGives (.started {} [] .empty 0) 0 [Value.quoted (.bool false), Value.quoted .nil]
      .nil h') ∧
    ∃ h', OrGives (.started {} [] .empty 0) 0
      [Value.quoted .nil, Value.quoted (.int 7), call "throw" [.int 1]] (.int 7) h' := by
  have hspecials : ∀ name ∈ Prelude.orSpecials, ¬ (Heap.started "rust").IsMacro root name :=
    not_isMacro_started (by decide)
  have hbound := lookup?_started_prelude (v := .atom 0)
    (by simp [Prelude.bound] : ("*gensym-counter*", .atom 0) ∈ Prelude.bound "rust")
  have hcounter : (Heap.started "rust").gensymCounter? = some 0 :=
    (gensymCounter?_eq_some_iff hbound).mpr rfl
  have hfalse : ∀ u ∈ [Value.nil], u.isTruthy = false := by
    intro u hu
    rw [List.mem_singleton.mp hu]
    rfl
  obtain ⟨hall, hsome⟩ := or_short_circuits (s := .started {} [] .empty 0) start_sample
    (fun _ _ _ h => h) hspecials hcounter
  exact ⟨hall [.bool false, .nil] (by decide) (by decide),
    hsome [.nil] (.int 7) [call "throw" [.int 1]] hfalse rfl (by decide) (by decide)⟩

end SmallLisp
