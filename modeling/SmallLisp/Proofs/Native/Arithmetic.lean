import Mathlib
import SmallLisp.Native.Arithmetic
import SmallLisp.Proofs.Native.Checks

/-!
# Exact arithmetic

Arithmetic on integers of 64 bits gives what arithmetic without bounds gives, or it fails; it never
wraps. A sum, a product or a difference overflows as soon as a partial result does not fit, even
where the whole result would. A quotient fails at the first divisor that is zero, or that is -1 where
the least integer is to be divided. The main statement is `run_exact_or_fails`.
-/

namespace SmallLisp.Arithmetic

open Integer (Fits)

/-! ### Arithmetic without bounds -/

/-- What an operation does with integers without bounds. -/
def exact : Arithmetic → Int → Int → Int
  | add => (· + ·)
  | sub => (· - ·)
  | mul => (· * ·)
  | div => Int.tdiv

/-- Whether all partial results of an operation fit, from an integer on and from left to right. -/
def StaysInRange (op : Arithmetic) (a : Int) (ns : List Int) : Prop :=
  ∀ partialResult ∈ ns.scanl op.exact a, Fits partialResult

instance (op : Arithmetic) (a : Int) (ns : List Int) : Decidable (op.StaysInRange a ns) :=
  inferInstanceAs (Decidable (∀ partialResult ∈ ns.scanl op.exact a, Fits partialResult))

/-- Whether an integer has no quotient by a divisor in 64 bits. -/
def Offends (a d : Int) : Prop := d = 0 ∨ (a = -9223372036854775808 ∧ d = -1)

instance (a d : Int) : Decidable (Offends a d) := inferInstanceAs (Decidable (_ ∨ _))

/-- Whether a quotient comes past all divisors, from left to right. -/
def NoneOffends (a : Int) (ds : List Int) : Prop :=
  ∀ front d back, ds = front ++ d :: back → ¬ Offends (front.foldl Int.tdiv a) d

/-- Whether a call has an integer as its value. -/
def Yields (result : Except Fault Value) (n : Int) : Prop :=
  ∃ m : Int64, result = .ok (.int m) ∧ m.toInt = n

theorem fits_toInt (n : Int64) : Fits n.toInt := by
  have hlow := Int64.le_toInt n
  have hhigh := Int64.toInt_lt n
  unfold Fits
  omega

/-! ### One step -/

section

variable {op : Arithmetic} {n : Int} {a d : Int64}

theorem fit_of_fits (op : Arithmetic) (h : Fits n) : ∃ m, op.fit n = .ok m ∧ m.toInt = n := by
  have hfound : Integer.ofInt? n = some (Int64.ofInt n) := if_pos h
  refine ⟨Int64.ofInt n, ?_, Integer.toInt_of_ofInt? hfound⟩
  simp only [fit, hfound]

theorem fit_of_not_fits (h : ¬ Fits n) : op.fit n = .error (.overflow op.name) := by
  have hnone : Integer.ofInt? n = none := if_neg h
  simp only [fit, hnone]

theorem step_eq_fit (hop : op ≠ div) (a b : Int64) :
    op.step a b = op.fit (op.exact a.toInt b.toInt) := by
  cases op with
  | div => exact absurd rfl hop
  | _ => rfl

/-- Only the least integer has a quotient that does not fit, namely its quotient by -1. -/
theorem fits_tdiv {a d : Int} (ha : Fits a) (h : ¬ Offends a d) : Fits (a.tdiv d) := by
  unfold Offends at h
  unfold Fits at ha ⊢
  by_cases hunit : d.natAbs = 1
  · have hd : d = 1 ∨ d = -1 := by omega
    rcases hd with rfl | rfl
    · rw [Int.tdiv_one]
      exact ha
    · rw [Int.tdiv_neg, Int.tdiv_one]
      omega
  · -- A larger divisor at least halves the size.
    have hsize : (a.tdiv d).natAbs = a.natAbs / d.natAbs := Int.natAbs_tdiv a d
    have hhalf : a.natAbs / d.natAbs ≤ a.natAbs / 2 := Nat.div_le_div_left (by omega) (by decide)
    omega

theorem step_div_of_not_offends (h : ¬ Offends a.toInt d.toInt) :
    ∃ q, div.step a d = .ok q ∧ q.toInt = a.toInt.tdiv d.toInt := by
  have hd : d ≠ 0 := by
    rintro rfl
    exact h (.inl rfl)
  have hstep : div.step a d = div.fit (a.toInt.tdiv d.toInt) := if_neg hd
  rw [hstep]
  exact fit_of_fits div (fits_tdiv (fits_toInt a) h)

theorem step_div_zero (h : d.toInt = 0) : div.step a d = .error .divisionByZero := by
  have hd : d = 0 := Int64.toInt_inj.mp h
  exact if_pos hd

theorem step_div_overflow (ha : a.toInt = -9223372036854775808) (hd : d.toInt = -1) :
    div.step a d = .error (.overflow "/") := by
  have hd₀ : d ≠ 0 := by
    rintro rfl
    cases hd
  have hstep : div.step a d = div.fit (a.toInt.tdiv d.toInt) := if_neg hd₀
  have hquotient : ¬ Fits (a.toInt.tdiv d.toInt) := by
    rw [ha, hd]
    decide
  rw [hstep]
  exact fit_of_not_fits hquotient

end

/-! ### Folds -/

section

variable {op : Arithmetic} {a : Int64}

theorem foldlM_of_staysInRange (hop : op ≠ div) {ns : List Int64}
    (h : op.StaysInRange a.toInt (ns.map Int64.toInt)) :
    ∃ m, ns.foldlM op.step a = .ok m ∧ m.toInt = (ns.map Int64.toInt).foldl op.exact a.toInt := by
  induction ns generalizing a with
  | nil => exact ⟨a, rfl, rfl⟩
  | cons n rest ih =>
    unfold StaysInRange at h
    rw [List.map_cons, List.scanl_cons] at h
    have hnext : Fits (op.exact a.toInt n.toInt) := by
      refine h _ (List.mem_cons_of_mem _ ?_)
      cases rest.map Int64.toInt <;> simp
    obtain ⟨b, hb, hvalue⟩ := fit_of_fits op hnext
    rw [← hvalue] at h
    obtain ⟨m, hm, htotal⟩ := ih fun p hp => h p (List.mem_cons_of_mem _ hp)
    refine ⟨m, ?_, ?_⟩
    · rw [List.foldlM_cons, step_eq_fit hop, hb]
      exact hm
    · rw [htotal, hvalue]
      rfl

theorem foldlM_of_not_staysInRange (hop : op ≠ div) {ns : List Int64}
    (h : ¬ op.StaysInRange a.toInt (ns.map Int64.toInt)) :
    ns.foldlM op.step a = .error (.overflow op.name) := by
  induction ns generalizing a with
  | nil =>
    refine absurd ?_ h
    intro p hp
    obtain rfl : p = a.toInt := by simpa using hp
    exact fits_toInt a
  | cons n rest ih =>
    rw [List.foldlM_cons, step_eq_fit hop]
    by_cases hnext : Fits (op.exact a.toInt n.toInt)
    · obtain ⟨b, hb, hvalue⟩ := fit_of_fits op hnext
      rw [hb]
      refine ih fun hrest => h ?_
      unfold StaysInRange
      rw [List.map_cons, List.scanl_cons, ← hvalue]
      intro p hp
      rcases List.mem_cons.mp hp with rfl | hp
      · exact fits_toInt a
      · exact hrest p hp
    · rw [fit_of_not_fits hnext]
      rfl

theorem noneOffends_nil (a : Int) : NoneOffends a [] := by
  intro front d back h
  simp at h

theorem noneOffends_cons_iff {a d : Int} {ds : List Int} :
    NoneOffends a (d :: ds) ↔ ¬ Offends a d ∧ NoneOffends (a.tdiv d) ds := by
  constructor
  · intro h
    refine ⟨h [] d ds rfl, fun front e back hds => ?_⟩
    exact h (d :: front) e back (by rw [hds, List.cons_append])
  · rintro ⟨hfirst, hrest⟩ front e back hds
    cases front with
    | nil =>
      cases hds
      exact hfirst
    | cons c front =>
      cases hds
      exact hrest front e back rfl

theorem exists_first_offends {a : Int} {ds : List Int64}
    (h : ¬ NoneOffends a (ds.map Int64.toInt)) :
    ∃ front d back, ds = front ++ d :: back ∧ NoneOffends a (front.map Int64.toInt) ∧
      Offends ((front.map Int64.toInt).foldl Int.tdiv a) d.toInt := by
  induction ds generalizing a with
  | nil => exact absurd (noneOffends_nil a) h
  | cons d rest ih =>
    by_cases hfirst : Offends a d.toInt
    · exact ⟨[], d, rest, rfl, noneOffends_nil a, hfirst⟩
    · have hrest : ¬ NoneOffends (a.tdiv d.toInt) (rest.map Int64.toInt) :=
        fun hrest => h (noneOffends_cons_iff.mpr ⟨hfirst, hrest⟩)
      obtain ⟨front, e, back, rfl, hfront, hoffends⟩ := ih hrest
      exact ⟨d :: front, e, back, rfl, noneOffends_cons_iff.mpr ⟨hfirst, hfront⟩, hoffends⟩

theorem foldlM_div {ds : List Int64} (h : NoneOffends a.toInt (ds.map Int64.toInt)) :
    ∃ q, ds.foldlM div.step a = .ok q ∧ q.toInt = (ds.map Int64.toInt).foldl Int.tdiv a.toInt := by
  induction ds generalizing a with
  | nil => exact ⟨a, rfl, rfl⟩
  | cons d rest ih =>
    obtain ⟨hfirst, hrest⟩ := noneOffends_cons_iff.mp h
    obtain ⟨b, hb, hvalue⟩ := step_div_of_not_offends hfirst
    rw [← hvalue] at hrest
    obtain ⟨q, hq, htotal⟩ := ih hrest
    refine ⟨q, ?_, ?_⟩
    · rw [List.foldlM_cons, hb]
      exact hq
    · rw [htotal, hvalue]
      rfl

/-- Dividing stops at the first divisor that offends, with the error of that step. -/
theorem foldlM_div_of_error {front back : List Int64} {d : Int64} {fault : Fault}
    (h : NoneOffends a.toInt (front.map Int64.toInt))
    (hstep : ∀ q : Int64, q.toInt = (front.map Int64.toInt).foldl Int.tdiv a.toInt →
      div.step q d = .error fault) :
    (front ++ d :: back).foldlM div.step a = .error fault := by
  obtain ⟨q, hq, hvalue⟩ := foldlM_div h
  rw [List.foldlM_append, hq]
  change (d :: back).foldlM div.step q = _
  rw [List.foldlM_cons, hstep q hvalue]
  rfl

end

/-! ### Calls -/

section

variable {op : Arithmetic}

theorem mapM_int (name : String) (ns : List Int64) :
    (ns.map Value.int).mapM (Native.int name) = .ok ns := by
  induction ns with
  | nil => rfl
  | cons n rest ih =>
    rw [List.map_cons, List.mapM_cons, ih]
    rfl

/-- The first argument that is no integer decides. -/
theorem mapM_int_of_other {name : String} {front back : List Value} {v : Value}
    (hfront : ∀ w ∈ front, ∃ n, w = .int n) (hv : ∀ n, v ≠ .int n) :
    (front ++ v :: back).mapM (Native.int name) = .error (.wrongKind name "integer" v) := by
  refine mapM_of_first_error (fun w hw => ?_) ?_
  · obtain ⟨n, rfl⟩ := hfront w hw
    exact ⟨n, rfl⟩
  · cases v with
    | int n => exact absurd rfl (hv n)
    | _ => rfl

theorem run_of_other {front back : List Value} {v : Value}
    (hfront : ∀ w ∈ front, ∃ n, w = .int n) (hv : ∀ n, v ≠ .int n) :
    op.run (front ++ v :: back) = .error (.wrongKind op.name "integer" v) := by
  unfold run
  rw [mapM_int_of_other hfront hv]
  rfl

theorem run_ints (op : Arithmetic) (ns : List Int64) :
    op.run (ns.map .int) = (op.compute ns).map .int := by
  unfold run
  rw [mapM_int]
  change (op.compute ns >>= fun n => Except.ok (Value.int n)) = _
  cases op.compute ns <;> rfl

theorem yields_of_compute {ns : List Int64} {n : Int}
    (h : ∃ m, op.compute ns = .ok m ∧ m.toInt = n) : Yields (op.run (ns.map .int)) n := by
  obtain ⟨m, hm, hvalue⟩ := h
  refine ⟨m, ?_, hvalue⟩
  rw [run_ints, hm]
  rfl

theorem run_of_compute_error {ns : List Int64} {fault : Fault} (h : op.compute ns = .error fault) :
    op.run (ns.map .int) = .error fault := by
  rw [run_ints, h]
  rfl

/-- A call that folds some numbers into another one is exact, or a partial result overflows. -/
theorem run_of_fold (hop : op ≠ div) {ns rest : List Int64} {a : Int64}
    (hfold : op.compute ns = rest.foldlM op.step a) :
    (op.StaysInRange a.toInt (rest.map Int64.toInt) →
      Yields (op.run (ns.map .int)) ((rest.map Int64.toInt).foldl op.exact a.toInt)) ∧
    (¬ op.StaysInRange a.toInt (rest.map Int64.toInt) →
      op.run (ns.map .int) = .error (.overflow op.name)) := by
  refine ⟨fun h => yields_of_compute ?_, fun h => run_of_compute_error ?_⟩
  · rw [hfold]
    exact foldlM_of_staysInRange hop h
  · rw [hfold]
    exact foldlM_of_not_staysInRange hop h

theorem run_sub_single (n : Int64) :
    (n ≠ Int64.minValue → Yields (sub.run [.int n]) (-n.toInt)) ∧
    (n = Int64.minValue → sub.run [.int n] = .error (.overflow "-")) := by
  have hmin : n = Int64.minValue ↔ n.toInt = -9223372036854775808 := Int64.toInt_inj.symm
  have hcompute : sub.compute [n] = sub.fit (-n.toInt) := rfl
  have hone : [Value.int n] = [n].map .int := rfl
  rw [hone]
  refine ⟨fun hn => yields_of_compute ?_, fun hn => run_of_compute_error ?_⟩
  · have hlow := Int64.le_toInt n
    have hhigh := Int64.toInt_lt n
    have hfits : Fits (-n.toInt) := by
      unfold Fits
      rw [ne_eq, hmin] at hn
      omega
    rw [hcompute]
    exact fit_of_fits sub hfits
  · have hover : ¬ Fits (-n.toInt) := by
      rw [hmin.mp hn]
      decide
    rw [hcompute]
    exact fit_of_not_fits hover

theorem run_div_single (n : Int64) : div.run [.int n] = div.run [.int 1, .int n] := by
  have hcompute : div.compute [n] = div.compute [1, n] := by
    change div.step 1 n = [n].foldlM div.step 1
    rw [List.foldlM_cons]
    cases div.step 1 n <;> rfl
  have hone := run_ints div [n]
  have htwo := run_ints div [1, n]
  rw [hcompute] at hone
  exact hone.trans htwo.symm

theorem run_div_of_offends {n d : Int64} {ds front back : List Int64}
    (hcompute : div.compute (n :: ds) = ds.foldlM div.step n) (hsplit : ds = front ++ d :: back)
    (hfront : NoneOffends n.toInt (front.map Int64.toInt)) :
    (d = 0 → div.run ((n :: ds).map .int) = .error .divisionByZero) ∧
    (d = -1 → (front.map Int64.toInt).foldl Int.tdiv n.toInt = -9223372036854775808 →
      div.run ((n :: ds).map .int) = .error (.overflow "/")) := by
  refine ⟨fun hd => run_of_compute_error ?_, fun hd hmin => run_of_compute_error ?_⟩
  · have hzero : d.toInt = 0 := by
      rw [hd]
      rfl
    rw [hcompute, hsplit]
    exact foldlM_div_of_error hfront fun q _ => step_div_zero hzero
  · have hone : d.toInt = -1 := by
      rw [hd]
      rfl
    rw [hcompute, hsplit]
    exact foldlM_div_of_error hfront fun q hq => step_div_overflow (hq.trans hmin) hone

end

/-- The calls of the arithmetic functions: an argument that is no integer is found before anything
else; sums, products and differences are exact if every partial result fits and overflow otherwise;
quotients are exact up to the first divisor that is zero or at which the quotient overflows. -/
theorem run_exact_or_fails :
    (∀ (op : Arithmetic) (front : List Value) (v : Value) (back : List Value),
      (∀ w ∈ front, ∃ n, w = .int n) → (∀ n, v ≠ .int n) →
        op.run (front ++ v :: back) = .error (.wrongKind op.name "integer" v)) ∧
    (∀ ns : List Int64,
      (add.StaysInRange 0 (ns.map Int64.toInt) →
        Yields (add.run (ns.map .int)) (ns.map Int64.toInt).sum) ∧
      (¬ add.StaysInRange 0 (ns.map Int64.toInt) →
        add.run (ns.map .int) = .error (.overflow "+"))) ∧
    (∀ ns : List Int64,
      (mul.StaysInRange 1 (ns.map Int64.toInt) →
        Yields (mul.run (ns.map .int)) (ns.map Int64.toInt).prod) ∧
      (¬ mul.StaysInRange 1 (ns.map Int64.toInt) →
        mul.run (ns.map .int) = .error (.overflow "*"))) ∧
    sub.run [] = .error (.arity (.atLeast 1) 0 (some "-")) ∧
    (∀ n : Int64, (n ≠ Int64.minValue → Yields (sub.run [.int n]) (-n.toInt)) ∧
      (n = Int64.minValue → sub.run [.int n] = .error (.overflow "-"))) ∧
    (∀ (n m : Int64) (ms : List Int64),
      (sub.StaysInRange n.toInt ((m :: ms).map Int64.toInt) →
        Yields (sub.run ((n :: m :: ms).map .int))
          (((m :: ms).map Int64.toInt).foldl (· - ·) n.toInt)) ∧
      (¬ sub.StaysInRange n.toInt ((m :: ms).map Int64.toInt) →
        sub.run ((n :: m :: ms).map .int) = .error (.overflow "-"))) ∧
    div.run [] = .error (.arity (.atLeast 1) 0 (some "/")) ∧
    (∀ n : Int64, div.run [.int n] = div.run [.int 1, .int n]) ∧
    ∀ (n m : Int64) (ms : List Int64),
      (NoneOffends n.toInt ((m :: ms).map Int64.toInt) →
        Yields (div.run ((n :: m :: ms).map .int))
          (((m :: ms).map Int64.toInt).foldl Int.tdiv n.toInt)) ∧
      (¬ NoneOffends n.toInt ((m :: ms).map Int64.toInt) →
        ∃ front d back, m :: ms = front ++ d :: back ∧
          NoneOffends n.toInt (front.map Int64.toInt) ∧
          Offends ((front.map Int64.toInt).foldl Int.tdiv n.toInt) d.toInt) ∧
      ∀ front d back, m :: ms = front ++ d :: back →
        NoneOffends n.toInt (front.map Int64.toInt) →
          (d = 0 → div.run ((n :: m :: ms).map .int) = .error .divisionByZero) ∧
          (d = -1 → (front.map Int64.toInt).foldl Int.tdiv n.toInt = -9223372036854775808 →
            div.run ((n :: m :: ms).map .int) = .error (.overflow "/")) := by
  refine ⟨fun op front v back => run_of_other, fun ns => ?_, fun ns => ?_, rfl, run_sub_single,
    fun n m ms => ?_, rfl, run_div_single, fun n m ms => ?_⟩
  · have hadd : add.compute ns = ns.foldlM add.step 0 := rfl
    rw [List.sum_eq_foldl]
    exact run_of_fold (by decide) hadd
  · have hmul : mul.compute ns = ns.foldlM mul.step 1 := rfl
    rw [List.prod_eq_foldl]
    exact run_of_fold (by decide) hmul
  · have hsub : sub.compute (n :: m :: ms) = (m :: ms).foldlM sub.step n := rfl
    exact run_of_fold (by decide) hsub
  · have hdiv : div.compute (n :: m :: ms) = (m :: ms).foldlM div.step n := rfl
    refine ⟨fun h => yields_of_compute ?_, exists_first_offends, fun front d back hsplit => ?_⟩
    · rw [hdiv]
      exact foldlM_div h
    · exact run_div_of_offends hdiv hsplit

/-- Where the sum of three numbers fits and a partial sum does not; where the second divisor is the
first one that offends; and where a text stands behind a number. -/
theorem run_exact_or_fails_sampleCalls :
    add.run [.int Int64.maxValue, .int 1, .int (-1)] = .error (.overflow "+") ∧
    (∃ m : Int64, add.run [.int Int64.maxValue, .int (-1), .int 1] = .ok (.int m) ∧
      m.toInt = 9223372036854775807) ∧
    (∃ m : Int64, sub.run [.int (-7), .int 2] = .ok (.int m) ∧ m.toInt = -9) ∧
    sub.run [.int Int64.minValue] = .error (.overflow "-") ∧
    (∃ m : Int64, div.run [.int (-7), .int 2] = .ok (.int m) ∧ m.toInt = -3) ∧
    div.run [.int Int64.minValue, .int 1, .int (-1), .int 0] = .error (.overflow "/") ∧
    div.run [.int 7, .int 2, .int 0, .int 0] = .error .divisionByZero ∧
    add.run [.int Int64.maxValue, .str "1", .nil] = .error (.type "integer" "string" (some "+")) := by
  obtain ⟨hkind, hadd, _, _, hneg, hsub, _, _, hdiv⟩ := run_exact_or_fails
  have hover : ¬ add.StaysInRange 0 ([Int64.maxValue, 1, -1].map Int64.toInt) := by decide
  have hfits : add.StaysInRange 0 ([Int64.maxValue, -1, 1].map Int64.toInt) := by decide
  have hless : sub.StaysInRange (-7) ([2].map Int64.toInt) := by decide
  have hone : ∀ a d : Int, ¬ Offends a d → NoneOffends a [d] :=
    fun a d h => noneOffends_cons_iff.mpr ⟨h, noneOffends_nil _⟩
  have hleast : NoneOffends Int64.minValue.toInt ([1].map Int64.toInt) :=
    hone _ _ (by decide)
  have hseven : NoneOffends (7 : Int64).toInt ([2].map Int64.toInt) := hone _ _ (by decide)
  have hminus : NoneOffends (-7 : Int64).toInt ([2].map Int64.toInt) := hone _ _ (by decide)
  refine ⟨(hadd _).2 hover, (hadd _).1 hfits, (hsub (-7) 2 []).1 hless, (hneg _).2 rfl,
    (hdiv (-7) 2 []).1 hminus, ?_, ?_, ?_⟩
  · exact ((hdiv Int64.minValue 1 [-1, 0]).2.2 [1] (-1) [0] rfl hleast).2 rfl (by decide)
  · exact ((hdiv 7 2 [0, 0]).2.2 [2] 0 [0] rfl hseven).1 rfl
  · refine hkind add [.int Int64.maxValue] (.str "1") [.nil] ?_ nofun
    intro w hw
    exact ⟨_, List.mem_singleton.mp hw⟩

end SmallLisp.Arithmetic
