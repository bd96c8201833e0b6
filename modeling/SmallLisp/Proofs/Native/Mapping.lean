import SmallLisp.Proofs.Evaluation.Fuel
import SmallLisp.Proofs.Native.Checks

/-!
# Mapping a function

`map` looks at all its sequences before it calls anything. Then it calls the function with the
elements at one index of every sequence, index by index, as often as the shortest sequence allows,
and stops at the first call that fails. The main statement is `map_calls_by_index`.
-/

namespace SmallLisp

/-- The elements of a value that `map` takes for a sequence; `nil` is the empty one. -/
def Value.elements? : Value → Option (List Value)
  | .nil => some []
  | v => v.items?

section

variable {name : String} {v : Value} {args : List Value} {rows : List (List Value)}

theorem itemsOrNil_eq_ok {row : List Value} (h : v.elements? = some row) :
    Native.itemsOrNil name v = .ok row := by
  cases v <;> cases h <;> rfl

theorem itemsOrNil_eq_error (h : v.elements? = none) :
    Native.itemsOrNil name v = .error (.wrongKind name "list or vector" v) := by
  cases v <;> cases h <;> rfl

theorem mapM_itemsOrNil (h : args.mapM Value.elements? = some rows) :
    args.mapM (Native.itemsOrNil name) = .ok rows := by
  induction args generalizing rows with
  | nil =>
    cases h
    rfl
  | cons v rest ih =>
    simp only [List.mapM_cons, Option.bind_eq_bind, Option.bind_eq_some_iff, Option.pure_def,
      Option.some.injEq] at h
    obtain ⟨row, hrow, others, hothers, rfl⟩ := h
    rw [List.mapM_cons, itemsOrNil_eq_ok hrow, ih hothers]
    rfl

end

namespace HigherOrder

variable {call : Value → List Value → Eval Value} {f first : Value} {more : List Value}

theorem mapAll_eq (call : Value → List Value → Eval Value) (f first : Value) (more : List Value) :
    mapAll call f first more =
      (Eval.ofExcept ((first :: more).mapM (Native.itemsOrNil map.name)) >>= fun rows =>
        Eval.forEach (fun index => call f (column rows index)) (List.range (shortest rows)) >>=
          fun vs => pure (.ofList vs)) := by
  simp only [mapAll, List.mapM_cons, Eval.ofExcept_bind, bind_assoc, columns_eq, Eval.forEach_map]
  rfl

theorem mapAll_of_rows {rows : List (List Value)}
    (h : (first :: more).mapM Value.elements? = some rows) :
    mapAll call f first more =
      (Eval.forEach (fun index => call f (column rows index)) (List.range (shortest rows)) >>=
        fun vs => pure (.ofList vs)) := by
  rw [mapAll_eq, mapM_itemsOrNil h]
  rfl

theorem mapAll_of_other {front back : List Value} {v : Value} (h : first :: more = front ++ v :: back)
    (hfront : ∀ w ∈ front, ∃ row, w.elements? = some row) (hv : v.elements? = none) :
    mapAll call f first more = .fail (.wrongKind map.name "list or vector" v) := by
  have hrows : (first :: more).mapM (Native.itemsOrNil map.name) =
      .error (.wrongKind map.name "list or vector" v) := by
    rw [h]
    refine mapM_of_first_error (fun w hw => ?_) (itemsOrNil_eq_error hv)
    obtain ⟨row, hrow⟩ := hfront w hw
    exact ⟨row, itemsOrNil_eq_ok hrow⟩
  rw [mapAll_eq, hrows]
  rfl

end HigherOrder

/-- Calling `map` of a function and of some sequences calls the function with their elements at the
indices below the length of the shortest in turn. It gives the list of the values if all these calls
have one, and fails as the first call that fails does, in the state that this call left. If there is
anything but sequences it fails before all calls. A single sequence is treated on its own, but to the
same effect. -/
theorem map_calls_by_index (eval : Evaluator) (fuel : Nat) (f first : Value) (more : List Value)
    (s : State) :
    (∀ rows, (first :: more).mapM Value.elements? = some rows →
      (∀ v s₁, eval.callNative (eval.call fuel) (.higherOrder .map) (f :: first :: more) s =
          .value v s₁ ↔
        ∃ vs, Visits (fun index => eval.call fuel f (column rows index))
          (List.range (shortest rows)) s vs s₁ ∧ v = .ofList vs) ∧
      ∀ e s₁, eval.callNative (eval.call fuel) (.higherOrder .map) (f :: first :: more) s =
          .error e s₁ ↔
        ∃ index < shortest rows, ∃ vs s', Visits (fun index => eval.call fuel f (column rows index))
          (List.range index) s vs s' ∧ eval.call fuel f (column rows index) s' = .error e s₁) ∧
    (∀ front v back, first :: more = front ++ v :: back →
      (∀ w ∈ front, ∃ row, w.elements? = some row) → v.elements? = none →
      eval.callNative (eval.call fuel) (.higherOrder .map) (f :: first :: more) s =
        .error (.fault (.wrongKind "map" "list or vector" v)) s) ∧
    eval.callNative (eval.call fuel) (.higherOrder .map) [f, first] =
      HigherOrder.mapOne (eval.call fuel) f first ∧
    HigherOrder.mapOne (eval.call fuel) f first = HigherOrder.mapAll (eval.call fuel) f first [] := by
  have hmap : eval.callNative (eval.call fuel) (.higherOrder .map) (f :: first :: more) =
      HigherOrder.mapAll (eval.call fuel) f first more :=
    HigherOrder.run_map (eval.call fuel) (f :: first :: more)
  refine ⟨fun rows hrows => ?_, fun front v back hargs hfront hv => ?_, rfl,
    HigherOrder.mapOne_eq (eval.call fuel) f first⟩
  · rw [hmap, HigherOrder.mapAll_of_rows hrows]
    refine ⟨fun v s₁ => ?_, fun e s₁ => ?_⟩
    · simp only [Eval.bind_pure_eq_value_iff, Eval.forEach_eq_value_iff]
    · rw [Eval.bind_pure_eq_error_iff, Eval.forEach_range_eq_error_iff]
  · rw [hmap, HigherOrder.mapAll_of_other hargs hfront hv]
    rfl

/-- A state with one atom. -/
def State.sampleCell (content : Value) : State :=
  ⟨⟨#[], #[content], 0⟩, .atRest 9, ⟨[], true, "", ""⟩, .empty, 0⟩

/-- The call `(map reset! cells numbers)`. -/
def Evaluator.sampleMapping (cells numbers : Value) : Eval Value :=
  (eval 0).callNative ((eval 0).call 1) (.higherOrder .map)
    [.native (.cell .reset) 0 none, cells, numbers]

theorem map_calls_by_index_sampleCell :
    Evaluator.sampleMapping (.ofList [.atom 0, .atom 0]) (.ofVector [.int 1, .int 2, .int 3])
      (.sampleCell .nil) = .value (.ofList [.int 1, .int 2]) (.sampleCell (.int 2)) ∧
    Evaluator.sampleMapping (.ofList [.atom 0, .int 7, .atom 0])
      (.ofVector [.int 1, .int 2, .int 3]) (.sampleCell .nil) =
        .error (.fault (.wrongKind "reset!" "atom" (.int 7))) (.sampleCell (.int 1)) ∧
    Evaluator.sampleMapping (.ofList [.atom 0]) (.int 5) (.sampleCell .nil) =
      .error (.fault (.wrongKind "map" "list or vector" (.int 5))) (.sampleCell .nil) := by
  have hmap := fun first more => map_calls_by_index (eval 0) 1 (.native (.cell .reset) 0 none) first
    more (.sampleCell .nil)
  refine ⟨?_, ?_, ?_⟩
  · obtain ⟨hvalue, _⟩ := (hmap (.ofList [.atom 0, .atom 0])
      [.ofVector [.int 1, .int 2, .int 3]]).1 _ rfl
    exact (hvalue _ _).mpr ⟨_, .cons rfl (.cons rfl .nil), rfl⟩
  · obtain ⟨_, herror⟩ := (hmap (.ofList [.atom 0, .int 7, .atom 0])
      [.ofVector [.int 1, .int 2, .int 3]]).1 _ rfl
    exact (herror _ _).mpr ⟨1, by decide, _, _, .cons rfl .nil, rfl⟩
  · refine (hmap (.ofList [.atom 0]) [.int 5]).2.1 [.ofList [.atom 0]] (.int 5) [] rfl ?_ rfl
    intro w hw
    obtain rfl := List.mem_singleton.mp hw
    exact ⟨_, rfl⟩

end SmallLisp
