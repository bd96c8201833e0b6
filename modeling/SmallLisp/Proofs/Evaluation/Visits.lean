import SmallLisp.Eval.Basic

/-!
# Visits in turn

What `Eval.forEach` comes to, told of the single visits: each begins in the state that the one
before it left, and the first that fails is the last one. `forEach_eq_value_iff` and
`forEach_eq_error_iff` say so for values and for errors.
-/

namespace SmallLisp

/-- `Visits visit as s bs s₁`: from the state `s` on, visiting the elements in turn gives the values
`bs` and leaves the state `s₁`. -/
inductive Visits {α β : Type} (visit : α → Eval β) : List α → State → List β → State → Prop where
  | nil {s} : Visits visit [] s [] s
  | cons {a as s b s₁ bs s₂} (h : visit a s = .value b s₁) (hs : Visits visit as s₁ bs s₂) :
      Visits visit (a :: as) s (b :: bs) s₂

namespace Eval

variable {α β γ : Type}

/-! ### Values that are changed -/

section

variable {m : Eval α} {g : α → β} {s s₁ : State} {b : β} {e : Error}

theorem bind_pure_eq_value_iff :
    (m >>= fun a => pure (g a)) s = .value b s₁ ↔ ∃ a, m s = .value a s₁ ∧ b = g a := by
  rw [bind_apply]
  cases m s with
  | value a s' =>
    simp only [pure_apply, Outcome.value.injEq]
    constructor
    · rintro ⟨rfl, rfl⟩
      exact ⟨a, ⟨rfl, rfl⟩, rfl⟩
    · rintro ⟨_, ⟨rfl, rfl⟩, rfl⟩
      exact ⟨rfl, rfl⟩
  | _ => simp

theorem bind_pure_eq_error_iff :
    (m >>= fun a => pure (g a)) s = .error e s₁ ↔ m s = .error e s₁ := by
  rw [bind_apply]
  cases m s <;> simp [pure_apply]

end

/-! ### Visits -/

section

variable {visit : α → Eval β} {as : List α} {bs : List β} {s s₁ : State} {e : Error}

theorem forEach_map (visit : β → Eval γ) (g : α → β) (as : List α) :
    forEach visit (as.map g) = forEach (fun a => visit (g a)) as := by
  induction as with
  | nil => rfl
  | cons a rest ih =>
    rw [List.map_cons, forEach, forEach, ih]

theorem forEach_cons_apply (visit : α → Eval β) (a : α) (rest : List α) (s : State) :
    forEach visit (a :: rest) s =
      match visit a s with
      | .value b s₁ => (forEach visit rest >>= fun bs => pure (b :: bs)) s₁
      | .error e s₁ => .error e s₁
      | .halt h s₁ => .halt h s₁ := rfl

theorem forEach_eq_value_iff : forEach visit as s = .value bs s₁ ↔ Visits visit as s bs s₁ := by
  constructor
  · intro h
    induction as generalizing s bs with
    | nil =>
      cases h
      exact .nil
    | cons a rest ih =>
      rw [forEach_cons_apply] at h
      cases ha : visit a s with
      | value b s' =>
        rw [ha] at h
        obtain ⟨others, hothers, rfl⟩ := bind_pure_eq_value_iff.mp h
        exact .cons ha (ih hothers)
      | _ =>
        rw [ha] at h
        cases h
  · intro h
    induction h with
    | nil => rfl
    | cons ha _ ih =>
      rw [forEach_cons_apply, ha]
      exact bind_pure_eq_value_iff.mpr ⟨_, ih, rfl⟩

/-- Visits fail as the first one that fails, in the state that those in front of it left. -/
theorem forEach_eq_error_iff : forEach visit as s = .error e s₁ ↔
    ∃ front a back bs s', as = front ++ a :: back ∧ Visits visit front s bs s' ∧
      visit a s' = .error e s₁ := by
  constructor
  · intro h
    induction as generalizing s with
    | nil => cases h
    | cons a rest ih =>
      rw [forEach_cons_apply] at h
      cases ha : visit a s with
      | value b s' =>
        rw [ha] at h
        obtain ⟨front, a', back, bs, s'', rfl, hfront, herror⟩ := ih (bind_pure_eq_error_iff.mp h)
        exact ⟨a :: front, a', back, b :: bs, s'', rfl, .cons ha hfront, herror⟩
      | error e' s' =>
        rw [ha] at h
        cases h
        exact ⟨[], a, rest, [], s, rfl, .nil, ha⟩
      | halt cause s' =>
        rw [ha] at h
        cases h
  · rintro ⟨front, a, back, bs, s', rfl, hfront, herror⟩
    induction hfront with
    | nil =>
      change forEach visit (a :: back) _ = _
      rw [forEach_cons_apply, herror]
    | cons hfirst _ ih =>
      change forEach visit (_ :: (_ ++ a :: back)) _ = _
      rw [forEach_cons_apply, hfirst]
      exact bind_pure_eq_error_iff.mpr (ih herror)

theorem range_eq_append_iff {n i : Nat} {front : List Nat} :
    (∃ back, List.range n = front ++ i :: back) ↔ i < n ∧ front = List.range i := by
  constructor
  · rintro ⟨back, h⟩
    have hlength : n = front.length + (back.length + 1) := by
      simpa using congrArg List.length h
    have hi : i = front.length := by
      have hget := congrArg (·[front.length]?) h
      simpa [show front.length < n by omega] using hget.symm
    have hfront : front = (List.range n).take front.length := by
      rw [h, List.take_left]
    rw [List.take_range, Nat.min_eq_left (by omega)] at hfront
    exact ⟨by omega, hi ▸ hfront⟩
  · rintro ⟨hlt, rfl⟩
    obtain ⟨k, rfl⟩ : ∃ k, n = i + (k + 1) := ⟨n - i - 1, by omega⟩
    rw [List.range_add, List.range_succ_eq_map, List.map_cons]
    exact ⟨_, rfl⟩

theorem forEach_range_eq_error_iff {visit : Nat → Eval β} {n : Nat} :
    forEach visit (List.range n) s = .error e s₁ ↔
      ∃ i < n, ∃ bs s', Visits visit (List.range i) s bs s' ∧ visit i s' = .error e s₁ := by
  rw [forEach_eq_error_iff]
  constructor
  · rintro ⟨front, i, back, bs, s', hrange, hfront, herror⟩
    obtain ⟨hlt, rfl⟩ := range_eq_append_iff.mp ⟨back, hrange⟩
    exact ⟨i, hlt, bs, s', hfront, herror⟩
  · rintro ⟨i, hlt, bs, s', hfront, herror⟩
    obtain ⟨back, hrange⟩ := range_eq_append_iff.mpr ⟨hlt, rfl⟩
    exact ⟨List.range i, i, back, bs, s', hrange, hfront, herror⟩

end

end Eval

theorem Visits.length_eq {α β : Type} {visit : α → Eval β} {as : List α} {bs : List β}
    {s s₁ : State} (h : Visits visit as s bs s₁) : bs.length = as.length := by
  induction h with
  | nil => rfl
  | cons _ _ ih => rw [List.length_cons, List.length_cons, ih]

end SmallLisp
