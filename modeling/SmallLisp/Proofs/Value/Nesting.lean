import SmallLisp.Value.Template

/-!
# Nesting

How deep lists and vectors are nested in a value, and how long they are at most. The expression that
builds the list of some templates holds the expression of those behind the first one. So it nests
with their number, and not only with the nesting of the template.
-/

namespace SmallLisp.Value

mutual

/-- How many lists and vectors are around the innermost part of a value. -/
def nesting : Value → Nat
  | list items _ => nestingOfAll items + 1
  | vector items _ => nestingOfAll items + 1
  | _ => 0

/-- The greatest nesting of some values. -/
def nestingOfAll : List Value → Nat
  | [] => 0
  | v :: rest => max v.nesting (nestingOfAll rest)

end

mutual

/-- The greatest number of elements of a list or vector that a value is built of. -/
def width : Value → Nat
  | list items _ => max items.length (widthOfAll items)
  | vector items _ => max items.length (widthOfAll items)
  | _ => 0

/-- The greatest width of some values. -/
def widthOfAll : List Value → Nat
  | [] => 0
  | v :: rest => max v.width (widthOfAll rest)

end

theorem nesting_le_of_mem {v : Value} {items : List Value} (h : v ∈ items) :
    v.nesting ≤ nestingOfAll items := by
  induction items with
  | nil => cases h
  | cons first rest ih =>
    rw [nestingOfAll]
    cases h with
    | head => exact Nat.le_max_left _ _
    | tail _ h => exact Nat.le_trans (ih h) (Nat.le_max_right _ _)

theorem width_le_of_mem {v : Value} {items : List Value} (h : v ∈ items) :
    v.width ≤ widthOfAll items := by
  induction items with
  | nil => cases h
  | cons first rest ih =>
    rw [widthOfAll]
    cases h with
    | head => exact Nat.le_max_left _ _
    | tail _ h => exact Nat.le_trans (ih h) (Nat.le_max_right _ _)

theorem nesting_headD_le (items : List Value) : (items.headD nil).nesting ≤ nestingOfAll items := by
  cases items with
  | nil => exact Nat.zero_le _
  | cons first rest => exact Nat.le_max_left _ _

theorem nesting_of_items {v : Value} {items : List Value} (h : v.items? = some items) :
    v.nesting = nestingOfAll items + 1 := by
  cases v with
  | list _ _ | vector _ _ =>
    cases h
    rfl
  | _ => cases h

theorem nesting_argsOf?_lt {name : String} {v : Value} {args : List Value}
    (h : v.argsOf? name = some args) : nestingOfAll args < v.nesting := by
  unfold argsOf? at h
  split at h
  · next head args' hitems =>
    split at h
    · cases h
      rw [nesting_of_items hitems]
      exact Nat.lt_succ_of_le (Nat.le_max_right _ _)
    · cases h
  · cases h

/-! ### The expressions of templates -/

theorem nesting_call (name : String) (first second : Value) :
    (ofList [named name, first, second]).nesting = max first.nesting second.nesting + 1 := by
  simp [ofList, named, nesting, nestingOfAll]

theorem nesting_quote (v : Value) : (ofList [named "quote", v]).nesting = v.nesting + 1 := by
  simp [ofList, named, nesting, nestingOfAll]

theorem nesting_template_of_items {t : Value} {items : List Value} (h : t.items? = some items) :
    t.template.nesting = (templateItems items).nesting := by
  cases t with
  | list _ _ | vector _ _ =>
    cases h
    cases items with
    | nil => exact nesting_quote _
    | cons first rest => rfl
  | _ => cases h

/-- The expression nests once for each of some templates. -/
theorem length_le_nesting_templateItems {items : List Value}
    (h : ∀ v ∈ items, v.isNamed "unquote" = false) :
    items.length + 2 ≤ (templateItems items).nesting := by
  induction items with
  | nil => exact Nat.le_of_eq (nesting_quote (ofList [])).symm
  | cons first rest ih =>
    have hrest := ih fun v hv => h v (.tail first hv)
    rw [templateItems, h first (.head rest), if_neg Bool.false_ne_true, List.length_cons]
    split
    · rw [nesting_call]
      omega
    · rw [nesting_call]
      omega

/-- The expression nests no deeper than what stands at the end of it, behind all of the calls. -/
theorem nesting_templateItems_le {items : List Value} {bound : Nat} (htwo : 2 ≤ bound)
    (h : ∀ v ∈ items, v.nesting ≤ bound ∧ v.template.nesting ≤ bound) :
    (templateItems items).nesting ≤ items.length + bound := by
  induction items with
  | nil => exact Nat.le_trans (Nat.le_of_eq (nesting_quote _)) (Nat.le_add_left_of_le htwo)
  | cons first rest ih =>
    have hrest := ih fun v hv => h v (.tail first hv)
    obtain ⟨hfirst, htemplate⟩ := h first (.head rest)
    rw [templateItems, List.length_cons]
    split
    · -- The form behind `unquote` takes the place of the whole expression.
      cases rest with
      | nil => exact Nat.zero_le _
      | cons form _ => exact Nat.le_add_left_of_le (h form (.tail first (.head _))).1
    · split
      · next args hargs =>
        have hform := nesting_headD_le args
        have hargs := nesting_argsOf?_lt hargs
        rw [nesting_call]
        omega
      · rw [nesting_call]
        omega

/-- What the nesting of the expression of a template is bounded by. -/
def nestingBound (t : Value) : Nat := t.nesting * (t.width + 1) + 1

theorem nestingBound_le_of_mem {t : Value} {items : List Value} (h : t ∈ items) :
    t.nestingBound ≤ nestingOfAll items * (widthOfAll items + 1) + 1 :=
  Nat.succ_le_succ (Nat.mul_le_mul (nesting_le_of_mem h) (Nat.succ_le_succ (width_le_of_mem h)))

theorem nesting_templateItems_le_mul {items : List Value}
    (h : ∀ t ∈ items, t.template.nesting ≤ t.nestingBound) :
    (templateItems items).nesting ≤
      (nestingOfAll items + 1) * (max items.length (widthOfAll items) + 1) + 1 := by
  have hbound := nesting_templateItems_le (Nat.le_max_left 2
      (nestingOfAll items * (widthOfAll items + 1) + 1)) fun t ht => by
    have hnesting : t.nesting ≤ t.nestingBound :=
      Nat.le_succ_of_le (Nat.le_mul_of_pos_right _ (Nat.succ_pos _))
    have hle := Nat.le_trans (nestingBound_le_of_mem ht) (Nat.le_max_right 2 _)
    exact ⟨Nat.le_trans hnesting hle, Nat.le_trans (h t ht) hle⟩
  have hmul : nestingOfAll items * (widthOfAll items + 1) ≤
      nestingOfAll items * (max items.length (widthOfAll items) + 1) :=
    Nat.mul_le_mul_left _ (Nat.succ_le_succ (Nat.le_max_right _ _))
  rw [Nat.succ_mul]
  omega

mutual

/-- The expression of a template nests no deeper than the template, but for a factor that is the
greatest number of elements in it. -/
theorem nesting_template_le : ∀ t : Value, t.template.nesting ≤ t.nestingBound
  | list items m => by
    rw [nesting_template_of_items (t := list items m) rfl]
    exact nesting_templateItems_le_mul (nesting_templates_le items)
  | vector items m => by
    rw [nesting_template_of_items (t := vector items m) rfl]
    exact nesting_templateItems_le_mul (nesting_templates_le items)
  | nil | bool _ | int _ | str _ | keyword _ | symbol _ | map _ _ | native _ _ _ | closure _ _ _
  | atom _ => Nat.le_refl _

theorem nesting_templates_le : ∀ items : List Value, ∀ t ∈ items,
    t.template.nesting ≤ t.nestingBound
  | [], _, h => nomatch h
  | first :: rest, t, h => by
    cases h with
    | head => exact nesting_template_le first
    | tail _ h => exact nesting_templates_le rest t h

end

end SmallLisp.Value
