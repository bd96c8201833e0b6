import Mathlib
import SmallLisp.Eval.Loop
import SmallLisp.Proofs.Value.Equality

/-!
# Annotations

What a value with other metadata has in common with the value. `Annotated` is one annotation, of the
value or of something inside of it, and `Annotations` are some of them in turn. The text of a value
shows no metadata. Neither does equality, with one exception: an annotated closure is a new
function, which is equal only to itself. The main statement is `equal_and_text_of_annotations`.
-/

namespace SmallLisp

/-! ### Annotating -/

/-- `Annotated identity target v w`: the value `w` is `v` with other metadata on `target`, which is
`v` or stands inside of it. A closure with other metadata has the given identity. -/
inductive Annotated (identity : Nat) (target : Value) : Value → Value → Prop where
  | here {m w} (h : target.withMetadata? m identity = some w) : Annotated identity target target w
  | listElement {front v w back m} (h : Annotated identity target v w) :
      Annotated identity target (.list (front ++ v :: back) m) (.list (front ++ w :: back) m)
  | vectorElement {front v w back m} (h : Annotated identity target v w) :
      Annotated identity target (.vector (front ++ v :: back) m) (.vector (front ++ w :: back) m)
  | mapValue {front key v w back m} (h : Annotated identity target v w) :
      Annotated identity target (.map (front ++ (key, v) :: back) m)
        (.map (front ++ (key, w) :: back) m)

/-- `Annotations next targets v w`: the value `w` comes from `v` by annotating the targets in turn,
where identities are given from `next` on. -/
inductive Annotations : Nat → List Value → Value → Value → Prop where
  | none {next v} : Annotations next [] v v
  | cons {next target targets u v w} (h : Annotated next target u v)
      (hs : Annotations (next + 1) targets v w) : Annotations next (target :: targets) u w

/-- Whether a value is a closure. -/
def Value.IsClosure : Value → Prop
  | .closure _ _ _ => True
  | _ => False

/-! ### Texts -/

namespace Value

variable {atomText : AtomId → String} {readable : Bool}

theorem renderAll_eq (vs : List Value) :
    renderAll atomText readable vs = vs.map (render atomText readable) := by
  induction vs with
  | nil => rfl
  | cons v rest ih => rw [renderAll, ih, List.map_cons]

theorem renderEntries_append (entries more : List (String × Value)) :
    renderEntries atomText readable (entries ++ more) =
      renderEntries atomText readable entries ++ renderEntries atomText readable more := by
  induction entries with
  | nil => rfl
  | cons entry rest ih => rw [List.cons_append, renderEntries, renderEntries, ih]; rfl

end Value

section

variable {identity next : Nat} {target v w : Value} {targets : List Value}

theorem Annotated.render_eq (h : Annotated identity target v w) (atomText : AtomId → String)
    (readable : Bool) : v.render atomText readable = w.render atomText readable := by
  induction h with
  | here h => cases target <;> cases h <;> rfl
  | listElement _ ih =>
    simp only [Value.render, Value.renderAll_eq, List.map_append, List.map_cons, ih]
  | vectorElement _ ih =>
    simp only [Value.render, Value.renderAll_eq, List.map_append, List.map_cons, ih]
  | mapValue _ ih => simp only [Value.render, Value.renderEntries_append, Value.renderEntries, ih]

theorem Annotations.render_eq (h : Annotations next targets v w) (atomText : AtomId → String)
    (readable : Bool) : v.render atomText readable = w.render atomText readable := by
  induction h with
  | none => rfl
  | cons h _ ih => exact (h.render_eq atomText readable).trans ih

/-! ### What is no function keeps its essence -/

theorem Annotated.essence_eq (h : Annotated identity target v w) (ht : ¬ target.IsClosure) :
    v.essence = w.essence := by
  induction h with
  | here h =>
    cases target with
    | closure fn body m => exact absurd trivial ht
    | _ => cases h <;> rfl
  | listElement _ ih =>
    simp only [Value.essence, Value.essences_eq, List.map_append, List.map_cons, ih]
  | vectorElement _ ih =>
    simp only [Value.essence, Value.essences_eq, List.map_append, List.map_cons, ih]
  | mapValue _ ih =>
    simp only [Value.essence, Value.essenceEntries_eq, List.map_append, List.map_cons, ih]

theorem Annotations.essence_eq (h : Annotations next targets v w)
    (hts : ∀ target ∈ targets, ¬ target.IsClosure) : v.essence = w.essence := by
  induction h with
  | none => rfl
  | cons h _ ih =>
    obtain ⟨ht, hts⟩ := List.forall_mem_cons.mp hts
    exact (h.essence_eq ht).trans (ih hts)

/-! ### An annotated closure is a new function -/

namespace Essence

mutual

/-- The identities of the closures in a value. -/
def closures : Essence → List Nat
  | sequence items => closuresOfAll items
  | map entries => closuresOfEntries entries
  | closure identity => [identity]
  | _ => []

def closuresOfAll : List Essence → List Nat
  | [] => []
  | e :: rest => e.closures ++ closuresOfAll rest

def closuresOfEntries : List (String × Essence) → List Nat
  | [] => []
  | (_, e) :: rest => e.closures ++ closuresOfEntries rest

end

theorem closuresOfAll_eq (es : List Essence) : closuresOfAll es = es.flatMap closures := by
  induction es with
  | nil => rfl
  | cons e rest ih => rw [closuresOfAll, ih, List.flatMap_cons]

theorem closuresOfEntries_eq (entries : List (String × Essence)) :
    closuresOfEntries entries = entries.flatMap fun entry => entry.2.closures := by
  induction entries with
  | nil => rfl
  | cons entry rest ih => rw [closuresOfEntries, ih, List.flatMap_cons]

end Essence

namespace Value

/-- The identities of the closures in a value, apart from those inside of functions and atoms. -/
def closures (v : Value) : List Nat := v.essence.closures

theorem closures_list (items : List Value) (m : Option Value) :
    (list items m).closures = items.flatMap closures := by
  simp only [closures, essence, essences_eq, Essence.closures, Essence.closuresOfAll_eq,
    List.flatMap_map]
  rfl

theorem closures_vector (items : List Value) (m : Option Value) :
    (vector items m).closures = items.flatMap closures := closures_list items m

theorem closures_map (entries : List (String × Value)) (m : Option Value) :
    (map entries m).closures = entries.flatMap fun entry => entry.2.closures := by
  simp only [closures, essence, essenceEntries_eq, Essence.closures, Essence.closuresOfEntries_eq,
    List.flatMap_map]

end Value

theorem closures_of_withMetadata {m : Value} (h : target.withMetadata? m identity = some w) :
    target.IsClosure ∧ w.closures = [identity] ∨
      ¬ target.IsClosure ∧ w.closures = target.closures := by
  cases target with
  | closure fn body m =>
    cases h
    exact .inl ⟨trivial, rfl⟩
  | _ =>
    cases h
    all_goals exact .inr ⟨id, rfl⟩

/-- An annotation changes the identities of the closures in one place. -/
theorem Annotated.exists_closures (h : Annotated identity target v w) : ∃ front back middle,
    v.closures = front ++ (target.closures ++ back) ∧ w.closures = front ++ (middle ++ back) ∧
      (target.IsClosure ∧ middle = [identity] ∨
        ¬ target.IsClosure ∧ middle = target.closures) := by
  induction h with
  | here h => exact ⟨[], [], _, by simp, by simp, closures_of_withMetadata h⟩
  | @listElement front v w back m _ ih | @vectorElement front v w back m _ ih =>
    obtain ⟨front', back', middle, hv, hw, hmiddle⟩ := ih
    refine ⟨front.flatMap Value.closures ++ front', back' ++ back.flatMap Value.closures, middle,
      ?_, ?_, hmiddle⟩
    · simp [Value.closures_list, Value.closures_vector, hv]
    · simp [Value.closures_list, Value.closures_vector, hw]
  | @mapValue front key v w back m _ ih =>
    obtain ⟨front', back', middle, hv, hw, hmiddle⟩ := ih
    refine ⟨(front.flatMap fun entry => entry.2.closures) ++ front',
      back' ++ back.flatMap fun entry => entry.2.closures, middle, ?_, ?_, hmiddle⟩
    · simp [Value.closures_map, hv]
    · simp [Value.closures_map, hw]

theorem Annotated.mem_closures (h : Annotated identity target v w) (ht : target.IsClosure) :
    identity ∈ w.closures := by
  obtain ⟨front, back, middle, _, hw, ⟨_, rfl⟩ | ⟨hnot, _⟩⟩ := h.exists_closures
  · rw [hw]
    exact List.mem_append_right front List.mem_cons_self
  · exact absurd ht hnot

theorem Annotated.kept_or_mem (h : Annotated identity target v w) {known : Nat}
    (hknown : known ∈ v.closures) : known ∈ w.closures ∨ identity ∈ w.closures := by
  obtain ⟨front, back, middle, hv, hw, hmiddle⟩ := h.exists_closures
  rcases hmiddle with ⟨ht, _⟩ | ⟨_, rfl⟩
  · exact .inr (h.mem_closures ht)
  · rw [hw, ← hv]
    exact .inl hknown

/-- Once a closure got a new identity, there is always one that was given from then on. -/
theorem Annotations.exists_new (h : Annotations next targets v w) {known : Nat}
    (hle : known ≤ next) (hknown : ∃ identity ∈ v.closures, known ≤ identity) :
    ∃ identity ∈ w.closures, known ≤ identity := by
  induction h with
  | none => exact hknown
  | cons h _ ih =>
    obtain ⟨identity, hmem, hidentity⟩ := hknown
    refine ih (by omega) ?_
    rcases h.kept_or_mem hmem with hkept | hnew
    · exact ⟨identity, hkept, hidentity⟩
    · exact ⟨_, hnew, hle⟩

theorem Annotations.exists_new_of_closure (h : Annotations next targets v w)
    (ht : ∃ target ∈ targets, target.IsClosure) : ∃ identity ∈ w.closures, next ≤ identity := by
  induction h with
  | none =>
    obtain ⟨_, hmem, _⟩ := ht
    cases hmem
  | cons h hs ih =>
    obtain ⟨target, hmem, ht⟩ := ht
    rcases List.mem_cons.mp hmem with rfl | hmem
    · exact hs.exists_new (by omega) ⟨_, h.mem_closures ht, Nat.le_refl _⟩
    · obtain ⟨identity, hnew, hidentity⟩ := ih ⟨target, hmem, ht⟩
      exact ⟨identity, hnew, by omega⟩

/-! ### Equality -/

/-- A value is equal to an annotated copy exactly if none of the annotated values is a closure. -/
theorem Annotations.equal_iff (h : Annotations next targets v w)
    (hfresh : ∀ identity ∈ v.closures, identity < next) :
    v.equal w = true ↔ ∀ target ∈ targets, ¬ target.IsClosure := by
  rw [Value.equal_iff]
  refine ⟨fun hessence target hmem ht => ?_, h.essence_eq⟩
  obtain ⟨identity, hnew, hle⟩ := h.exists_new_of_closure ⟨target, hmem, ht⟩
  have hclosures : w.closures = v.closures := congrArg Essence.closures hessence.symm
  have hlt := hfresh identity (hclosures ▸ hnew)
  omega

end

/-- Annotations of a value and of what stands inside of it show neither in its text nor in equality,
except that a closure, annotated, is a new function: a value and what it was annotated to are equal
exactly if no closure was annotated. Identities are new that no closure in the value has. -/
theorem equal_and_text_of_annotations {next : Nat} {targets : List Value} {v w : Value}
    (hfresh : ∀ identity ∈ v.closures, identity < next) (h : Annotations next targets v w) :
    (v.equal w = true ↔ ∀ target ∈ targets, ¬ target.IsClosure) ∧
    (w.equal v = true ↔ ∀ target ∈ targets, ¬ target.IsClosure) ∧
    ∀ atomText readable, v.render atomText readable = w.render atomText readable := by
  have hequal := h.equal_iff hfresh
  refine ⟨hequal, ?_, h.render_eq⟩
  rw [Value.equal_iff, eq_comm, ← Value.equal_iff]
  exact hequal

/-- A list of a vector, a native function and a closure with an identity. -/
def Value.sampleHolder (m m' : Option Value) (identity : Nat) : Value :=
  .ofList [.vector [.int 1] m, .native .throw 0 m',
    .closure ⟨identity, ⟨[⟨"x"⟩], none⟩, 0, false⟩ (.named "x") none]

theorem equal_and_text_of_annotations_sampleHolder :
    (∃ targets, Annotations 2 targets (.sampleHolder none none 1)
      (.sampleHolder (some .nil) (some (.int 7)) 1) ∧
      (Value.sampleHolder none none 1).equal (.sampleHolder (some .nil) (some (.int 7)) 1) =
        true) ∧
    ∃ fn targets w, Annotations 2 targets (.sampleHolder none none 1) w ∧ fn ∈ targets ∧
      fn.IsClosure ∧ (Value.sampleHolder none none 1).equal w = false ∧
        ∀ atomText, (Value.sampleHolder none none 1).render atomText true =
          w.render atomText true := by
  have hfresh : ∀ identity ∈ (Value.sampleHolder none none 1).closures, identity < 2 := by
    intro identity hmem
    obtain rfl : identity = 1 := List.mem_singleton.mp hmem
    decide
  have hvector : Annotated 2 (.ofVector [.int 1]) (.sampleHolder none none 1)
      (.sampleHolder (some .nil) none 1) :=
    @Annotated.listElement _ _ [] _ _ _ none (.here rfl)
  have hnative : Annotated 3 (.native .throw 0 none) (.sampleHolder (some .nil) none 1)
      (.sampleHolder (some .nil) (some (.int 7)) 1) :=
    @Annotated.listElement _ _ [.vector [.int 1] (some .nil)] _ _ _ none (.here rfl)
  have hclosure : Annotated 2 (.closure ⟨1, ⟨[⟨"x"⟩], none⟩, 0, false⟩ (.named "x") none)
      (.sampleHolder none none 1) _ :=
    @Annotated.listElement _ _ [.ofVector [.int 1], .native .throw 0 none] _ _ [] none
      (@Annotated.here _ _ .nil _ rfl)
  refine ⟨⟨_, .cons hvector (.cons hnative .none), ?_⟩,
    ⟨_, _, _, .cons hclosure .none, List.mem_cons_self, trivial, ?_, ?_⟩⟩
  · refine (equal_and_text_of_annotations hfresh (.cons hvector (.cons hnative .none))).1.mpr ?_
    intro target hmem
    rcases List.mem_cons.mp hmem with rfl | hmem
    · exact id
    · obtain rfl := List.mem_singleton.mp hmem
      exact id
  · rw [Bool.eq_false_iff, ne_eq,
      (equal_and_text_of_annotations hfresh (.cons hclosure .none)).1]
    exact fun hnone => hnone _ List.mem_cons_self trivial
  · exact fun atomText =>
      (equal_and_text_of_annotations hfresh (.cons hclosure .none)).2.2 atomText true

/-- A heap with one frame that binds `=` and `with-meta`. -/
def Heap.sampleEquals : Heap :=
  ⟨#[⟨[("=", .native (.comparison .eq) 0 none),
    ("with-meta", .native (.metadata .withMeta) 1 none)], none⟩], #[], 2⟩

/-- The form `(do (define f (lambda (x) x)) (= f (with-meta f 1)))`. -/
def Value.sampleAnnotated : Value :=
  .ofList [.named "do",
    .ofList [.named "define", .named "f",
      .ofList [.named "lambda", .ofList [.named "x"], .named "x"]],
    .ofList [.named "=", .named "f", .ofList [.named "with-meta", .named "f", .int 1]]]

/-- A closure with other metadata is not equal to the closure, also where a program compares the
two. -/
theorem annotated_closure_differs :
    (∃ v w, Annotations 1 [v] v w ∧ v.equal w = false ∧ w.equal v = false) ∧
    ∃ s, eval 20 .sampleAnnotated 0 ⟨.sampleEquals, .atRest 9, ⟨[], true, "", ""⟩, .empty, 0⟩ =
      .value (.bool false) s := by
  refine ⟨⟨.closure ⟨0, ⟨[⟨"x"⟩], none⟩, 0, false⟩ (.named "x") none, _,
    .cons (@Annotated.here _ _ (.int 1) _ rfl) .none, ?_, ?_⟩, ⟨_, by cbv⟩⟩
  · cbv
  · cbv

end SmallLisp
