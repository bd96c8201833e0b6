import SmallLisp.Eval.Expansion
import SmallLisp.Proofs.Evaluation.Parts
import SmallLisp.Proofs.Heap.Reach
import SmallLisp.Proofs.Native.References
import SmallLisp.Proofs.Reading.Acceptance

/-!
# References in the parts of forms

What a special form is taken apart into, what a call binds and what a macro call calls have no
references but those of the form, of the arguments and of the heap. Forms that were read refer to
nothing.
-/

namespace SmallLisp

/-! ### Parts -/

/-- The forms among the parts of a special form. -/
def Construct.forms : Construct → List Value
  | define _ expr => [expr]
  | letIn pairs body => body :: pairs.map Prod.snd
  | quote form => [form]
  | quasiquote template => [template]
  | defineMacro _ expr => [expr]
  | macroExpand form => [form]
  | attempt form handler => form :: (handler.map Prod.snd).toList
  | sequence forms => forms
  | branch condition yes no => condition :: yes :: no.toList
  | abstraction _ body => [body]

namespace Reach

/-- Whether only references of a reach occur in what a step comes to. -/
def AdmitsStep (P : Reach) : Step → Prop
  | .done v => P.Admits v
  | .goOn form f => P.Admits form ∧ P.opens f

instance : Persists fun (P : Reach) (entry : String × Value) => P.Admits entry.2 :=
  ⟨fun hsub h => h.mono hsub⟩

instance : Persists AdmitsStep where
  mono {P P' step} hsub h := by
    cases step with
    | done v => exact Admits.mono h hsub
    | goOn form f => exact ⟨h.1.mono hsub, hsub.opens h.2⟩

end Reach

namespace Special

variable {P : Reach} {op : Special} {args : List Value}

theorem body_admits {forms : List Value} (h : P.AdmitsAll forms) : P.Admits (body forms) := by
  unfold body
  split
  · exact Reach.admits_nil
  · exact h _ List.mem_cons_self
  · exact Reach.admits_ofList.mpr (Reach.admitsAll_cons.mpr ⟨Reach.admits_named, h⟩)

theorem single_admits (h : P.AdmitsAll args) : Returns P.Admits (op.single args) := by
  unfold single
  split
  · exact .ok (h _ List.mem_cons_self)
  · exact .error

theorem definition_admits (h : P.AdmitsAll args) :
    Returns (fun pair => P.Admits pair.2) (op.definition args) := by
  unfold definition
  split
  · exact (Returns.anything _).bind fun s _ => .ok (h _ (by simp))
  · exact .error

theorem bindings_admits (h : P.AdmitsAll args) :
    Returns (fun pair => (∀ binding ∈ pair.1, P.Admits binding.2) ∧ P.Admits pair.2)
      (bindings args) := by
  unfold bindings
  split
  · exact .error
  · next first forms =>
    obtain ⟨hfirst, hforms⟩ := Reach.admitsAll_cons.mp h
    split
    · exact .error
    · next items hitems =>
      split
      · exact .error
      · next pairs hpairs =>
        refine .ok ⟨fun binding hbinding => ?_, body_admits hforms⟩
        exact hfirst.items hitems _ (mem_of_pairs? hpairs binding hbinding).2

theorem clause_admits {form : Value} (h : P.Admits form) :
    Returns (fun pair => P.Admits pair.2) (clause form) := by
  unfold clause
  split
  · next items m =>
    have hitems := (Reach.admits_list.mp h).1
    split
    · split
      · split
        · exact .ok (hitems _ (by simp))
        · exact .error
      · exact .error
    · exact .error
  · exact .error

theorem attempt_admits (h : P.AdmitsAll args) :
    Returns (fun pair => P.Admits pair.1 ∧ ∀ handler ∈ pair.2, P.Admits handler.2)
      (attempt args) := by
  unfold attempt
  split
  · exact .ok ⟨h _ List.mem_cons_self, nofun⟩
  · next form handler =>
    obtain ⟨hform, hhandler⟩ := Reach.admitsAll_cons.mp h
    have hclause := hhandler handler List.mem_cons_self
    refine (clause_admits hclause).bind fun pair hpair => .ok ⟨hform, ?_⟩
    rintro _ ⟨⟩
    exact hpair
  · exact .error

theorem abstraction_admits (h : P.AdmitsAll args) :
    Returns (fun pair => P.Admits pair.2) (abstraction args) := by
  unfold abstraction
  split
  · exact .error
  · next first forms =>
    exact (Returns.anything _).bind fun ps _ => .ok (body_admits (Reach.admitsAll_cons.mp h).2)

/-- The parts of a special form are admitted where its forms are. -/
theorem parse_admits (op : Special) (h : P.AdmitsAll args) :
    Returns (fun c => P.AdmitsAll c.forms) (op.parse args) := by
  have hsingle : ∀ {v : Value}, P.Admits v → P.AdmitsAll [v] := by
    intro v hv
    simpa using hv
  cases op with
  | define => exact (definition_admits h).map fun pair hpair => hsingle hpair
  | letForm =>
    refine (bindings_admits h).map fun pair hpair => Reach.admitsAll_cons.mpr ⟨hpair.2, ?_⟩
    intro v hv
    obtain ⟨binding, hbinding, rfl⟩ := List.mem_map.mp hv
    exact hpair.1 binding hbinding
  | quote => exact (single_admits h).map fun form hform => hsingle hform
  | quasiquote => exact (single_admits h).map fun form hform => hsingle hform
  | defineMacro => exact (definition_admits h).map fun pair hpair => hsingle hpair
  | macroExpand => exact (single_admits h).map fun form hform => hsingle hform
  | tryForm =>
    refine (attempt_admits h).map fun pair hpair => Reach.admitsAll_cons.mpr ⟨hpair.1, ?_⟩
    obtain ⟨form, handler⟩ := pair
    cases handler with
    | none => exact Reach.admitsAll_nil
    | some clause => exact hsingle (hpair.2 clause rfl)
  | doForm => exact .ok h
  | ifForm =>
    match args, h with
    | [condition, yes], h => exact .ok h
    | [condition, yes, no], h => exact .ok h
    | [], _ => exact .error
    | [_], _ => exact .error
    | _ :: _ :: _ :: _ :: _, _ => exact .error
  | lambda => exact (abstraction_admits h).map fun pair hpair => hsingle hpair

end Special

theorem bindings?_admits {P : Reach} {params : Params} {args : List Value} (h : P.AdmitsAll args) :
    Returns P.AdmitsEntries (Heap.bindings? params args) := by
  unfold Heap.bindings?
  dsimp only
  split
  · exact .error
  · refine .ok (Reach.AdmitsEntries.ofList fun entry hentry => ?_)
    rcases List.mem_append.mp hentry with hrequired | hrest
    · obtain ⟨pair, hpair, rfl⟩ := List.mem_map.mp hrequired
      exact h _ (List.of_mem_zip hpair).2
    · obtain ⟨s, _, rfl⟩ := List.mem_map.mp hrest
      exact Reach.admits_ofList.mpr (h.of_subset fun v hv => List.mem_of_mem_drop hv)

theorem macroCall?_admits {P : Reach} {h : Heap} {f : FrameId} {form body : Value} {fn : Lambda}
    {args : List Value} (hclosed : h.Closed P) (hf : P (.scope f)) (hform : P.Admits form)
    (hcall : h.macroCall? f form = some (fn, body, args)) :
    P (.scope fn.scope) ∧ P.Admits body ∧ P.AdmitsAll args := by
  unfold Heap.macroCall? at hcall
  split at hcall
  · next s args' m =>
    split at hcall
    · next fn' body' m' hlookup =>
      split at hcall
      · cases hcall
        obtain ⟨hscope, hbody, _⟩ := Reach.admits_closure.mp (hclosed.lookup? hf hlookup)
        exact ⟨hscope, hbody, (Reach.admitsAll_cons.mp (Reach.admits_list.mp hform).1).2⟩
      · cases hcall
    · cases hcall
  · cases hcall

/-! ### Forms that were read -/

namespace ParseTree

mutual

theorem admits_value (P : Reach) : ∀ t : ParseTree, P.Admits t.value
  | .nil => Reach.admits_of_refs rfl
  | .bool _ => Reach.admits_of_refs rfl
  | .int _ => Reach.admits_of_refs rfl
  | .str _ => Reach.admits_of_refs rfl
  | .symbol _ => Reach.admits_of_refs rfl
  | .keyword _ => Reach.admits_of_refs rfl
  | .list forms => Reach.admits_ofList.mpr (admitsAll_values P forms)
  | .vector forms => Reach.admits_ofVector.mpr (admitsAll_values P forms)
  | .map entries => Reach.admits_ofTable.mpr (admitsEntries_values P entries).ofList
  | .mark m form => by simpa [value] using admits_value P form
  | .annotated metadata target => by
    simpa [value] using ⟨admits_value P target, admits_value P metadata⟩

theorem admitsAll_values (P : Reach) : ∀ forms : List ParseTree, P.AdmitsAll (valuesOfForms forms)
  | [] => Reach.admitsAll_nil
  | form :: rest => Reach.admitsAll_cons.mpr ⟨admits_value P form, admitsAll_values P rest⟩

theorem admitsEntries_values (P : Reach) : ∀ entries : List (KeyTree × ParseTree),
    P.AdmitsEntries (entriesOfMap entries)
  | [] => nofun
  | (_, form) :: rest => by
    intro entry hentry
    rcases List.mem_cons.mp hentry with rfl | hmem
    · exact admits_value P form
    · exact admitsEntries_values P rest entry hmem

end

end ParseTree

/-- A form that reading comes to, whatever is open before, refers to nothing. -/
theorem admits_of_mem_outcomes {lexemes : List Lexeme} {finish last : Position}
    {stack : List Pending} {v : Value}
    (h : .ok v ∈ Reader.outcomes finish (stack.map Pending.opened) last lexemes) (P : Reach) :
    P.Admits v := by
  induction lexemes generalizing last stack with
  | nil => simp [Reader.outcomes] at h
  | cons lexeme rest ih =>
    obtain ⟨scanned, p⟩ := lexeme
    cases scanned with
    | error e => simp [Reader.outcomes] at h
    | ok t =>
      unfold Reader.outcomes at h
      cases hfailure : Reader.failure? rest with
      | some e => simp [hfailure] at h
      | none =>
        simp only [hfailure] at h
        cases hshift : Reader.shift (stack.map Pending.opened) t with
        | error cause =>
          simp only [hshift, List.mem_cons, reduceCtorEq, false_or] at h
          exact @ih p [] h
        | ok progress =>
          have hcovers := Pending.covers_shift hshift
          simp only [hshift] at h
          cases progress with
          | form w =>
            obtain ⟨tree, _, rfl⟩ := hcovers
            rcases List.mem_cons.mp h with heq | hmem
            · cases heq
              exact tree.admits_value P
            · exact @ih p [] hmem
          | pending opened =>
            obtain ⟨inner, _, rfl⟩ := hcovers
            exact ih h

/-- The forms of a text refer to nothing. -/
theorem admits_of_mem_readEach {text : String} {v : Value} (h : .ok v ∈ readEach text) (P : Reach) :
    P.Admits v :=
  @admits_of_mem_outcomes _ _ _ [] _ h P

/-- A form that was read refers to nothing. -/
theorem admits_of_readFirst {text : String} {v : Value} (h : readFirst text = .ok v) (P : Reach) :
    P.Admits v := by
  unfold readFirst at h
  cases hforms : readEach text with
  | nil =>
    rw [hforms] at h
    cases h
    exact Reach.admits_nil
  | cons first rest =>
    rw [hforms] at h
    have hmem : .ok v ∈ readEach text := by
      rw [hforms]
      exact h ▸ List.mem_cons_self
    exact admits_of_mem_readEach hmem P

end SmallLisp
