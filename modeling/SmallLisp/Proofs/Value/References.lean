import SmallLisp.Fault
import SmallLisp.Value.Printer
import SmallLisp.Value.Template

/-!
# References of values

A value leads to the heap in three ways: a closure knows the frame that it was made in, an `eval`
function knows the frame that it evaluates in, and an atom is known by its number. A `Reach` says
which references may occur; whether it admits a value depends on the references in the value alone.
-/

namespace SmallLisp

/-! ### References -/

/-- A way from a value to the heap: the frame of a closure, the frame that an `eval` function
evaluates in, or an atom. -/
inductive Ref where
  | scope (f : FrameId)
  | root (f : FrameId)
  | atom (id : AtomId)
  deriving DecidableEq

def Native.refs : Native → List Ref
  | .eval root => [.root root]
  | _ => []

mutual

/-- The references that occur in a value. -/
def Value.refs : Value → List Ref
  | .list items m => refsOfAll items ++ refsOfMetadata m
  | .vector items m => refsOfAll items ++ refsOfMetadata m
  | .map entries m => refsOfEntries entries ++ refsOfMetadata m
  | .native fn _ m => fn.refs ++ refsOfMetadata m
  | .closure fn body m => .scope fn.scope :: (body.refs ++ refsOfMetadata m)
  | .atom id => [.atom id]
  | _ => []

def refsOfAll : List Value → List Ref
  | [] => []
  | v :: rest => v.refs ++ refsOfAll rest

def refsOfEntries : List (String × Value) → List Ref
  | [] => []
  | (_, v) :: rest => v.refs ++ refsOfEntries rest

def refsOfMetadata : Option Value → List Ref
  | none => []
  | some m => m.refs

end

/-! ### What a reach admits -/

/-- What may be reached: the references that may occur, and the frames that forms may be evaluated
in. An `eval` function opens its frame, and closures are made in frames that are open. -/
@[ext]
structure Reach where
  holds : Ref → Prop
  opens : FrameId → Prop
  opens_of_root : ∀ {f : FrameId}, holds (.root f) → opens f
  scope_of_opens : ∀ {f : FrameId}, opens f → holds (.scope f)

instance : CoeFun Reach fun _ => Ref → Prop := ⟨Reach.holds⟩

namespace Reach

structure Sub (P P' : Reach) : Prop where
  refs : ∀ {r : Ref}, P r → P' r
  opens : ∀ {f : FrameId}, P.opens f → P'.opens f

theorem Sub.refl (P : Reach) : P.Sub P := ⟨id, id⟩

theorem Sub.trans {P P' P'' : Reach} (h : P.Sub P') (h' : P'.Sub P'') : P.Sub P'' :=
  ⟨fun hr => h'.refs (h.refs hr), fun hf => h'.opens (h.opens hf)⟩

/-- Whether only references of a reach occur in a value. -/
def Admits (P : Reach) (v : Value) : Prop := ∀ r ∈ v.refs, P r

def AdmitsAll (P : Reach) (vs : List Value) : Prop := ∀ v ∈ vs, P.Admits v

def AdmitsEntries (P : Reach) (entries : List (String × Value)) : Prop :=
  ∀ entry ∈ entries, P.Admits entry.2

/-- Whether only references of a reach occur in what an error throws. -/
def AdmitsError (P : Reach) (e : Error) : Prop := P.Admits e.caught

/-- No condition on references. -/
def Anything {α : Type} (_ : Reach) (_ : α) : Prop := True

/-- Whether an evaluation ended within a reach, with a value or with an error. -/
def AdmitsResult {α : Type} (V : Reach → α → Prop) (P : Reach) : Except Error α → Prop
  | .ok a => V P a
  | .error e => P.AdmitsError e

/-- A condition on references that stays true when the reach grows. -/
class Persists {α : Type} (V : Reach → α → Prop) : Prop where
  mono : ∀ {P P' : Reach} {a : α}, P.Sub P' → V P a → V P' a

variable {P P' : Reach}

theorem Admits.mono {v : Value} (h : P.Admits v) (hsub : P.Sub P') : P'.Admits v :=
  fun r hr => hsub.refs (h r hr)

theorem AdmitsAll.mono {vs : List Value} (h : P.AdmitsAll vs) (hsub : P.Sub P') : P'.AdmitsAll vs :=
  fun v hv => (h v hv).mono hsub

theorem AdmitsEntries.mono {entries : List (String × Value)} (h : P.AdmitsEntries entries)
    (hsub : P.Sub P') : P'.AdmitsEntries entries :=
  fun entry hentry => (h entry hentry).mono hsub

instance : Persists Admits := ⟨fun hsub h => h.mono hsub⟩

instance : Persists AdmitsAll := ⟨fun hsub h => h.mono hsub⟩

instance : Persists AdmitsEntries := ⟨fun hsub h => h.mono hsub⟩

instance : Persists opens := ⟨fun hsub h => hsub.opens h⟩

instance {α : Type} : Persists (α := α) Anything := ⟨fun _ _ => trivial⟩

instance {α : Type} {V : Reach → α → Prop} [Persists V] :
    Persists fun P (as : List α) => ∀ a ∈ as, V P a :=
  ⟨fun hsub h a ha => Persists.mono hsub (h a ha)⟩

theorem admits_of_refs {v : Value} (h : v.refs = []) : P.Admits v := by
  intro r hr
  rw [h] at hr
  cases hr

@[simp] theorem admitsAll_nil : P.AdmitsAll [] := nofun

@[simp] theorem admitsAll_cons {v : Value} {vs : List Value} :
    P.AdmitsAll (v :: vs) ↔ P.Admits v ∧ P.AdmitsAll vs := by
  simp [AdmitsAll]

@[simp] theorem admitsAll_append {vs ws : List Value} :
    P.AdmitsAll (vs ++ ws) ↔ P.AdmitsAll vs ∧ P.AdmitsAll ws := by
  simp [AdmitsAll, or_imp, forall_and]

theorem AdmitsAll.of_subset {vs ws : List Value} (h : P.AdmitsAll vs) (hws : ∀ w ∈ ws, w ∈ vs) :
    P.AdmitsAll ws := fun w hw => h w (hws w hw)

theorem forall_refsOfAll {vs : List Value} : (∀ r ∈ refsOfAll vs, P r) ↔ P.AdmitsAll vs := by
  induction vs with
  | nil => simp [refsOfAll]
  | cons v vs ih => simp [refsOfAll, or_imp, forall_and, ih, Admits]

theorem forall_refsOfEntries {entries : List (String × Value)} :
    (∀ r ∈ refsOfEntries entries, P r) ↔ P.AdmitsEntries entries := by
  induction entries with
  | nil => simp [refsOfEntries, AdmitsEntries]
  | cons entry rest ih =>
    simp only [refsOfEntries, List.mem_append, or_imp, forall_and, ih]
    simp [AdmitsEntries, Admits]

theorem forall_refsOfMetadata {m : Option Value} :
    (∀ r ∈ refsOfMetadata m, P r) ↔ ∀ v ∈ m, P.Admits v := by
  cases m <;> simp [refsOfMetadata, Admits]

theorem admits_list {items : List Value} {m : Option Value} :
    P.Admits (.list items m) ↔ P.AdmitsAll items ∧ ∀ v ∈ m, P.Admits v := by
  rw [← forall_refsOfAll, ← forall_refsOfMetadata]
  exact List.forall_mem_append

theorem admits_vector {items : List Value} {m : Option Value} :
    P.Admits (.vector items m) ↔ P.AdmitsAll items ∧ ∀ v ∈ m, P.Admits v := by
  rw [← forall_refsOfAll, ← forall_refsOfMetadata]
  exact List.forall_mem_append

theorem admits_map {entries : List (String × Value)} {m : Option Value} :
    P.Admits (.map entries m) ↔ P.AdmitsEntries entries ∧ ∀ v ∈ m, P.Admits v := by
  rw [← forall_refsOfEntries, ← forall_refsOfMetadata]
  exact List.forall_mem_append

theorem admits_native {fn : Native} {identity : Nat} {m : Option Value} :
    P.Admits (.native fn identity m) ↔ (∀ r ∈ fn.refs, P r) ∧ ∀ v ∈ m, P.Admits v := by
  rw [← forall_refsOfMetadata]
  exact List.forall_mem_append

theorem admits_closure {fn : Lambda} {body : Value} {m : Option Value} :
    P.Admits (.closure fn body m) ↔ P (.scope fn.scope) ∧ P.Admits body ∧ ∀ v ∈ m, P.Admits v := by
  rw [← forall_refsOfMetadata]
  exact List.forall_mem_cons.trans (and_congr_right fun _ => List.forall_mem_append)

@[simp] theorem admits_atom {id : AtomId} : P.Admits (.atom id) ↔ P (.atom id) := by
  simp [Admits, Value.refs]

@[simp] theorem admits_ofList {items : List Value} :
    P.Admits (.ofList items) ↔ P.AdmitsAll items := by
  simp [Value.ofList, admits_list]

@[simp] theorem admits_ofVector {items : List Value} :
    P.Admits (.ofVector items) ↔ P.AdmitsAll items := by
  simp [Value.ofVector, admits_vector]

@[simp] theorem admits_ofTable {entries : List (String × Value)} :
    P.Admits (.ofTable entries) ↔ P.AdmitsEntries entries := by
  simp [Value.ofTable, admits_map]

@[simp] theorem admits_nil : P.Admits .nil := admits_of_refs rfl

@[simp] theorem admits_named {name : String} : P.Admits (.named name) := admits_of_refs rfl

@[simp] theorem admits_ofKey {key : String} : P.Admits (.ofKey key) := by
  refine admits_of_refs ?_
  unfold Value.ofKey
  split <;> rfl

/-! ### Parts of values -/

theorem AdmitsAll.headD {vs : List Value} {v : Value} (h : P.AdmitsAll vs) (hv : P.Admits v) :
    P.Admits (vs.headD v) := by
  cases vs with
  | nil => exact hv
  | cons w ws => exact h w List.mem_cons_self

theorem AdmitsAll.tail {vs : List Value} (h : P.AdmitsAll vs) : P.AdmitsAll vs.tail :=
  h.of_subset fun _ hw => List.mem_of_mem_tail hw

theorem Admits.items {v : Value} {items : List Value} (h : P.Admits v)
    (hitems : v.items? = some items) : P.AdmitsAll items := by
  cases v with
  | list items' m =>
    cases hitems
    exact (admits_list.mp h).1
  | vector items' m =>
    cases hitems
    exact (admits_vector.mp h).1
  | _ => cases hitems

theorem Admits.metadata {v m : Value} (h : P.Admits v) (hm : v.metadata? = some m) : P.Admits m := by
  cases v with
  | list items m' => exact (admits_list.mp h).2 m hm
  | vector items m' => exact (admits_vector.mp h).2 m hm
  | map entries m' => exact (admits_map.mp h).2 m hm
  | native fn identity m' => exact (admits_native.mp h).2 m hm
  | closure fn body m' => exact (admits_closure.mp h).2.2 m hm
  | _ => cases hm

theorem Admits.withMetadata {v m w : Value} {identity : Nat} (h : P.Admits v) (hm : P.Admits m)
    (hw : v.withMetadata? m identity = some w) : P.Admits w := by
  have hsome : ∀ x ∈ some m, P.Admits x := by
    rintro x hx
    cases hx
    exact hm
  cases v with
  | list items m' =>
    cases hw
    exact admits_list.mpr ⟨(admits_list.mp h).1, hsome⟩
  | vector items m' =>
    cases hw
    exact admits_vector.mpr ⟨(admits_vector.mp h).1, hsome⟩
  | map entries m' =>
    cases hw
    exact admits_map.mpr ⟨(admits_map.mp h).1, hsome⟩
  | native fn id m' =>
    cases hw
    exact admits_native.mpr ⟨(admits_native.mp h).1, hsome⟩
  | closure fn body m' =>
    cases hw
    obtain ⟨hscope, hbody, _⟩ := admits_closure.mp h
    exact admits_closure.mpr ⟨hscope, hbody, hsome⟩
  | _ => cases hw

/-! ### Tables -/

theorem AdmitsEntries.ofList {entries : List (String × Value)} (h : P.AdmitsEntries entries) :
    P.AdmitsEntries (Table.ofList entries) :=
  fun entry hentry => h entry (Table.mem_of_mem_ofList hentry)

theorem AdmitsEntries.insertAll {table : Table Value} {entries : List (String × Value)}
    (htable : P.AdmitsEntries table) (h : P.AdmitsEntries entries) :
    P.AdmitsEntries (table.insertAll entries) := by
  intro entry hentry
  rcases Table.mem_or_mem_of_mem_insertAll hentry with hmem | hmem
  · exact h entry hmem
  · exact htable entry hmem

theorem AdmitsEntries.insert {table : Table Value} {key : String} {v : Value}
    (htable : P.AdmitsEntries table) (h : P.Admits v) : P.AdmitsEntries (table.insert key v) := by
  intro entry hentry
  rcases Table.eq_or_mem_of_mem_insert hentry with rfl | hmem
  · exact h
  · exact htable entry hmem

theorem AdmitsEntries.get? {table : Table Value} {key : String} {v : Value}
    (h : P.AdmitsEntries table) (hv : table.get? key = some v) : P.Admits v := by
  induction table with
  | nil => cases hv
  | cons entry rest ih =>
    rw [Table.get?_cons] at hv
    split at hv
    · cases hv
      exact h entry List.mem_cons_self
    · exact ih (fun e he => h e (List.mem_cons_of_mem entry he)) hv

/-! ### Templates -/

theorem Admits.argsOf {v : Value} {name : String} {args : List Value} (h : P.Admits v)
    (hargs : v.argsOf? name = some args) : P.AdmitsAll args := by
  unfold Value.argsOf? at hargs
  split at hargs
  · next head rest hitems =>
    split at hargs
    · cases hargs
      exact (admitsAll_cons.mp (h.items hitems)).2
    · cases hargs
  · cases hargs

theorem admits_quoted {v : Value} (h : P.Admits v) :
    P.Admits (.ofList [.named "quote", v]) := by
  simpa using h

mutual

theorem admits_template : ∀ v : Value, P.Admits v → P.Admits v.template
  | .list [] _, h => admits_quoted h
  | .list (first :: rest) _, h => admits_templateItems (first :: rest) (admits_list.mp h).1
  | .vector [] _, h => admits_quoted h
  | .vector (first :: rest) _, h => admits_templateItems (first :: rest) (admits_vector.mp h).1
  | .nil, h => admits_quoted h
  | .bool _, h => admits_quoted h
  | .int _, h => admits_quoted h
  | .str _, h => admits_quoted h
  | .keyword _, h => admits_quoted h
  | .symbol _, h => admits_quoted h
  | .map _ _, h => admits_quoted h
  | .native _ _ _, h => admits_quoted h
  | .closure _ _ _, h => admits_quoted h
  | .atom _, h => admits_quoted h

theorem admits_templateItems : ∀ items : List Value, P.AdmitsAll items →
    P.Admits (Value.templateItems items)
  | [], _ => admits_quoted (admits_ofList.mpr admitsAll_nil)
  | first :: rest, h => by
    obtain ⟨hfirst, hrest⟩ := admitsAll_cons.mp h
    have hlater := admits_templateItems rest hrest
    have htemplate := admits_template first hfirst
    rw [Value.templateItems]
    split
    · exact hrest.headD admits_nil
    · split
      · next args hargs =>
        have hhead := (hfirst.argsOf hargs).headD admits_nil
        simp only [admits_ofList, admitsAll_cons, admits_named, hhead, hlater, admitsAll_nil,
          and_self]
      · simp only [admits_ofList, admitsAll_cons, admits_named, htemplate, hlater, admitsAll_nil,
          and_self]

end

/-! ### Printing -/

variable {text text' : AtomId → String}

mutual

theorem render_agree (htext : ∀ id, P (.atom id) → text' id = text id) (readable : Bool) :
    ∀ v : Value, P.Admits v → v.render text' readable = v.render text readable
  | .nil, _ => rfl
  | .bool _, _ => rfl
  | .int _, _ => rfl
  | .str _, _ => rfl
  | .keyword _, _ => rfl
  | .symbol _, _ => rfl
  | .list items _, h => by
    rw [Value.render, Value.render, renderAll_agree htext readable items (admits_list.mp h).1]
  | .vector items _, h => by
    rw [Value.render, Value.render,
      renderAll_agree htext readable items (admits_vector.mp h).1]
  | .map entries _, h => by
    rw [Value.render, Value.render,
      renderEntries_agree htext readable entries (admits_map.mp h).1]
  | .native _ _ _, _ => rfl
  | .closure _ body _, h => by
    rw [Value.render, Value.render, render_agree htext true body (admits_closure.mp h).2.1]
  | .atom id, h => by
    rw [Value.render, Value.render, htext id (admits_atom.mp h)]

theorem renderAll_agree (htext : ∀ id, P (.atom id) → text' id = text id) (readable : Bool) :
    ∀ vs : List Value, P.AdmitsAll vs →
      Value.renderAll text' readable vs = Value.renderAll text readable vs
  | [], _ => rfl
  | v :: rest, h => by
    obtain ⟨hv, hrest⟩ := admitsAll_cons.mp h
    rw [Value.renderAll, Value.renderAll, render_agree htext readable v hv,
      renderAll_agree htext readable rest hrest]

theorem renderEntries_agree (htext : ∀ id, P (.atom id) → text' id = text id) (readable : Bool) :
    ∀ entries : List (String × Value), P.AdmitsEntries entries →
      Value.renderEntries text' readable entries = Value.renderEntries text readable entries
  | [], _ => rfl
  | (key, v) :: rest, h => by
    have hv : P.Admits v := h (key, v) List.mem_cons_self
    have hrest : P.AdmitsEntries rest := fun entry hentry => h entry (List.mem_cons_of_mem _ hentry)
    rw [Value.renderEntries, Value.renderEntries, render_agree htext readable v hv,
      renderEntries_agree htext readable rest hrest]

end

end Reach

end SmallLisp
