import Mathlib.Data.List.Forall2
import SmallLisp.Eval.Loop
import SmallLisp.Proofs.Value.Equality

/-!
# Equal arguments

Most functions on collections do not tell equal arguments apart: with equal arguments they have equal
values, or fail both. What equality leaves out of a value, its metadata and whether a sequence is a
list or a vector, shows in the wording of their faults at most. The main statement is
`equal_arguments_interchangeable`.
-/

namespace SmallLisp

/-! ### Results -/

/-- Whether two results are related values, or both are faults. -/
inductive Corresponds {α β : Type} (R : α → β → Prop) : Except Fault α → Except Fault β → Prop where
  | ok {a b} (h : R a b) : Corresponds R (.ok a) (.ok b)
  | error {fault fault'} : Corresponds R (.error fault) (.error fault')

namespace Corresponds

variable {α β γ δ : Type} {R : α → β → Prop} {S : γ → δ → Prop}

theorem refl {R : α → α → Prop} (hR : ∀ a, R a a) (r : Except Fault α) : Corresponds R r r := by
  cases r with
  | ok a => exact .ok (hR a)
  | error => exact .error

theorem bind {r : Except Fault α} {r' : Except Fault β} {k : α → Except Fault γ}
    {k' : β → Except Fault δ} (h : Corresponds R r r')
    (hk : ∀ a b, R a b → Corresponds S (k a) (k' b)) : Corresponds S (r >>= k) (r' >>= k') := by
  cases h with
  | ok h => exact hk _ _ h
  | error => exact .error

theorem mapM {visit : α → Except Fault γ} {visit' : β → Except Fault δ} {as : List α} {bs : List β}
    (h : List.Forall₂ R as bs) (hvisit : ∀ a b, R a b → Corresponds S (visit a) (visit' b)) :
    Corresponds (List.Forall₂ S) (as.mapM visit) (bs.mapM visit') := by
  induction h with
  | nil => exact .ok .nil
  | cons ha _ ih =>
    rw [List.mapM_cons, List.mapM_cons]
    refine (hvisit _ _ ha).bind fun c d hc => ?_
    exact ih.bind fun cs ds hcs => .ok (.cons hc hcs)

/-- Results of one type that agree in what `part` takes of them. -/
theorem of_map_eq {R : α → α → Prop} (part : α → β) (hR : ∀ a b, part a = part b → R a b)
    {r r' : Except Fault α} (h : r.toOption.map part = r'.toOption.map part) :
    Corresponds R r r' := by
  cases r with
  | ok a =>
    cases r' with
    | ok b => exact .ok (hR a b (Option.some.inj h))
    | error => cases h
  | error =>
    cases r' with
    | ok b => cases h
    | error => exact .error

end Corresponds

/-! ### Values with the same essence -/

namespace Value

/-- Whether equality does not tell two values apart. -/
def Same (v w : Value) : Prop := v.essence = w.essence

def SameEntry (entry entry' : String × Value) : Prop :=
  entry.1 = entry'.1 ∧ entry.2.Same entry'.2

theorem forall₂_same_iff {vs ws : List Value} :
    List.Forall₂ Same vs ws ↔ essences vs = essences ws := by
  rw [essences_eq, essences_eq, ← List.forall₂_eq_eq_eq, List.forall₂_map_left_iff,
    List.forall₂_map_right_iff]
  rfl

theorem forall₂_sameEntry_iff {entries entries' : List (String × Value)} :
    List.Forall₂ SameEntry entries entries' ↔
      essenceEntries entries = essenceEntries entries' := by
  rw [essenceEntries_eq, essenceEntries_eq, ← List.forall₂_eq_eq_eq, List.forall₂_map_left_iff,
    List.forall₂_map_right_iff]
  simp only [Prod.mk.injEq]
  rfl

theorem same_ofList {vs ws : List Value} (h : List.Forall₂ Same vs ws) :
    (ofList vs).Same (ofList ws) :=
  congrArg Essence.sequence (forall₂_same_iff.mp h)

theorem same_ofVector {vs ws : List Value} (h : List.Forall₂ Same vs ws) :
    (ofVector vs).Same (ofVector ws) :=
  congrArg Essence.sequence (forall₂_same_iff.mp h)

theorem same_ofTable {table table' : Table Value} (h : List.Forall₂ SameEntry table table') :
    (ofTable table).Same (ofTable table') :=
  congrArg Essence.map (forall₂_sameEntry_iff.mp h)

theorem Same.eq_nil {v : Value} (h : v.Same .nil) : v = .nil := by
  cases v <;> first | rfl | cases h

theorem equal_congr {v v' w w' : Value} (hv : v.Same v') (hw : w.Same w') :
    v.equal w = v'.equal w' := by
  rw [Bool.eq_iff_iff, equal_iff, equal_iff, hv, hw]

end Value

/-! ### Tables -/

namespace Table

open Value

variable {table table' : Table Value}

theorem same_insert (h : List.Forall₂ SameEntry table table') {entry entry' : String × Value}
    (hentry : SameEntry entry entry') :
    List.Forall₂ SameEntry (table.insert entry.1 entry.2) (table'.insert entry'.1 entry'.2) := by
  obtain ⟨key, v⟩ := entry
  obtain ⟨_, w⟩ := entry'
  obtain ⟨rfl, hsame⟩ := hentry
  -- Both tables have the same keys, so that they take the entry at the same place.
  induction h with
  | nil => exact .cons ⟨rfl, hsame⟩ .nil
  | cons hfirst hrest ih =>
    simp only [insert, ← hfirst.1]
    split
    · exact .cons ⟨rfl, hsame⟩ hrest
    · split
      · exact .cons ⟨rfl, hsame⟩ (.cons hfirst hrest)
      · exact .cons hfirst ih

theorem same_insertAll (h : List.Forall₂ SameEntry table table')
    {entries entries' : List (String × Value)} (hentries : List.Forall₂ SameEntry entries entries') :
    List.Forall₂ SameEntry (table.insertAll entries) (table'.insertAll entries') := by
  induction hentries generalizing table table' with
  | nil => exact h
  | cons hentry _ ih => exact ih (same_insert h hentry)

theorem same_eraseAll (h : List.Forall₂ SameEntry table table') (keys : List String) :
    List.Forall₂ SameEntry (keys.foldl (fun table key => Table.erase key table) table)
      (keys.foldl (fun table key => Table.erase key table) table') := by
  induction keys generalizing table table' with
  | nil => exact h
  | cons key rest ih =>
    refine ih (List.rel_filter (fun entry entry' hentry => ?_) h)
    simp only [hentry.1]

theorem same_get? (h : List.Forall₂ SameEntry table table') (key : String) :
    (table.get? key).map essence = (table'.get? key).map essence := by
  rw [← get?_essenceEntries, ← get?_essenceEntries, forall₂_sameEntry_iff.mp h]

theorem same_getD (h : List.Forall₂ SameEntry table table') (key : String) :
    ((table.get? key).getD .nil).Same ((table'.get? key).getD .nil) := by
  rw [Same, ← Option.getD_map essence, ← Option.getD_map essence, same_get? h]

theorem contains_congr (h : List.Forall₂ SameEntry table table') (key : String) :
    table.contains key = table'.contains key := by
  have hsome := congrArg Option.isSome (same_get? h key)
  rwa [Option.isSome_map, Option.isSome_map] at hsome

end Table

/-! ### Checks of arguments -/

namespace Essence

def key? : Essence → Option String
  | str text => some text
  | keyword k => some k.key
  | _ => none

def int? : Essence → Option Int64
  | int n => some n
  | _ => none

def items? : Essence → Option (List Essence)
  | sequence items => some items
  | _ => none

def itemsOrNil? : Essence → Option (List Essence)
  | nil => some []
  | e => e.items?

def entries? : Essence → Option (List (String × Essence))
  | map entries => some entries
  | _ => none

def entriesOrNil? : Essence → Option (List (String × Essence))
  | nil => some []
  | e => e.entries?

def size? : Essence → Option Nat
  | map entries => some entries.length
  | e => e.itemsOrNil?.map List.length

/-- What `seq` gives. -/
def listed? : Essence → Option Essence
  | nil => some nil
  | sequence items => some (if items.isEmpty then nil else sequence items)
  | str text =>
    some (if text.isEmpty then nil
      else sequence (text.toList.map fun c => str (String.singleton c)))
  | _ => none

end Essence

section

open Value

variable {name : String} {v w : Value} {args args' : List Value}

/-- A check that looks at the essence of a value alone. -/
theorem Corresponds.of_essence {α β : Type} {R : α → α → Prop} {check : Value → Except Fault α}
    (part : α → β) (look : Essence → Option β) (hR : ∀ a b, part a = part b → R a b)
    (hcheck : ∀ v, (check v).toOption.map part = look v.essence) (h : v.Same w) :
    Corresponds R (check v) (check w) :=
  .of_map_eq part hR (by rw [hcheck, hcheck, h])

theorem corresponds_key (h : v.Same w) :
    Corresponds Eq (Native.key name v) (Native.key name w) :=
  .of_essence id Essence.key? (fun _ _ => id) (fun v => by cases v <;> rfl) h

theorem corresponds_int (h : v.Same w) :
    Corresponds Eq (Native.int name v) (Native.int name w) :=
  .of_essence id Essence.int? (fun _ _ => id) (fun v => by cases v <;> rfl) h

theorem corresponds_items (h : v.Same w) :
    Corresponds (List.Forall₂ Same) (Native.items name v) (Native.items name w) :=
  .of_essence essences Essence.items? (fun _ _ => forall₂_same_iff.mpr)
    (fun v => by cases v <;> rfl) h

theorem corresponds_itemsOrNil (h : v.Same w) :
    Corresponds (List.Forall₂ Same) (Native.itemsOrNil name v) (Native.itemsOrNil name w) :=
  .of_essence essences Essence.itemsOrNil? (fun _ _ => forall₂_same_iff.mpr)
    (fun v => by cases v <;> rfl) h

theorem corresponds_entries (h : v.Same w) :
    Corresponds (List.Forall₂ SameEntry) (Native.entries name v) (Native.entries name w) :=
  .of_essence essenceEntries Essence.entries? (fun _ _ => forall₂_sameEntry_iff.mpr)
    (fun v => by cases v <;> rfl) h

theorem corresponds_entriesOrNil {op : Collection} (h : v.Same w) :
    Corresponds (List.Forall₂ SameEntry) (op.entriesOrNil v) (op.entriesOrNil w) :=
  .of_essence essenceEntries Essence.entriesOrNil? (fun _ _ => forall₂_sameEntry_iff.mpr)
    (fun v => by cases v <;> rfl) h

theorem corresponds_countOf {op : Sequence} (h : v.Same w) :
    Corresponds Eq (op.countOf v) (op.countOf w) := by
  refine .of_essence id Essence.size? (fun _ _ => id) (fun v => ?_) h
  have hitems : ∀ items : List Value, items.length = (essences items).length := fun items => by
    rw [essences_eq, List.length_map]
  cases v with
  | list items => exact congrArg some (hitems items)
  | vector items => exact congrArg some (hitems items)
  | map entries => exact congrArg some (length_essenceEntries entries).symm
  | _ => rfl

theorem corresponds_one (h : List.Forall₂ Same args args') :
    Corresponds Same (Native.one name args) (Native.one name args') := by
  obtain _ | ⟨hfirst, _ | _⟩ := h
  · exact .error
  · exact .ok hfirst
  · exact .error

theorem corresponds_two (h : List.Forall₂ Same args args') :
    Corresponds (fun p p' => p.1.Same p'.1 ∧ p.2.Same p'.2) (Native.two name args)
      (Native.two name args') := by
  obtain _ | ⟨hfirst, _ | ⟨hsecond, _ | _⟩⟩ := h
  · exact .error
  · exact .error
  · exact .ok ⟨hfirst, hsecond⟩
  · exact .error

theorem corresponds_oneOrMore (h : List.Forall₂ Same args args') :
    Corresponds (fun p p' => p.1.Same p'.1 ∧ List.Forall₂ Same p.2 p'.2)
      (Native.oneOrMore name args) (Native.oneOrMore name args') := by
  obtain _ | ⟨hfirst, hrest⟩ := h
  · exact .error
  · exact .ok ⟨hfirst, hrest⟩

theorem corresponds_listed {op : Sequence} (h : v.Same w) :
    Corresponds Same (op.listed v) (op.listed w) := by
  refine .of_essence essence Essence.listed? (fun _ _ => id) (fun v => ?_) h
  cases v with
  | list items => cases items <;> rfl
  | vector items => cases items <;> rfl
  | str text =>
    refine congrArg some ?_
    cases text.isEmpty with
    | true => simp [essence]
    | false => simp [essence, ofList, essences_eq]
  | _ => rfl

end

/-! ### Functions -/

section

open Value

variable {args args' : List Value}

/-- Lists of related elements have pairs of related elements, if they have pairs. -/
theorem rel_pairs? {α : Type} {R : α → α → Prop} {as bs : List α} (h : List.Forall₂ R as bs) :
    Option.Rel (List.Forall₂ fun p p' => R p.1 p'.1 ∧ R p.2 p'.2) (pairs? as) (pairs? bs) := by
  fun_induction pairs? as generalizing bs with
  | case1 =>
    cases h
    exact .some .nil
  | case2 a =>
    obtain _ | ⟨_, _ | _⟩ := h
    exact .none
  | @case3 a b rest ih =>
    obtain _ | ⟨ha, _ | @⟨_, _, _, rest', hb, hrest⟩⟩ := h
    have hpairs := ih hrest
    rw [pairs?]
    generalize pairs? rest = pairs, pairs? rest' = pairs' at hpairs
    cases hpairs with
    | some hpairs => exact .some (.cons ⟨ha, hb⟩ hpairs)
    | none => exact .none

theorem corresponds_insertPairs {op : Collection} {table table' : Table Value}
    (htable : List.Forall₂ SameEntry table table') (h : List.Forall₂ Same args args') :
    Corresponds (List.Forall₂ SameEntry) (op.insertPairs table args)
      (op.insertPairs table' args') := by
  have hpairs := rel_pairs? h
  unfold Collection.insertPairs
  generalize pairs? args = pairs, pairs? args' = pairs' at hpairs
  cases hpairs with
  | none => exact .error
  | some hpairs =>
    refine (Corresponds.mapM (S := SameEntry) hpairs fun p p' hp => ?_).bind
      fun entries entries' hentries => .ok (Table.same_insertAll htable hentries)
    refine (corresponds_key hp.1).bind fun key _ hkey => .ok ⟨hkey, hp.2⟩

theorem holdsBetween_congr {α : Type} {R : α → α → Prop} {r : α → α → Bool}
    (hr : ∀ a b a' b', R a a' → R b b' → r a b = r a' b') {as bs : List α}
    (h : List.Forall₂ R as bs) : holdsBetween r as = holdsBetween r bs := by
  fun_induction holdsBetween r as generalizing bs with
  | case1 a b rest ih =>
    obtain _ | ⟨ha, _ | ⟨hb, hrest⟩⟩ := h
    rw [holdsBetween, hr _ _ _ _ ha hb, ih (.cons hb hrest)]
  | case2 as hshort =>
    obtain _ | ⟨ha, _ | ⟨hb, hrest⟩⟩ := h
    · rfl
    · rfl
    · exact absurd rfl (hshort _ _ _)

theorem corresponds_equality (h : List.Forall₂ Same args args') :
    Corresponds Same (Comparison.eq.run args) (Comparison.eq.run args') := by
  have hholds : holdsBetween Value.equal args = holdsBetween Value.equal args' := by
    refine holdsBetween_congr (fun _ _ _ _ hv hw => ?_) h
    exact equal_congr hv hw
  exact (corresponds_oneOrMore h).bind fun _ _ _ => .ok (congrArg Essence.bool hholds)

/-- What `get` and `contains?` do: `nil` is no map, but it has an answer for all keys. -/
theorem Corresponds.unlessNil {m m' k k' : Value} {r : Except Fault Value}
    {look : Value → Value → Except Fault Value} (hm : m.Same m') (hr : Corresponds Same r r)
    (hlook : Corresponds Same (look m k) (look m' k')) :
    Corresponds Same (match (m, k) with | (.nil, _) => r | (m, k) => look m k)
      (match (m', k') with | (.nil, _) => r | (m, k) => look m k) := by
  by_cases hnil : m' = .nil
  · subst hnil
    obtain rfl := hm.eq_nil
    exact hr
  · have hsome : m ≠ .nil := by
      rintro rfl
      exact hnil (Same.eq_nil hm.symm)
    split
    · next h => exact absurd (congrArg Prod.fst h) hsome
    · next h =>
      cases h
      exact hlook

theorem corresponds_collection (op : Collection) (h : List.Forall₂ Same args args') :
    Corresponds Same (op.run args) (op.run args') := by
  cases op with
  | list => exact .ok (same_ofList h)
  | vector => exact .ok (same_ofVector h)
  | hashMap =>
    exact (corresponds_insertPairs .nil h).bind fun _ _ htable => .ok (same_ofTable htable)
  | assoc =>
    obtain _ | ⟨hm, _ | ⟨hfirst, _ | ⟨hsecond, hrest⟩⟩⟩ := h
    · exact .error
    · exact .error
    · exact .error
    · refine (corresponds_entries hm).bind fun table table' htable => ?_
      refine (corresponds_insertPairs htable (.cons hfirst (.cons hsecond hrest))).bind ?_
      exact fun _ _ htable => .ok (same_ofTable htable)
  | dissoc =>
    refine (corresponds_oneOrMore h).bind fun p p' hp => ?_
    refine (corresponds_entries hp.1).bind fun table table' htable => ?_
    refine (Corresponds.mapM hp.2 fun _ _ => corresponds_key).bind fun keys keys' hkeys => ?_
    obtain rfl : keys = keys' := List.forall₂_eq_eq_eq ▸ hkeys
    exact .ok (same_ofTable (Table.same_eraseAll htable keys))
  | get =>
    refine (corresponds_two h).bind fun (m, k) (m', k') ⟨hm, hk⟩ => .unlessNil hm (.ok rfl) ?_
    refine (corresponds_entries hm).bind fun table table' htable => ?_
    refine (corresponds_key hk).bind fun key _ hkey => .ok ?_
    rw [← hkey]
    exact Table.same_getD htable key
  | contains =>
    refine (corresponds_two h).bind fun (m, k) (m', k') ⟨hm, hk⟩ => .unlessNil hm (.ok rfl) ?_
    refine (corresponds_entries hm).bind fun table table' htable => ?_
    refine (corresponds_key hk).bind fun key _ hkey => .ok ?_
    rw [← hkey, Table.contains_congr htable]
    rfl
  | keys =>
    refine (corresponds_one h).bind fun m m' hm => ?_
    refine (corresponds_entriesOrNil hm).bind fun table table' htable => .ok (same_ofList ?_)
    rw [List.forall₂_map_left_iff, List.forall₂_map_right_iff]
    exact htable.imp fun entry entry' hentry => by rw [hentry.1]; rfl
  | vals =>
    refine (corresponds_one h).bind fun m m' hm => ?_
    refine (corresponds_entriesOrNil hm).bind fun table table' htable => .ok (same_ofList ?_)
    rw [List.forall₂_map_left_iff, List.forall₂_map_right_iff]
    exact htable.imp fun entry entry' hentry => hentry.2

theorem Sequence.toOption_element (items : List Value) (index : Int64) :
    (element items index).toOption =
      if 0 ≤ index.toInt then items[index.toInt.toNat]? else none := by
  unfold element
  generalize (if 0 ≤ index.toInt then items[index.toInt.toNat]? else none) = found
  cases found <;> rfl

theorem corresponds_element {items items' : List Value} (h : List.Forall₂ Same items items')
    (index : Int64) :
    Corresponds Same (Sequence.element items index) (Sequence.element items' index) := by
  refine .of_map_eq essence (fun _ _ => id) ?_
  rw [Sequence.toOption_element, Sequence.toOption_element]
  split
  · rw [← List.getElem?_map, ← List.getElem?_map, ← essences_eq, ← essences_eq,
      forall₂_same_iff.mp h]
  · rfl

/-- `conj` is left out, since it extends lists and vectors at different ends. -/
theorem corresponds_sequence (op : Sequence) (hop : op ≠ .conj) (h : List.Forall₂ Same args args') :
    Corresponds Same (op.run args) (op.run args') := by
  cases op with
  | cons =>
    refine (corresponds_two h).bind fun p p' hp => ?_
    exact (corresponds_itemsOrNil hp.2).bind fun _ _ hitems => .ok (same_ofList (.cons hp.1 hitems))
  | concat =>
    refine (Corresponds.mapM h fun _ _ => corresponds_itemsOrNil).bind fun parts parts' hparts => ?_
    exact .ok (same_ofList (List.rel_flatten hparts))
  | nth =>
    refine (corresponds_two h).bind fun p p' hp => ?_
    refine (corresponds_items hp.1).bind fun items items' hitems => ?_
    refine (corresponds_int hp.2).bind fun index _ hindex => ?_
    exact hindex ▸ corresponds_element hitems index
  | first =>
    refine (corresponds_one h).bind fun v w hsame => ?_
    refine (corresponds_itemsOrNil hsame).bind fun items items' hitems => .ok ?_
    cases hitems with
    | nil => rfl
    | cons hfirst _ => exact hfirst
  | rest =>
    refine (corresponds_one h).bind fun v w hsame => ?_
    refine (corresponds_itemsOrNil hsame).bind fun items items' hitems => .ok (same_ofList ?_)
    cases hitems with
    | nil => exact .nil
    | cons _ hrest => exact hrest
  | isEmpty =>
    refine (corresponds_one h).bind fun v w hsame => ?_
    exact (corresponds_countOf hsame).bind fun _ _ hcount => .ok (by rw [hcount]; rfl)
  | count =>
    refine (corresponds_one h).bind fun v w hsame => ?_
    refine (corresponds_countOf hsame).bind fun n _ hcount => ?_
    have hrefl : ∀ result : Value, result.Same result := fun _ => rfl
    exact hcount ▸ .refl hrefl (Sequence.counted .count n)
  | conj => exact absurd rfl hop
  | seq => exact (corresponds_one h).bind fun _ _ => corresponds_listed

end

/-! ### Calls -/

/-- Equality, and the functions on collections and sequences apart from `conj`. -/
def Native.onEquals : List Native :=
  .comparison .eq ::
  [.list, .vector, .hashMap, .assoc, .dissoc, .get, .contains, .keys, .vals].map collection ++
  [.cons, .concat, .nth, .first, .rest, .isEmpty, .count, .seq].map sequence

theorem exists_corresponds_of_mem_onEquals {fn : Native} (hfn : fn ∈ Native.onEquals)
    {args args' : List Value} (h : List.Forall₂ Value.Same args args') :
    ∃ r r', Corresponds Value.Same r r' ∧ ∀ (eval : Evaluator) call,
      eval.callNative call fn args = .ofExcept r ∧ eval.callNative call fn args' = .ofExcept r' := by
  rcases List.mem_append.mp hfn with hfn | hfn
  · rcases List.mem_cons.mp hfn with rfl | hfn
    · exact ⟨_, _, corresponds_equality h, fun _ _ => ⟨rfl, rfl⟩⟩
    · obtain ⟨op, _, rfl⟩ := List.mem_map.mp hfn
      exact ⟨_, _, corresponds_collection op h, fun _ _ => ⟨rfl, rfl⟩⟩
  · obtain ⟨op, hop, rfl⟩ := List.mem_map.mp hfn
    have hconj : op ≠ .conj := by
      rintro rfl
      exact absurd hop (by decide)
    exact ⟨_, _, corresponds_sequence op hconj h, fun _ _ => ⟨rfl, rfl⟩⟩

/-- With equal arguments `=` and the functions on collections and sequences, apart from `conj`, have
equal values or are both at fault. Neither changes the state. -/
theorem equal_arguments_interchangeable {fn : Native} (hfn : fn ∈ Native.onEquals)
    {args args' : List Value} (h : List.Forall₂ (fun v w => v.equal w = true) args args')
    (eval : Evaluator) (call : Value → List Value → Eval Value) (s : State) :
    (∃ v w, eval.callNative call fn args s = .value v s ∧
      eval.callNative call fn args' s = .value w s ∧ v.equal w = true) ∨
    (∃ fault fault', eval.callNative call fn args s = .error (.fault fault) s ∧
      eval.callNative call fn args' s = .error (.fault fault') s) := by
  have hsame : List.Forall₂ Value.Same args args' := h.imp fun v w => (Value.equal_iff v w).mp
  obtain ⟨r, r', hresults, hcall⟩ := exists_corresponds_of_mem_onEquals hfn hsame
  obtain ⟨hargs, hargs'⟩ := hcall eval call
  rw [hargs, hargs']
  cases hresults with
  | ok hvalues => exact .inl ⟨_, _, rfl, rfl, (Value.equal_iff _ _).mpr hvalues⟩
  | error => exact .inr ⟨_, _, rfl, rfl⟩

/-- The call of a function that calls nothing, on its own. -/
def Evaluator.sampleCall (fn : Native) (args : List Value) : Outcome Value :=
  (eval 0).callNative ((eval 0).call 0) fn args (.initial 9 [] .empty 0)

/-- A map with a list in it and an annotated map with a vector in it are equal, and so are what
`assoc` makes of them. Neither a list nor a vector is a map, for which `keys` has different words. -/
theorem equal_arguments_interchangeable_samples :
    (∃ v w, Evaluator.sampleCall (.collection .assoc)
        [.ofTable [("a", .ofList [.int 1])], .str "b", .ofVector []] =
          .value v (.initial 9 [] .empty 0) ∧
      Evaluator.sampleCall (.collection .assoc)
        [.map [("a", .ofVector [.int 1])] (some .nil), .str "b", .ofList []] =
          .value w (.initial 9 [] .empty 0) ∧ v.equal w = true) ∧
    ∃ fault fault', Evaluator.sampleCall (.collection .keys) [.ofList []] =
        .error (.fault fault) (.initial 9 [] .empty 0) ∧
      Evaluator.sampleCall (.collection .keys) [.ofVector []] =
        .error (.fault fault') (.initial 9 [] .empty 0) := by
  have hassoc : Native.collection .assoc ∈ Native.onEquals := by decide
  have hkeys : Native.collection .keys ∈ Native.onEquals := by decide
  constructor
  · refine (equal_arguments_interchangeable hassoc
      (.cons ?_ (.cons ?_ (.cons ?_ .nil))) (eval 0) ((eval 0).call 0) _).resolve_right ?_
    · cbv
    · cbv
    · cbv
    · rintro ⟨_, _, hfault, _⟩
      cases hfault
  · refine (equal_arguments_interchangeable hkeys (.cons ?_ .nil)
      (eval 0) ((eval 0).call 0) _).resolve_left ?_
    · cbv
    · rintro ⟨_, _, hvalue, _⟩
      cases hvalue

/-- Unlike the others, `conj` tells lists from vectors. -/
example : [Value.ofList [.int 1], .ofVector [.int 1]].map (fun v => Sequence.conj.run [v, .int 2]) =
    [.ok (.ofList [.int 2, .int 1]), .ok (.ofVector [.int 1, .int 2])] := rfl

end SmallLisp
