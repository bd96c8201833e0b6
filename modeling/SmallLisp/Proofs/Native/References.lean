import SmallLisp.Native.Arithmetic
import SmallLisp.Native.Collection
import SmallLisp.Native.Comparison
import SmallLisp.Native.HigherOrder
import SmallLisp.Native.Predicate
import SmallLisp.Native.Sequence
import SmallLisp.Native.Wording
import SmallLisp.Proofs.Value.References

/-!
# References in results

The native functions without effects take their results from their arguments: a reach that admits
the arguments of a call admits its value.
-/

namespace SmallLisp

/-- Whether a result has a property, if there is one. -/
def Returns {α : Type} (V : α → Prop) (r : Except Fault α) : Prop := ∀ a, r = .ok a → V a

namespace Returns

variable {α β : Type} {V : α → Prop} {U : β → Prop}

theorem ok {a : α} (h : V a) : Returns V (.ok a) := by
  rintro _ ⟨⟩
  exact h

theorem error {fault : Fault} : Returns V (.error fault) := nofun

theorem anything (r : Except Fault α) : Returns (fun _ => True) r := fun _ _ => trivial

theorem bind {r : Except Fault α} {k : α → Except Fault β} (h : Returns V r)
    (hk : ∀ a, V a → Returns U (k a)) : Returns U (r >>= k) := by
  cases r with
  | ok a => exact hk a (h a rfl)
  | error fault => exact error

theorem map {r : Except Fault α} {f : α → β} (h : Returns V r) (hf : ∀ a, V a → U (f a)) :
    Returns U (r.map f) := by
  cases r with
  | ok a => exact ok (hf a (h a rfl))
  | error fault => exact error

theorem mapM {visit : α → Except Fault β} {as : List α} (h : ∀ a ∈ as, Returns U (visit a)) :
    Returns (fun bs => ∀ b ∈ bs, U b) (as.mapM visit) := by
  induction as with
  | nil => exact ok nofun
  | cons a rest ih =>
    rw [List.mapM_cons]
    refine (h a List.mem_cons_self).bind fun b hb => ?_
    refine (ih fun a' ha' => h a' (List.mem_cons_of_mem a ha')).bind fun bs hbs => ok ?_
    exact List.forall_mem_cons.mpr ⟨hb, hbs⟩

end Returns

namespace Native

variable {P : Reach} {name : String} {args : List Value} {v : Value}

/-! ### Arguments -/

theorem one_admits (h : P.AdmitsAll args) : Returns P.Admits (one name args) := by
  unfold one
  split
  · exact .ok (h _ List.mem_cons_self)
  · exact .error

theorem two_admits (h : P.AdmitsAll args) :
    Returns (fun pair => P.Admits pair.1 ∧ P.Admits pair.2) (two name args) := by
  unfold two
  split
  · simp only [Reach.admitsAll_cons] at h
    exact .ok ⟨h.1, h.2.1⟩
  · exact .error

theorem oneOrMore_admits (h : P.AdmitsAll args) :
    Returns (fun pair => P.Admits pair.1 ∧ P.AdmitsAll pair.2) (oneOrMore name args) := by
  unfold oneOrMore
  split
  · exact .ok (Reach.admitsAll_cons.mp h)
  · exact .error

theorem twoOrMore_admits (h : P.AdmitsAll args) :
    Returns (fun triple => P.Admits triple.1 ∧ P.Admits triple.2.1 ∧ P.AdmitsAll triple.2.2)
      (twoOrMore name args) := by
  unfold twoOrMore
  split
  · simp only [Reach.admitsAll_cons] at h
    exact .ok h
  · exact .error

theorem items_admits (h : P.Admits v) : Returns P.AdmitsAll (items name v) := by
  unfold items
  split
  · next items hitems => exact .ok (h.items hitems)
  · exact .error

theorem itemsOrNil_admits (h : P.Admits v) : Returns P.AdmitsAll (itemsOrNil name v) := by
  unfold itemsOrNil
  split
  · exact .ok Reach.admitsAll_nil
  · exact items_admits h

theorem mapM_itemsOrNil_admits (h : P.AdmitsAll args) :
    Returns (fun rows => ∀ row ∈ rows, P.AdmitsAll row) (args.mapM (itemsOrNil name)) :=
  .mapM fun v hv => itemsOrNil_admits (h v hv)

theorem entries_admits (h : P.Admits v) : Returns P.AdmitsEntries (entries name v) := by
  unfold entries
  split
  · exact .ok (Reach.admits_map.mp h).1
  · exact .error

theorem atom_admits (h : P.Admits v) : Returns (fun id => P (.atom id)) (atom name v) := by
  unfold atom
  split
  · exact .ok (Reach.admits_atom.mp h)
  · exact .error

end Native

variable {P : Reach} {args : List Value}

/-! ### Plain values -/

theorem Arithmetic.run_admits (op : Arithmetic) : Returns P.Admits (op.run args) := by
  refine (Returns.anything _).bind fun ns _ => ?_
  exact (Returns.anything _).bind fun n _ => .ok (Reach.admits_of_refs rfl)

theorem Comparison.run_admits (op : Comparison) : Returns P.Admits (op.run args) := by
  refine (Returns.anything _).bind fun _ _ => ?_
  cases op with
  | eq => exact .ok (Reach.admits_of_refs rfl)
  | _ => exact (Returns.anything _).bind fun ns _ => .ok (Reach.admits_of_refs rfl)

theorem Predicate.run_admits (op : Predicate) : Returns P.Admits (op.run args) :=
  (Returns.anything _).bind fun _ _ => .ok (Reach.admits_of_refs rfl)

theorem Wording.run_admits (h : Heap) (op : Wording) : Returns P.Admits (op.run h args) := by
  cases op with
  | str => exact .ok (Reach.admits_of_refs rfl)
  | prStr => exact .ok (Reach.admits_of_refs rfl)
  | symbol =>
    refine (Returns.anything _).bind fun v _ => ?_
    split
    · exact .ok (Reach.admits_of_refs rfl)
    · exact .ok (Reach.admits_of_refs rfl)
    · exact .error
  | keyword =>
    refine (Returns.anything _).bind fun v _ => ?_
    split
    · exact .ok (Reach.admits_of_refs rfl)
    · exact .ok (Reach.admits_of_refs rfl)
    · exact .error

/-! ### Collections -/

theorem mem_of_pairs? {α : Type} {as : List α} {pairs : List (α × α)} (h : pairs? as = some pairs) :
    ∀ pair ∈ pairs, pair.1 ∈ as ∧ pair.2 ∈ as := by
  fun_induction pairs? as generalizing pairs with
  | case1 =>
    cases h
    intro pair hpair
    cases hpair
  | case2 => cases h
  | case3 a b rest ih =>
    obtain ⟨more, hmore, rfl⟩ := Option.map_eq_some_iff.mp h
    intro pair hpair
    rcases List.mem_cons.mp hpair with rfl | hpair
    · simp
    · obtain ⟨hfirst, hsecond⟩ := ih hmore pair hpair
      simp [hfirst, hsecond]

namespace Collection

theorem insertPairs_admits {op : Collection} {table : Table Value} (htable : P.AdmitsEntries table)
    (h : P.AdmitsAll args) : Returns P.AdmitsEntries (op.insertPairs table args) := by
  unfold insertPairs
  split
  · exact .error
  · next pairs hpairs =>
    have hentries : Returns P.AdmitsEntries
        (pairs.mapM fun pair => return (← Native.key op.name pair.1, pair.2)) := by
      refine .mapM fun pair hpair => ?_
      refine (Returns.anything _).bind fun key _ => .ok ?_
      exact h _ (mem_of_pairs? hpairs pair hpair).2
    exact hentries.bind fun entries hentries => .ok (htable.insertAll hentries)

theorem entriesOrNil_admits {op : Collection} {v : Value} (h : P.Admits v) :
    Returns P.AdmitsEntries (op.entriesOrNil v) := by
  unfold entriesOrNil
  split
  · exact .ok nofun
  · exact Native.entries_admits h

theorem erase_admits {table : Table Value} (h : P.AdmitsEntries table) (keys : List String) :
    P.AdmitsEntries (keys.foldl (fun (table : Table Value) key => table.erase key) table) := by
  induction keys generalizing table with
  | nil => exact h
  | cons key keys ih => exact ih fun entry hentry => h entry (List.mem_filter.mp hentry).1

theorem run_admits (op : Collection) (h : P.AdmitsAll args) : Returns P.Admits (op.run args) := by
  cases op with
  | list => exact .ok (Reach.admits_ofList.mpr h)
  | vector => exact .ok (Reach.admits_ofVector.mpr h)
  | hashMap =>
    have hempty : P.AdmitsEntries [] := nofun
    exact (insertPairs_admits hempty h).bind fun table htable =>
      .ok (Reach.admits_ofTable.mpr htable)
  | assoc =>
    match args, h with
    | m :: first :: second :: rest, h =>
      obtain ⟨hm, hrest⟩ := Reach.admitsAll_cons.mp h
      refine (Native.entries_admits hm).bind fun table htable => ?_
      exact (insertPairs_admits htable hrest).bind fun table htable =>
        .ok (Reach.admits_ofTable.mpr htable)
    | [], _ => exact .error
    | [_], _ => exact .error
    | [_, _], _ => exact .error
  | dissoc =>
    refine (Native.oneOrMore_admits h).bind fun pair hpair => ?_
    refine (Native.entries_admits hpair.1).bind fun table htable => ?_
    exact (Returns.anything _).bind fun keys _ =>
      .ok (Reach.admits_ofTable.mpr (erase_admits htable keys))
  | get =>
    refine (Native.two_admits h).bind fun pair hpair => ?_
    split
    · exact .ok Reach.admits_nil
    · refine (Native.entries_admits hpair.1).bind fun table htable => ?_
      refine (Returns.anything _).bind fun key _ => .ok ?_
      cases hv : Table.get? table key with
      | none => exact Reach.admits_nil
      | some v => exact htable.get? hv
  | contains =>
    refine (Returns.anything _).bind fun pair _ => ?_
    split
    · exact .ok (Reach.admits_of_refs rfl)
    · refine (Returns.anything _).bind fun table _ => ?_
      exact (Returns.anything _).bind fun key _ => .ok (Reach.admits_of_refs rfl)
  | keys =>
    refine (Returns.anything _).bind fun v _ => ?_
    refine (Returns.anything _).bind fun table _ => .ok (Reach.admits_ofList.mpr ?_)
    intro v hv
    obtain ⟨entry, _, rfl⟩ := List.mem_map.mp hv
    exact Reach.admits_ofKey
  | vals =>
    refine (Native.one_admits h).bind fun v hv => ?_
    refine (entriesOrNil_admits hv).bind fun table htable => .ok (Reach.admits_ofList.mpr ?_)
    intro v hv
    obtain ⟨entry, hentry, rfl⟩ := List.mem_map.mp hv
    exact htable entry hentry

end Collection

/-! ### Sequences -/

namespace Sequence

theorem additions_admits {op : Sequence} {v : Value} (h : P.Admits v) :
    Returns P.AdmitsEntries (op.additions v) := by
  unfold additions
  split
  · exact .ok (Reach.admits_map.mp h).1
  · next k v m =>
    obtain ⟨hitems, _⟩ := Reach.admits_vector.mp h
    refine (Returns.anything _).bind fun key _ => .ok ?_
    intro entry hentry
    obtain rfl := List.mem_singleton.mp hentry
    exact hitems v (by simp)
  · exact .error

theorem extend_admits {op : Sequence} {extra : List Value} {v : Value} (hextra : P.AdmitsAll extra)
    (h : P.Admits v) : Returns P.Admits (op.extend extra v) := by
  unfold extend
  split
  · next items m =>
    obtain ⟨hitems, hm⟩ := Reach.admits_list.mp h
    have hreverse : P.AdmitsAll extra.reverse := hextra.of_subset fun w hw => List.mem_reverse.mp hw
    exact .ok (Reach.admits_list.mpr ⟨Reach.admitsAll_append.mpr ⟨hreverse, hitems⟩, hm⟩)
  · next items m =>
    obtain ⟨hitems, hm⟩ := Reach.admits_vector.mp h
    exact .ok (Reach.admits_vector.mpr ⟨Reach.admitsAll_append.mpr ⟨hitems, hextra⟩, hm⟩)
  · next entries m =>
    obtain ⟨hentries, hm⟩ := Reach.admits_map.mp h
    have hadditions : Returns (fun parts => ∀ part ∈ parts, P.AdmitsEntries part)
        (extra.mapM op.additions) := .mapM fun w hw => additions_admits (hextra w hw)
    refine hadditions.bind fun parts hparts => .ok (Reach.admits_map.mpr ⟨?_, hm⟩)
    refine hentries.insertAll fun entry hentry => ?_
    obtain ⟨part, hpart, hmem⟩ := List.mem_flatten.mp hentry
    exact hparts part hpart entry hmem
  · exact .error

theorem counted_admits {op : Sequence} {n : Nat} : Returns P.Admits (op.counted n) := by
  unfold counted
  split
  · exact .ok (Reach.admits_of_refs rfl)
  · exact .error

theorem listed_admits {op : Sequence} {v : Value} (h : P.Admits v) :
    Returns P.Admits (op.listed v) := by
  have hnonempty : ∀ items : List Value, P.AdmitsAll items →
      P.Admits (if items.isEmpty then .nil else .ofList items) := by
    intro items hitems
    split
    · exact Reach.admits_nil
    · exact Reach.admits_ofList.mpr hitems
  unfold listed
  split
  · exact .ok Reach.admits_nil
  · exact .ok (hnonempty _ (Reach.admits_list.mp h).1)
  · exact .ok (hnonempty _ (Reach.admits_vector.mp h).1)
  · refine .ok ?_
    split
    · exact Reach.admits_nil
    · refine Reach.admits_ofList.mpr fun w hw => ?_
      obtain ⟨c, _, rfl⟩ := List.mem_map.mp hw
      exact Reach.admits_of_refs rfl
  · exact .error

theorem element_admits {items : List Value} (h : P.AdmitsAll items) (index : Int64) :
    Returns P.Admits (element items index) := by
  unfold element
  dsimp only
  split
  · next v hv =>
    split at hv
    · exact .ok (h v (List.mem_of_getElem? hv))
    · cases hv
  · exact .error

theorem run_admits (op : Sequence) (h : P.AdmitsAll args) : Returns P.Admits (op.run args) := by
  cases op with
  | cons =>
    refine (Native.two_admits h).bind fun pair hpair => ?_
    refine (Native.itemsOrNil_admits hpair.2).bind fun items hitems => .ok ?_
    exact Reach.admits_ofList.mpr (Reach.admitsAll_cons.mpr ⟨hpair.1, hitems⟩)
  | concat =>
    refine (Native.mapM_itemsOrNil_admits h).bind fun parts hparts => .ok ?_
    refine Reach.admits_ofList.mpr fun v hv => ?_
    obtain ⟨part, hpart, hmem⟩ := List.mem_flatten.mp hv
    exact hparts part hpart v hmem
  | nth =>
    refine (Native.two_admits h).bind fun pair hpair => ?_
    refine (Native.items_admits hpair.1).bind fun items hitems => ?_
    exact (Returns.anything _).bind fun index _ => element_admits hitems index
  | first =>
    refine (Native.one_admits h).bind fun v hv => ?_
    exact (Native.itemsOrNil_admits hv).bind fun items hitems =>
      .ok (hitems.headD Reach.admits_nil)
  | rest =>
    refine (Native.one_admits h).bind fun v hv => ?_
    exact (Native.itemsOrNil_admits hv).bind fun items hitems =>
      .ok (Reach.admits_ofList.mpr hitems.tail)
  | isEmpty =>
    refine (Returns.anything _).bind fun v _ => ?_
    exact (Returns.anything _).bind fun n _ => .ok (Reach.admits_of_refs rfl)
  | count =>
    refine (Returns.anything _).bind fun v _ => ?_
    exact (Returns.anything _).bind fun n _ => counted_admits
  | conj =>
    refine (Native.twoOrMore_admits h).bind fun triple htriple => ?_
    exact extend_admits (Reach.admitsAll_cons.mpr htriple.2) htriple.1
  | seq => exact (Native.one_admits h).bind fun v hv => listed_admits hv

end Sequence

/-! ### Columns -/

theorem mem_of_mapM_head? {α : Type} {rows : List (List α)} {heads : List α} {a : α}
    (h : rows.mapM List.head? = some heads) (ha : a ∈ heads) : ∃ row ∈ rows, a ∈ row := by
  induction rows generalizing heads with
  | nil =>
    cases h
    cases ha
  | cons row rows ih =>
    simp only [List.mapM_cons, Option.bind_eq_bind, Option.bind_eq_some_iff, Option.pure_def,
      Option.some.injEq] at h
    obtain ⟨head, hhead, others, hothers, rfl⟩ := h
    rcases List.mem_cons.mp ha with rfl | ha
    · exact ⟨row, List.mem_cons_self, List.mem_of_head? hhead⟩
    · obtain ⟨row', hrow', hmem⟩ := ih hothers ha
      exact ⟨row', List.mem_cons_of_mem row hrow', hmem⟩

theorem mem_of_mem_columns {α : Type} {first column : List α} {others : List (List α)} {a : α}
    (h : column ∈ columns first others) (ha : a ∈ column) :
    a ∈ first ∨ ∃ row ∈ others, a ∈ row := by
  induction first generalizing others with
  | nil => cases h
  | cons b first ih =>
    rw [columns] at h
    split at h
    · next heads hheads =>
      rcases List.mem_cons.mp h with rfl | h
      · rcases List.mem_cons.mp ha with rfl | ha
        · exact .inl List.mem_cons_self
        · exact .inr (mem_of_mapM_head? hheads ha)
      · rcases ih h with hfirst | ⟨row, hrow, hmem⟩
        · exact .inl (List.mem_cons_of_mem b hfirst)
        · obtain ⟨full, hfull, rfl⟩ := List.mem_map.mp hrow
          exact .inr ⟨full, hfull, List.mem_of_mem_tail hmem⟩
    · cases h

theorem columns_admit {row : List Value} {more : List (List Value)} (hrow : P.AdmitsAll row)
    (hmore : ∀ row ∈ more, P.AdmitsAll row) : ∀ column ∈ columns row more, P.AdmitsAll column := by
  intro column hcolumn v hv
  rcases mem_of_mem_columns hcolumn hv with hmem | ⟨other, hother, hmem⟩
  · exact hrow v hmem
  · exact hmore other hother v hmem

end SmallLisp
