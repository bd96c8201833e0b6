/-!
# Tables

A table is a list of keyed entries in increasing order of their keys, each key once. The order is
that of the code points of the keys. Tables hold the entries of maps and the bindings of frames.
Keys and values are written one behind the other, and are told apart two by two.
-/

namespace SmallLisp

/-- Keyed entries in increasing order of their keys. -/
abbrev Table (α : Type) := List (String × α)

namespace Table

variable {α : Type}

/-- A table with an entry set, in place of an entry of the same key if there is one. -/
def insert (key : String) (value : α) : Table α → Table α
  | [] => [(key, value)]
  | entry :: rest =>
    if key = entry.1 then (key, value) :: rest
    else if key < entry.1 then (key, value) :: entry :: rest
    else entry :: insert key value rest

def erase (key : String) (table : Table α) : Table α := table.filter (·.1 ≠ key)

def get? (table : Table α) (key : String) : Option α := table.lookup key

def contains (table : Table α) (key : String) : Bool := (table.get? key).isSome

/-- A table with the entries of another one set, in their order. -/
def insertAll (table : Table α) (entries : List (String × α)) : Table α :=
  entries.foldl (fun t entry => t.insert entry.1 entry.2) table

/-- The table of some entries, where a later entry wins. -/
def ofList (entries : List (String × α)) : Table α := insertAll [] entries

/-- Whether the keys increase, which is what makes a list of entries a table. -/
def Sorted (table : Table α) : Prop := table.Pairwise (·.1 < ·.1)

/-! ### Reading behind writing -/

@[simp] theorem get?_nil (key : String) : get? ([] : Table α) key = none := rfl

theorem get?_cons (entry : String × α) (table : Table α) (key : String) :
    get? (entry :: table) key = if key = entry.1 then some entry.2 else table.get? key := by
  obtain ⟨k, value⟩ := entry
  by_cases h : key = k
  · simp [get?, h]
  · have hb : (key == k) = false := beq_eq_false_iff_ne.mpr h
    simp [get?, List.lookup_cons, hb, h]

theorem get?_insert (table : Table α) (key key' : String) (value : α) :
    (table.insert key value).get? key' = if key' = key then some value else table.get? key' := by
  induction table with
  | nil => simp [insert, get?_cons]
  | cons entry rest ih =>
    unfold insert
    split
    · next h =>
      subst h
      simp only [get?_cons]
      split <;> rfl
    · split
      · simp [get?_cons]
      · next h _ =>
        simp only [get?_cons, ih]
        split
        · next h' => simp [h', Ne.symm h]
        · rfl

theorem get?_erase (table : Table α) (key key' : String) :
    (table.erase key).get? key' = if key' = key then none else table.get? key' := by
  induction table with
  | nil => simp [erase]
  | cons entry rest ih =>
    unfold erase at ih ⊢
    rw [List.filter_cons]
    split
    · next h =>
      simp only [get?_cons, ih]
      split
      · next h' => simp_all
      · rfl
    · next h =>
      simp only [ih, get?_cons]
      split
      · rfl
      · simp_all

/-! ### Entries behind writing -/

section

variable {table : Table α} {entries : List (String × α)} {entry : String × α} {key : String}
  {value : α}

theorem eq_or_mem_of_mem_insert (h : entry ∈ table.insert key value) :
    entry = (key, value) ∨ entry ∈ table := by
  induction table with
  | nil => exact .inl (List.mem_singleton.mp h)
  | cons first rest ih =>
    unfold insert at h
    split at h
    · rcases List.mem_cons.mp h with h | h
      · exact .inl h
      · exact .inr (List.mem_cons_of_mem first h)
    · split at h
      · exact List.mem_cons.mp h
      · rcases List.mem_cons.mp h with rfl | h
        · exact .inr List.mem_cons_self
        · exact (ih h).imp_right (List.mem_cons_of_mem first)

theorem mem_or_mem_of_mem_insertAll (h : entry ∈ table.insertAll entries) :
    entry ∈ entries ∨ entry ∈ table := by
  induction entries generalizing table with
  | nil => exact .inr h
  | cons first rest ih =>
    have hrest : entry ∈ (table.insert first.1 first.2).insertAll rest := h
    rcases ih hrest with h | h
    · exact .inl (List.mem_cons_of_mem first h)
    · rcases eq_or_mem_of_mem_insert h with rfl | h
      · exact .inl List.mem_cons_self
      · exact .inr h

theorem mem_of_mem_ofList (h : entry ∈ ofList entries) : entry ∈ entries :=
  (mem_or_mem_of_mem_insertAll h).resolve_right List.not_mem_nil

theorem sorted_insert (h : table.Sorted) : (table.insert key value).Sorted := by
  induction table with
  | nil => exact List.pairwise_singleton _ _
  | cons first rest ih =>
    obtain ⟨hfirst, hrest⟩ := List.pairwise_cons.mp h
    unfold insert
    split
    · next hkey =>
      exact List.pairwise_cons.mpr ⟨hkey ▸ hfirst, hrest⟩
    · next hne =>
      split
      · next hlt =>
        refine List.pairwise_cons.mpr ⟨?_, h⟩
        intro entry hentry
        rcases List.mem_cons.mp hentry with rfl | hmem
        · exact hlt
        · exact String.lt_trans hlt (hfirst entry hmem)
      · next hge =>
        refine List.pairwise_cons.mpr ⟨?_, ih hrest⟩
        intro entry hentry
        rcases eq_or_mem_of_mem_insert hentry with rfl | hmem
        · exact Std.lt_of_le_of_ne (String.not_lt.mp hge) (Ne.symm hne)
        · exact hfirst entry hmem

theorem sorted_insertAll (h : table.Sorted) : (table.insertAll entries).Sorted := by
  induction entries generalizing table with
  | nil => exact h
  | cons entry rest ih => exact ih (sorted_insert h)

theorem sorted_ofList (entries : List (String × α)) : (ofList entries).Sorted :=
  sorted_insertAll .nil

theorem insert_of_forall_lt (h : ∀ entry ∈ table, entry.1 < key) :
    table.insert key value = table ++ [(key, value)] := by
  induction table with
  | nil => rfl
  | cons entry rest ih =>
    have hlt : entry.1 < key := h entry List.mem_cons_self
    have hne : key ≠ entry.1 := by
      rintro rfl
      exact String.lt_irrefl _ hlt
    rw [insert, if_neg hne, if_neg (String.lt_asymm hlt),
      ih fun e he => h e (List.mem_cons_of_mem entry he)]
    rfl

theorem insertAll_of_sorted (h : Sorted (table ++ entries)) :
    table.insertAll entries = table ++ entries := by
  induction entries generalizing table with
  | nil => exact (List.append_nil table).symm
  | cons entry rest ih =>
    have hlt : ∀ e ∈ table, e.1 < entry.1 := fun e he =>
      (List.pairwise_append.mp h).2.2 e he entry List.mem_cons_self
    have hassoc : table ++ [(entry.1, entry.2)] ++ rest = table ++ entry :: rest := by simp
    change (table.insert entry.1 entry.2).insertAll rest = _
    rw [insert_of_forall_lt hlt, ih (hassoc ▸ h), hassoc]

/-- Sorted entries are a table already. -/
theorem ofList_of_sorted (h : Sorted entries) : ofList entries = entries :=
  insertAll_of_sorted (List.nil_append entries ▸ h)

end

end Table

/-! ### Pairs of neighbours -/

/-- The neighbours of a list two by two, if their number is even. -/
def pairs? {α : Type} : List α → Option (List (α × α))
  | [] => some []
  | [_] => none
  | a :: b :: rest => (pairs? rest).map ((a, b) :: ·)

theorem pairs?_flatMap {α β : Type} (first second : β → α) (bs : List β) :
    pairs? (bs.flatMap fun b => [first b, second b]) =
      some (bs.map fun b => (first b, second b)) := by
  induction bs with
  | nil => rfl
  | cons b bs ih =>
    rw [List.flatMap_cons, List.cons_append, List.singleton_append, pairs?, ih]
    rfl

end SmallLisp
