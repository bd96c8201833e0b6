import Mathlib
import SmallLisp.Table

/-!
# Tables and what they hold

In a table that is in order an entry is found under its key, so such a table is known from what is
found in it. It is known from less: a table in order that has all entries of another one, and not
more entries, is the same table. What is set in a table is found there, if nothing of the same key
is set behind it.
-/

namespace SmallLisp.Table

variable {α : Type} {table table' : Table α} {key : String} {value : α}

theorem mem_of_get? (h : table.get? key = some value) : (key, value) ∈ table := by
  induction table with
  | nil => cases h
  | cons entry rest ih =>
    rw [get?_cons] at h
    split at h
    · next hkey =>
      cases h
      exact hkey ▸ List.mem_cons_self
    · exact List.mem_cons_of_mem entry (ih h)

theorem get?_of_mem (hs : table.Sorted) (h : (key, value) ∈ table) :
    table.get? key = some value := by
  induction table with
  | nil => cases h
  | cons entry rest ih =>
    obtain ⟨hfirst, hrest⟩ := List.pairwise_cons.mp hs
    rw [get?_cons]
    rcases List.mem_cons.mp h with rfl | hmem
    · rw [if_pos rfl]
    · have hlt : entry.1 < key := hfirst (key, value) hmem
      rw [if_neg (ne_of_gt hlt)]
      exact ih hrest hmem

theorem mem_iff_get? (hs : table.Sorted) : (key, value) ∈ table ↔ table.get? key = some value :=
  ⟨get?_of_mem hs, mem_of_get?⟩

theorem sorted_erase (hs : table.Sorted) : (table.erase key).Sorted :=
  List.Pairwise.filter _ hs

theorem sorted_keys (hs : table.Sorted) : (table.map Prod.fst).Pairwise (· < ·) :=
  List.pairwise_map.mpr hs

theorem nodup_of_sorted (hs : table.Sorted) : table.Nodup :=
  hs.imp fun hlt heq => (heq ▸ hlt).false

/-- Two tables in order with the same entries are in the same order. -/
theorem eq_of_perm (hs : table.Sorted) (hs' : table'.Sorted) (h : table.Perm table') :
    table = table' :=
  h.eq_of_pairwise (fun _ _ _ _ hlt hgt => absurd hgt (lt_asymm hlt)) hs hs'

theorem eq_of_get? (hs : table.Sorted) (hs' : table'.Sorted)
    (h : ∀ key, table.get? key = table'.get? key) : table = table' := by
  refine eq_of_perm hs hs' ?_
  rw [List.perm_ext_iff_of_nodup (nodup_of_sorted hs) (nodup_of_sorted hs')]
  rintro ⟨key, value⟩
  rw [mem_iff_get? hs, mem_iff_get? hs', h]

/-- Tables in order are the same if one has all entries of the other and not more entries. -/
theorem eq_of_subset (hs : table.Sorted) (hs' : table'.Sorted) (h : table ⊆ table')
    (hlength : table'.length ≤ table.length) : table = table' := by
  have hsub : table.Subperm table' := (nodup_of_sorted hs).subperm h
  exact eq_of_perm hs hs' (hsub.perm_of_length_le hlength)

/-! ### Entries set in turn -/

/-- Behind entries that are set in turn the last one of a key is found. -/
theorem get?_insertAll (table : Table α) (entries : List (String × α)) (key : String) :
    (table.insertAll entries).get? key =
      ((entries.reverse.find? (·.1 = key)).map (·.2)).or (table.get? key) := by
  induction entries generalizing table with
  | nil => rfl
  | cons entry rest ih =>
    have hfirst : (table.insert entry.1 entry.2).get? key =
        (([entry].find? (·.1 = key)).map (·.2)).or (table.get? key) := by
      rw [get?_insert]
      by_cases hkey : key = entry.1
      · simp [hkey]
      · simp [hkey, Ne.symm hkey]
    change ((table.insert entry.1 entry.2).insertAll rest).get? key = _
    rw [ih, hfirst, List.reverse_cons, List.find?_append, Option.map_or, Option.or_assoc]

theorem get?_insertAll_of_not_mem {entries : List (String × α)} (h : key ∉ entries.map Prod.fst) :
    (table.insertAll entries).get? key = table.get? key := by
  have hnone : entries.reverse.find? (·.1 = key) = none := by
    refine List.find?_eq_none.mpr fun entry hentry => ?_
    have hmem : entry.1 ∈ entries.map Prod.fst := List.mem_map_of_mem (List.mem_reverse.mp hentry)
    have hne : entry.1 ≠ key := fun hkey => h (hkey ▸ hmem)
    simpa using hne
  rw [get?_insertAll, hnone]
  rfl

/-- Of entries with different keys each one is found. -/
theorem get?_insertAll_of_mem {entries : List (String × α)}
    (hkeys : (entries.map Prod.fst).Nodup) (h : (key, value) ∈ entries) :
    (table.insertAll entries).get? key = some value := by
  have hsome : (entries.reverse.find? (·.1 = key)).isSome = true :=
    List.find?_isSome.mpr ⟨(key, value), List.mem_reverse.mpr h, by simp⟩
  obtain ⟨entry, hfound⟩ := Option.isSome_iff_exists.mp hsome
  have hmem : entry ∈ entries := List.mem_reverse.mp (List.mem_of_find?_eq_some hfound)
  have hkey : entry.1 = key := by simpa using List.find?_some hfound
  obtain rfl := List.inj_on_of_nodup_map hkeys hmem h hkey
  rw [get?_insertAll, hfound]
  rfl

end SmallLisp.Table
