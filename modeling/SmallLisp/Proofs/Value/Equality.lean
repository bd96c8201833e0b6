import Mathlib
import SmallLisp.Native.Comparison
import SmallLisp.Proofs.Table.Order

/-!
# Equality as an equivalence

The essence of a value is what takes part in its equality, and two values are equal exactly if they
have the same essence. Equality is therefore an equivalence relation. Tables are compared entry by
entry; `equal_map_iff` says that for tables in order this is inclusion one way and equal size.
-/

namespace SmallLisp

/-- What takes part in the equality of a value: a list and a vector are the sequence of their
elements, functions and atoms are their identities, and there is no metadata. -/
inductive Essence where
  | nil
  | bool (b : Bool)
  | int (n : Int64)
  | str (text : String)
  | keyword (k : Keyword)
  | symbol (s : Symbol)
  | sequence (items : List Essence)
  | map (entries : List (String × Essence))
  | native (identity : Nat)
  | closure (identity : Nat)
  | atom (id : AtomId)

namespace Value

mutual

def essence : Value → Essence
  | nil => .nil
  | bool b => .bool b
  | int n => .int n
  | str text => .str text
  | keyword k => .keyword k
  | symbol s => .symbol s
  | list items _ => .sequence (essences items)
  | vector items _ => .sequence (essences items)
  | map entries _ => .map (essenceEntries entries)
  | native _ identity _ => .native identity
  | closure fn _ _ => .closure fn.identity
  | atom id => .atom id

def essences : List Value → List Essence
  | [] => []
  | v :: rest => v.essence :: essences rest

def essenceEntries : List (String × Value) → List (String × Essence)
  | [] => []
  | (key, v) :: rest => (key, v.essence) :: essenceEntries rest

end

theorem essences_eq (vs : List Value) : essences vs = vs.map essence := by
  induction vs with
  | nil => rfl
  | cons v rest ih => rw [essences, ih, List.map_cons]

theorem essenceEntries_eq (entries : List (String × Value)) :
    essenceEntries entries = entries.map fun entry => (entry.1, entry.2.essence) := by
  induction entries with
  | nil => rfl
  | cons entry rest ih => rw [essenceEntries, ih, List.map_cons]

mutual

/-- Values are equal exactly if they have the same essence. -/
theorem equal_iff : ∀ a b : Value, a.equal b = true ↔ a.essence = b.essence
  | nil, b => by cases b <;> simp [equal, essence]
  | bool _, b => by cases b <;> simp [equal, essence]
  | int _, b => by cases b <;> simp [equal, essence]
  | str _, b => by cases b <;> simp [equal, essence]
  | keyword _, b => by cases b <;> simp [equal, essence]
  | symbol _, b => by cases b <;> simp [equal, essence]
  | list items _, b => by cases b <;> simp [equal, essence, equalAll_iff items]
  | vector items _, b => by cases b <;> simp [equal, essence, equalAll_iff items]
  | map entries _, b => by cases b <;> simp [equal, essence, equalEntries_iff entries]
  | native _ _ _, b => by cases b <;> simp [equal, essence]
  | closure _ _ _, b => by cases b <;> simp [equal, essence]
  | atom _, b => by cases b <;> simp [equal, essence]

theorem equalAll_iff : ∀ as bs : List Value, equalAll as bs = true ↔ essences as = essences bs
  | [], bs => by cases bs <;> simp [equalAll, essences]
  | a :: as, bs => by
    cases bs <;> simp [equalAll, essences, equal_iff a, equalAll_iff as]

theorem equalEntries_iff : ∀ as bs : List (String × Value),
    equalEntries as bs = true ↔ essenceEntries as = essenceEntries bs
  | [], bs => by cases bs <;> simp [equalEntries, essenceEntries]
  | (_, a) :: as, bs => by
    cases bs <;>
      simp [equalEntries, essenceEntries, equal_iff a, equalEntries_iff as, and_assoc]

end

/-! ### An equivalence -/

theorem equal_equivalence : Equivalence fun a b : Value => a.equal b = true := by
  simp only [equal_iff]
  exact ⟨fun _ => rfl, Eq.symm, Eq.trans⟩

/-! ### Maps -/

theorem get?_essenceEntries (table : Table Value) (key : String) :
    Table.get? (essenceEntries table) key = (table.get? key).map essence := by
  induction table with
  | nil => rfl
  | cons entry rest ih =>
    rw [essenceEntries, Table.get?_cons, Table.get?_cons, ih]
    split <;> rfl

theorem length_essenceEntries (table : Table Value) :
    (essenceEntries table).length = table.length := by
  rw [essenceEntries_eq, List.length_map]

theorem sorted_essenceEntries {table : Table Value} (h : table.Sorted) :
    Table.Sorted (essenceEntries table) := by
  rw [essenceEntries_eq]
  exact List.pairwise_map.mpr h

/-- Maps are equal if they have equally many entries and every entry of the one is found in the
other, with an equal value. -/
theorem equal_map_iff {table table' : Table Value} (hs : table.Sorted) (hs' : table'.Sorted)
    (m m' : Option Value) :
    (map table m).equal (map table' m') = true ↔ table.length = table'.length ∧
      ∀ key v, table.get? key = some v → ∃ w, table'.get? key = some w ∧ v.equal w = true := by
  rw [equal, equalEntries_iff]
  constructor
  · intro h
    refine ⟨?_, fun key v hv => ?_⟩
    · rw [← length_essenceEntries table, h, length_essenceEntries]
    · have hfound : (table'.get? key).map essence = some v.essence := by
        rw [← get?_essenceEntries, ← h, get?_essenceEntries, hv]
        rfl
      obtain ⟨w, hw, hessence⟩ := Option.map_eq_some_iff.mp hfound
      exact ⟨w, hw, (equal_iff v w).mpr hessence.symm⟩
  · rintro ⟨hlength, hfound⟩
    -- Inclusion in one direction is enough, since a table has no key twice.
    refine Table.eq_of_subset (sorted_essenceEntries hs) (sorted_essenceEntries hs') ?_ ?_
    · rintro ⟨key, essence⟩ hmem
      have hget := Table.get?_of_mem (sorted_essenceEntries hs) hmem
      rw [get?_essenceEntries] at hget
      obtain ⟨v, hv, rfl⟩ := Option.map_eq_some_iff.mp hget
      obtain ⟨w, hw, hequal⟩ := hfound key v hv
      refine Table.mem_of_get? ?_
      rw [get?_essenceEntries, hw, (equal_iff v w).mp hequal]
      rfl
    · rw [length_essenceEntries, length_essenceEntries, hlength]

end Value

/-! ### Neighbours -/

theorem holdsBetween_iff_isChain {α : Type} {r : α → α → Bool} (as : List α) :
    holdsBetween r as = true ↔ as.IsChain fun a b => r a b = true := by
  fun_induction holdsBetween r as with
  | case1 a b rest ih => simp [ih]
  | case2 as h =>
    match as with
    | [] => simp
    | [a] => simp
    | a :: b :: rest => exact absurd rfl (h a b rest)

/-- An equivalence that holds between neighbours holds between any two elements. -/
theorem holdsBetween_iff {α : Type} {r : α → α → Bool}
    (h : Equivalence fun a b => r a b = true) (as : List α) :
    holdsBetween r as = true ↔ ∀ a ∈ as, ∀ b ∈ as, r a b = true := by
  have : Trans (fun a b => r a b = true) (fun a b => r a b = true) (fun a b => r a b = true) :=
    ⟨h.trans⟩
  have : Std.Symm fun a b => r a b = true := ⟨fun _ _ => h.symm⟩
  rw [holdsBetween_iff_isChain, List.isChain_iff_pairwise]
  constructor
  · intro hpairs a ha b hb
    exact hpairs.forall_of_forall (fun c _ => h.refl c) ha hb
  · exact List.pairwise_of_forall_mem_list

/-! ### The function `=` -/

/-- Equality is an equivalence relation, under which maps are equal if they have the same number of
entries and those of one are in the other. So `=`, which compares neighbours, holds of some
arguments exactly if any two of them are equal. It needs one argument. -/
theorem equality_of_neighbours :
    (Equivalence fun v w : Value => v.equal w = true) ∧
    (∀ (table table' : Table Value) (m m' : Option Value), table.Sorted → table'.Sorted →
      ((Value.map table m).equal (.map table' m') = true ↔ table.length = table'.length ∧
        ∀ key v, table.get? key = some v → ∃ w, table'.get? key = some w ∧ v.equal w = true)) ∧
    (∀ first rest, ∃ b, Comparison.eq.run (first :: rest) = .ok (.bool b) ∧
      (b = true ↔ ∀ v ∈ first :: rest, ∀ w ∈ first :: rest, v.equal w = true)) ∧
    Comparison.eq.run [] = .error (.arity (.atLeast 1) 0 (some "=")) := by
  refine ⟨Value.equal_equivalence, ?_, ?_, rfl⟩
  · exact fun _ _ m m' hs hs' => Value.equal_map_iff hs hs' m m'
  · exact fun first rest => ⟨_, rfl, holdsBetween_iff Value.equal_equivalence (first :: rest)⟩

/-- A list and an annotated vector with equal elements, among them a map and an annotated map of one
function. -/
def Value.sampleEquals : List Value :=
  [.ofList [.ofVector [.int 1], .ofTable [("k", .native .throw 7 none)]],
    .vector [.ofList [.int 1], .map [("k", .native .throw 7 (some .nil))] (some .nil)] (some .nil)]

theorem equality_of_neighbours_sampleEquals :
    Comparison.eq.run Value.sampleEquals = .ok (.bool true) ∧
    (∀ v ∈ Value.sampleEquals, ∀ w ∈ Value.sampleEquals, v.equal w = true) ∧
    Value.equal (.ofTable [("a", .int 1), ("b", .nil)]) (.ofTable [("a", .int 1), ("c", .nil)]) =
      false := by
  obtain ⟨_, hmaps, hcalls, _⟩ := equality_of_neighbours
  obtain ⟨b, hrun, hb⟩ := hcalls _ _
  have htrue : Comparison.eq.run Value.sampleEquals = .ok (.bool true) := by cbv
  refine ⟨htrue, ?_, ?_⟩
  · exact hb.mp (by cases htrue.symm.trans hrun; rfl)
  · have hdiffer := hmaps [("a", .int 1), ("b", .nil)] [("a", .int 1), ("c", .nil)] none none
      (List.pairwise_pair.mpr (by decide)) (List.pairwise_pair.mpr (by decide))
    rw [Bool.eq_false_iff, ne_eq]
    intro hequal
    obtain ⟨w, hw, _⟩ := (hdiffer.mp hequal).2 "b" .nil rfl
    cases hw

/-- Any two of no arguments are equal, but `=` does not hold of them. -/
theorem equality_of_no_arguments :
    ¬ ∀ args : List Value, Comparison.eq.run args = .ok (.bool true) ↔
      ∀ v ∈ args, ∀ w ∈ args, v.equal w = true := by
  intro h
  cases (h []).mpr nofun

end SmallLisp
