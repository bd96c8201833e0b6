import SmallLisp.Native.HigherOrder
import SmallLisp.Proofs.Evaluation.Visits

/-!
# Columns

The columns of some rows, told by index: there are as many as the shortest row has elements, and
each consists of the elements that the rows have at one index. With one row every element is a
column, so that `map` over one sequence is a case of `map` over some.
-/

namespace SmallLisp

/-- The elements of some rows at an index that none of them is too short for. -/
def column (rows : List (List Value)) (index : Nat) : List Value :=
  rows.map fun row => row.getD index .nil

/-- The length of the shortest of some rows. -/
def shortest (rows : List (List Value)) : Nat := (rows.map List.length).min?.getD 0

/-! ### By index -/

section

variable {row : List Value} {others : List (List Value)}

theorem mapM_head?_of_forall (h : ∀ row ∈ others, row ≠ []) :
    others.mapM List.head? = some (column others 0) := by
  induction others with
  | nil => rfl
  | cons row rest ih =>
    obtain ⟨hrow, hrest⟩ := List.forall_mem_cons.mp h
    obtain ⟨v, row, rfl⟩ := List.exists_cons_of_ne_nil hrow
    rw [List.mapM_cons, ih hrest]
    rfl

theorem mapM_head?_of_mem (h : [] ∈ others) : others.mapM List.head? = none := by
  induction others with
  | nil => cases h
  | cons row rest ih =>
    rw [List.mapM_cons]
    cases row with
    | nil => rfl
    | cons v row =>
      have hrest : [] ∈ rest := (List.mem_cons.mp h).resolve_left nofun
      rw [ih hrest]
      rfl

theorem column_succ (rows : List (List Value)) (index : Nat) :
    column rows (index + 1) = column (rows.map List.tail) index := by
  unfold column
  rw [List.map_map]
  refine List.map_congr_left fun row _ => ?_
  cases row <;> rfl

theorem columns_eq_of_length {n : Nat} (hle : ∀ r ∈ row :: others, n ≤ r.length)
    (hn : ∃ r ∈ row :: others, r.length = n) :
    columns row others = (List.range n).map (column (row :: others)) := by
  induction row generalizing others n with
  | nil =>
    obtain rfl : n = 0 := Nat.le_zero.mp (hle [] List.mem_cons_self)
    rfl
  | cons v row ih =>
    rw [columns]
    by_cases hempty : [] ∈ others
    · obtain rfl : n = 0 := Nat.le_zero.mp (hle [] (List.mem_cons_of_mem _ hempty))
      rw [mapM_head?_of_mem hempty]
      rfl
    · have hfull : ∀ r ∈ (v :: row) :: others, r ≠ [] := by
        rintro r hr rfl
        exact hempty ((List.mem_cons.mp hr).resolve_left nofun)
      -- Every row loses one element, and so does the number of columns.
      obtain ⟨r, hr, rfl⟩ := hn
      obtain ⟨w, r', rfl⟩ := List.exists_cons_of_ne_nil (hfull r hr)
      have hle' : ∀ t ∈ ((v :: row) :: others).map List.tail, r'.length ≤ t.length := by
        intro t ht
        obtain ⟨r'', hr'', rfl⟩ := List.mem_map.mp ht
        have hlength := hle r'' hr''
        rw [List.length_cons] at hlength
        rw [List.length_tail]
        omega
      have hn' : ∃ t ∈ ((v :: row) :: others).map List.tail, t.length = r'.length :=
        ⟨r', List.mem_map.mpr ⟨_, hr, rfl⟩, rfl⟩
      rw [mapM_head?_of_forall fun r hr => hfull r (List.mem_cons_of_mem _ hr), List.length_cons,
        List.range_succ_eq_map, List.map_cons, List.map_map]
      refine congrArg (column ((v :: row) :: others) 0 :: ·) ((ih hle' hn').trans ?_)
      exact List.map_congr_left fun index _ => (column_succ ((v :: row) :: others) index).symm

theorem columns_eq (row : List Value) (others : List (List Value)) :
    columns row others =
      (List.range (shortest (row :: others))).map (column (row :: others)) := by
  have hsome : ((row :: others).map List.length).min? =
      some (shortest (row :: others)) := by
    unfold shortest
    rw [List.map_cons, List.min?_cons', Option.getD_some]
  obtain ⟨hmem, hle⟩ := List.min?_eq_some_iff.mp hsome
  obtain ⟨r, hr, hlength⟩ := List.mem_map.mp hmem
  exact columns_eq_of_length (fun r hr => hle _ (List.mem_map_of_mem hr)) ⟨r, hr, hlength⟩

theorem columns_single {α : Type} (row : List α) : columns row [] = row.map fun a => [a] := by
  induction row with
  | nil => rfl
  | cons a row ih => exact congrArg ([a] :: ·) ih

end

/-! ### The function `map` -/

namespace HigherOrder

variable (call : Value → List Value → Eval Value)

theorem mapOne_eq (f row : Value) : mapOne call f row = mapAll call f row [] := by
  have heach : ∀ items, Eval.forEach (call f) (columns items []) =
      Eval.forEach (fun v => call f [v]) items := by
    intro items
    rw [columns_single, Eval.forEach_map]
  unfold mapOne mapAll
  simp only [← heach]
  rfl

theorem run_map (args : List Value) : map.run call args =
    (Eval.ofExcept (Native.twoOrMore map.name args) >>= fun (f, row, more) =>
      mapAll call f row more) := by
  refine congrArg (Eval.ofExcept (Native.twoOrMore map.name args) >>= ·) (funext fun triple => ?_)
  obtain ⟨f, row, more⟩ := triple
  cases more with
  | nil => exact mapOne_eq call f row
  | cons _ _ => rfl

end HigherOrder

end SmallLisp
