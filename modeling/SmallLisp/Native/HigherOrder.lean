import SmallLisp.Eval.Basic
import SmallLisp.Native.Arguments

/-!
# Functions that call functions

`apply` calls a function once, on arguments of which the last one is a sequence of further
arguments. `map` calls a function for each column of some sequences, as many as the shortest has,
and for each element of a single one.
-/

namespace SmallLisp

/-- The columns of some rows of which `first` is the first one, up to the end of the shortest. -/
def columns {α : Type} : List α → List (List α) → List (List α)
  | [], _ => []
  | a :: first, others =>
    match others.mapM List.head? with
    | some heads => (a :: heads) :: columns first (others.map List.tail)
    | none => []

namespace HigherOrder

/-- What `map` gives for one sequence: the value of a call for each element. -/
def mapOne (call : Value → List Value → Eval Value) (f row : Value) : Eval Value := do
  let row ← .ofExcept (Native.itemsOrNil map.name row)
  return .ofList (← Eval.forEach (fun v => call f [v]) row)

/-- What `map` gives for some sequences: the value of a call for each column. -/
def mapAll (call : Value → List Value → Eval Value) (f row : Value) (more : List Value) :
    Eval Value := do
  let row ← .ofExcept (Native.itemsOrNil map.name row)
  let more ← .ofExcept (more.mapM (Native.itemsOrNil map.name))
  return .ofList (← Eval.forEach (call f) (columns row more))

/-- The value of a call, where functions are called by `call`. -/
def run (call : Value → List Value → Eval Value) (op : HigherOrder) (args : List Value) :
    Eval Value := do
  let (f, row, more) ← .ofExcept (Native.twoOrMore op.name args)
  match op with
  | apply =>
    let spread ← .ofExcept (Native.itemsOrNil op.name (more.getLastD row))
    call f ((row :: more).dropLast ++ spread)
  | map =>
    match more with
    | [] => mapOne call f row
    | more => mapAll call f row more

end HigherOrder

end SmallLisp
