import SmallLisp.Native.Arguments

/-!
# Collections

The functions that build lists, vectors and maps, and those that read maps or build maps from
maps. Where a map is read, `nil` is the empty one.
-/

namespace SmallLisp.Collection

/-- A table with alternating keys and values set, from left to right. -/
def insertPairs (op : Collection) (table : Table Value) (args : List Value) :
    Except Fault (Table Value) := do
  match pairs? args with
  | none => .error (.unpairedArguments op.name)
  | some pairs =>
    let entries ← pairs.mapM fun pair => return (← Native.key op.name pair.1, pair.2)
    return table.insertAll entries

/-- The entries of a map, or those of `nil`. -/
def entriesOrNil (op : Collection) : Value → Except Fault (Table Value)
  | .nil => .ok []
  | v => Native.entries op.name v

def run (op : Collection) (args : List Value) : Except Fault Value :=
  match op with
  | list => .ok (.ofList args)
  | vector => .ok (.ofVector args)
  | hashMap => return .ofTable (← op.insertPairs [] args)
  | assoc =>
    match args with
    | m :: first :: second :: rest => do
      let table ← Native.entries op.name m
      return .ofTable (← op.insertPairs table (first :: second :: rest))
    | args => .error (Native.arityFault op.name (.atLeast 3) args)
  | dissoc => do
    let (m, removed) ← Native.oneOrMore op.name args
    let table ← Native.entries op.name m
    let removed ← removed.mapM (Native.key op.name)
    return .ofTable (removed.foldl (fun table key => table.erase key) table)
  | get => do
    match ← Native.two op.name args with
    | (.nil, _) => return .nil
    | (m, k) =>
      let table ← Native.entries op.name m
      return (table.get? (← Native.key op.name k)).getD .nil
  | contains => do
    match ← Native.two op.name args with
    | (.nil, _) => return .bool false
    | (m, k) =>
      let table ← Native.entries op.name m
      return .bool (table.contains (← Native.key op.name k))
  | keys => do
    let table ← op.entriesOrNil (← Native.one op.name args)
    return .ofList (table.map fun entry => .ofKey entry.1)
  | vals => do
    let table ← op.entriesOrNil (← Native.one op.name args)
    return .ofList (table.map fun entry => entry.2)

end SmallLisp.Collection
