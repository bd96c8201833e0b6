import SmallLisp.Native.Arguments

/-!
# Sequences

The functions on lists and vectors. Each builds a new value; what is built is a list, except that
`conj` keeps the kind and the metadata of what it adds to.
-/

namespace SmallLisp.Sequence

/-- The number of elements of a list, vector or map; `nil` has none. -/
def countOf (op : Sequence) : Value → Except Fault Nat
  | .nil => .ok 0
  | .map entries _ => .ok entries.length
  | v => return (← Native.items op.name v).length

/-- A number of elements as an integer. -/
def counted (op : Sequence) (n : Nat) : Except Fault Value :=
  match Integer.ofInt? n with
  | some n => .ok (.int n)
  | none => .error (.evaluation (op.name ++ ": collection too large"))

theorem counted_eq_ok_iff {op : Sequence} {n : Nat} {m : Int64} :
    op.counted n = .ok (.int m) ↔ m.toInt = n := by
  unfold counted
  rw [← Integer.ofInt?_eq_some_iff]
  cases Integer.ofInt? n <;> simp

/-- The entries that a map, or a vector of a key and a value, adds to a map. -/
def additions (op : Sequence) : Value → Except Fault (List (String × Value))
  | .map entries _ => .ok entries
  | .vector [k, v] _ => return [(← Native.key op.name k, v)]
  | v => .error (.wrongKind op.name "map or [key value] vector" v)

/-- A collection with more elements: in front of a list one by one, at the end of a vector, and
into a map. -/
def extend (op : Sequence) (extra : List Value) : Value → Except Fault Value
  | .list items m => .ok (.list (extra.reverse ++ items) m)
  | .vector items m => .ok (.vector (items ++ extra) m)
  | .map entries m => do
    let additions ← extra.mapM op.additions
    return .map (Table.insertAll entries additions.flatten) m
  | v => .error (.wrongKind op.name "list, vector or map" v)

/-- A sequence as a list, where an empty one is `nil`. A text is the sequence of its
characters. -/
def listed (op : Sequence) : Value → Except Fault Value
  | .nil => .ok .nil
  | .list items _ => .ok (if items.isEmpty then .nil else .ofList items)
  | .vector items _ => .ok (if items.isEmpty then .nil else .ofList items)
  | .str text =>
    .ok (if text.isEmpty then .nil
      else .ofList (text.toList.map fun c => .str (String.singleton c)))
  | v => .error (.wrongKind op.name "list, vector or string" v)

/-- The element at an index. -/
def element (items : List Value) (index : Int64) : Except Fault Value :=
  let found := if 0 ≤ index.toInt then items[index.toInt.toNat]? else none
  match found with
  | some v => .ok v
  | none => .error (.indexOutOfBounds index items.length)

def run (op : Sequence) (args : List Value) : Except Fault Value := do
  match op with
  | cons =>
    let (v, items) ← Native.two op.name args
    return .ofList (v :: (← Native.itemsOrNil op.name items))
  | concat =>
    let parts ← args.mapM (Native.itemsOrNil op.name)
    return .ofList parts.flatten
  | nth =>
    let (v, index) ← Native.two op.name args
    let items ← Native.items op.name v
    element items (← Native.int op.name index)
  | first =>
    let items ← Native.itemsOrNil op.name (← Native.one op.name args)
    return items.headD .nil
  | rest =>
    let items ← Native.itemsOrNil op.name (← Native.one op.name args)
    return .ofList items.tail
  | isEmpty => return .bool ((← op.countOf (← Native.one op.name args)) == 0)
  | count => op.counted (← op.countOf (← Native.one op.name args))
  | conj =>
    let (v, item, more) ← Native.twoOrMore op.name args
    op.extend (item :: more) v
  | seq => op.listed (← Native.one op.name args)

end SmallLisp.Sequence
