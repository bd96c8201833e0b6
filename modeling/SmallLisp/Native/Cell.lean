import SmallLisp.Eval.Basic
import SmallLisp.Native.Arguments

/-!
# Cells and metadata

The functions on atoms, and those that read the metadata of a value and copy a value with other
metadata. The value that `swap!` sets is that of a call, and a call can change the atom too; what it
set is then overwritten. A function that is copied is a new one.
-/

namespace SmallLisp

namespace Cell

/-- The content of an atom. Every atom that a program can name has one. -/
def content (id : AtomId) : Eval Value := do
  return (← Eval.heap).atoms.getD id .nil

def assign (id : AtomId) (v : Value) : Eval Value :=
  .onHeap fun h => (v, h.setAtom id v)

/-- The value of a call, where functions are called by `call`. -/
def run (call : Value → List Value → Eval Value) (op : Cell) (args : List Value) :
    Eval Value := do
  match op with
  | atom =>
    let v ← .ofExcept (Native.one op.name args)
    .onHeap fun h =>
      let (id, h) := h.addAtom v
      (.atom id, h)
  | deref =>
    let id ← .ofExcept (do Native.atom op.name (← Native.one op.name args))
    content id
  | reset =>
    let (cell, v) ← .ofExcept (Native.two op.name args)
    let id ← .ofExcept (Native.atom op.name cell)
    assign id v
  | swap =>
    let (cell, f, more) ← .ofExcept (Native.twoOrMore op.name args)
    let id ← .ofExcept (Native.atom op.name cell)
    let v ← call f ((← content id) :: more)
    assign id v

end Cell

namespace Metadata

def run (op : Metadata) (args : List Value) : Eval Value := do
  match op with
  | withMeta =>
    let (v, m) ← .ofExcept (Native.two op.name args)
    let identity ← .onHeap Heap.addIdentity
    match v.withMetadata? m identity with
    | some annotated => return annotated
    | none => .fail (.wrongKind op.name "collection or function" v)
  | getMeta =>
    let v ← .ofExcept (Native.one op.name args)
    return v.metadata?.getD .nil

end Metadata

end SmallLisp
