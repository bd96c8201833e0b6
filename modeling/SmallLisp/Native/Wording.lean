import SmallLisp.Heap
import SmallLisp.Native.Arguments

/-!
# Wording

The functions that turn values into text, and text into symbols and keywords. A text shows the
contents of atoms, so it depends on the heap.
-/

namespace SmallLisp.Wording

def run (h : Heap) (op : Wording) (args : List Value) : Except Fault Value := do
  match op with
  | str => return .str (h.printList false "" args)
  | prStr => return .str (h.printList true " " args)
  | symbol =>
    match ← Native.one op.name args with
    | .str text => return .symbol ⟨text⟩
    | .symbol s => return .symbol s
    | v => .error (.wrongKind op.name "string" v)
  | keyword =>
    match ← Native.one op.name args with
    | .str text => return .keyword (.ofName text)
    | .keyword k => return .keyword k
    | v => .error (.wrongKind op.name "string" v)

end SmallLisp.Wording
