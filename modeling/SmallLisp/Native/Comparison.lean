import SmallLisp.Native.Arguments
import SmallLisp.Value.Equality

/-!
# Comparison

A comparison of any number of arguments holds when it holds between all neighbours.
-/

namespace SmallLisp

/-- Whether a relation holds between all neighbours of a list. -/
def holdsBetween {α : Type} (r : α → α → Bool) : List α → Bool
  | a :: b :: rest => r a b && holdsBetween r (b :: rest)
  | _ => true

namespace Comparison

def order : Comparison → Int64 → Int64 → Bool
  | eq => fun a b => a == b
  | lt => fun a b => a < b
  | le => fun a b => a ≤ b
  | gt => fun a b => b < a
  | ge => fun a b => b ≤ a

/-- The value of a call. Equality takes any values and the orders take integers. -/
def run (op : Comparison) (args : List Value) : Except Fault Value := do
  let _ ← Native.oneOrMore op.name args
  match op with
  | eq => return .bool (holdsBetween Value.equal args)
  | op =>
    let ns ← args.mapM (Native.int op.name)
    return .bool (holdsBetween op.order ns)

end Comparison

end SmallLisp
