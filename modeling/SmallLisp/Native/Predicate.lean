import SmallLisp.Native.Arguments

/-!
# Predicates

The tests of the kind of a value. A macro is no function.
-/

namespace SmallLisp.Predicate

def holds : Predicate → Value → Bool
  | isNil, .nil => true
  | isTrue, .bool b => b
  | isFalse, .bool b => !b
  | isNumber, .int _ => true
  | isString, .str _ => true
  | isSymbol, .symbol _ => true
  | isKeyword, .keyword _ => true
  | isList, .list _ _ => true
  | isVector, .vector _ _ => true
  | isMap, .map _ _ => true
  | isSequential, .list _ _ => true
  | isSequential, .vector _ _ => true
  | isAtom, .atom _ => true
  | isFn, .native _ _ _ => true
  | isFn, .closure fn _ _ => !fn.isMacro
  | isMacro, .closure fn _ _ => fn.isMacro
  | _, _ => false

def run (op : Predicate) (args : List Value) : Except Fault Value := do
  return .bool (op.holds (← Native.one op.name args))

end SmallLisp.Predicate
