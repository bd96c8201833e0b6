import SmallLisp.Fault

/-!
# Arguments of functions

How functions take their arguments: by number first, then by kind, from left to right. Each check
names the function in its fault.
-/

namespace SmallLisp.Native

/-! ### Numbers of arguments -/

def arityFault (name : String) (expected : Arity) (args : List Value) : Fault :=
  .arity expected args.length (some name)

def zero (name : String) : List Value → Except Fault Unit
  | [] => .ok ()
  | args => .error (arityFault name (.exactly 0) args)

def one (name : String) : List Value → Except Fault Value
  | [a] => .ok a
  | args => .error (arityFault name (.exactly 1) args)

def two (name : String) : List Value → Except Fault (Value × Value)
  | [a, b] => .ok (a, b)
  | args => .error (arityFault name (.exactly 2) args)

def oneOrMore (name : String) : List Value → Except Fault (Value × List Value)
  | a :: rest => .ok (a, rest)
  | args => .error (arityFault name (.atLeast 1) args)

def twoOrMore (name : String) : List Value → Except Fault (Value × Value × List Value)
  | a :: b :: rest => .ok (a, b, rest)
  | args => .error (arityFault name (.atLeast 2) args)

/-! ### Kinds of arguments -/

def int (name : String) : Value → Except Fault Int64
  | .int n => .ok n
  | v => .error (.wrongKind name "integer" v)

def text (name : String) : Value → Except Fault String
  | .str s => .ok s
  | v => .error (.wrongKind name "string" v)

def items (name : String) (v : Value) : Except Fault (List Value) :=
  match v.items? with
  | some items => .ok items
  | _ => .error (.wrongKind name "list or vector" v)

/-- The elements of a list or vector, where `nil` is the empty one. -/
def itemsOrNil (name : String) : Value → Except Fault (List Value)
  | .nil => .ok []
  | v => items name v

/-- The key of a map that a string or keyword is. -/
def key (name : String) (v : Value) : Except Fault String :=
  match v.key? with
  | some key => .ok key
  | _ => .error (.wrongKind name "string or keyword" v)

def entries (name : String) : Value → Except Fault (Table Value)
  | .map entries _ => .ok entries
  | v => .error (.wrongKind name "map" v)

def atom (name : String) : Value → Except Fault AtomId
  | .atom id => .ok id
  | v => .error (.wrongKind name "atom" v)

end SmallLisp.Native
