import SmallLisp.Native.Arguments

/-!
# Arithmetic

Sums, differences, products and quotients from left to right, in 64 bits. A step whose result does
not fit is an overflow, and a quotient is cut toward zero.
-/

namespace SmallLisp.Arithmetic

def fit (op : Arithmetic) (n : Int) : Except Fault Int64 :=
  match Integer.ofInt? n with
  | some m => .ok m
  | none => .error (.overflow op.name)

def step (op : Arithmetic) (a b : Int64) : Except Fault Int64 :=
  match op with
  | add => op.fit (a.toInt + b.toInt)
  | sub => op.fit (a.toInt - b.toInt)
  | mul => op.fit (a.toInt * b.toInt)
  | div => if b = 0 then .error .divisionByZero else op.fit (a.toInt.tdiv b.toInt)

/-- The result for integers. A difference or quotient of one integer is its negation or its
reciprocal. -/
def compute (op : Arithmetic) (ns : List Int64) : Except Fault Int64 :=
  match op, ns with
  | add, ns => ns.foldlM op.step 0
  | mul, ns => ns.foldlM op.step 1
  | sub, [n] => op.fit (-n.toInt)
  | div, [n] => op.step 1 n
  | _, n :: rest => rest.foldlM op.step n
  | _, [] => .error (.arity (.atLeast 1) 0 (some op.name))

/-- The value of a call. All arguments must be integers. -/
def run (op : Arithmetic) (args : List Value) : Except Fault Value := do
  let ns ← args.mapM (Native.int op.name)
  return .int (← op.compute ns)

end SmallLisp.Arithmetic
