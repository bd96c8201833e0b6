import SmallLisp.Disk
import SmallLisp.Integer
import SmallLisp.Reader.Error
import SmallLisp.Value.Basic

/-!
# Errors

An evaluation fails with a fault, which the interpreter finds, or with a value that the program
has thrown. The handler of an error receives the thrown value, or the wording of the fault.
-/

namespace SmallLisp

/-! ### Faults -/

/-- How many arguments a function takes. -/
inductive Arity where
  | exactly (n : Nat)
  | atLeast (n : Nat)
  deriving DecidableEq, Repr

def Arity.text : Arity → String
  | exactly n => toString n
  | atLeast n => "at least " ++ toString n

/-- Why an evaluation fails of itself. `evaluation`, `io` and `internal` bring their own words:
those of a host program, or of a function whose fault has no kind of its own. -/
inductive Fault where
  | undefinedSymbol (s : Symbol)
  | arity (expected : Arity) (got : Nat) (name : Option String)
  | type (expected got : String) (context : Option String)
  | notCallable (text : String)
  | divisionByZero
  | indexOutOfBounds (index : Int64) (length : Nat)
  | invalidSyntax (form message : String)
  | overflow (name : String)
  | tooDeep (limit : Nat)
  | unpairedArguments (name : String)
  | read (message : String) (position : Position)
  | file (path : String) (cause : FileFault)
  | garbledInput
  | evaluation (message : String)
  | io (message : String)
  | internal (message : String)
  deriving DecidableEq

namespace Fault

def message : Fault → String
  | undefinedSymbol s => "Unable to resolve symbol: " ++ s.name
  | arity expected got name =>
    "Wrong number of arguments" ++
      (match name with
        | some name => " to '" ++ name ++ "'"
        | none => "") ++
      ": expected " ++ expected.text ++ ", got " ++ toString got
  | type expected got context =>
    context.getD "Type error" ++ ": expected " ++ expected ++ ", got " ++ got
  | notCallable text => "Cannot call value: " ++ text
  | divisionByZero => "Division by zero"
  | indexOutOfBounds index length =>
    "Index " ++ Integer.text index ++ " out of bounds for collection of length " ++
      toString length
  | invalidSyntax form message => "Invalid '" ++ form ++ "' syntax: " ++ message
  | overflow name => "Integer overflow in '" ++ name ++ "'"
  | tooDeep limit =>
    "Stack overflow: maximum recursion depth (" ++ toString limit ++ ") exceeded"
  | unpairedArguments name => name ++ ": expected an even number of key/value arguments"
  | read message position => parseErrorText message position
  | file path cause => "slurp: " ++ path ++ ": " ++ cause.message
  | garbledInput => FileFault.notText.message
  | evaluation message => message
  | io message => message
  | internal message => "Internal error: " ++ message

def ofReadError (e : ReadError) : Fault := read e.cause.message e.position

/-- The fault of a value of the wrong kind, as the argument of a named function. -/
def wrongKind (name expected : String) (v : Value) : Fault := type expected v.kind (some name)

end Fault

/-! ### Errors -/

/-- How an evaluation fails. -/
inductive Error where
  | fault (f : Fault)
  | thrown (v : Value)

namespace Error

/-- The text of an error, where values print as given. -/
def text (print : Value → String) : Error → String
  | fault f => f.message
  | thrown v => print v

/-- The value that a handler of an error receives. -/
def caught : Error → Value
  | fault f => .str f.message
  | thrown v => v

end Error

end SmallLisp
