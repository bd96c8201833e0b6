import SmallLisp.Integer
import SmallLisp.Native.Basic
import SmallLisp.Names
import SmallLisp.Table

/-!
# Values

The values of the language, which are also its programs. Lists, vectors, maps and functions can
carry metadata. An atom is known by its number, and its content belongs to the heap; functions
carry an identity, since they are equal only to themselves.
-/

namespace SmallLisp

/-! ### Parameters -/

/-- The parameters of a function: those that a call must supply, and the one that receives the
list of all further arguments. -/
structure Params where
  required : List Symbol
  rest : Option Symbol
  deriving DecidableEq, Repr, Inhabited

/-- The symbols of a parameter list as it is written. -/
def Params.symbols (p : Params) : List Symbol :=
  p.required ++ match p.rest with
    | some s => [Symbol.restMark, s]
    | none => []

/-- What a closure is apart from its body and its metadata: its identity, its parameters, the
frame that it was made in, and whether it is a macro. -/
structure Lambda where
  identity : Nat
  params : Params
  scope : FrameId
  isMacro : Bool
  deriving DecidableEq, Repr, Inhabited

/-! ### The type of values -/

/-- A value of the language. The entries of a map are a table. -/
inductive Value where
  | nil
  | bool (b : Bool)
  | int (n : Int64)
  | str (text : String)
  | keyword (k : Keyword)
  | symbol (s : Symbol)
  | list (items : List Value) (metadata : Option Value)
  | vector (items : List Value) (metadata : Option Value)
  | map (entries : List (String × Value)) (metadata : Option Value)
  | native (fn : Native) (identity : Nat) (metadata : Option Value)
  | closure (fn : Lambda) (body : Value) (metadata : Option Value)
  | atom (id : AtomId)
  deriving Inhabited

namespace Value

def ofList (items : List Value) : Value := list items none

def ofVector (items : List Value) : Value := vector items none

def ofTable (entries : Table Value) : Value := map entries none

def named (name : String) : Value := symbol ⟨name⟩

def ofParams (p : Params) : Value := ofList (p.symbols.map symbol)

/-! ### Views -/

/-- Whether a value counts as true: all do but `nil` and `false`. -/
def isTruthy : Value → Bool
  | nil => false
  | bool b => b
  | _ => true

/-- The elements of a list or a vector. -/
def items? : Value → Option (List Value)
  | list items _ => some items
  | vector items _ => some items
  | _ => none

def symbol? : Value → Option Symbol
  | symbol s => some s
  | _ => none

def isNamed (name : String) : Value → Bool
  | symbol s => s.name == name
  | _ => false

def kind : Value → String
  | nil => "nil"
  | bool _ => "boolean"
  | int _ => "integer"
  | str _ => "string"
  | keyword _ => "keyword"
  | symbol _ => "symbol"
  | list _ _ => "list"
  | vector _ _ => "vector"
  | map _ _ => "map"
  | native _ _ _ => "native-fn"
  | closure fn _ _ => if fn.isMacro then "macro" else "fn"
  | atom _ => "atom"

/-! ### Keys of maps -/

/-- The key that a string or a keyword is in a map. -/
def key? : Value → Option String
  | str text => some text
  | keyword k => some k.key
  | _ => none

/-- The value that a key of a map stands for. -/
def ofKey (key : String) : Value :=
  match Keyword.ofKey? key with
  | some k => keyword k
  | none => str key

theorem key?_ofKey (key : String) : (ofKey key).key? = some key := by
  unfold ofKey Keyword.ofKey?
  split
  · next k hk =>
    split at hk
    · next c name hkey =>
      split at hk
      · next hc =>
        obtain rfl := Option.some.inj hk
        simp [key?, Keyword.key, ← hc, ← String.ofList_cons, ← hkey]
      · simp at hk
    · simp at hk
  · rfl

/-! ### Metadata -/

def metadata? : Value → Option Value
  | list _ m => m
  | vector _ m => m
  | map _ m => m
  | native _ _ m => m
  | closure _ _ m => m
  | _ => none

/-- A value with other metadata, if it can carry any. A closure becomes a new function, whose
identity is the given one. -/
def withMetadata? (v m : Value) (identity : Nat) : Option Value :=
  match v with
  | list items _ => some (list items (some m))
  | vector items _ => some (vector items (some m))
  | map entries _ => some (map entries (some m))
  | native fn id _ => some (native fn id (some m))
  | closure fn body _ => some (closure { fn with identity := identity } body (some m))
  | _ => none

def takesMetadata (v : Value) : Bool := (v.withMetadata? nil 0).isSome

end Value

end SmallLisp
