/-!
# Native functions

The catalogue of the functions that the language provides, by family, with the names they are
bound to. What each one does is defined where its family is evaluated.
-/

namespace SmallLisp

/-- The number of a frame in the order of creation. -/
abbrev FrameId := Nat

/-- The number of an atom in the order of creation. -/
abbrev AtomId := Nat

/-! ### Families -/

/-- Functions on integers. -/
inductive Arithmetic where
  | add
  | sub
  | mul
  | div
  deriving DecidableEq, Repr

/-- Relations that must hold between neighbouring arguments. -/
inductive Comparison where
  | eq
  | lt
  | le
  | gt
  | ge
  deriving DecidableEq, Repr

/-- Tests of the kind of one value. -/
inductive Predicate where
  | isNil
  | isTrue
  | isFalse
  | isNumber
  | isString
  | isSymbol
  | isKeyword
  | isList
  | isVector
  | isMap
  | isSequential
  | isAtom
  | isFn
  | isMacro
  deriving DecidableEq, Repr

/-- Functions between values and text. -/
inductive Wording where
  | str
  | prStr
  | symbol
  | keyword
  deriving DecidableEq, Repr

/-- Functions that reach outside: the console, files, the clock. `readString` reads a form. -/
inductive Exchange where
  | prn
  | println
  | readString
  | slurp
  | readline
  | timeMs
  deriving DecidableEq, Repr

/-- Functions that build collections and functions on maps. -/
inductive Collection where
  | list
  | vector
  | hashMap
  | assoc
  | dissoc
  | get
  | contains
  | keys
  | vals
  deriving DecidableEq, Repr

/-- Functions on sequences. -/
inductive Sequence where
  | cons
  | concat
  | nth
  | first
  | rest
  | isEmpty
  | count
  | conj
  | seq
  deriving DecidableEq, Repr

/-- Functions that call their first argument. -/
inductive HigherOrder where
  | apply
  | map
  deriving DecidableEq, Repr

/-- Functions on the metadata of a value. -/
inductive Metadata where
  | withMeta
  | getMeta
  deriving DecidableEq, Repr

/-- Functions on mutable cells. -/
inductive Cell where
  | atom
  | deref
  | reset
  | swap
  deriving DecidableEq, Repr

/-! ### Names -/

def Arithmetic.name : Arithmetic → String
  | add => "+"
  | sub => "-"
  | mul => "*"
  | div => "/"

def Comparison.name : Comparison → String
  | eq => "="
  | lt => "<"
  | le => "<="
  | gt => ">"
  | ge => ">="

def Predicate.name : Predicate → String
  | isNil => "nil?"
  | isTrue => "true?"
  | isFalse => "false?"
  | isNumber => "number?"
  | isString => "string?"
  | isSymbol => "symbol?"
  | isKeyword => "keyword?"
  | isList => "list?"
  | isVector => "vector?"
  | isMap => "map?"
  | isSequential => "sequential?"
  | isAtom => "atom?"
  | isFn => "fn?"
  | isMacro => "macro?"

def Wording.name : Wording → String
  | str => "str"
  | prStr => "pr-str"
  | symbol => "symbol"
  | keyword => "keyword"

def Exchange.name : Exchange → String
  | prn => "prn"
  | println => "println"
  | readString => "read-string"
  | slurp => "slurp"
  | readline => "readline"
  | timeMs => "time-ms"

def Collection.name : Collection → String
  | list => "list"
  | vector => "vector"
  | hashMap => "hash-map"
  | assoc => "assoc"
  | dissoc => "dissoc"
  | get => "get"
  | contains => "contains?"
  | keys => "keys"
  | vals => "vals"

def Sequence.name : Sequence → String
  | cons => "cons"
  | concat => "concat"
  | nth => "nth"
  | first => "first"
  | rest => "rest"
  | isEmpty => "empty?"
  | count => "count"
  | conj => "conj"
  | seq => "seq"

def HigherOrder.name : HigherOrder → String
  | apply => "apply"
  | map => "map"

def Metadata.name : Metadata → String
  | withMeta => "with-meta"
  | getMeta => "meta"

def Cell.name : Cell → String
  | atom => "atom"
  | deref => "deref"
  | reset => "reset!"
  | swap => "swap!"

/-! ### The catalogue -/

/-- A function that the language provides. `eval` evaluates a form in a fixed frame, and `gather`
is a function of a host program that returns its arguments in a vector. -/
inductive Native where
  | arithmetic (op : Arithmetic)
  | comparison (op : Comparison)
  | predicate (op : Predicate)
  | wording (op : Wording)
  | exchange (op : Exchange)
  | collection (op : Collection)
  | sequence (op : Sequence)
  | higherOrder (op : HigherOrder)
  | metadata (op : Metadata)
  | cell (op : Cell)
  | throw
  | eval (root : FrameId)
  | gather (name : String)
  deriving DecidableEq, Repr

namespace Native

def name : Native → String
  | arithmetic op => op.name
  | comparison op => op.name
  | predicate op => op.name
  | wording op => op.name
  | exchange op => op.name
  | collection op => op.name
  | sequence op => op.name
  | higherOrder op => op.name
  | metadata op => op.name
  | cell op => op.name
  | throw => "throw"
  | eval _ => "eval"
  | gather name => name

/-- The functions that every environment can be given, in the order in which they are bound. -/
def catalogue : List Native :=
  [.add, .sub, .mul, .div].map arithmetic ++
  [.eq, .lt, .le, .gt, .ge].map comparison ++
  [.isNil, .isTrue, .isFalse, .isNumber, .isString, .isSymbol, .isKeyword, .isList, .isVector,
    .isMap, .isSequential, .isAtom, .isFn, .isMacro].map predicate ++
  [.str, .prStr, .symbol, .keyword].map wording ++
  [.prn, .println, .readString, .slurp, .readline, .timeMs].map exchange ++
  [.list, .vector, .hashMap, .assoc, .dissoc, .get, .contains, .keys, .vals].map collection ++
  [.cons, .concat, .nth, .first, .rest, .isEmpty, .count, .conj, .seq].map sequence ++
  [.apply, .map].map higherOrder ++
  [.withMeta, .getMeta].map metadata ++
  [.atom, .deref, .reset, .swap].map cell ++
  [throw]

end Native

end SmallLisp
