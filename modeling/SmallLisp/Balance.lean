/-!
# Balanced input

Whether typed input can be complete: its brackets outside of strings and comments are closed, and
it does not end in a string. Only the number of brackets counts, not their kinds.
-/

namespace SmallLisp

/-- Where a character stands: in code, in a string, behind a backslash in a string, or in a
comment. -/
inductive Region where
  | code
  | string
  | escape
  | comment
  deriving DecidableEq, Repr

/-- The brackets that are open behind some characters, and where the next one stands. -/
structure Balance where
  depth : Int
  region : Region
  deriving DecidableEq, Repr

namespace Balance

def start : Balance := ⟨0, .code⟩

/-- The balance behind a character in code. -/
def stepCode (depth : Int) (c : Char) : Balance :=
  if c = '"' then ⟨depth, .string⟩
  else if c = ';' then ⟨depth, .comment⟩
  else if ['(', '[', '\x7b'].contains c then ⟨depth + 1, .code⟩
  else if [')', ']', '\x7d'].contains c then ⟨depth - 1, .code⟩
  else ⟨depth, .code⟩

def step (b : Balance) (c : Char) : Balance :=
  match b.region with
  | .code => stepCode b.depth c
  | .string => ⟨b.depth, if c = '\\' then .escape else if c = '"' then .code else .string⟩
  | .escape => ⟨b.depth, .string⟩
  | .comment => ⟨b.depth, if c = '\n' then .code else .comment⟩

/-- Whether no bracket is open and no string. -/
def closed (b : Balance) : Bool :=
  b.depth ≤ 0 && b.region != .string && b.region != .escape

end Balance

/-- Whether a text can be complete. -/
def isBalanced (text : String) : Bool := (text.toList.foldl Balance.step .start).closed

end SmallLisp
