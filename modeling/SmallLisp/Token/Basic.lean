import SmallLisp.Integer

/-!
# Tokens

The words of source text: brackets, the marks that abbreviate a list around the next form, and
the literals, symbols and keywords.
-/

namespace SmallLisp

/-- The three pairs of brackets: of lists, of vectors and of maps. -/
inductive Bracket where
  | round
  | square
  | curly
  deriving DecidableEq, Repr

namespace Bracket

def opening : Bracket → Char
  | round => '('
  | square => '['
  | curly => '\x7b'

def closing : Bracket → Char
  | round => ')'
  | square => ']'
  | curly => '\x7d'

end Bracket

/-- The marks that abbreviate a list of a name and the next form. -/
inductive Mark where
  | quote
  | quasiquote
  | unquote
  | splice
  | deref
  deriving DecidableEq, Repr

namespace Mark

def text : Mark → String
  | quote => "'"
  | quasiquote => "\x60"
  | unquote => "~"
  | splice => "~@"
  | deref => "@"

/-- The name that a mark puts in front of the next form. -/
def name : Mark → String
  | quote => "quote"
  | quasiquote => "quasiquote"
  | unquote => "unquote"
  | splice => "splice-unquote"
  | deref => "deref"

end Mark

/-- A word of source text. `annotate` is the mark that takes two forms, metadata and what carries
it. -/
inductive Token where
  | opening (b : Bracket)
  | closing (b : Bracket)
  | mark (m : Mark)
  | annotate
  | nil
  | bool (b : Bool)
  | int (n : Int64)
  | str (text : String)
  | symbol (name : String)
  | keyword (name : String)
  deriving DecidableEq

namespace Token

/-- A token as messages show it: a string stands in quotes but unescaped. -/
def text : Token → String
  | opening b => b.opening.toString
  | closing b => b.closing.toString
  | mark m => m.text
  | annotate => "^"
  | nil => "nil"
  | bool b => if b then "true" else "false"
  | int n => Integer.text n
  | str s => "\"" ++ s ++ "\""
  | symbol name => name
  | keyword name => ":" ++ name

/-- The token of a run of symbol characters: three names are literals. -/
def ofName (name : String) : Token :=
  if name = "nil" then nil
  else if name = "true" then bool true
  else if name = "false" then bool false
  else symbol name

end Token

end SmallLisp
