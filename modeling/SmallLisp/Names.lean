/-!
# Symbols and keywords

A symbol is a bare name, which evaluation looks up, and a keyword is a name that stands for itself.
As the key of a map a keyword is the text of its name behind a sentinel character, so that keywords
and strings share one space of keys: a string that begins with the sentinel is the key of a keyword.
-/

namespace SmallLisp

/-! ### Symbols -/

/-- A name that evaluation looks up. -/
structure Symbol where
  name : String
  deriving DecidableEq, Repr, Inhabited

namespace Symbol

/-- The mark that introduces the rest parameter of a parameter list. -/
def restMark : Symbol := ⟨"&"⟩

def isRestMark (s : Symbol) : Bool := s == restMark

end Symbol

/-! ### Keywords -/

/-- A name that stands for itself, without its colon. -/
structure Keyword where
  name : String
  deriving DecidableEq, Repr, Inhabited

namespace Keyword

/-- The character in front of a keyword's name in its key, U+029E. -/
def sentinel : Char := '\u029e'

/-- The text that a keyword is as the key of a map. -/
def key (k : Keyword) : String := String.singleton sentinel ++ k.name

def isKey (text : String) : Bool := text.toList.head? == some sentinel

/-- The keyword that a text is the key of, if it is one. -/
def ofKey? (text : String) : Option Keyword :=
  match text.toList with
  | c :: name => if c = sentinel then some ⟨String.ofList name⟩ else none
  | [] => none

/-- The keyword of a name. A name that already is a key gives the keyword of that key. -/
def ofName (name : String) : Keyword := (ofKey? name).getD ⟨name⟩

def text (k : Keyword) : String := ":" ++ k.name

@[simp] theorem ofKey?_key (k : Keyword) : ofKey? k.key = some k := by
  simp [ofKey?, key]

end Keyword

end SmallLisp
