import SmallLisp.Position
import SmallLisp.Text.Quoted
import SmallLisp.Token.Basic

/-!
# Scanning

How characters make up tokens. White space, commas and comments separate tokens; a comment runs
from a semicolon to the end of its line. Every scan takes the longest token, and a scan that fails
still takes characters, so that scanning can go on behind the failure.
-/

namespace SmallLisp

/-! ### Character classes -/

/-- The characters that end a run of symbol characters, white space apart. -/
def delimiters : List Char :=
  ['(', ')', '[', ']', '\x7b', '\x7d', '\x27', '\x60', '~', '@', '^', '"', ';', ',']

/-- Whether a character can stand in a symbol. -/
def isSymbolChar (c : Char) : Bool := !Text.isBlank c && !delimiters.contains c

/-! ### Failures -/

/-- Why characters make up no token. -/
inductive ScanError where
  | quoted (flaw : Text.Quoted.Flaw)
  | namelessKeyword
  | invalidNumber (numeral : String) (c : Char)
  | integerOutOfRange (numeral : String)
  | unexpectedCharacter (c : Char)
  deriving DecidableEq

def ScanError.message : ScanError → String
  | quoted (.unknownEscape c) => "Unknown escape sequence: \\" ++ c.toString
  | quoted .openEscape => "Unterminated string escape"
  | quoted .openQuote => "Unterminated string"
  | namelessKeyword => "Expected keyword name after :"
  | invalidNumber numeral c => "Invalid number: " ++ numeral ++ c.toString
  | integerOutOfRange numeral => "Integer literal out of range: " ++ numeral
  | unexpectedCharacter c => "Unexpected character: '" ++ c.toString ++ "'"

/-! ### Blank space -/

/-- Whether `c` takes part in the space between tokens, and then whether a comment runs on behind
it. -/
def spaceState? (inComment : Bool) (c : Char) : Option Bool :=
  if inComment then some (c != '\n')
  else if c = ';' then some true
  else if Text.isBlank c || c = ',' then some false
  else none

/-- Cuts off the space in front of the first token. -/
def skipSpace (inComment : Bool) : List Char → Split Unit
  | [] => ⟨(), [], []⟩
  | c :: cs =>
    match spaceState? inComment c with
    | some running => (skipSpace running cs).prepend [c]
    | none => ⟨(), [], c :: cs⟩

/-! ### Tokens -/

abbrev Scan := Split (Except ScanError Token)

namespace Scan

def token (t : Token) (taken rest : List Char) : Scan := ⟨.ok t, taken, rest⟩

/-- A string literal, from its opening quote on. -/
def string (cs : List Char) : Scan :=
  let body := Text.Quoted.decode cs
  (body.map fun
    | .ok text => .ok (.str (String.ofList text))
    | .error flaw => .error (.quoted flaw)).prepend ['"']

/-- A keyword, from behind its colon on. -/
def keyword (cs : List Char) : Scan :=
  let name := cs.takeWhile isSymbolChar
  let found := if name.isEmpty then .error .namelessKeyword
    else .ok (.keyword (String.ofList name))
  ⟨found, ':' :: name, cs.dropWhile isSymbolChar⟩

/-- A number, from behind its sign on. A number must not touch a symbol character. -/
def number (sign : Option Char) (cs : List Char) : Scan :=
  let digits := cs.takeWhile Char.isDigit
  let rest := cs.dropWhile Char.isDigit
  let taken := sign.toList ++ digits
  let numeral := String.ofList taken
  let whole := match Integer.ofNumeral? sign digits with
    | some n => .ok (.int n)
    | none => .error (.integerOutOfRange numeral)
  let found := match rest with
    | c :: _ => if isSymbolChar c then .error (.invalidNumber numeral c) else whole
    | [] => whole
  ⟨found, taken, rest⟩

/-- A sign begins a number if a digit follows it, and a symbol otherwise. -/
def signed (sign : Char) (cs : List Char) : Scan :=
  if (cs.head?.map Char.isDigit).getD false then number (some sign) cs
  else
    let name := cs.takeWhile isSymbolChar
    token (.symbol (String.ofList (sign :: name))) (sign :: name) (cs.dropWhile isSymbolChar)

/-- A symbol or a literal that is written like one. -/
def name (cs : List Char) : Scan :=
  let name := cs.takeWhile isSymbolChar
  token (.ofName (String.ofList name)) name (cs.dropWhile isSymbolChar)

/-- The token that begins with `c`, which is neither white space nor a comma nor a semicolon. -/
def startingWith (c : Char) (cs : List Char) : Scan :=
  match c with
  | '(' => token (.opening .round) [c] cs
  | ')' => token (.closing .round) [c] cs
  | '[' => token (.opening .square) [c] cs
  | ']' => token (.closing .square) [c] cs
  | '\x7b' => token (.opening .curly) [c] cs
  | '\x7d' => token (.closing .curly) [c] cs
  | '\x27' => token (.mark .quote) [c] cs
  | '\x60' => token (.mark .quasiquote) [c] cs
  | '@' => token (.mark .deref) [c] cs
  | '^' => token .annotate [c] cs
  | '~' =>
    match cs with
    | '@' :: rest => token (.mark .splice) ['~', '@'] rest
    | rest => token (.mark .unquote) ['~'] rest
  | '"' => string cs
  | ':' => keyword cs
  | '-' => signed '-' cs
  | '+' => signed '+' cs
  | c =>
    if c.isDigit then number none (c :: cs)
    else if isSymbolChar c then name (c :: cs)
    -- Never reached: a character that is no symbol character is white space or named above.
    else ⟨.error (.unexpectedCharacter c), [c], cs⟩

end Scan

end SmallLisp
