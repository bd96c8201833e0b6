import SmallLisp.Token.Scanner

/-!
# Reading errors

Why a text is no sequence of forms, and where.
-/

namespace SmallLisp

/-- Why tokens make up no form. A map literal needs an even number of forms, and keys that are
strings or keywords; `badKey` names the kind of the first other key. -/
inductive ReadCause where
  | scan (e : ScanError)
  | unexpectedClosing (b : Bracket)
  | unexpectedEnd
  | unterminated (b : Bracket)
  | oddMap
  | badKey (kind : String)
  deriving DecidableEq

def ReadCause.message : ReadCause → String
  | scan e => e.message
  | unexpectedClosing b => "Unexpected '" ++ b.closing.toString ++ "'"
  | unexpectedEnd => "Unexpected end of input"
  | unterminated b => "Unterminated form: expected '" ++ b.closing.toString ++ "'"
  | oddMap => "Map literal must contain an even number of forms"
  | badKey kind => "Map keys must be strings or keywords, got " ++ kind

structure ReadError where
  cause : ReadCause
  position : Position
  deriving DecidableEq

/-- The text of an error that a message places at a position. -/
def parseErrorText (message : String) (position : Position) : String :=
  "Parse error at " ++ position.text ++ ": " ++ message

def ReadError.text (e : ReadError) : String := parseErrorText e.cause.message e.position

end SmallLisp
