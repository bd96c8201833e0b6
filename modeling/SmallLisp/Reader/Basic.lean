import SmallLisp.Reader.Error
import SmallLisp.Token.Lexeme
import SmallLisp.Value.Basic

/-!
# Reading forms

Lexemes are read with a stack of the forms that are still open: brackets with the elements read so
far, and marks that wait for the form they stand in front of. Each token either opens a form,
finishes one, or cannot stand where it stands.

A token is taken together with a look at the next lexeme. If that one is a failure, the failure is
the outcome even where the token finished a form, and nothing more is read.
-/

namespace SmallLisp.Reader

/-! ### Open forms -/

/-- A form that is still open: a bracket with its elements in reverse, a mark that waits for its
form, or an annotation that waits for its metadata and then for what carries it. -/
inductive Open where
  | bracket (b : Bracket) (items : List Value)
  | mark (m : Mark)
  | metadata
  | target (m : Value)

/-- Where reading stands behind a token: a form is finished, or some are open. -/
inductive Progress where
  | form (v : Value)
  | pending (stack : List Open)

/-- Hands a finished form to the innermost open one. Marks and annotations are finished by it. -/
def supply : List Open → Value → Progress
  | [], v => .form v
  | .bracket b items :: stack, v => .pending (.bracket b (v :: items) :: stack)
  | .mark m :: stack, v => supply stack (.ofList [.named m.name, v])
  | .metadata :: stack, v => .pending (.target v :: stack)
  | .target m :: stack, v => supply stack (.ofList [.named "with-meta", v, m])

/-- The entry of a key and a value, if the key can be one. -/
def entry (pair : Value × Value) : Except ReadCause (String × Value) :=
  match pair.1.key? with
  | some key => .ok (key, pair.2)
  | none => .error (.badKey pair.1.kind)

/-- The value of a closed bracket. The last entry of a key wins in a map. -/
def enclose : Bracket → List Value → Except ReadCause Value
  | .round, items => .ok (.ofList items)
  | .square, items => .ok (.ofVector items)
  | .curly, items =>
    match pairs? items with
    | none => .error .oddMap
    | some pairs => (pairs.mapM entry).map fun entries => .ofTable (Table.ofList entries)

/-- What a token does to the open forms. -/
def shift (stack : List Open) : Token → Except ReadCause Progress
  | .nil => .ok (supply stack .nil)
  | .bool b => .ok (supply stack (.bool b))
  | .int n => .ok (supply stack (.int n))
  | .str text => .ok (supply stack (.str text))
  | .symbol name => .ok (supply stack (.named name))
  | .keyword name => .ok (supply stack (.keyword (.ofName name)))
  | .opening b => .ok (.pending (.bracket b [] :: stack))
  | .mark m => .ok (.pending (.mark m :: stack))
  | .annotate => .ok (.pending (.metadata :: stack))
  | .closing b =>
    match stack with
    | .bracket inner items :: outer =>
      if b = inner then (enclose b items.reverse).map (supply outer)
      else .error (.unexpectedClosing b)
    | _ => .error (.unexpectedClosing b)

/-! ### Reading lexemes -/

/-- The failure that lexemes begin with. -/
def failure? : List Lexeme → Option ReadError
  | ⟨.error e, p⟩ :: _ => some ⟨.scan e, p⟩
  | _ => none

/-- What is wrong with a text that ends at `finish` while forms are open, the last token having
ended at `last`. -/
def openAtEnd? (finish last : Position) : List Open → Option ReadError
  | [] => none
  | .bracket b _ :: _ => some ⟨.unterminated b, last⟩
  | _ :: _ => some ⟨.unexpectedEnd, finish⟩

/-- The forms and the errors of some lexemes in order, where `stack` holds the open forms, the
text ends at `finish` and the last token ended at `last`. Behind an error reading starts anew. -/
def outcomes (finish : Position) (stack : List Open) (last : Position) :
    List Lexeme → List (Except ReadError Value)
  | [] => (openAtEnd? finish last stack).toList.map .error
  | ⟨.error e, p⟩ :: _ => [.error ⟨.scan e, p⟩]
  | ⟨.ok t, p⟩ :: rest =>
    match failure? rest with
    | some e => [.error e]
    | none =>
      match shift stack t with
      | .error cause => .error ⟨cause, p⟩ :: outcomes finish [] p rest
      | .ok (.form v) => .ok v :: outcomes finish [] p rest
      | .ok (.pending opened) => outcomes finish opened p rest

end SmallLisp.Reader

/-! ### Reading texts -/

namespace SmallLisp

open Reader

/-- Everything that reading a text gives, form by form and error by error. -/
def readEach (text : String) : List (Except ReadError Value) :=
  outcomes (Position.start.after text.toList) [] .start (Lexeme.list text)

/-- The first form of a text, `nil` if there is none. -/
def readFirst (text : String) : Except ReadError Value := (readEach text).headD (.ok .nil)

/-- The forms of a text, or the first error. -/
def readAll (text : String) : Except ReadError (List Value) := (readEach text).mapM id

end SmallLisp
