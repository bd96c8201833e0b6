import SmallLisp.Text.Quoted
import SmallLisp.Value.Basic

/-!
# Printing values

A value prints in one of two ways: readable, where strings stand in quotes, or for display, where
a string is its own text. What is inside a function or an atom is always readable. The content of
an atom lies outside of the value, so the text of an atom's content is a parameter.
-/

namespace SmallLisp

/-- Texts with a separator between neighbours. -/
def joinWith (separator : String) : List String → String
  | [] => ""
  | first :: rest => rest.foldl (fun front text => front ++ separator ++ text) first

namespace Value

variable (atomText : AtomId → String)

mutual

def render (readable : Bool) : Value → String
  | nil => "nil"
  | bool b => if b then "true" else "false"
  | int n => Integer.text n
  | str text => if readable then Text.Quoted.encode text else text
  | keyword k => k.text
  | symbol s => s.name
  | list items _ => "(" ++ joinWith " " (renderAll readable items) ++ ")"
  | vector items _ => "[" ++ joinWith " " (renderAll readable items) ++ "]"
  | map entries _ => "\x7b" ++ joinWith " " (renderEntries readable entries) ++ "\x7d"
  | native fn _ _ => "#<native-fn " ++ fn.name ++ ">"
  | closure fn body _ =>
    "(lambda (" ++ joinWith " " (fn.params.symbols.map Symbol.name) ++ ") " ++
      render true body ++ ")"
  | atom id => "(atom " ++ atomText id ++ ")"

def renderAll (readable : Bool) : List Value → List String
  | [] => []
  | v :: rest => render readable v :: renderAll readable rest

/-- The texts of the keys and values of a table in turn. -/
def renderEntries (readable : Bool) : List (String × Value) → List String
  | [] => []
  | (key, v) :: rest =>
    (match Keyword.ofKey? key with
      | some k => k.text
      | none => if readable then Text.Quoted.encode key else key) ::
      render readable v :: renderEntries readable rest

end

def renderList (readable : Bool) (separator : String) (vs : List Value) : String :=
  joinWith separator (renderAll atomText readable vs)

end Value

end SmallLisp
