import SmallLisp.Value.Basic

/-!
# Templates

A template is a form in which `unquote` and `splice-unquote` mark the parts to fill in. It expands
to an expression of `quote`, `cons` and `concat` that builds the filled template.
-/

namespace SmallLisp.Value

/-- The elements of a list or vector that begins with the symbol of a name, that symbol apart. -/
def argsOf? (name : String) (v : Value) : Option (List Value) :=
  match v.items? with
  | some (head :: args) => if head.isNamed name then some args else none
  | _ => none

mutual

/-- The expression that builds a template. -/
def template : Value → Value
  | list items m =>
    match items with
    | [] => ofList [named "quote", list items m]
    | _ :: _ => templateItems items
  | vector items m =>
    match items with
    | [] => ofList [named "quote", vector items m]
    | _ :: _ => templateItems items
  | v => ofList [named "quote", v]

/-- The expression that builds the list of some templates. A list whose first template is the
symbol `unquote` is the form behind it, also where it is what is left of a longer list. -/
def templateItems : List Value → Value
  | [] => ofList [named "quote", ofList []]
  | first :: rest =>
    if first.isNamed "unquote" then rest.headD nil
    else match first.argsOf? "splice-unquote" with
      | some args => ofList [named "concat", args.headD nil, templateItems rest]
      | none => ofList [named "cons", template first, templateItems rest]

end

end SmallLisp.Value
