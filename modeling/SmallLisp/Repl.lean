import SmallLisp.Balance
import SmallLisp.Session.Basic
import SmallLisp.Text.Typed

/-!
# The loop of reading, evaluating and printing

Lines are gathered until they are balanced; then their text is evaluated and its value printed.
Input that is still open when the lines end is dropped.
-/

namespace SmallLisp.Repl

/-! ### Gathering lines -/

/-- Adds a line to the lines gathered so far. Gives the text to evaluate, if there is one, and the
lines that stay gathered. -/
def feed (gathered line : String) : Option String × String :=
  let typed := if gathered.isEmpty then line else gathered ++ "\n" ++ line
  if isBalanced typed then
    let input := Text.trim typed
    (if input.isEmpty then none else some input, "")
  else (none, typed)

/-- The texts that lines give to evaluate, and the lines that stay gathered. -/
def submissions (gathered : String) : List String → List String × String
  | [] => ([], gathered)
  | line :: lines =>
    let (input, gathered) := feed gathered line
    let (inputs, left) := submissions gathered lines
    (input.toList ++ inputs, left)

/-! ### The loop -/

def version : String := "0.1.0"

/-- The greeting, which names the host language. -/
def banner (hostLanguage : Option Value) : String :=
  let host := match hostLanguage with
    | some (.str text) => text
    | _ => "unknown"
  "lispr " ++ version ++ " (" ++ host ++ ")\n"

def report (heading : String) (e : Error) : Eval Unit := do
  let text := e.text ((← Eval.heap).print true)
  Eval.onConsole fun c => c.writeError (heading ++ ": " ++ text ++ "\n")

/-- A line without its newline and a carriage return before it. -/
def dropNewline (line : String) : String :=
  match line.toList.reverse with
  | '\n' :: '\r' :: front => String.ofList front.reverse
  | '\n' :: front => String.ofList front.reverse
  | _ => line

/-- A line as it counts, with its backspaces carried out. -/
def typedLine (line : String) : String := Text.settle (dropNewline line)

/-- Evaluates a text and prints its value or its error. -/
def submit (fuel : Nat) (input : String) : Eval Unit := do
  match ← (Session.rep fuel input).attempt with
  | .ok printed => Eval.onConsole fun c => c.write (printed ++ "\n")
  | .error e => report "Error" e

/-- Runs at most `steps` lines of the input, with some lines gathered. A line that is no text is
reported and ends the loop. -/
def loop (fuel : Nat) (gathered : String) : Nat → Eval Unit
  | 0 => .halt .outOfFuel
  | steps + 1 => do
    match ← Exchange.readLine.attempt with
    | .error e => report "Error" e
    -- Lines that are still gathered here are dropped.
    | .ok none => return ()
    | .ok (some line) =>
      let (input, gathered) := feed gathered (typedLine line)
      match input with
      | some input => submit fuel input
      | none => pure ()
      loop fuel gathered steps

def greet : Eval Unit := do
  let greeting := banner (← Session.get? "*host-language*")
  Eval.onConsole fun c => c.write greeting

def run (fuel : Nat) : Eval Unit := do
  greet
  loop fuel "" fuel

end SmallLisp.Repl
