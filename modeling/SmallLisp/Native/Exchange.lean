import SmallLisp.Eval.Basic
import SmallLisp.Native.Arguments
import SmallLisp.Reader.Basic

/-!
# Exchange

The functions that print, read forms, files and lines, and look at the clock.
-/

namespace SmallLisp.Exchange

/-- A line without the newlines and carriage returns at its end. -/
def dropLineEnd (line : String) : String :=
  String.ofList (line.toList.reverse.dropWhile fun c => c == '\n' || c == '\r').reverse

def printLine (readable : Bool) (args : List Value) : Eval Value := do
  let line := (← Eval.heap).printList readable " " args ++ "\n"
  Eval.onConsole fun c => c.write line
  return .nil

/-- The text of a file. -/
def readFile (path : String) : Eval String := fun s =>
  match s.disk.read? path with
  | none => .halt (.unknownFile path) s
  | some (.error cause) => .error (.fault (.file path cause)) s
  | some (.ok bytes) =>
    match decodeText? bytes with
    | some text => .value text s
    | none => .error (.fault (.file path .notText)) s

/-- The next line of the input, which is taken even if it is no text. -/
def readLine : Eval (Option String) := fun s =>
  if s.console.knowsLine then
    match s.console.takeLine? with
    | none => .value none s
    | some (line, console) =>
      match decodeText? line with
      | some text => .value (some text) { s with console := console }
      | none => .error (.fault .garbledInput) { s with console := console }
  else .halt .unknownLine s

def run (op : Exchange) (args : List Value) : Eval Value := do
  match op with
  | prn => printLine true args
  | println => printLine false args
  | readString =>
    let source ← .ofExcept (do Native.text op.name (← Native.one op.name args))
    match readFirst source with
    | .ok form => return form
    | .error e => .fail (.ofReadError e)
  | slurp =>
    let path ← .ofExcept (do Native.text op.name (← Native.one op.name args))
    return .str (← readFile path)
  | readline =>
    let prompt ← .ofExcept (do Native.text op.name (← Native.one op.name args))
    Eval.onConsole fun c => c.write prompt
    match ← readLine with
    | some line => return .str (dropLineEnd line)
    | none => return .nil
  | timeMs =>
    .ofExcept (Native.zero op.name args)
    fun s => .value (.int s.clock) s

end SmallLisp.Exchange
