import SmallLisp.CommandLine
import Std.Time.DateTime.Timestamp

/-!
# The program

Runs a command line. What an evaluation asks for, a file or a line of input, is fetched and the
evaluation is run again with the answer, so that it gets further; nothing is printed twice.
-/

namespace SmallLisp.Main

/-- What was found at some paths. -/
abbrev Files := List (String × Except FileFault (List UInt8))

def fetchFile (path : String) : IO (Except FileFault (List UInt8)) := do
  if path.toList.contains '\x00' then return .error .nulInPath
  try return .ok (← IO.FS.readBinFile path).toList
  catch
    | .noFileOrDirectory _ _ _ => return .error .notFound
    | .inappropriateType _ 20 _ => return .error .notDirectory
    | .inappropriateType _ _ _ => return .error .isDirectory
    | e => return .error (.other (toString e))

/-- Some more of the input: a line that is typed, or else all there is. -/
partial def fetchInput (c : Console) : IO Console := do
  let stdin ← IO.getStdin
  if ← stdin.isTty then
    let line := (← stdin.getLine).toUTF8.toList
    return { c with input := c.input ++ line, isClosed := line.isEmpty }
  else
    let rec drain (read : ByteArray) : IO ByteArray := do
      let chunk ← stdin.read 65536
      if chunk.isEmpty then return read else drain (read ++ chunk)
    return { c with input := c.input ++ (← drain .empty).toList, isClosed := true }

/-- Prints what a console holds beyond what was printed of it before. -/
def display (c : Console) (output errors : Nat) : IO Unit := do
  IO.print (String.ofList (c.output.toList.drop output))
  (← IO.getStdout).flush
  IO.eprint (String.ofList (c.errors.toList.drop errors))

/-- Runs an evaluation to its end, and gives its value and the state behind it. -/
partial def converse {α : Type} (m : Eval α) (s : State) (files : Files)
    (output errors : Nat) : IO (Option α × State) := do
  let finish (a : Option α) (t : State) : IO (Option α × State) := do
    display t.console output errors
    return (a, { t with console := { t.console with output := "", errors := "" } })
  match m { s with disk := ⟨fun path => files.lookup path⟩ } with
  | .value a t => finish (some a) t
  | .error _ t => finish none t
  | .halt .outOfFuel t => finish none t
  | .halt (.unknownFile path) t =>
    display t.console output errors
    let found ← fetchFile path
    converse m s ((path, found) :: files) t.console.output.length t.console.errors.length
  | .halt .unknownLine t =>
    display t.console output errors
    converse m { s with console := ← fetchInput s.console } files
      t.console.output.length t.console.errors.length

def fulfil {α : Type} (m : Eval α) (s : State) : IO (Option α × State) := converse m s [] 0 0

/-- Runs the loop of a session with a person who types. -/
partial def interact (s : State) (gathered : String) : IO Unit := do
  IO.print (if gathered.isEmpty then "lisp> " else "  ... ")
  (← IO.getStdout).flush
  let line ← (← IO.getStdin).getLine
  if line.isEmpty then return ()
  let (input, gathered) := Repl.feed gathered (Repl.typedLine line)
  match input with
  | some input =>
    let (_, s) ← fulfil (Repl.submit Session.ampleFuel input) s
    interact s gathered
  | none => interact s gathered

/-- Runs the request of a person who types. -/
def converseWith (r : CommandLine.Request) (s : State) : IO CommandLine.Exit := do
  let (started, s) ← fulfil (r.start Session.ampleFuel) s
  if started.getD false then
    let (_, s) ← fulfil Repl.greet s
    interact s ""
    return .success
  else return .failure

end SmallLisp.Main

open SmallLisp in
def main (words : List String) : IO UInt32 := do
  let now ← Std.Time.Timestamp.now
  let clock := Int64.ofInt now.toMillisecondsSinceUnixEpoch.val
  let s := State.initial 0 [] .empty clock
  let s := { s with console := { s.console with isClosed := false } }
  let exit ← match CommandLine.parse words, ← (← IO.getStdin).isTty with
    | .ok r@⟨none, _, none, _⟩, true => Main.converseWith r s
    | _, _ =>
      let (exit, _) ← Main.fulfil (CommandLine.run Session.ampleFuel words) s
      pure (exit.getD .failure)
  return UInt32.ofNat exit.code
