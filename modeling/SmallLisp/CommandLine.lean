import SmallLisp.Repl

/-!
# The command line

The words behind the program's name, and what they make it do: evaluate an expression, run a
script, or run the loop.

Options come before the arguments of the script. The first word that is no option and no value of
one is the script, the next one begins its arguments, and from there on every word is an argument.
Behind the script a word with a hyphen that is no option also begins them. Two hyphens end the
options.
-/

namespace SmallLisp.CommandLine

/-! ### Words -/

/-- The options that take a value. -/
inductive Setting where
  | expression
  | maxDepth
  deriving DecidableEq, Repr

/-- The options that show something and end the program. -/
inductive Notice where
  | help
  | version
  deriving DecidableEq, Repr

/-- What the words ask for. -/
structure Request where
  expression : Option String := none
  maxDepth : Option Nat := none
  script : Option String := none
  args : List String := []
  deriving DecidableEq, Repr

/-- Why no program runs: something is to be shown, or the words are wrong. -/
inductive Refusal where
  | notice (n : Notice)
  | misuse
  deriving DecidableEq, Repr

inductive Flag where
  | setting (s : Setting)
  | notice (n : Notice)

def longFlag? : String → Option Flag
  | "eval" => some (.setting .expression)
  | "max-depth" => some (.setting .maxDepth)
  | "help" => some (.notice .help)
  | "version" => some (.notice .version)
  | _ => none

def shortFlag? : Char → Option Flag
  | 'e' => some (.setting .expression)
  | 'h' => some (.notice .help)
  | 'V' => some (.notice .version)
  | _ => none

/-! ### Values -/

/-- The number that a depth is written as: an optional plus sign and digits, in 64 bits. -/
def depth? (text : String) : Option Nat :=
  let digits := match text.toList with
    | '+' :: digits => digits
    | digits => digits
  let n := Integer.ofDigits digits
  if !digits.isEmpty && digits.all Char.isDigit && n < 18446744073709551616 then some n else none

/-- Gives an option its value. No option is given twice. -/
def Request.set (r : Request) (s : Setting) (text : String) : Except Refusal Request :=
  match s with
  | .expression =>
    if r.expression.isSome then .error .misuse else .ok { r with expression := some text }
  | .maxDepth =>
    match r.maxDepth, depth? text with
    | none, some n => .ok { r with maxDepth := some n }
    | _, _ => .error .misuse

/-! ### Options -/

/-- What a word with a hyphen is: no known option, an option with its value, or an option that
waits for its value. -/
inductive Reading where
  | unknown
  | set (r : Request)
  | awaits (s : Setting)

/-- Reads a word of two hyphens and a name, with a value behind an equals sign or none. -/
def readLong (r : Request) (name : String) (value : Option String) :
    Except Refusal Reading :=
  match longFlag? name, value with
  | none, _ => .ok .unknown
  | some (.setting s), some text => return .set (← r.set s text)
  | some (.setting s), none => .ok (.awaits s)
  | some (.notice n), none => .error (.notice n)
  | some (.notice _), some _ => .error .misuse

/-- Reads a word of one hyphen and letters. What stands behind a letter that takes a value is its
value, behind an optional equals sign. -/
def readShort (r : Request) : List Char → Except Refusal Reading
  | [] => .ok .unknown
  | c :: rest =>
    match shortFlag? c, rest with
    | none, _ => .ok .unknown
    | some (.notice n), _ => .error (.notice n)
    | some (.setting s), [] => .ok (.awaits s)
    | some (.setting s), '=' :: value => return .set (← r.set s (String.ofList value))
    | some (.setting s), value => return .set (← r.set s (String.ofList value))

/-- The name and the value of a long option, cut at the first equals sign. -/
def cutLong (cs : List Char) : String × Option String :=
  let name := String.ofList (cs.takeWhile (· != '='))
  match cs.dropWhile (· != '=') with
  | _ :: value => (name, some (String.ofList value))
  | [] => (name, none)

/-- Reads a word as an option. Behind the script letters count as options only if all of them
are. -/
def readFlag (r : Request) (word : String) : Except Refusal Reading :=
  match word.toList with
  | '-' :: '-' :: cs =>
    let (name, value) := cutLong cs
    readLong r name value
  | '-' :: cs =>
    if r.script.isSome && cs.any fun c => (shortFlag? c).isNone then .ok .unknown
    else readShort r cs
  | _ => .ok .unknown

/-! ### All words -/

def hasHyphen (word : String) : Bool :=
  match word.toList with
  | '-' :: _ :: _ => true
  | _ => false

def Request.setScript (r : Request) (word : String) : Except Refusal Request :=
  if word.isEmpty then .error .misuse else .ok { r with script := some word }

/-- The request of some words behind the end of the options. The first of them is the script, if
there was none before, and all others are its arguments. -/
def parsePlain (r : Request) (words : List String) : Except Refusal Request :=
  match r.script, words with
  | some _, args => .ok { r with args := args }
  | none, [] => .ok r
  | none, word :: args => return { ← r.setScript word with args := args }

/-- Reads a word where an option may wait for its value. An option must not be followed by another
one, and before the script not by any word with a hyphen. -/
def readWord (r : Request) (waiting : Option Setting) (word : String) :
    Except Refusal Reading :=
  if hasHyphen word then
    match readFlag r word, waiting with
    | .ok .unknown, _ => if r.script.isSome then .ok .unknown else .error .misuse
    | reading, none => reading
    | _, some _ => .error .misuse
  else .ok .unknown

/-- The request of some words, where an option may wait for its value. -/
def parseFrom (r : Request) (waiting : Option Setting) : List String → Except Refusal Request
  | [] => if waiting.isSome then .error .misuse else .ok r
  | "--" :: words => if waiting.isSome then .error .misuse else parsePlain r words
  | word :: words => do
    match ← readWord r waiting word, waiting with
    | .set r, _ => parseFrom r none words
    | .awaits s, _ => parseFrom r (some s) words
    -- A word that is no option is a value that is waited for, the script, or an argument.
    | .unknown, some s => parseFrom (← r.set s word) none words
    | .unknown, none =>
      if r.script.isSome then .ok { r with args := word :: words }
      else parseFrom (← r.setScript word) none words

def parse (words : List String) : Except Refusal Request := parseFrom {} none words

/-! ### Running -/

/-- How a program ends, if nothing went wrong, if it failed, or if it was misused. -/
inductive Exit where
  | success
  | failure
  | misuse
  deriving DecidableEq, Repr

def Exit.code : Exit → Nat
  | success => 0
  | failure => 1
  | misuse => 2

/-- Runs an evaluation, and reports its error under a heading. -/
def guarded (heading : String) (m : Eval Unit) : Eval Bool := do
  match ← m.attempt with
  | .ok () => return true
  | .error e =>
    Repl.report heading e
    return false

def Request.config (r : Request) : Config :=
  match r.maxDepth with
  | some limit => { maxDepth := limit }
  | none => {}

/-- What is done in the session of a request. -/
def Request.perform (fuel : Nat) (r : Request) : Eval Unit :=
  match r.expression, r.script with
  | some text, _ => do
    let printed ← Session.rep fuel text
    Eval.onConsole fun c => c.write (printed ++ "\n")
  | none, some path => do
    Session.setArgs r.args
    let _ ← Session.loadFile fuel path
  | none, none => Repl.run fuel

def Request.start (fuel : Nat) (r : Request) : Eval Bool :=
  guarded "Failed to start interpreter" (Session.start fuel r.config)

def Request.run (fuel : Nat) (r : Request) : Eval Exit := do
  if ← r.start fuel then
    if ← guarded "Error" (r.perform fuel) then return .success else return .failure
  else return .failure

def Notice.text : Notice → String
  | version => "lispr " ++ Repl.version ++ "\n"
  | help =>
    "A small Lisp with tail calls, macros and quasiquote\n\n" ++
    "Usage: lispr [OPTIONS] [FILE] [ARGS]...\n\n" ++
    "Arguments:\n" ++
    "  [FILE]     Script to run\n" ++
    "  [ARGS]...  Arguments bound to *ARGV* for the script\n\n" ++
    "Options:\n" ++
    "  -e, --eval <EVAL>            Evaluate an expression and print the result\n" ++
    "      --max-depth <MAX_DEPTH>  Maximum nesting of non-tail evaluation\n" ++
    "  -h, --help                   Print help\n" ++
    "  -V, --version                Print version\n"

/-- Does what the words of a command line ask for. -/
def run (fuel : Nat) (words : List String) : Eval Exit :=
  match parse words with
  | .ok r => r.run fuel
  | .error (.notice n) => do
    Eval.onConsole fun c => c.write n.text
    return .success
  | .error .misuse => do
    Eval.onConsole fun c => c.writeError "error: invalid command line\n"
    return .misuse

end SmallLisp.CommandLine
