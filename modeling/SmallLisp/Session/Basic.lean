import SmallLisp.Eval.Loop
import SmallLisp.Session.Prelude

/-!
# Sessions

A session is a root frame with the native functions and the prelude, and the state that goes with
it. Everything that is run in a session is an evaluation; its fuel bounds how long it may take.
-/

namespace SmallLisp

/-! ### Native functions -/

/-- Binds a native function in a frame, as a new function under its own name. -/
def Heap.define (h : Heap) (f : FrameId) (fn : Native) : Heap :=
  let (identity, h) := h.addIdentity
  h.set f ⟨fn.name⟩ (.native fn identity none)

def Heap.defineCatalogue (h : Heap) (f : FrameId) : Heap :=
  Native.catalogue.foldl (fun h fn => h.define f fn) h

/-! ### Evaluating texts -/

/-- Evaluates forms as they are read, and gives the last value. -/
def evalEach (fuel : Nat) (f : FrameId) (last : Value) :
    List (Except ReadError Value) → Eval Value
  | [] => pure last
  | .error e :: _ => .fail (.ofReadError e)
  | .ok form :: rest => do evalEach fuel f (← eval fuel form f) rest

/-- Evaluates the forms of a text in a frame, and gives the last value. -/
def evalText (fuel : Nat) (text : String) (f : FrameId) : Eval Value :=
  evalEach fuel f .nil (readEach text)

/-! ### Sessions -/

/-- The settings of a session. -/
structure Config where
  maxDepth : Nat := 1000
  hostLanguage : String := "rust"

namespace Session

/-- The frame of the prelude and of everything that a session defines. -/
abbrev root : FrameId := 0

/-- Fuel that no evaluation uses up. -/
def ampleFuel : Nat := 1000000000000000000

def define (name : String) (v : Value) : Eval Unit := .onHeap fun h => ((), h.set root ⟨name⟩ v)

def setArgs (args : List String) : Eval Unit := define "*ARGV*" (.ofList (args.map .str))

def evalString (fuel : Nat) (text : String) : Eval Value := evalText fuel text root

/-- Sets the depth limit and gives the one before. -/
def setLimit (limit : Nat) : Eval Nat := fun s =>
  .value s.gauge.limit { s with gauge := { s.gauge with limit := limit } }

/-- Sets up a session in a state without frames. -/
def start (fuel : Nat) (config : Config) : Eval Unit := do
  let _ ← setLimit config.maxDepth
  .onHeap fun h =>
    let (root, h) := h.addFrame none []
    -- `eval` is no part of the catalogue, since it belongs to the frame that it evaluates in.
    ((), (h.defineCatalogue root).define root (.eval root))
  setArgs []
  define "*host-language*" (.str config.hostLanguage)
  let _ ← Eval.forEach (evalString fuel) prelude
  return ()

/-- Evaluates a text and prints its last value readably. -/
def rep (fuel : Nat) (text : String) : Eval String := do
  let v ← evalString fuel text
  return (← Eval.heap).print true v

def get? (name : String) : Eval (Option Value) := do
  return (← Eval.heap).lookup? root ⟨name⟩

def call (fuel : Nat) (name : String) (args : List Value) : Eval Value := do
  match ← get? name with
  | some f => (eval fuel).call fuel f args
  | none => .fail (.undefinedSymbol ⟨name⟩)

def loadFile (fuel : Nat) (path : String) : Eval Value := call fuel "load-file" [.str path]

end Session

end SmallLisp
