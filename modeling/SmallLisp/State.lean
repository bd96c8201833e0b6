import SmallLisp.Heap

/-!
# The state of an evaluation

Besides the heap an evaluation has a depth, a console, the files it can read and a clock.
-/

namespace SmallLisp

/-! ### Depth -/

/-- How deeply evaluations are nested, how deep they may be, how deep they were at most, and how
many were refused because they would have been deeper than they may. -/
structure Gauge where
  depth : Nat
  limit : Nat
  peak : Nat
  refusals : Nat
  deriving DecidableEq, Repr, Inhabited

namespace Gauge

def atRest (limit : Nat) : Gauge := ⟨0, limit, 0, 0⟩

def enter (g : Gauge) : Gauge :=
  { g with depth := g.depth + 1, peak := max g.peak (g.depth + 1) }

def leave (g : Gauge) : Gauge := { g with depth := g.depth - 1 }

def refuse (g : Gauge) : Gauge := { g with refusals := g.refusals + 1 }

end Gauge

/-! ### Console -/

/-- The bytes that can still be read, whether the input ends behind them or may go on, and what
was written to the two outputs. -/
structure Console where
  input : List UInt8
  isClosed : Bool
  output : String
  errors : String
  deriving Inhabited

namespace Console

def write (c : Console) (text : String) : Console := { c with output := c.output ++ text }

def writeError (c : Console) (text : String) : Console := { c with errors := c.errors ++ text }

/-- The first line of some bytes with its newline, and the bytes behind it. -/
def splitLine : List UInt8 → List UInt8 × List UInt8
  | [] => ([], [])
  | b :: rest =>
    if b = 10 then ([b], rest)
    else
      let (line, left) := splitLine rest
      (b :: line, left)

/-- Whether it is known what the next line is, or that there is none. -/
def knowsLine (c : Console) : Bool := c.isClosed || c.input.contains 10

/-- Takes the next line, unless there is none. -/
def takeLine? (c : Console) : Option (List UInt8 × Console) :=
  match c.input with
  | [] => none
  | b :: rest =>
    let (line, left) := splitLine (b :: rest)
    some (line, { c with input := left })

end Console

/-! ### State -/

/-- All that an evaluation reads and changes. The clock shows milliseconds. -/
structure State where
  heap : Heap
  gauge : Gauge
  console : Console
  disk : Disk
  clock : Int64

/-- The state before anything is made, under a depth limit and with all input known. -/
def State.initial (limit : Nat) (input : List UInt8) (disk : Disk) (clock : Int64) : State :=
  ⟨.empty, .atRest limit, ⟨input, true, "", ""⟩, disk, clock⟩

end SmallLisp
