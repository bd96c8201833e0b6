import SmallLisp.State

/-!
# Evaluations

An evaluation turns a state into an outcome: a value, an error or a halt, with the state that was
left. An evaluation halts when the steps that it was given are used up, or when it asks for a file
or a line of input that nothing is known of; neither says anything about the program. After an
error the effects so far remain.
-/

namespace SmallLisp

/-- Why an evaluation has no answer. -/
inductive Halt where
  | outOfFuel
  | unknownFile (path : String)
  | unknownLine
  deriving DecidableEq, Repr

/-- How an evaluation ends. -/
inductive Outcome (α : Type) where
  | value (a : α) (s : State)
  | error (e : Error) (s : State)
  | halt (h : Halt) (s : State)

/-- A computation on states that can fail and can halt. -/
def Eval (α : Type) : Type := State → Outcome α

namespace Eval

variable {α β : Type}

/-! ### Sequences -/

instance : Inhabited (Eval α) := ⟨fun s => .halt .outOfFuel s⟩

@[always_inline, inline]
protected def pure (a : α) : Eval α := fun s => .value a s

@[always_inline, inline]
protected def bind (m : Eval α) (k : α → Eval β) : Eval β := fun s =>
  match m s with
  | .value a s => k a s
  | .error e s => .error e s
  | .halt h s => .halt h s

@[always_inline]
instance : Monad Eval where
  pure := Eval.pure
  bind := Eval.bind

theorem pure_apply (a : α) (s : State) : (pure a : Eval α) s = .value a s := rfl

theorem bind_apply (m : Eval α) (k : α → Eval β) (s : State) :
    (m >>= k) s =
      match m s with
      | .value a s => k a s
      | .error e s => .error e s
      | .halt h s => .halt h s := rfl

/-! ### Failures -/

@[inline]
def halt (h : Halt) : Eval α := fun s => .halt h s

@[inline]
def raise (e : Error) : Eval α := fun s => .error e s

@[inline]
def fail (f : Fault) : Eval α := raise (.fault f)

/-- The value of a computation that has no effects. -/
@[inline]
def ofExcept (r : Except Fault α) : Eval α :=
  match r with
  | .ok a => pure a
  | .error f => fail f

/-- Runs an evaluation and gives its value or its error. -/
@[inline]
def attempt (m : Eval α) : Eval (Except Error α) := fun s =>
  match m s with
  | .value a s => .value (.ok a) s
  | .error e s => .value (.error e) s
  | .halt h s => .halt h s

/-- The values of an evaluation for each element in turn. -/
@[specialize]
def forEach (visit : α → Eval β) : List α → Eval (List β)
  | [] => pure []
  | a :: rest => do
    let b ← visit a
    let bs ← forEach visit rest
    pure (b :: bs)

/-! ### The parts of the state -/

@[inline]
def heap : Eval Heap := fun s => .value s.heap s

@[inline]
def onHeap (change : Heap → α × Heap) : Eval α := fun ⟨heap, gauge, console, disk, clock⟩ =>
  let (a, heap) := change heap
  .value a ⟨heap, gauge, console, disk, clock⟩

/-- A change of the heap that may fail, and leaves it as it is then. -/
@[inline]
def onHeapOrFail (change : Heap → Except Fault (α × Heap)) : Eval α :=
  fun ⟨heap, gauge, console, disk, clock⟩ =>
    match change heap with
    | .ok (a, heap) => .value a ⟨heap, gauge, console, disk, clock⟩
    | .error fault => .error (.fault fault) ⟨heap, gauge, console, disk, clock⟩

@[inline]
def onConsole (change : Console → Console) : Eval Unit := fun s =>
  .value () { s with console := change s.console }

/-- Runs an evaluation one level deeper, unless the limit is reached. The level is left again
however the evaluation ends. -/
@[inline]
def deeper (m : Eval α) : Eval α := fun s =>
  if s.gauge.depth < s.gauge.limit then
    match m { s with gauge := s.gauge.enter } with
    | .value a s => .value a { s with gauge := s.gauge.leave }
    | .error e s => .error e { s with gauge := s.gauge.leave }
    | .halt h s => .halt h s
  else .error (.fault (.tooDeep s.gauge.limit)) { s with gauge := s.gauge.refuse }

end Eval

end SmallLisp
