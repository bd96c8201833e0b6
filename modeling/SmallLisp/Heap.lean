import SmallLisp.Fault
import SmallLisp.Value.Printer

/-!
# Frames and atoms

The heap holds what evaluation can change: the frames, which bind symbols and have a parent where
symbols are looked up next, and the contents of the atoms. Frames and atoms are never removed, and
a frame is younger than its parent. The heap also counts the identities given to functions.
-/

namespace SmallLisp

/-- The bindings of one scope, by the names of the symbols. -/
structure Frame where
  bindings : Table Value
  parent : Option FrameId
  deriving Inhabited

/-- All frames and atoms in the order of creation, and the next identity of a function. -/
structure Heap where
  frames : Array Frame
  atoms : Array Value
  identities : Nat
  deriving Inhabited

namespace Heap

def empty : Heap := ⟨#[], #[], 0⟩

/-! ### Frames -/

def addFrame (h : Heap) (parent : Option FrameId) (bindings : Table Value) : FrameId × Heap :=
  (h.frames.size, { h with frames := h.frames.push ⟨bindings, parent⟩ })

/-- The nearest frame that binds a symbol, from a frame on outwards, and the value bound there. -/
def resolve? (h : Heap) (f : FrameId) (s : Symbol) : Option (FrameId × Value) :=
  match h.frames[f]? with
  | none => none
  | some frame =>
    match frame.bindings.get? s.name with
    | some v => some (f, v)
    | none =>
      match frame.parent with
      | none => none
      -- A parent is older than its frame, so the search comes to an end.
      | some parent => if parent < f then h.resolve? parent s else none
termination_by f

def find? (h : Heap) (f : FrameId) (s : Symbol) : Option FrameId := (h.resolve? f s).map (·.1)

def lookup? (h : Heap) (f : FrameId) (s : Symbol) : Option Value := (h.resolve? f s).map (·.2)

def updateFrame (h : Heap) (f : FrameId) (change : Table Value → Table Value) : Heap :=
  { h with
    frames := h.frames.modify f fun frame => { frame with bindings := change frame.bindings } }

def set (h : Heap) (f : FrameId) (s : Symbol) (v : Value) : Heap :=
  h.updateFrame f (·.insert s.name v)

def clear (h : Heap) (f : FrameId) : Heap := h.updateFrame f fun _ => []

/-! ### Calls -/

/-- The bindings of a call. The rest parameter receives the list of the arguments behind the
required ones; without it they are ignored. Of a repeated name the last binding counts. -/
def bindings? (params : Params) (args : List Value) : Except Fault (Table Value) :=
  let required := params.required.length
  if args.length < required then
    let expected := if params.rest.isSome then .atLeast required else .exactly required
    .error (.arity expected args.length none)
  else
    let pairs := (params.required.zip args).map fun pair => (pair.1.name, pair.2)
    let rest := params.rest.toList.map fun s => (s.name, .ofList (args.drop required))
    .ok (Table.ofList (pairs ++ rest))

/-- Adds the frame of a call, below the frame that the function was made in. -/
@[inline]
def bind (h : Heap) (scope : FrameId) (params : Params) (args : List Value) :
    Except Fault (FrameId × Heap) :=
  (bindings? params args).map (h.addFrame (some scope))

/-! ### Atoms and identities -/

def addAtom (h : Heap) (v : Value) : AtomId × Heap :=
  (h.atoms.size, { h with atoms := h.atoms.push v })

def setAtom (h : Heap) (id : AtomId) (v : Value) : Heap :=
  { h with atoms := h.atoms.set! id v }

/-- Takes the next identity. -/
def addIdentity (h : Heap) : Nat × Heap :=
  (h.identities, { h with identities := h.identities + 1 })

/-! ### Printing -/

/-- The text of the content of an atom, through at most `n` atoms inside one another. -/
def atomText (h : Heap) : Nat → AtomId → String
  | 0, _ => ""
  | n + 1, id =>
    match h.atoms[id]? with
    | some v => v.render (h.atomText n) true
    | none => ""

/-- The text of a value. No chain of atoms inside one another is longer than their number. -/
def print (h : Heap) (readable : Bool) (v : Value) : String :=
  v.render (h.atomText h.atoms.size) readable

def printList (h : Heap) (readable : Bool) (separator : String) (vs : List Value) : String :=
  Value.renderList (h.atomText h.atoms.size) readable separator vs

end Heap

end SmallLisp
