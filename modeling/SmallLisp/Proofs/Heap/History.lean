import SmallLisp.Proofs.Evaluation.Parameters

/-!
# The history of frames

What looking up finds, told by the operations that made and wrote the frames. A history
says which frames are around a frame, and what was written last for a
symbol in a frame and not cleared since. `Shows` is what every operation keeps between a heap and
the history: the frames bind what was written, and have the parents that they were made with. The
main statement is `lookup_follows_history`.
-/

namespace SmallLisp.Heap

/-- What is done with frames: one is added without a parent, below another one or for a call, a
symbol is set in one, or one is cleared. -/
inductive Operation where
  | root
  | child (f : FrameId)
  | bind (f : FrameId) (p : Params) (args : List Value)
  | set (f : FrameId) (x : Symbol) (v : Value)
  | clear (f : FrameId)

namespace Operation

def apply (h : Heap) : Operation → Heap
  | root => (h.addFrame none []).2
  | child f => (h.addFrame (some f) []).2
  -- A call that fails adds no frame.
  | bind f p args => ((h.bind f p args).toOption.map (·.2)).getD h
  | set f x v => h.set f x v
  | clear f => h.clear f

/-- The parent of the frame that an operation adds, if it adds one. -/
def added? : Operation → Option (Option FrameId)
  | root => some none
  | child f => some (some f)
  | bind f p args => if args.length < p.required.length then none else some (some f)
  | set _ _ _ => none
  | clear _ => none

/-- What a symbol is bound to in the frame that an operation adds. -/
def initial : Operation → Symbol → Option Value
  | bind _ p args, x => p.argument? args x
  | _, _ => none

/-- What an operation makes of what a symbol is bound to in a frame. -/
def rewrite (f : FrameId) (x : Symbol) (old : Option Value) : Operation → Option Value
  | set g y v => if f = g ∧ x = y then some v else old
  | clear g => if f = g then none else old
  | _ => old

end Operation

/-- The operations so far. -/
inductive History where
  | start
  | step (past : History) (op : Operation)

namespace History

def heap : History → Heap
  | start => .empty
  | step past op => op.apply past.heap

/-- The number of frames. -/
def size : History → Nat
  | start => 0
  | step past op => if op.added?.isSome then past.size + 1 else past.size

/-- A frame and the frames around it from inside out, none if there is no such frame. A new frame
stands in front of those that are around it when it is added. -/
def chain : History → FrameId → List FrameId
  | start, _ => []
  | step past op, f =>
    match op.added? with
    | none => past.chain f
    | some parent => if f = past.size then f :: (parent.map past.chain).getD [] else past.chain f

/-- What was last written for a symbol in a frame, if it was not cleared since. -/
def written : History → FrameId → Symbol → Option Value
  | start, _, _ => none
  | step past op, f, x =>
    if op.added?.isSome ∧ f = past.size then op.initial x else op.rewrite f x (past.written f x)

end History

/-! ### What operations keep -/

/-- Whether the frames of a heap bind what was written in them, and are inside of the frames that
they were made in. -/
structure Shows (h : Heap) (past : History) : Prop where
  size : h.frames.size = past.size
  beyond : ∀ f, past.size ≤ f → past.chain f = []
  written : ∀ f frame, h.frames[f]? = some frame →
    ∀ x : Symbol, frame.bindings.get? x.name = past.written f x
  chain : ∀ f frame, h.frames[f]? = some frame → past.chain f =
    f :: (frame.parent.map fun parent => if parent < f then past.chain parent else []).getD []

namespace Shows

variable {h : Heap} {past : History} {op : Operation}

theorem empty : Shows .empty .start where
  size := rfl
  beyond _ _ := rfl
  written _ _ hframe := by cases hframe
  chain _ _ hframe := by cases hframe

/-- An operation that adds a frame with what it is to bind. -/
theorem addFrame (hs : h.Shows past) {parent : Option FrameId} (hadded : op.added? = some parent)
    {bindings : Table Value} (hbindings : ∀ x : Symbol, bindings.get? x.name = op.initial x)
    (hkept : ∀ f x old, op.rewrite f x old = old) :
    (h.addFrame parent bindings).2.Shows (past.step op) := by
  have hsize : (past.step op).size = past.size + 1 := by simp [History.size, hadded]
  have hchain : ∀ f, (past.step op).chain f =
      if f = past.size then f :: (parent.map past.chain).getD [] else past.chain f := by
    intro f
    simp only [History.chain, hadded]
  have hwritten : ∀ f x, (past.step op).written f x =
      if f = past.size then op.initial x else past.written f x := by
    intro f x
    simp [History.written, hadded, hkept]
  -- The frames around a frame are older, so the new one is not among them.
  have hold : ∀ f, f < past.size → (past.step op).chain f = past.chain f := by
    intro f hf
    rw [hchain, if_neg (Nat.ne_of_lt hf)]
  refine ⟨?_, ?_, ?_, ?_⟩
  · rw [size_frames_addFrame, hs.size, hsize]
  · intro f hf
    rw [hsize] at hf
    have hlt : past.size < f := hf
    rw [hchain, if_neg (Nat.ne_of_gt hlt), hs.beyond f (Nat.le_of_lt hlt)]
  · intro f frame hframe x
    rw [frames_addFrame, hs.size] at hframe
    rw [hwritten]
    split at hframe
    · next heq =>
      cases hframe
      rw [if_pos heq]
      exact hbindings x
    · next hne =>
      rw [if_neg hne]
      exact hs.written f frame hframe x
  · intro f frame hframe
    rw [frames_addFrame, hs.size] at hframe
    split at hframe
    · next heq =>
      cases hframe
      rw [hchain, if_pos heq]
      cases parent with
      | none => rfl
      | some outer =>
        dsimp only [Option.map_some, Option.getD_some]
        by_cases houter : outer < f
        · rw [if_pos houter, hold outer (heq ▸ houter)]
        · rw [if_neg houter, hs.beyond outer (heq ▸ Nat.le_of_not_lt houter)]
    · next hne =>
      have hf : f < past.size := hs.size ▸ (Array.getElem?_eq_some_iff.mp hframe).1
      rw [hold f hf, hs.chain f frame hframe]
      cases frame.parent with
      | none => rfl
      | some outer =>
        dsimp only [Option.map_some, Option.getD_some]
        by_cases houter : outer < f
        · rw [if_pos houter, if_pos houter, hold outer (Nat.lt_trans houter hf)]
        · rw [if_neg houter, if_neg houter]

/-- An operation that writes in a frame or does nothing. -/
theorem rewrite (hs : h.Shows past) {h' : Heap} (hadded : op.added? = none)
    (hsize : h'.frames.size = h.frames.size)
    (hframes : ∀ f frame', h'.frames[f]? = some frame' → ∃ frame, h.frames[f]? = some frame ∧
      frame'.parent = frame.parent ∧ ∀ x : Symbol, frame'.bindings.get? x.name =
        op.rewrite f x (frame.bindings.get? x.name)) : h'.Shows (past.step op) := by
  have hchain : (past.step op).chain = past.chain := by
    funext f
    simp only [History.chain, hadded]
  have hsame : (past.step op).size = past.size := by simp [History.size, hadded]
  refine ⟨?_, ?_, ?_, ?_⟩
  · rw [hsize, hs.size, hsame]
  · rw [hchain, hsame]
    exact hs.beyond
  · intro f frame' hframe' x
    obtain ⟨frame, hframe, _, hbindings⟩ := hframes f frame' hframe'
    rw [hbindings, hs.written f frame hframe]
    simp [History.written, hadded]
  · intro f frame' hframe'
    obtain ⟨frame, hframe, hparent, _⟩ := hframes f frame' hframe'
    rw [hchain, hparent]
    exact hs.chain f frame hframe

/-- An operation that changes the bindings of a frame. -/
theorem updateFrame (hs : h.Shows past) (hadded : op.added? = none) {g : FrameId}
    {change : Table Value → Table Value}
    (hself : ∀ table (x : Symbol), (change table).get? x.name = op.rewrite g x (table.get? x.name))
    (hother : ∀ f, f ≠ g → ∀ x old, op.rewrite f x old = old) :
    (h.updateFrame g change).Shows (past.step op) := by
  refine hs.rewrite hadded Array.size_modify fun f frame' hframe' => ?_
  rw [Heap.updateFrame, Array.getElem?_modify] at hframe'
  split at hframe'
  · next heq =>
    subst heq
    obtain ⟨frame, hframe, rfl⟩ := Option.map_eq_some_iff.mp hframe'
    exact ⟨frame, hframe, rfl, fun x => hself frame.bindings x⟩
  · next hne =>
    exact ⟨frame', hframe', rfl, fun x => (hother f (Ne.symm hne) x _).symm⟩

theorem apply (hs : h.Shows past) : (op.apply h).Shows (past.step op) := by
  cases op with
  | root => exact hs.addFrame rfl (fun _ => rfl) fun _ _ _ => rfl
  | child f => exact hs.addFrame rfl (fun _ => rfl) fun _ _ _ => rfl
  | bind f p args =>
    by_cases hlength : args.length < p.required.length
    · have hadded : (Operation.bind f p args).added? = none := if_pos hlength
      obtain ⟨fault, hfault, _⟩ := bind_of_lt hlength
      have hsame : (Operation.bind f p args).apply h = h := by
        rw [Operation.apply, hfault]
        rfl
      rw [hsame]
      exact hs.rewrite hadded rfl fun _ frame hframe => ⟨frame, hframe, rfl, fun _ => rfl⟩
    · have hadded : (Operation.bind f p args).added? = some (some f) := if_neg hlength
      have hadd : (Operation.bind f p args).apply h =
          (h.addFrame (some f) (bindingsOf p args)).2 := by
        rw [Operation.apply, bind_of_le h f (Nat.le_of_not_lt hlength)]
        rfl
      rw [hadd]
      exact hs.addFrame hadded (get?_bindingsOf p args) fun _ _ _ => rfl
  | set f y v =>
    have hadded : (Operation.set f y v).added? = none := rfl
    refine hs.updateFrame hadded (fun table x => ?_) fun g hg x old => ?_
    · have hname : x.name = y.name ↔ x = y := by
        rw [Symbol.mk.injEq]
      simp [Operation.rewrite, Table.get?_insert, hname]
    · simp [Operation.rewrite, hg]
  | clear f =>
    have hadded : (Operation.clear f).added? = none := rfl
    change (h.updateFrame f fun _ => []).Shows _
    refine hs.updateFrame hadded (fun table x => ?_) fun g hg x old => ?_
    · simp [Operation.rewrite]
    · simp [Operation.rewrite, hg]

/-- What looking up finds is in the nearest frame in which something was written. -/
theorem resolve? (hs : h.Shows past) (f : FrameId) (x : Symbol) :
    h.resolve? f x = (past.chain f).findSome? fun g => (past.written g x).map (g, ·) := by
  induction f using Nat.strongRecOn with
  | ind f ih =>
    unfold Heap.resolve?
    cases hframe : h.frames[f]? with
    | none =>
      have hf : past.size ≤ f := hs.size ▸ Array.getElem?_eq_none_iff.mp hframe
      rw [hs.beyond f hf]
      rfl
    | some frame =>
      dsimp only
      rw [hs.chain f frame hframe, hs.written f frame hframe, List.findSome?_cons]
      cases past.written f x with
      | some v => rfl
      | none =>
        cases frame.parent with
        | none => rfl
        | some parent =>
          dsimp only [Option.map_none, Option.map_some, Option.getD_some]
          by_cases hparent : parent < f
          · rw [if_pos hparent, if_pos hparent, ih parent hparent]
          · rw [if_neg hparent, if_neg hparent]
            rfl

end Shows

theorem shows_heap (past : History) : past.heap.Shows past := by
  induction past with
  | start => exact .empty
  | step past op ih => exact ih.apply

/-! ### Looking up -/

section

variable {past : History} {f : FrameId} {x : Symbol}

theorem lookup?_heap (past : History) (f : FrameId) (x : Symbol) :
    past.heap.lookup? f x = (past.chain f).findSome? (past.written · x) := by
  unfold lookup?
  rw [(shows_heap past).resolve?, List.map_findSome?]
  refine congrArg (List.findSome? · _) (funext fun g => ?_)
  simp [Function.comp_def]

theorem find?_heap (past : History) (f : FrameId) (x : Symbol) :
    past.heap.find? f x = (past.chain f).find? fun g => (past.written g x).isSome := by
  unfold find?
  rw [(shows_heap past).resolve?]
  induction past.chain f with
  | nil => rfl
  | cons g rest ih =>
    rw [List.findSome?_cons, List.find?_cons]
    cases past.written g x with
    | none => exact ih
    | some v => rfl

/-- What is found first when one element has been given a value. -/
theorem findSome?_update {α : Type} (found : FrameId → Option α) (g : FrameId) (v : α)
    (fs : List FrameId) : (fs.findSome? fun e => if e = g then some v else found e) =
      if g ∈ fs ∧ ∀ e ∈ fs.takeWhile (· ≠ g), found e = none then some v
      else fs.findSome? found := by
  induction fs with
  | nil => rfl
  | cons e rest ih =>
    rw [List.findSome?_cons, List.findSome?_cons]
    by_cases he : e = g
    · subst he
      simp
    · rw [if_neg he]
      cases hfound : found e with
      | some w => simp [he, hfound]
      | none =>
        dsimp only
        rw [ih]
        simp [he, hfound, Ne.symm he]

theorem isSome_find?_heap :
    (past.heap.find? f x).isSome = true ↔ ∃ g ∈ past.chain f, ∃ v, past.written g x = some v := by
  rw [find?_heap, List.find?_isSome]
  simp only [Option.isSome_iff_exists]

/-- Setting a symbol in a frame is seen from the frames inside of it, unless a nearer frame has
something for the symbol. -/
theorem lookup?_set_heap (past : History) (f g : FrameId) (x y : Symbol) (v : Value) :
    (past.heap.set g y v).lookup? f x =
      if x = y ∧ g ∈ past.chain f ∧ ∀ e ∈ (past.chain f).takeWhile (· ≠ g), past.written e x = none
      then some v else past.heap.lookup? f x := by
  have hheap : past.heap.set g y v = (past.step (.set g y v)).heap := rfl
  have hchain : (past.step (.set g y v)).chain f = past.chain f := rfl
  have hwritten : ∀ e, (past.step (.set g y v)).written e x =
      if e = g ∧ x = y then some v else past.written e x := fun _ => rfl
  rw [hheap, lookup?_heap, lookup?_heap, hchain]
  simp only [hwritten]
  by_cases hx : x = y
  · simp only [hx, and_true, true_and]
    exact findSome?_update (past.written · y) g v (past.chain f)
  · simp only [hx, and_false, false_and, if_false]

end

/-- What looking up finds is what was written last, and not cleared since, in the nearest of the
frames around a frame that has something for the symbol. Finding gives that frame, and a symbol
evaluates to what was written there. Setting a symbol changes what is found for that symbol only,
and only where no nearer frame has something for it. -/
theorem lookup_follows_history (past : History) (f : FrameId) (x : Symbol) :
    past.heap.lookup? f x = (past.chain f).findSome? (past.written · x) ∧
    past.heap.find? f x = (past.chain f).find? (fun g => (past.written g x).isSome) ∧
    ((past.heap.find? f x).isSome = true ↔
      ∃ g ∈ past.chain f, ∃ v, past.written g x = some v) ∧
    (∀ (eval : Evaluator) (s : State), eval.evalData (.symbol x) f (s.withHeap past.heap) =
      match (past.chain f).findSome? (past.written · x) with
      | some v => .value v (s.withHeap past.heap)
      | none => .error (.fault (.undefinedSymbol x)) (s.withHeap past.heap)) ∧
    ∀ g y v, (past.heap.set g y v).lookup? f x =
      if x = y ∧ g ∈ past.chain f ∧ ∀ e ∈ (past.chain f).takeWhile (· ≠ g), past.written e x = none
      then some v else past.heap.lookup? f x := by
  refine ⟨lookup?_heap past f x, find?_heap past f x, isSome_find?_heap, fun eval s => ?_,
    fun g y v => lookup?_set_heap past f g x y v⟩
  rw [← lookup?_heap]
  cases hx : past.heap.lookup? f x with
  | none => exact Evaluator.evalData_unbound hx eval
  | some v => exact Evaluator.evalData_bound hx eval

/-- A frame that binds `x`, one below it that was cleared, and one of a call below that. -/
def History.sample : History :=
  start |>.step .root |>.step (.set 0 ⟨"x"⟩ (.int 1)) |>.step (.child 0)
    |>.step (.set 1 ⟨"x"⟩ (.int 2)) |>.step (.bind 1 ⟨[⟨"y"⟩], none⟩ [.int 3]) |>.step (.clear 1)

theorem lookup_follows_history_sampleCleared :
    History.sample.heap.lookup? 2 ⟨"x"⟩ = some (.int 1) ∧
    History.sample.heap.find? 2 ⟨"x"⟩ = some 0 ∧
    History.sample.heap.lookup? 2 ⟨"y"⟩ = some (.int 3) ∧
    (History.sample.heap.set 1 ⟨"x"⟩ (.int 4)).lookup? 2 ⟨"x"⟩ = some (.int 4) ∧
    (History.sample.heap.set 1 ⟨"y"⟩ (.int 4)).lookup? 2 ⟨"y"⟩ = some (.int 3) := by
  obtain ⟨hx, hfind, _, _, hset⟩ := lookup_follows_history .sample 2 ⟨"x"⟩
  obtain ⟨hy, _, _, _, hset'⟩ := lookup_follows_history .sample 2 ⟨"y"⟩
  refine ⟨hx.trans rfl, hfind.trans rfl, hy.trans rfl, (hset 1 ⟨"x"⟩ (.int 4)).trans ?_,
    (hset' 1 ⟨"y"⟩ (.int 4)).trans ?_⟩
  · exact if_pos (by decide)
  · exact (if_neg (by decide)).trans (hy.trans rfl)

end SmallLisp.Heap
