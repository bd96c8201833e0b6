import Mathlib.Logic.Relation
import SmallLisp.Proofs.Confinement.Evaluator
import SmallLisp.Proofs.Evaluation.Interventions
import SmallLisp.Proofs.Heap.History

/-!
# Everything that is known exists

A host works on a state by what it knows there: frames that it made, and frames, atoms and functions
in values that it was given. It adds and writes frames, looks symbols up, and has forms evaluated
and functions called. Whatever the host does, the heap stays well founded and what it knows exists.
No evaluation ever comes to a frame or an atom that is missing. The main statement is
`heap_stays_founded`.
-/

namespace SmallLisp

open Evaluator

/-! ### Operations on frames -/

namespace Heap

variable {h : Heap}

namespace Operation

/-- Whether an operation makes use only of frames and values of a reach. -/
def Within (P : Reach) : Operation → Prop
  | root => True
  | child f => P (.scope f)
  | bind f _ args => P (.scope f) ∧ P.AdmitsAll args
  | set f _ v => P (.scope f) ∧ P.Admits v
  | clear f => P (.scope f)

theorem Within.mono {P P' : Reach} {op : Operation} (hop : op.Within P) (hsub : P.Sub P') :
    op.Within P' := by
  cases op with
  | root => trivial
  | child f => exact hsub.refs hop
  | bind f p args => exact ⟨hsub.refs hop.1, hop.2.mono hsub⟩
  | set f x v => exact ⟨hsub.refs hop.1, hop.2.mono hsub⟩
  | clear f => exact hsub.refs hop

/-- The frame that an operation gives, if it adds one. -/
def given (h : Heap) (op : Operation) : List Ref :=
  if op.added?.isSome then [.scope h.frames.size] else []

theorem apply_bind (h : Heap) (f : FrameId) (p : Params) (args : List Value) :
    (bind f p args).apply h =
      match bindings? p args with
      | .ok bindings => (h.addFrame (some f) bindings).2
      | .error _ => h := by
  unfold apply Heap.bind
  dsimp only
  cases bindings? p args <;> rfl

end Operation

theorem Operation.becomes (hh : h.Founded) {op : Operation} (hop : op.Within h.present) :
    h.Becomes (op.apply h) := by
  cases op with
  | root => exact .addFrame hh nofun nofun
  | child f =>
    refine .addFrame hh ?_ nofun
    rintro _ ⟨⟩
    exact hop
  | bind f p args =>
    have hbindings : Returns h.present.AdmitsEntries (bindings? p args) :=
      bindings?_admits hop.2
    rw [apply_bind]
    cases hb : bindings? p args with
    | error fault => exact .refl hh
    | ok bindings =>
      refine .addFrame hh ?_ (hbindings bindings hb)
      rintro _ ⟨⟩
      exact hop.1
  | set f x v => exact .updateFrame hh f fun table htable => htable.insert hop.2
  | clear f => exact .updateFrame hh f fun _ _ _ hentry => absurd hentry List.not_mem_nil

/-- What an operation gives exists behind it. -/
theorem Operation.given_present {op : Operation} : ∀ r ∈ op.given h, (op.apply h).present r := by
  have hadd : ∀ {parent : Option FrameId} {bindings : Table Value} {h' : Heap},
      h' = (h.addFrame parent bindings).2 →
        ∀ r ∈ [Ref.scope h.frames.size], h'.present r := by
    rintro parent bindings _ rfl r hr
    obtain rfl := List.mem_singleton.mp hr
    change h.frames.size < (h.addFrame parent bindings).2.frames.size
    rw [size_frames_addFrame]
    exact Nat.lt_succ_self _
  cases op with
  | root => exact hadd rfl
  | child f => exact hadd rfl
  | bind f p args =>
    by_cases hlength : args.length < p.required.length
    · have hnone : (Operation.bind f p args).added? = none := if_pos hlength
      simp [given, hnone]
    · have hsome : (Operation.bind f p args).added? = some (some f) := if_neg hlength
      unfold given
      rw [hsome, apply_bind, bindings?_of_le (Nat.le_of_not_lt hlength)]
      exact hadd rfl
  | set f x v => exact nofun
  | clear f => exact nofun

end Heap

/-! ### A run beside itself -/

/-- The references that an outcome gives. -/
def Outcome.refs : Outcome Value → List Ref
  | .value v _ => v.refs
  | .error e _ => e.caught.refs
  | .halt _ _ => []

/-- Whether the heap of an outcome comes of that of a state, and what the outcome gives exists. -/
structure Outcome.Preserves (s : State) (o : Outcome Value) : Prop where
  heap : s.heap.Becomes o.state.heap
  given : ∀ r ∈ o.refs, o.state.heap.present r

/-- Two runs from one state, in which everything that exists may be reached. -/
def Confinement.within (s : State) : Confinement := ⟨s.heap.present, s, s⟩

namespace Confinement

variable {s : State} {h h' : Heap} {r : Ref} {f : FrameId} {id : AtomId}

theorem related_within (hs : s.heap.Founded) : (within s).Related s s :=
  related_start hs.closed (.refl _ _) rfl rfl rfl rfl rfl rfl

/-- What the runs may reach exists. -/
theorem Linked.reach_sub (hl : (within s).Linked h h') : ((within s).reach h).Sub h.present where
  refs {r} hr := by
    rcases hr with hstart | hadded
    · exact (Heap.present_sub hl.frameCount hl.atomCount).refs hstart
    · cases r with
      | root f => exact absurd hadded id
      | _ => exact hadded.2
  opens {f} hf := by
    rcases hf with hstart | hadded
    · exact Nat.lt_of_lt_of_le hstart hl.frameCount
    · exact hadded.2

theorem reach_scope (hf : f < h.frames.size) : (within s).reach h (.scope f) := by
  by_cases hold : f < s.heap.frames.size
  · exact .inl hold
  · exact .inr ⟨Nat.le_of_not_lt hold, hf⟩

theorem reach_atom (hid : id < h.atoms.size) : (within s).reach h (.atom id) := by
  by_cases hold : id < s.heap.atoms.size
  · exact .inl hold
  · exact .inr ⟨Nat.le_of_not_lt hold, hid⟩

/-- What the runs come to is well founded. Old frames have the parents that they had, and frames
that were added are inside of those that could be reached before. -/
theorem Linked.founded (hs : s.heap.Founded) (hl : (within s).Linked h h') : h.Founded where
  older {f frame outer} hframe hparent := by
    have hlt : f < h.frames.size := (Array.getElem?_eq_some_iff.mp hframe).1
    by_cases hold : f < s.heap.frames.size
    · obtain ⟨later, hlater, hsame⟩ := hl.parents f _ (Array.getElem?_eq_getElem hold)
      obtain rfl : frame = later := Option.some.inj (hframe.symm.trans hlater)
      exact hs.older (Array.getElem?_eq_getElem hold) (hsame.symm.trans hparent)
    · have hlow : s.heap.frames.size ≤ f := Nat.le_of_not_lt hold
      obtain ⟨added, around, hadded, haround, holder⟩ := hl.nested hlow hlt
      obtain rfl : frame = added := Option.some.inj (hframe.symm.trans hadded)
      obtain rfl : outer = around := Option.some.inj (hparent.symm.trans haround)
      rcases holder with hstart | hyounger
      · exact Nat.lt_of_lt_of_le hstart hlow
      · exact hyounger.2
  bound {f frame} hframe := by
    have hlt : f < h.frames.size := (Array.getElem?_eq_some_iff.mp hframe).1
    exact (hl.closed.bound (reach_scope hlt) hframe).mono hl.reach_sub
  stored {id v} hv := by
    have hlt : id < h.atoms.size := (Array.getElem?_eq_some_iff.mp hv).1
    exact (hl.closed.content (reach_atom hlt) hv).mono hl.reach_sub

/-- Both runs come to the same heap. -/
theorem Linked.eq (hl : (within s).Linked h h') : h' = h := by
  have hframes : h'.frames = h.frames := by
    refine Array.ext hl.agree.frameCount fun f hf hf' => Option.some.inj ?_
    rw [← Array.getElem?_eq_getElem hf, ← Array.getElem?_eq_getElem hf']
    exact hl.agree.frames (reach_scope hf')
  have hatoms : h'.atoms = h.atoms := by
    refine Array.ext hl.agree.atomCount fun id hid hid' => Option.some.inj ?_
    rw [← Array.getElem?_eq_getElem hid, ← Array.getElem?_eq_getElem hid']
    exact hl.agree.atoms (reach_atom hid')
  have hidentities := hl.agree.identities
  cases h
  cases h'
  exact congr (congrArg₂ Heap.mk hframes hatoms) hidentities

theorem Linked.becomes (hs : s.heap.Founded) (hl : (within s).Linked h h') : s.heap.Becomes h :=
  ⟨hl.founded hs, hl.parents, hl.atomCount⟩

theorem preserves_of_keeps (hs : s.heap.Founded) {m : Eval Value}
    (hm : (within s).Keeps s.heap.present Reach.Admits m) : (m s).Preserves s := by
  have hsub : s.heap.present.Sub ((within s).reach s.heap) := ⟨.inl, .inl⟩
  have hsame := hm s s hsub (related_within hs)
  generalize m s = o at hsame ⊢
  cases hsame with
  | value _ hr hv => exact ⟨hr.heap.becomes hs, hv.mono hr.heap.reach_sub⟩
  | error _ hr he => exact ⟨hr.heap.becomes hs, Reach.Admits.mono he hr.heap.reach_sub⟩
  | halt _ hr => exact ⟨hr.heap.becomes hs, nofun⟩

/-! ### Interventions -/

section

variable {eval : Evaluator} {w : Evaluator → Evaluator}

/-- An intervention that leaves supported forms alone is never noticed. -/
theorem spared_keeps (hs : s.heap.Founded) (hw : Spares w) (heval : (within s).EvalKeeps eval) :
    (within s).EvalKeeps (w eval) := by
  intro P form f hform hf t t' hP hr
  have hsub : P.Sub t.heap.present := hP.trans hr.heap.reach_sub
  have hsupports : t.heap.Supports form f :=
    ⟨hr.heap.founded hs, hsub.opens hf, hform.mono hsub⟩
  have hsupports' : t'.heap.Supports form f := hr.heap.eq ▸ hsupports
  rw [hw eval form f t hsupports, hw eval form f t' hsupports']
  exact heval hform hf t t' hP hr

theorem evalBy_keeps (hs : s.heap.Founded) (hw : Spares w) (n : Nat) :
    (within s).EvalKeeps (evalBy w n) := by
  induction n with
  | zero => exact fun _ _ => .halt _
  | succ n ih =>
    have hrun : ∀ k, (within s).EvalKeeps ((evalBy w n).runBy w k) := by
      intro k
      induction k with
      | zero => exact fun _ _ => .halt _
      | succ k ih' => exact spared_keeps hs hw (turn_keeps ih ih' k)
    have hdeeper : (within s).EvalKeeps fun form f => ((evalBy w n).runBy w n form f).deeper :=
      fun hform hf => (hrun n hform hf).deeper
    intro P form f hform hf
    exact spared_keeps hs hw hdeeper hform hf

end

end Confinement

/-! ### Hosts -/

/-- The reach of some references. A frame that is known may be opened. -/
def Reach.ofRefs (refs : List Ref) : Reach where
  holds
    | .scope f => .scope f ∈ refs ∨ .root f ∈ refs
    | .root f => .scope f ∈ refs ∨ .root f ∈ refs
    | .atom id => .atom id ∈ refs
  opens f := .scope f ∈ refs ∨ .root f ∈ refs
  opens_of_root := id
  scope_of_opens := id

/-- A state, and the references that are known outside of it. -/
structure Host where
  state : State
  known : List Ref

namespace Host

/-- What a host may make use of. -/
def reach (host : Host) : Reach := .ofRefs host.known

/-- A host behind an outcome, which gives more to know. -/
def after (host : Host) (o : Outcome Value) : Host := ⟨o.state, o.refs ++ host.known⟩

/-- What a host can do with what it knows: an operation on frames, a look at a binding or into an
atom, an evaluation, a call, and everything that leaves frames and atoms alone. What comes of it is
known from then on. -/
inductive Advances (host : Host) : Host → Prop where
  | operation (op : Heap.Operation) (hop : op.Within host.reach) :
      Advances host ⟨host.state.withHeap (op.apply host.state.heap),
        op.given host.state.heap ++ host.known⟩
  | lookup {f g : FrameId} {x : Symbol} {v : Value} (hf : host.reach (.scope f))
      (hx : host.state.heap.resolve? f x = some (g, v)) :
      Advances host ⟨host.state, .scope g :: v.refs ++ host.known⟩
  | content {id : AtomId} {v : Value} (hid : host.reach (.atom id))
      (hv : host.state.heap.atoms[id]? = some v) :
      Advances host ⟨host.state, v.refs ++ host.known⟩
  | evaluation (n : Nat) {form : Value} {f : FrameId} (hform : host.reach.Admits form)
      (hf : host.reach.opens f) : Advances host (host.after (eval n form f host.state))
  | call (n k : Nat) {fn : Value} {args : List Value} (hfn : host.reach.Admits fn)
      (hargs : host.reach.AdmitsAll args) :
      Advances host (host.after ((eval n).call k fn args host.state))
  | elsewhere {s : State} (hframes : s.heap.frames = host.state.heap.frames)
      (hatoms : s.heap.atoms = host.state.heap.atoms) : Advances host ⟨s, host.known⟩

/-- What a host can do in turn. -/
def Leads : Host → Host → Prop := Relation.ReflTransGen Advances

/-- Whether the heap is well founded and everything that is known exists. -/
structure Sound (host : Host) : Prop where
  founded : host.state.heap.Founded
  known : ∀ r ∈ host.known, host.state.heap.present r

variable {host next later : Host}

theorem sound_empty {s : State} (hs : s.heap = .empty) : Sound ⟨s, []⟩ :=
  ⟨hs ▸ .empty, nofun⟩

theorem Sound.reach_sub (h : host.Sound) : host.reach.Sub host.state.heap.present := by
  have hframe : ∀ {f : FrameId}, .scope f ∈ host.known ∨ .root f ∈ host.known →
      f < host.state.heap.frames.size :=
    fun hf => hf.elim (h.known _) (h.known _)
  refine ⟨fun {r} hr => ?_, hframe⟩
  cases r with
  | atom id => exact h.known _ hr
  | _ => exact hframe hr

/-- Where the heap comes of what it was, what was known still exists. -/
theorem Sound.add (h : host.Sound) {s : State} {given : List Ref}
    (hb : host.state.heap.Becomes s.heap) (hgiven : ∀ r ∈ given, s.heap.present r) :
    Sound ⟨s, given ++ host.known⟩ where
  founded := hb.founded
  known r hr := by
    rcases List.mem_append.mp hr with hr | hr
    · exact hgiven r hr
    · exact hb.present_sub.refs (h.known r hr)

section

variable {w : Evaluator → Evaluator} {n k : Nat} {form fn : Value} {f : FrameId} {args : List Value}

theorem Sound.evalBy_preserves (h : host.Sound) (hw : Spares w) (hform : host.reach.Admits form)
    (hf : host.reach.opens f) : (evalBy w n form f host.state).Preserves host.state := by
  refine Confinement.preserves_of_keeps h.founded (Confinement.evalBy_keeps h.founded hw n ?_ ?_)
  · exact hform.mono h.reach_sub
  · exact h.reach_sub.opens hf

theorem Sound.callBy_preserves (h : host.Sound) (hw : Spares w) (hfn : host.reach.Admits fn)
    (hargs : host.reach.AdmitsAll args) :
    ((evalBy w n).call k fn args host.state).Preserves host.state := by
  refine Confinement.preserves_of_keeps h.founded
    (Confinement.call_keeps_of (Confinement.evalBy_keeps h.founded hw n) k ?_ ?_)
  · exact hfn.mono h.reach_sub
  · exact hargs.mono h.reach_sub

end

theorem Advances.step (ha : host.Advances next) (h : host.Sound) :
    next.Sound ∧ host.state.heap.Becomes next.state.heap := by
  have hsub := h.reach_sub
  cases ha with
  | operation op hop =>
    have hb := Heap.Operation.becomes h.founded (hop.mono hsub)
    exact ⟨h.add hb Heap.Operation.given_present, hb⟩
  | lookup hf hx =>
    have hb := Heap.Becomes.refl h.founded
    refine ⟨h.add hb (List.forall_mem_cons.mpr ⟨?_, ?_⟩), hb⟩
    · exact Heap.lt_size_of_resolve? hx
    · exact h.founded.closed.resolve? (hsub.refs hf) hx
  | content hid hv =>
    have hb := Heap.Becomes.refl h.founded
    exact ⟨h.add hb (h.founded.stored hv), hb⟩
  | evaluation n hform hf =>
    have ho := h.evalBy_preserves (n := n) spares_id hform hf
    rw [evalBy_id] at ho
    exact ⟨h.add ho.heap ho.given, ho.heap⟩
  | call n k hfn hargs =>
    have ho := h.callBy_preserves (n := n) (k := k) spares_id hfn hargs
    rw [evalBy_id] at ho
    exact ⟨h.add ho.heap ho.given, ho.heap⟩
  | @elsewhere s hframes hatoms =>
    have hb := Heap.Becomes.congr h.founded hframes hatoms
    have hnothing : ∀ r ∈ ([] : List Ref), s.heap.present r := nofun
    exact ⟨h.add hb hnothing, hb⟩

theorem Leads.run (hl : host.Leads later) (h : host.Sound) :
    later.Sound ∧ host.state.heap.Becomes later.state.heap := by
  induction hl with
  | refl => exact ⟨h, .refl h.founded⟩
  | tail _ ha ih =>
    obtain ⟨hsound, hb⟩ := ih
    obtain ⟨hsound', hb'⟩ := ha.step hsound
    exact ⟨hsound', hb.trans hb'⟩

end Host

/-- Whatever a host does on a heap that was empty, every frame is younger than its parent and keeps
it, and every frame and atom that something bound, stored or known leads to exists. The walk from a
frame outwards comes to an end, and finds what looking up finds. This goes on in evaluations and
calls, however they end: what they give exists, and no form ever comes to be evaluated in a frame
that is missing, or on a heap that is not well founded. An evaluator that would do anything else
there has the same answers. -/
theorem heap_stays_founded {s₀ : State} (h₀ : s₀.heap = .empty) {host : Host}
    (hrun : Host.Leads ⟨s₀, []⟩ host) :
    host.state.heap.Founded ∧ host.reach.Sub host.state.heap.present ∧
    (∀ later, host.Leads later → host.state.heap.KeepsParents later.state.heap) ∧
    (∀ f < host.state.heap.frames.size, host.state.heap.Rooted f ∧
      ∀ x, host.state.heap.seek? x (f + 1) f = some (host.state.heap.find? f x)) ∧
    (∀ n form f, host.reach.Admits form → host.reach.opens f →
      (eval n form f host.state).Preserves host.state ∧
      ∀ w, Spares w → ∀ o, o.Answers →
        (evalBy w n form f host.state = o ↔ eval n form f host.state = o)) ∧
    ∀ n k fn args, host.reach.Admits fn → host.reach.AdmitsAll args →
      ((eval n).call k fn args host.state).Preserves host.state ∧
      ∀ w, Spares w → ∀ o, o.Answers →
        ((evalBy w n).call k fn args host.state = o ↔ (eval n).call k fn args host.state = o) := by
  have hsound : host.Sound := (hrun.run (Host.sound_empty h₀)).1
  refine ⟨hsound.founded, hsound.reach_sub, ?_, ?_, ?_, ?_⟩
  · exact fun later hl => (hl.run hsound).2.parents
  · intro f hf
    exact ⟨hsound.founded.rooted hf, fun x => hsound.founded.seek?_of_lt hf (Nat.lt_succ_self f)⟩
  · intro n form f hform hf
    have hpreserves : ∀ {w}, Spares w → (evalBy w n form f host.state).Preserves host.state :=
      fun hw => hsound.evalBy_preserves hw hform hf
    refine ⟨evalBy_id n ▸ hpreserves spares_id, fun w hw o ho => evalBy_eq_iff hw ?_ ho⟩
    exact fun hlost => hlost.2 (hpreserves spares_orLose).heap.founded
  · intro n k fn args hfn hargs
    have hpreserves : ∀ {w}, Spares w →
        ((evalBy w n).call k fn args host.state).Preserves host.state :=
      fun hw => hsound.callBy_preserves hw hfn hargs
    refine ⟨evalBy_id n ▸ hpreserves spares_id, fun w hw o ho => callBy_eq_iff hw ?_ ho⟩
    exact fun hlost => hlost.2 (hpreserves spares_orLose).heap.founded

/-- A host that made two frames, one below the other, and set `x` in the inner one. -/
def Host.sample : Host :=
  ⟨⟨⟨#[⟨[], none⟩, ⟨[("x", .int 5)], some 0⟩], #[], 0⟩, .atRest 9, ⟨[], true, "", ""⟩, .empty, 0⟩,
    [.scope 1, .scope 0]⟩

theorem leads_sample : Host.Leads ⟨.initial 9 [] .empty 0, []⟩ .sample := by
  refine .tail (.tail (.single (.operation .root trivial)) (.operation (.child 0) ?_))
    (.operation (.set 1 ⟨"x"⟩ (.int 5)) ⟨?_, ?_⟩)
  · exact .inl (List.mem_singleton_self _)
  · exact .inl List.mem_cons_self
  · exact Reach.admits_of_refs rfl

/-- The call of a function that was made where it is called, and takes `x` from there. -/
def Value.sampleClosureCall : Value := .ofList [.ofList [.named "lambda", .ofList [], .named "x"]]

theorem heap_stays_founded_sampleClosureCall :
    Host.sample.state.heap.seek? ⟨"x"⟩ 2 1 = some (some 1) ∧
    ∃ s, evalBy orLose 9 .sampleClosureCall 1 Host.sample.state = .value (.int 5) s ∧
      s.heap.frames[2]?.map Frame.parent = some (some 1) ∧ s.heap.Founded := by
  obtain ⟨_, _, _, hwalk, heval, _⟩ := heap_stays_founded rfl leads_sample
  obtain ⟨_, hseek⟩ := hwalk 1 (by decide)
  have hform : Host.sample.reach.Admits .sampleClosureCall := Reach.admits_of_refs rfl
  obtain ⟨hpreserves, hspared⟩ := heval 9 _ 1 hform (.inl List.mem_cons_self)
  have hvalue : eval 9 .sampleClosureCall 1 Host.sample.state =
      .value (.int 5) (eval 9 .sampleClosureCall 1 Host.sample.state).state := by cbv
  rw [← hspared orLose spares_orLose (.value _ _) trivial] at hvalue
  exact ⟨(hseek ⟨"x"⟩).trans (by cbv), _, hvalue, by cbv, hpreserves.heap.founded⟩

end SmallLisp
