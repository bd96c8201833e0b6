import SmallLisp.Proofs.Confinement.Evaluator
import SmallLisp.Proofs.Evaluation.Turns

/-!
# Scopes are lexical

What an evaluation does depends on what it can reach: on the frames outwards from its own, on those
that closures were made in and `eval` functions evaluate in, and on the atoms that are found there.
Two states that agree on a region that is closed under reaching have the same runs, and agree
afterwards on the region and on everything that the runs added. In particular the variables of a
caller are nothing to a call that does not reach them. The main statement is `lexical_scoping`.
-/

namespace SmallLisp

/-! ### Regions -/

/-- Some frames and atoms of a heap. -/
structure HeapRegion where
  frames : FrameId → Prop
  atoms : AtomId → Prop

namespace HeapRegion

/-- The references into a region. -/
def reach (S : HeapRegion) : Reach where
  holds
    | .scope f => S.frames f
    | .root f => S.frames f
    | .atom id => S.atoms id
  opens := S.frames
  opens_of_root := id
  scope_of_opens := id

/-- A region and all frames and atoms that are not in a heap. -/
def beyond (S : HeapRegion) (h : Heap) : HeapRegion where
  frames f := S.frames f ∨ h.frames.size ≤ f
  atoms id := S.atoms id ∨ h.atoms.size ≤ id

end HeapRegion

/-- Whether two states cannot be told apart in a region: they have as many frames, atoms and
functions, the region holds the same in both, they are at one depth under one limit, and the same
can be read from outside. What was written so far may differ. -/
structure State.AgreeOn (S : HeapRegion) (s s' : State) : Prop where
  heap : s.heap.Agree S.reach s'.heap
  depth : s'.gauge.depth = s.gauge.depth
  limit : s'.gauge.limit = s.gauge.limit
  input : s'.console.input = s.console.input
  isClosed : s'.console.isClosed = s.console.isClosed
  disk : s'.disk = s.disk
  clock : s'.clock = s.clock

def Outcome.withState {α : Type} (t : State) : Outcome α → Outcome α
  | .value a _ => .value a t
  | .error e _ => .error e t
  | .halt cause _ => .halt cause t

/-- Whether two runs that started in states which agree on a region ended in the same way: with one
outcome, the same text written, and states that agree on the region and on what was added. Neither
run has changed anything else. -/
structure SameRuns (S : HeapRegion) (s s' : State) (o o' : Outcome Value) : Prop where
  outcome : o' = o.withState o'.state
  output : ∃ text, o.state.console.output = s.console.output ++ text ∧
    o'.state.console.output = s'.console.output ++ text
  states : o.state.AgreeOn (S.beyond s.heap) o'.state
  closed : o.state.heap.Closed (S.beyond s.heap).reach
  value : ∀ v t, o = .value v t → (S.beyond s.heap).reach.Admits v
  frames : ∀ f < s.heap.frames.size, ¬ S.frames f →
    o.state.heap.frames[f]? = s.heap.frames[f]? ∧ o'.state.heap.frames[f]? = s'.heap.frames[f]?
  atoms : ∀ id < s.heap.atoms.size, ¬ S.atoms id →
    o.state.heap.atoms[id]? = s.heap.atoms[id]? ∧ o'.state.heap.atoms[id]? = s'.heap.atoms[id]?

/-! ### Confined runs in a region -/

variable {S : HeapRegion} {s s' : State}

def HeapRegion.runs (S : HeapRegion) (s s' : State) : Confinement := ⟨S.reach, s, s'⟩

theorem related_runs (hclosed : s.heap.Closed S.reach) (hagree : s.AgreeOn S s') :
    (S.runs s s').Related s s' :=
  Confinement.related_start hclosed hagree.heap hagree.depth hagree.limit hagree.input
    hagree.isClosed hagree.disk hagree.clock

theorem reach_runs_sub (h : Heap) : ((S.runs s s').reach h).Sub (S.beyond s.heap).reach where
  refs {r} hr := by
    cases r with
    | scope f => exact hr.imp_right And.left
    | root f => exact .inl (hr.resolve_right id)
    | atom id => exact hr.imp_right And.left
  opens hf := hf.imp_right And.left

theorem reach_runs_of_lt {h : Heap} {f : FrameId} (hf : (S.beyond s.heap).frames f)
    (hlt : f < h.frames.size) : (S.runs s s').reach h (.scope f) :=
  hf.imp_right fun hle => ⟨hle, hlt⟩

theorem reach_runs_atom_of_lt {h : Heap} {id : AtomId} (hid : (S.beyond s.heap).atoms id)
    (hlt : id < h.atoms.size) : (S.runs s s').reach h (.atom id) :=
  hid.imp_right fun hle => ⟨hle, hlt⟩

theorem closed_of_linked {h h' : Heap} (hl : (S.runs s s').Linked h h') :
    h.Closed (S.beyond s.heap).reach where
  parent hf hframe hparent := by
    have hlt := (Array.getElem?_eq_some_iff.mp hframe).1
    exact (reach_runs_sub h).refs (hl.closed.parent (reach_runs_of_lt hf hlt) hframe hparent)
  bound hf hframe := by
    have hlt := (Array.getElem?_eq_some_iff.mp hframe).1
    exact (hl.closed.bound (reach_runs_of_lt hf hlt) hframe).mono (reach_runs_sub h)
  content hid hv := by
    have hlt := (Array.getElem?_eq_some_iff.mp hv).1
    exact (hl.closed.content (reach_runs_atom_of_lt hid hlt) hv).mono (reach_runs_sub h)

theorem agree_of_linked {h h' : Heap} (hl : (S.runs s s').Linked h h') :
    h.Agree (S.beyond s.heap).reach h' where
  frames {f} hf := by
    by_cases hlt : f < h.frames.size
    · exact hl.agree.frames (reach_runs_of_lt hf hlt)
    · have hle := Nat.le_of_not_lt hlt
      rw [Array.getElem?_eq_none hle, Array.getElem?_eq_none (hl.agree.frameCount ▸ hle)]
  atoms {id} hid := by
    by_cases hlt : id < h.atoms.size
    · exact hl.agree.atoms (reach_runs_atom_of_lt hid hlt)
    · have hle := Nat.le_of_not_lt hlt
      rw [Array.getElem?_eq_none hle, Array.getElem?_eq_none (hl.agree.atomCount ▸ hle)]
  frameCount := hl.agree.frameCount
  atomCount := hl.agree.atomCount
  identities := hl.agree.identities

theorem sameRuns_of_keeps {m : Eval Value} (hclosed : s.heap.Closed S.reach)
    (hagree : s.AgreeOn S s') (hm : (S.runs s s').Keeps S.reach Reach.Admits m) :
    SameRuns S s s' (m s) (m s') := by
  have hsub : S.reach.Sub ((S.runs s s').reach s.heap) := ⟨.inl, .inl⟩
  have hsame := hm s s' hsub (related_runs hclosed hagree)
  have hstates : ∀ {t t' : State}, (S.runs s s').Related t t' →
      t.AgreeOn (S.beyond s.heap) t' := fun hr =>
    ⟨agree_of_linked hr.heap, hr.depth, hr.limit, hr.input, hr.isClosed, hr.disk, hr.clock⟩
  -- What was there at the start and is not in the region is not open: no run has written to it.
  have hframes : ∀ {t t' : State}, (S.runs s s').Related t t' →
      ∀ f < s.heap.frames.size, ¬ S.frames f →
        t.heap.frames[f]? = s.heap.frames[f]? ∧ t'.heap.frames[f]? = s'.heap.frames[f]? := by
    intro t t' hr f hlt hf
    refine hr.heap.frames ?_
    rintro (hopen | hadded)
    · exact hf hopen
    · exact Nat.not_lt_of_le hadded.1 hlt
  have hatoms : ∀ {t t' : State}, (S.runs s s').Related t t' →
      ∀ id < s.heap.atoms.size, ¬ S.atoms id →
        t.heap.atoms[id]? = s.heap.atoms[id]? ∧ t'.heap.atoms[id]? = s'.heap.atoms[id]? := by
    intro t t' hr id hlt hid
    refine hr.heap.atoms ?_
    rintro (hatom | hadded)
    · exact hid hatom
    · exact Nat.not_lt_of_le hadded.1 hlt
  generalize m s = o at hsame ⊢
  generalize m s' = o' at hsame ⊢
  cases hsame with
  | @value v t t' _ hr hv =>
    refine ⟨rfl, hr.output, hstates hr, closed_of_linked hr.heap, ?_, hframes hr, hatoms hr⟩
    rintro _ _ ⟨⟩
    exact hv.mono (reach_runs_sub t.heap)
  | error _ hr _ =>
    exact ⟨rfl, hr.output, hstates hr, closed_of_linked hr.heap, nofun, hframes hr, hatoms hr⟩
  | halt _ hr =>
    exact ⟨rfl, hr.output, hstates hr, closed_of_linked hr.heap, nofun, hframes hr, hatoms hr⟩

/-! ### Lexical scoping -/

/-- A state agrees on a region with the same state where a symbol is bound in a frame outside. -/
theorem agreeOn_set {g : FrameId} (hg : ¬ S.frames g) (x : Symbol) (v : Value) :
    s.AgreeOn S (s.withHeap (s.heap.set g x v)) := by
  refine ⟨⟨?_, fun _ => rfl, Heap.size_frames_set, rfl, rfl⟩, rfl, rfl, rfl, rfl, rfl, rfl⟩
  intro f hf
  have hne : f ≠ g := by
    rintro rfl
    exact hg hf
  exact Heap.frames_set_of_ne hne

/-- In two states that agree on a region closed under reaching, forms of the region have the same
runs in its frames, and so have calls of functions of the region. It does not matter to a call what
is bound outside of the region, and be it where the call stands: two ordinary calls of one function
with the same arguments have the same runs, in whatever forms and whatever frames they stand, and so
have two calls of one macro on the same forms. -/
theorem lexical_scoping (hclosed : s.heap.Closed S.reach) (hagree : s.AgreeOn S s') :
    (∀ n form f, S.reach.Admits form → S.frames f →
      SameRuns S s s' (eval n form f s) (eval n form f s')) ∧
    (∀ n k fn args form g t form' g' t', S.reach.Admits fn → S.reach.AdmitsAll args →
      (eval n).ComesToCall k form g t fn args s → (eval n).ComesToCall k form' g' t' fn args s' →
        SameRuns S s s' ((eval n).run (k + 1) form g t) ((eval n).run (k + 1) form' g' t')) ∧
    (∀ n k fn args form g form' g', S.reach.Admits fn → S.reach.AdmitsAll args →
      (eval n).ExpandsOnce form g s fn args → (eval n).ExpandsOnce form' g' s' fn args →
        SameRuns S s s' ((eval n).expand (k + 2) form g s) ((eval n).expand (k + 2) form' g' s')) ∧
    (∀ n k fn args, S.reach.Admits fn → S.reach.AdmitsAll args →
      SameRuns S s s' ((eval n).call k fn args s) ((eval n).call k fn args s')) ∧
    ∀ n k fn args g x v, S.reach.Admits fn → S.reach.AdmitsAll args → ¬ S.frames g →
      SameRuns S s (s.withHeap (s.heap.set g x v)) ((eval n).call k fn args s)
        ((eval n).call k fn args (s.withHeap (s.heap.set g x v))) := by
  refine ⟨?_, ?_, ?_, ?_, ?_⟩
  · intro n form f hform hf
    exact sameRuns_of_keeps hclosed hagree (Confinement.eval_keeps _ n hform hf)
  · intro n k fn args form g t form' g' t' hfn hargs hcalls hcalls'
    rw [run_of_comesToCall hcalls, run_of_comesToCall hcalls']
    exact sameRuns_of_keeps hclosed hagree
      (Confinement.applied_keeps (Confinement.eval_keeps _ n) k hfn hargs)
  · intro n k fn args form g form' g' hfn hargs honce honce'
    rw [expand_of_once honce, expand_of_once honce']
    exact sameRuns_of_keeps hclosed hagree (Confinement.call_keeps _ n 1 hfn hargs)
  · intro n k fn args hfn hargs
    exact sameRuns_of_keeps hclosed hagree (Confinement.call_keeps _ n k hfn hargs)
  · intro n k fn args g x v hfn hargs hg
    exact sameRuns_of_keeps hclosed (agreeOn_set hg x v) (Confinement.call_keeps _ n k hfn hargs)

/-- A function or macro without parameters that was made where `n` is 1, and gives the value of
`n`. -/
def Value.sampleCallee (isMacro : Bool) : Value :=
  .closure ⟨0, ⟨[], none⟩, 1, isMacro⟩ (.named "n") none

/-- A root that binds such a function and such a macro, the frame that they were made in, and the
frame of a caller where `n` is something else. -/
def State.sampleCaller (n : Int64) : State :=
  ⟨⟨#[⟨[("expand-n", .sampleCallee true), ("get-n", .sampleCallee false)], none⟩,
      ⟨[("n", .int 1)], some 0⟩, ⟨[("n", .int n)], some 0⟩], #[], 1⟩,
    ⟨0, 5, 1, 0⟩, ⟨[], true, "", ""⟩, .empty, 0⟩

/-- The frames that they can reach. -/
def HeapRegion.sampleScopes : HeapRegion := ⟨(· < 2), fun _ => False⟩

theorem admits_sampleCallee (isMacro : Bool) :
    HeapRegion.sampleScopes.reach.Admits (.sampleCallee isMacro) :=
  Reach.admits_closure.mpr ⟨Nat.one_lt_two, Reach.admits_named, nofun⟩

theorem closed_sampleScopes (n : Int64) :
    (State.sampleCaller n).heap.Closed HeapRegion.sampleScopes.reach where
  parent := by
    intro f frame outer _ hframe hparent
    match f, hframe with
    | 0, hframe =>
      cases hframe
      cases hparent
    | 1, hframe =>
      cases hframe
      cases hparent
      exact Nat.two_pos
    | 2, hframe =>
      cases hframe
      cases hparent
      exact Nat.two_pos
    | f + 3, hframe => cases hframe
  bound := by
    intro f frame _ hframe entry hentry
    match f, hframe with
    | 0, hframe =>
      cases hframe
      rcases List.mem_pair.mp hentry with rfl | rfl
      · exact admits_sampleCallee true
      · exact admits_sampleCallee false
    | 1, hframe =>
      cases hframe
      obtain rfl := List.mem_singleton.mp hentry
      exact Reach.admits_of_refs rfl
    | 2, hframe =>
      cases hframe
      obtain rfl := List.mem_singleton.mp hentry
      exact Reach.admits_of_refs rfl
    | f + 3, hframe => cases hframe
  content := nofun

theorem agreeOn_sampleScopes (m n : Int64) :
    (State.sampleCaller m).AgreeOn .sampleScopes (.sampleCaller n) := by
  refine ⟨⟨?_, fun _ => rfl, rfl, rfl, rfl⟩, rfl, rfl, rfl, rfl, rfl, rfl⟩
  intro f hf
  match f, hf with
  | 0, _ => rfl
  | 1, _ => rfl

theorem expandsOnce_sampleCaller (n : Int64) :
    (eval 9).ExpandsOnce (.ofList [.named "expand-n"]) 2 (.sampleCaller n) (.sampleCallee true)
      [] :=
  .macroCall (by cbv) fun v t h => by
    obtain ⟨_, hcall⟩ : ∃ t, (eval 9).call 1 (.sampleCallee true) [] (.sampleCaller n) =
        .value (.int 1) t := ⟨_, by cbv⟩
    cases hcall.symm.trans h
    rfl

theorem lexical_scoping_sampleCaller :
    (∃ t, (eval 9).run 9 (.ofList [.named "get-n"]) 2 (.sampleCaller 2) = .value (.int 1) t) ∧
    (∃ t, (eval 9).run 9 (.ofList [.named "get-n"]) 2 (.sampleCaller 3) = .value (.int 1) t) ∧
    (∃ t, (eval 9).expand 9 (.ofList [.named "expand-n"]) 2 (.sampleCaller 3) =
      .value (.int 1) t) ∧
    (∃ t, eval 9 (.ofList [.named "get-n"]) 0 (.sampleCaller 3) = .value (.int 1) t) ∧
    ∃ t, (eval 9).call 9 (.sampleCallee false) [] (.sampleCaller 3) = .value (.int 1) t := by
  obtain ⟨heval, hruns, hexpands, hcall, _⟩ :=
    lexical_scoping (closed_sampleScopes 2) (agreeOn_sampleScopes 2 3)
  have hform : HeapRegion.sampleScopes.reach.Admits (.ofList [.named "get-n"]) :=
    Reach.admits_ofList.mpr (Reach.admitsAll_cons.mpr ⟨Reach.admits_named, Reach.admitsAll_nil⟩)
  have hcalls : ∀ n, (eval 9).ComesToCall 8 (.ofList [.named "get-n"]) 2 (.sampleCaller n)
      (.sampleCallee false) [] (.sampleCaller n) := fun n => .ordinary (by cbv) rfl (by cbv) rfl
  have hsame := hruns 9 8 _ [] _ 2 _ _ 2 _ (admits_sampleCallee false) Reach.admitsAll_nil
    (hcalls 2) (hcalls 3)
  have hexpanded := hexpands 9 7 _ [] _ 2 _ 2 (admits_sampleCallee true) Reach.admitsAll_nil
    (expandsOnce_sampleCaller 2) (expandsOnce_sampleCaller 3)
  exact ⟨⟨_, by cbv⟩, ⟨_, hsame.outcome.trans (by cbv)⟩, ⟨_, hexpanded.outcome.trans (by cbv)⟩,
    ⟨_, (heval 9 _ 0 hform Nat.two_pos).outcome.trans (by cbv)⟩,
    ⟨_, (hcall 9 9 _ [] (admits_sampleCallee false) Reach.admitsAll_nil).outcome.trans (by cbv)⟩⟩

end SmallLisp
