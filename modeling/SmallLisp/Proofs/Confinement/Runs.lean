import SmallLisp.Eval.Basic
import SmallLisp.Proofs.Heap.Foundation
import SmallLisp.Proofs.Native.References

/-!
# Confined runs

Two runs of one evaluation, from states that agree within a reach under which they are closed. The
reach grows with every frame and atom that is added. `Confinement.Keeps` says that an evaluation
cannot tell the two states apart: it ends in the same way in both, what it gives is within the
reach, the states agree there again, and outside of it nothing has changed. No frame gets another
parent, and the parent of an added frame could be reached before. The rules say that the ways to
make evaluations keep this.
-/

namespace SmallLisp

/-- The reach at the start of two runs, and the states that they start in. -/
structure Confinement where
  start : Reach
  first : State
  second : State

/-- Whether a reference is to a frame or an atom that was added to a heap. -/
def Ref.Between (base h : Heap) : Ref → Prop
  | .scope f => base.frames.size ≤ f ∧ f < h.frames.size
  | .root _ => False
  | .atom id => base.atoms.size ≤ id ∧ id < h.atoms.size

theorem Ref.Between.mono {base h h' : Heap} {r : Ref} (hr : r.Between base h)
    (hframes : h.frames.size ≤ h'.frames.size) (hatoms : h.atoms.size ≤ h'.atoms.size) :
    r.Between base h' := by
  cases r with
  | scope f => exact ⟨hr.1, Nat.lt_of_lt_of_le hr.2 hframes⟩
  | root f => exact hr
  | atom id => exact ⟨hr.1, Nat.lt_of_lt_of_le hr.2 hatoms⟩

theorem Ref.not_between_self {h : Heap} (r : Ref) : ¬ r.Between h h := by
  cases r with
  | root f => exact id
  | _ => exact fun hr => Nat.not_lt_of_le hr.1 hr.2

namespace Confinement

variable {c : Confinement}

/-- What may be reached where the first run has come to a heap: what could be reached at the start,
and everything that was added. -/
def reach (c : Confinement) (h : Heap) : Reach where
  holds r := c.start r ∨ r.Between c.first.heap h
  opens f := c.start.opens f ∨ Ref.Between c.first.heap h (.scope f)
  opens_of_root hr := .inl (c.start.opens_of_root (hr.resolve_right id))
  scope_of_opens hf := hf.imp_left c.start.scope_of_opens

/-- Whether a frame was added inside of one that could be reached before. -/
def Nested (c : Confinement) (h : Heap) (f : FrameId) : Prop :=
  ∃ (frame : Frame) (outer : FrameId), h.frames[f]? = some frame ∧ frame.parent = some outer ∧
    (c.start (.scope outer) ∨ c.first.heap.frames.size ≤ outer ∧ outer < f)

theorem Nested.later {h h' : Heap} {f : FrameId} (hn : c.Nested h f) (hk : h.KeepsParents h') :
    c.Nested h' f := by
  obtain ⟨frame, outer, hframe, hparent, houter⟩ := hn
  obtain ⟨later, hlater, hsame⟩ := hk f frame hframe
  exact ⟨later, outer, hlater, hsame.trans hparent, houter⟩

/-- Whether two heaps can be come to by the two runs. -/
structure Linked (c : Confinement) (h h' : Heap) : Prop where
  closed : h.Closed (c.reach h)
  agree : h.Agree (c.reach h) h'
  frameCount : c.first.heap.frames.size ≤ h.frames.size
  atomCount : c.first.heap.atoms.size ≤ h.atoms.size
  frames : ∀ {f : FrameId}, ¬ (c.reach h).opens f →
    h.frames[f]? = c.first.heap.frames[f]? ∧ h'.frames[f]? = c.second.heap.frames[f]?
  atoms : ∀ {id : AtomId}, ¬ c.reach h (.atom id) →
    h.atoms[id]? = c.first.heap.atoms[id]? ∧ h'.atoms[id]? = c.second.heap.atoms[id]?
  parents : c.first.heap.KeepsParents h
  nested : ∀ {f : FrameId}, c.first.heap.frames.size ≤ f → f < h.frames.size → c.Nested h f

theorem reach_sub {h h' : Heap} (hframes : h.frames.size ≤ h'.frames.size)
    (hatoms : h.atoms.size ≤ h'.atoms.size) : (c.reach h).Sub (c.reach h') :=
  ⟨fun hr => hr.imp_right fun hbetween => hbetween.mono hframes hatoms,
    fun hf => hf.imp_right fun hbetween => hbetween.mono hframes hatoms⟩

theorem reach_congr {h h' : Heap} (hframes : h'.frames.size = h.frames.size)
    (hatoms : h'.atoms.size = h.atoms.size) : c.reach h' = c.reach h := by
  refine Reach.ext (funext fun r => ?_) (funext fun f => ?_)
  · cases r <;> simp only [reach, Ref.Between, hframes, hatoms]
  · simp only [reach, Ref.Between, hframes]

theorem reach_first (c : Confinement) : c.reach c.first.heap = c.start :=
  Reach.ext (funext fun r => propext (or_iff_left r.not_between_self))
    (funext fun f => propext (or_iff_left (Ref.not_between_self (.scope f))))

/-! ### Changes of the heap -/

section

variable {h h' : Heap} {f : FrameId} {x : Symbol} {v : Value} {id : AtomId}

theorem Linked.set (hl : c.Linked h h') (hf : (c.reach h).opens f) (hv : (c.reach h).Admits v) :
    c.Linked (h.set f x v) (h'.set f x v) := by
  have hreach : c.reach (h.set f x v) = c.reach h := reach_congr Heap.size_frames_set rfl
  constructor
  · rw [hreach]
    exact hl.closed.set hv
  · rw [hreach]
    exact hl.agree.set
  · rw [Heap.size_frames_set]
    exact hl.frameCount
  · exact hl.atomCount
  · intro g hg
    rw [hreach] at hg
    have hne : g ≠ f := by
      rintro rfl
      exact hg hf
    rw [Heap.frames_set_of_ne hne, Heap.frames_set_of_ne hne]
    exact hl.frames hg
  · intro id hid
    rw [hreach] at hid
    exact hl.atoms hid
  · exact hl.parents.trans (.updateFrame _ _ _)
  · intro g hlow hhigh
    rw [Heap.size_frames_set] at hhigh
    exact (hl.nested hlow hhigh).later (.updateFrame _ _ _)

theorem Linked.setAtom (hl : c.Linked h h') (hid : c.reach h (.atom id))
    (hv : (c.reach h).Admits v) : c.Linked (h.setAtom id v) (h'.setAtom id v) := by
  have hreach : c.reach (h.setAtom id v) = c.reach h := reach_congr rfl Heap.size_atoms_setAtom
  constructor
  · rw [hreach]
    exact hl.closed.setAtom hv
  · rw [hreach]
    exact hl.agree.setAtom
  · exact hl.frameCount
  · rw [Heap.size_atoms_setAtom]
    exact hl.atomCount
  · intro f hf
    rw [hreach] at hf
    exact hl.frames hf
  · intro other hother
    rw [hreach] at hother
    have hne : other ≠ id := by
      rintro rfl
      exact hother hid
    rw [Heap.atoms_setAtom_of_ne hne, Heap.atoms_setAtom_of_ne hne]
    exact hl.atoms hother
  · exact hl.parents
  · exact hl.nested

theorem Linked.addIdentity (hl : c.Linked h h') : c.Linked h.addIdentity.2 h'.addIdentity.2 where
  closed := ⟨hl.closed.parent, hl.closed.bound, hl.closed.content⟩
  agree := ⟨hl.agree.frames, hl.agree.atoms, hl.agree.frameCount, hl.agree.atomCount,
    congrArg (· + 1) hl.agree.identities⟩
  frameCount := hl.frameCount
  atomCount := hl.atomCount
  frames := hl.frames
  atoms := hl.atoms
  parents := hl.parents
  nested := hl.nested

theorem reach_addFrame_sub (h : Heap) (parent : Option FrameId) (bindings : Table Value) :
    (c.reach h).Sub (c.reach (h.addFrame parent bindings).2) := by
  refine reach_sub ?_ (Nat.le_refl _)
  rw [Heap.size_frames_addFrame]
  exact Nat.le_succ _

theorem reach_addAtom_sub (h : Heap) (v : Value) : (c.reach h).Sub (c.reach (h.addAtom v).2) := by
  refine reach_sub (Nat.le_refl _) ?_
  rw [Heap.size_atoms_addAtom]
  exact Nat.le_succ _

theorem Linked.addFrame {bindings : Table Value} (hl : c.Linked h h') (hf : c.reach h (.scope f))
    (hb : (c.reach h).AdmitsEntries bindings) :
    c.Linked (h.addFrame (some f) bindings).2 (h'.addFrame (some f) bindings).2 := by
  have hsub : (c.reach h).Sub (c.reach (h.addFrame (some f) bindings).2) := reach_addFrame_sub h _ _
  -- The new frame is the only one that the reach gains.
  have hold : ∀ g, c.reach (h.addFrame (some f) bindings).2 (.scope g) → g ≠ h.frames.size →
      c.reach h (.scope g) := by
    rintro g (hstart | ⟨hlow, hhigh⟩) hne
    · exact .inl hstart
    · rw [Heap.size_frames_addFrame] at hhigh
      exact .inr ⟨hlow, Nat.lt_of_le_of_ne (Nat.le_of_lt_succ hhigh) hne⟩
  have hframes' : ∀ g, (h'.addFrame (some f) bindings).2.frames[g]? =
      if g = h.frames.size then some ⟨bindings, some f⟩ else h'.frames[g]? :=
    fun g => hl.agree.frameCount ▸ Heap.frames_addFrame g
  constructor
  · constructor
    · intro g frame outer hg hframe hparent
      rw [Heap.frames_addFrame] at hframe
      split at hframe
      · cases hframe
        cases hparent
        exact hsub.refs hf
      · next hne => exact hsub.refs (hl.closed.parent (hold g hg hne) hframe hparent)
    · intro g frame hg hframe
      rw [Heap.frames_addFrame] at hframe
      split at hframe
      · cases hframe
        exact hb.mono hsub
      · next hne => exact (hl.closed.bound (hold g hg hne) hframe).mono hsub
    · intro id v hid hv
      exact (hl.closed.content hid hv).mono hsub
  · constructor
    · intro g hg
      rw [hframes', Heap.frames_addFrame]
      split
      · rfl
      · next hne => exact hl.agree.frames (hold g hg hne)
    · exact fun hid => hl.agree.atoms hid
    · rw [Heap.size_frames_addFrame, Heap.size_frames_addFrame, hl.agree.frameCount]
    · exact hl.agree.atomCount
    · exact hl.agree.identities
  · rw [Heap.size_frames_addFrame]
    exact Nat.le_succ_of_le hl.frameCount
  · exact hl.atomCount
  · intro g hg
    have hne : g ≠ h.frames.size := by
      rintro rfl
      refine hg (.inr ⟨hl.frameCount, ?_⟩)
      rw [Heap.size_frames_addFrame]
      exact Nat.lt_succ_self _
    rw [hframes', Heap.frames_addFrame, if_neg hne, if_neg hne]
    exact hl.frames fun hopen => hg (hsub.opens hopen)
  · exact fun hid => hl.atoms fun hatom => hid (hsub.refs hatom)
  · exact hl.parents.trans (.addFrame _ _ _)
  · intro g hlow hhigh
    rw [Heap.size_frames_addFrame] at hhigh
    by_cases hg : g = h.frames.size
    · subst hg
      exact ⟨_, f, Heap.frames_addFrame_size, rfl, hf⟩
    · have hlt : g < h.frames.size := Nat.lt_of_le_of_ne (Nat.le_of_lt_succ hhigh) hg
      exact (hl.nested hlow hlt).later (.addFrame _ _ _)

theorem Linked.addAtom (hl : c.Linked h h') (hv : (c.reach h).Admits v) :
    c.Linked (h.addAtom v).2 (h'.addAtom v).2 := by
  have hsub : (c.reach h).Sub (c.reach (h.addAtom v).2) := reach_addAtom_sub h v
  have hold : ∀ id, c.reach (h.addAtom v).2 (.atom id) → id ≠ h.atoms.size →
      c.reach h (.atom id) := by
    rintro id (hstart | ⟨hlow, hhigh⟩) hne
    · exact .inl hstart
    · rw [Heap.size_atoms_addAtom] at hhigh
      exact .inr ⟨hlow, Nat.lt_of_le_of_ne (Nat.le_of_lt_succ hhigh) hne⟩
  have hatoms' : ∀ id, (h'.addAtom v).2.atoms[id]? =
      if id = h.atoms.size then some v else h'.atoms[id]? :=
    fun id => hl.agree.atomCount ▸ Heap.atoms_addAtom id
  constructor
  · constructor
    · intro g frame outer hg hframe hparent
      exact hsub.refs (hl.closed.parent hg hframe hparent)
    · intro g frame hg hframe
      exact (hl.closed.bound hg hframe).mono hsub
    · intro id w hid hw
      rw [Heap.atoms_addAtom] at hw
      split at hw
      · cases hw
        exact hv.mono hsub
      · next hne => exact (hl.closed.content (hold id hid hne) hw).mono hsub
  · constructor
    · exact fun hg => hl.agree.frames hg
    · intro id hid
      rw [hatoms', Heap.atoms_addAtom]
      split
      · rfl
      · next hne => exact hl.agree.atoms (hold id hid hne)
    · exact hl.agree.frameCount
    · rw [Heap.size_atoms_addAtom, Heap.size_atoms_addAtom, hl.agree.atomCount]
    · exact hl.agree.identities
  · exact hl.frameCount
  · rw [Heap.size_atoms_addAtom]
    exact Nat.le_succ_of_le hl.atomCount
  · exact fun hg => hl.frames fun hopen => hg (hsub.opens hopen)
  · intro id hid
    have hne : id ≠ h.atoms.size := by
      rintro rfl
      refine hid (.inr ⟨hl.atomCount, ?_⟩)
      rw [Heap.size_atoms_addAtom]
      exact Nat.lt_succ_self _
    rw [hatoms', Heap.atoms_addAtom, if_neg hne, if_neg hne]
    exact hl.atoms fun hatom => hid (hsub.refs hatom)
  · exact hl.parents
  · exact hl.nested

end

/-! ### States and outcomes -/

/-- Whether two states can be come to by the two runs. The same was written in both. -/
structure Related (c : Confinement) (s s' : State) : Prop where
  heap : c.Linked s.heap s'.heap
  depth : s'.gauge.depth = s.gauge.depth
  limit : s'.gauge.limit = s.gauge.limit
  input : s'.console.input = s.console.input
  isClosed : s'.console.isClosed = s.console.isClosed
  output : ∃ text, s.console.output = c.first.console.output ++ text ∧
    s'.console.output = c.second.console.output ++ text
  disk : s'.disk = s.disk
  clock : s'.clock = s.clock

theorem related_start (hclosed : c.first.heap.Closed c.start)
    (hagree : c.first.heap.Agree c.start c.second.heap)
    (hdepth : c.second.gauge.depth = c.first.gauge.depth)
    (hlimit : c.second.gauge.limit = c.first.gauge.limit)
    (hinput : c.second.console.input = c.first.console.input)
    (hisClosed : c.second.console.isClosed = c.first.console.isClosed)
    (hdisk : c.second.disk = c.first.disk) (hclock : c.second.clock = c.first.clock) :
    c.Related c.first c.second := by
  have hlinked : c.Linked c.first.heap c.second.heap := by
    constructor
    · rwa [reach_first]
    · rwa [reach_first]
    · exact Nat.le_refl _
    · exact Nat.le_refl _
    · exact fun _ => ⟨rfl, rfl⟩
    · exact fun _ => ⟨rfl, rfl⟩
    · exact .refl _
    · exact fun hlow hhigh => absurd hhigh (Nat.not_lt_of_le hlow)
  exact ⟨hlinked, hdepth, hlimit, hinput, hisClosed,
    ⟨"", (String.append_empty).symm, (String.append_empty).symm⟩, hdisk, hclock⟩

/-- Whether two outcomes are those of the two runs from a heap on: they are the same, and what is
given or thrown is within the reach. -/
inductive Same (c : Confinement) {α : Type} (V : Reach → α → Prop) (h : Heap) :
    Outcome α → Outcome α → Prop where
  | value {a : α} {s s' : State} (hsub : (c.reach h).Sub (c.reach s.heap)) (hr : c.Related s s')
    (ha : V (c.reach s.heap) a) : Same c V h (.value a s) (.value a s')
  | error {e : Error} {s s' : State} (hsub : (c.reach h).Sub (c.reach s.heap))
    (hr : c.Related s s') (he : (c.reach s.heap).AdmitsError e) :
    Same c V h (.error e s) (.error e s')
  | halt {cause : Halt} {s s' : State} (hsub : (c.reach h).Sub (c.reach s.heap))
    (hr : c.Related s s') : Same c V h (.halt cause s) (.halt cause s')

variable {α β : Type} {V : Reach → α → Prop} {U : Reach → β → Prop} {P : Reach}

theorem Same.later {h₁ h₂ : Heap} {o o' : Outcome α} (h : c.Same V h₂ o o')
    (hsub : (c.reach h₁).Sub (c.reach h₂)) : c.Same V h₁ o o' := by
  cases h with
  | value hs hr ha => exact .value (hsub.trans hs) hr ha
  | error hs hr he => exact .error (hsub.trans hs) hr he
  | halt hs hr => exact .halt (hsub.trans hs) hr

/-- Whether the two runs of an evaluation are the same, wherever a reach may be reached. -/
def Keeps (c : Confinement) (P : Reach) (V : Reach → α → Prop) (m : Eval α) : Prop :=
  ∀ s s', P.Sub (c.reach s.heap) → c.Related s s' → c.Same V s.heap (m s) (m s')

/-! ### Rules -/

section

variable {m : Eval α} {k : α → Eval β}

theorem Keeps.sub {P' : Reach} (h : c.Keeps P V m) (hsub : P.Sub P') : c.Keeps P' V m :=
  fun s s' hP hr => h s s' (hsub.trans hP) hr

theorem Keeps.pure [Reach.Persists V] {a : α} (h : V P a) : c.Keeps P V (pure a) :=
  fun _ _ hP hr => .value (.refl _) hr (Reach.Persists.mono hP h)

theorem Keeps.raise {e : Error} (h : P.AdmitsError e) : c.Keeps P V (Eval.raise e) :=
  fun _ _ hP hr => .error (.refl _) hr (Reach.Admits.mono h hP)

theorem Keeps.fail (fault : Fault) : c.Keeps P V (Eval.fail fault) :=
  .raise (Reach.admits_of_refs rfl)

theorem Keeps.halt (cause : Halt) : c.Keeps P V (Eval.halt cause) :=
  fun _ _ _ hr => .halt (.refl _) hr

theorem Keeps.bind (h : c.Keeps P V m)
    (hk : ∀ P' a, P.Sub P' → V P' a → c.Keeps P' U (k a)) : c.Keeps P U (m >>= k) := by
  intro s s' hP hr
  have hm := h s s' hP hr
  rw [Eval.bind_apply, Eval.bind_apply]
  generalize m s = o at hm ⊢
  generalize m s' = o' at hm ⊢
  cases hm with
  -- The second part starts behind the first, where more may be reached.
  | value hsub hr₁ ha => exact (hk _ _ (hP.trans hsub) ha _ _ (.refl _) hr₁).later hsub
  | error hsub hr₁ he => exact .error hsub hr₁ he
  | halt hsub hr₁ => exact .halt hsub hr₁

theorem Keeps.ofExcept [Reach.Persists V] {r : Except Fault α} (h : Returns (V P) r) :
    c.Keeps P V (Eval.ofExcept r) := by
  cases r with
  | ok a => exact .pure (h a rfl)
  | error fault => exact .fail fault

/-- An evaluation behind a computation without effects. -/
theorem Keeps.checked {r : Except Fault α} {V : α → Prop} (h : Returns V r)
    (hk : ∀ a, V a → c.Keeps P U (k a)) : c.Keeps P U (Eval.ofExcept r >>= k) := by
  cases r with
  | ok a => exact hk a (h a rfl)
  | error fault => exact fun _ _ _ hr => .error (.refl _) hr (Reach.admits_of_refs rfl)

theorem Keeps.attempt (h : c.Keeps P V m) : c.Keeps P (Reach.AdmitsResult V) m.attempt := by
  intro s s' hP hr
  have hm := h s s' hP hr
  unfold Eval.attempt
  generalize m s = o at hm ⊢
  generalize m s' = o' at hm ⊢
  cases hm with
  | value hsub hr₁ ha => exact .value hsub hr₁ ha
  | error hsub hr₁ he => exact .value hsub hr₁ he
  | halt hsub hr₁ => exact .halt hsub hr₁

theorem Related.regauge {s s' : State} {g g' : Gauge} (hr : c.Related s s')
    (hdepth : g'.depth = g.depth) (hlimit : g'.limit = g.limit) :
    c.Related { s with gauge := g } { s' with gauge := g' } :=
  ⟨hr.heap, hdepth, hlimit, hr.input, hr.isClosed, hr.output, hr.disk, hr.clock⟩

theorem Keeps.deeper (h : c.Keeps P V m) : c.Keeps P V m.deeper := by
  intro s s' hP hr
  unfold Eval.deeper
  rw [hr.depth, hr.limit]
  split
  · have henter : c.Related { s with gauge := s.gauge.enter } { s' with gauge := s'.gauge.enter } :=
      hr.regauge (congrArg (· + 1) hr.depth) hr.limit
    have hm := h { s with gauge := s.gauge.enter } { s' with gauge := s'.gauge.enter } hP henter
    generalize m { s with gauge := s.gauge.enter } = o at hm ⊢
    generalize m { s' with gauge := s'.gauge.enter } = o' at hm ⊢
    have hleave : ∀ {t t' : State}, c.Related t t' →
        c.Related { t with gauge := t.gauge.leave } { t' with gauge := t'.gauge.leave } :=
      fun ht => ht.regauge (congrArg (· - 1) ht.depth) ht.limit
    cases hm with
    | value hsub hr₁ ha => exact .value hsub (hleave hr₁) ha
    | error hsub hr₁ he => exact .error hsub (hleave hr₁) he
    | halt hsub hr₁ => exact .halt hsub hr₁
  · exact .error (.refl _) (hr.regauge hr.depth hr.limit) (Reach.admits_of_refs rfl)

theorem Keeps.forEach {visit : α → Eval β} [Reach.Persists U] {as : List α}
    (h : ∀ a ∈ as, c.Keeps P U (visit a)) :
    c.Keeps P (fun P bs => ∀ b ∈ bs, U P b) (Eval.forEach visit as) := by
  induction as generalizing P with
  | nil => exact .pure nofun
  | cons a rest ih =>
    refine (h a List.mem_cons_self).bind fun P₁ b hP₁ hb => ?_
    have hrest := ih fun a' ha' => (h a' (List.mem_cons_of_mem a ha')).sub hP₁
    refine hrest.bind fun P₂ bs hP₂ hbs => .pure ?_
    exact List.forall_mem_cons.mpr ⟨Reach.Persists.mono hP₂ hb, hbs⟩

/-- An evaluation that goes on in the same way from linked heaps may read the heap. -/
theorem Keeps.readHeap {k : Heap → Eval β}
    (h : ∀ heap heap', c.Linked heap heap' → P.Sub (c.reach heap) →
      k heap' = k heap ∧ c.Keeps (c.reach heap) U (k heap)) :
    c.Keeps P U (Eval.heap >>= k) := by
  intro s s' hP hr
  obtain ⟨heq, hk⟩ := h s.heap s'.heap hr.heap hP
  have hkeeps := hk s s' (.refl _) hr
  change c.Same U s.heap (k s.heap s) (k s'.heap s')
  rw [heq]
  exact hkeeps

theorem Keeps.onHeap {change : Heap → α × Heap}
    (h : ∀ heap heap', c.Linked heap heap' → P.Sub (c.reach heap) →
      (change heap').1 = (change heap).1 ∧ (c.reach heap).Sub (c.reach (change heap).2) ∧
        c.Linked (change heap).2 (change heap').2 ∧ V (c.reach (change heap).2) (change heap).1) :
    c.Keeps P V (Eval.onHeap change) := by
  intro s s' hP hr
  obtain ⟨heq, hsub, hl, hv⟩ := h s.heap s'.heap hr.heap hP
  change c.Same V s.heap
    (.value (change s.heap).1 { s with heap := (change s.heap).2 })
    (.value (change s'.heap).1 { s' with heap := (change s'.heap).2 })
  rw [heq]
  exact .value hsub ⟨hl, hr.depth, hr.limit, hr.input, hr.isClosed, hr.output, hr.disk, hr.clock⟩ hv

theorem Keeps.write (text : String) :
    c.Keeps P Reach.Anything (Eval.onConsole fun console => console.write text) := by
  intro s s' _ hr
  obtain ⟨written, hout, hout'⟩ := hr.output
  refine .value (.refl _) ⟨hr.heap, hr.depth, hr.limit, hr.input, hr.isClosed, ?_, hr.disk,
    hr.clock⟩ trivial
  refine ⟨written ++ text, ?_, ?_⟩
  · change s.console.output ++ text = _
    rw [hout, String.append_assoc]
  · change s'.console.output ++ text = _
    rw [hout', String.append_assoc]

end

end Confinement

end SmallLisp
