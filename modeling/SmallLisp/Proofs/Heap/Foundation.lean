import SmallLisp.Proofs.Heap.Reach

/-!
# Well-founded heaps

A heap is well founded if every frame is younger than its parent and everything that is bound or
stored leads to frames and atoms that exist. The walk from a frame outwards then comes to an end,
without a look at the ages of frames, and finds what looking up finds. Frames keep their parents
whatever is done with a heap. Adding and writing keep it well founded where only what exists is
added and written.
-/

namespace SmallLisp.Heap

variable {h h' h'' : Heap} {f : FrameId} {x : Symbol} {parent : Option FrameId}
  {bindings : Table Value} {change : Table Value → Table Value}

theorem frames_updateFrame (g : FrameId) : (h.updateFrame f change).frames[g]? =
    if f = g then h.frames[g]?.map fun frame => { frame with bindings := change frame.bindings }
    else h.frames[g]? := Array.getElem?_modify

@[simp] theorem size_frames_updateFrame :
    (h.updateFrame f change).frames.size = h.frames.size := Array.size_modify

/-! ### Parents -/

/-- Whether the frames of a heap are still there in another one, with the parents that they had. -/
def KeepsParents (h h' : Heap) : Prop := ∀ (f : FrameId) (frame : Frame),
  h.frames[f]? = some frame → ∃ later : Frame, h'.frames[f]? = some later ∧
    later.parent = frame.parent

namespace KeepsParents

theorem refl (h : Heap) : h.KeepsParents h := fun _ frame hframe => ⟨frame, hframe, rfl⟩

theorem trans (hk : h.KeepsParents h') (hk' : h'.KeepsParents h'') : h.KeepsParents h'' := by
  intro f frame hframe
  obtain ⟨middle, hmiddle, hparent⟩ := hk f frame hframe
  obtain ⟨later, hlater, hparent'⟩ := hk' f middle hmiddle
  exact ⟨later, hlater, hparent'.trans hparent⟩

theorem of_frames (hsame : h'.frames = h.frames) : h.KeepsParents h' := by
  intro f frame hframe
  exact ⟨frame, hsame ▸ hframe, rfl⟩

theorem updateFrame (h : Heap) (f : FrameId) (change : Table Value → Table Value) :
    h.KeepsParents (h.updateFrame f change) := by
  intro g frame hframe
  rw [frames_updateFrame, hframe]
  by_cases hg : f = g
  · exact ⟨_, if_pos hg, rfl⟩
  · exact ⟨frame, if_neg hg, rfl⟩

theorem addFrame (h : Heap) (parent : Option FrameId) (bindings : Table Value) :
    h.KeepsParents (h.addFrame parent bindings).2 := by
  intro f frame hframe
  have hlt : f < h.frames.size := (Array.getElem?_eq_some_iff.mp hframe).1
  exact ⟨frame, (frames_addFrame_of_lt hlt).trans hframe, rfl⟩

theorem lt_size (hk : h.KeepsParents h') (hf : f < h.frames.size) : f < h'.frames.size := by
  obtain ⟨_, hlater, _⟩ := hk f _ (Array.getElem?_eq_getElem hf)
  exact (Array.getElem?_eq_some_iff.mp hlater).1

theorem size_le (hk : h.KeepsParents h') : h.frames.size ≤ h'.frames.size :=
  Nat.le_of_not_lt fun hlt => Nat.lt_irrefl _ (hk.lt_size hlt)

end KeepsParents

/-! ### What exists -/

/-- The references to what there is in a heap. -/
def present (h : Heap) : Reach where
  holds
    | .scope f => f < h.frames.size
    | .root f => f < h.frames.size
    | .atom id => id < h.atoms.size
  opens f := f < h.frames.size
  opens_of_root := id
  scope_of_opens := id

theorem present_sub (hframes : h.frames.size ≤ h'.frames.size)
    (hatoms : h.atoms.size ≤ h'.atoms.size) : h.present.Sub h'.present where
  refs {r} hr := by
    cases r with
    | atom id => exact Nat.lt_of_lt_of_le hr hatoms
    | _ => exact Nat.lt_of_lt_of_le hr hframes
  opens hf := Nat.lt_of_lt_of_le hf hframes

/-- Whether every frame is younger than its parent, and everything that is bound in a frame or stored
in an atom leads to what exists. -/
structure Founded (h : Heap) : Prop where
  older : ∀ {f : FrameId} {frame : Frame} {outer : FrameId}, h.frames[f]? = some frame →
    frame.parent = some outer → outer < f
  bound : ∀ {f : FrameId} {frame : Frame}, h.frames[f]? = some frame →
    h.present.AdmitsEntries frame.bindings
  stored : ∀ {id : AtomId} {v : Value}, h.atoms[id]? = some v → h.present.Admits v

/-- Whether a form may be evaluated in a frame: the frame and everything that the form leads to exist
in a well-founded heap. -/
structure Supports (h : Heap) (form : Value) (f : FrameId) : Prop where
  founded : h.Founded
  frame : f < h.frames.size
  form : h.present.Admits form

theorem Founded.closed (hf : h.Founded) : h.Closed h.present where
  parent := by
    intro f frame outer hlt hframe hparent
    exact Nat.lt_trans (hf.older hframe hparent) hlt
  bound _ hframe := hf.bound hframe
  content _ hv := hf.stored hv

/-! ### Walking outwards -/

/-- Whether the walk from a frame outwards goes over frames that exist and comes to one without a
parent. -/
inductive Rooted (h : Heap) : FrameId → Prop where
  | outermost {f : FrameId} {frame : Frame} (hframe : h.frames[f]? = some frame)
      (hparent : frame.parent = none) : Rooted h f
  | inside {f outer : FrameId} {frame : Frame} (hframe : h.frames[f]? = some frame)
      (hparent : frame.parent = some outer) (houter : Rooted h outer) : Rooted h f

/-- The frame that binds a symbol, looked for on the walk from a frame outwards in `n` steps. Ages
play no part. There is no answer where a frame is missing or where the walk goes on. -/
def seek? (h : Heap) (x : Symbol) : Nat → FrameId → Option (Option FrameId)
  | 0, _ => none
  | n + 1, f =>
    match h.frames[f]? with
    | none => none
    | some frame =>
      match frame.bindings.get? x.name with
      | some _ => some (some f)
      | none =>
        match frame.parent with
        | none => some none
        | some outer => h.seek? x n outer

theorem lt_size_of_resolve? {found : FrameId × Value} (hx : h.resolve? f x = some found) :
    found.1 < h.frames.size := by
  induction f using Nat.strongRecOn with
  | ind f ih =>
    unfold resolve? at hx
    cases hframe : h.frames[f]? with
    | none =>
      rw [hframe] at hx
      cases hx
    | some frame =>
      simp only [hframe] at hx
      cases hv : frame.bindings.get? x.name with
      | some v =>
        rw [hv] at hx
        cases hx
        exact (Array.getElem?_eq_some_iff.mp hframe).1
      | none =>
        rw [hv] at hx
        cases hparent : frame.parent with
        | none =>
          rw [hparent] at hx
          cases hx
        | some outer =>
          simp only [hparent] at hx
          split at hx
          · next houter => exact ih outer houter hx
          · cases hx

namespace Founded

theorem rooted (hf : h.Founded) (hlt : f < h.frames.size) : h.Rooted f := by
  induction f using Nat.strongRecOn with
  | ind f ih =>
    have hframe := Array.getElem?_eq_getElem hlt
    cases hparent : h.frames[f].parent with
    | none => exact .outermost hframe hparent
    | some outer =>
      have houter : outer < f := hf.older hframe hparent
      exact .inside hframe hparent (ih outer houter (Nat.lt_trans houter hlt))

/-- Every frame on a walk is older than the one before, so there are no more steps than frames. -/
theorem seek?_of_lt (hf : h.Founded) (hlt : f < h.frames.size) {n : Nat} (hn : f < n) :
    h.seek? x n f = some (h.find? f x) := by
  induction n generalizing f with
  | zero => exact absurd hn (Nat.not_lt_zero f)
  | succ n ih =>
    have hframe := Array.getElem?_eq_getElem hlt
    unfold seek? find? resolve?
    rw [hframe]
    dsimp only
    cases h.frames[f].bindings.get? x.name with
    | some v => rfl
    | none =>
      cases hparent : h.frames[f].parent with
      | none => rfl
      | some outer =>
        have houter : outer < f := hf.older hframe hparent
        dsimp only
        rw [if_pos houter]
        exact ih (Nat.lt_trans houter hlt) (Nat.lt_of_lt_of_le houter (Nat.le_of_lt_succ hn))

end Founded

/-! ### Changes -/

namespace Founded

theorem empty : Heap.empty.Founded where
  older := nofun
  bound := nofun
  stored := nofun

theorem congr (hf : h.Founded) (hframes : h'.frames = h.frames) (hatoms : h'.atoms = h.atoms) :
    h'.Founded := by
  have hsub : h.present.Sub h'.present :=
    present_sub (by simp [hframes]) (by simp [hatoms])
  constructor
  · intro f frame outer hframe
    exact hf.older (hframes ▸ hframe)
  · intro f frame hframe
    exact (hf.bound (hframes ▸ hframe)).mono hsub
  · intro id v hv
    exact (hf.stored (hatoms ▸ hv)).mono hsub

theorem addFrame (hf : h.Founded) (hparent : ∀ outer ∈ parent, outer < h.frames.size)
    (hb : h.present.AdmitsEntries bindings) : (h.addFrame parent bindings).2.Founded := by
  have hsub : h.present.Sub (h.addFrame parent bindings).2.present :=
    present_sub (by simp) (Nat.le_refl _)
  constructor
  · intro f frame outer hframe houter
    rw [frames_addFrame] at hframe
    split at hframe
    · next heq =>
      cases hframe
      exact heq ▸ hparent outer houter
    · exact hf.older hframe houter
  · intro f frame hframe
    rw [frames_addFrame] at hframe
    split at hframe
    · cases hframe
      exact hb.mono hsub
    · exact (hf.bound hframe).mono hsub
  · intro id v hv
    exact (hf.stored hv).mono hsub

theorem updateFrame (hf : h.Founded)
    (hchange : ∀ table, h.present.AdmitsEntries table → h.present.AdmitsEntries (change table)) :
    (h.updateFrame f change).Founded := by
  have hsub : h.present.Sub (h.updateFrame f change).present :=
    present_sub (by simp) (Nat.le_refl _)
  -- What a frame was before: its parent is the same, and its bindings are changed or the same.
  have hold : ∀ {g : FrameId} {frame : Frame}, (h.updateFrame f change).frames[g]? = some frame →
      ∃ old : Frame, h.frames[g]? = some old ∧ old.parent = frame.parent ∧
        (frame.bindings = change old.bindings ∨ frame.bindings = old.bindings) := by
    intro g frame hframe
    rw [frames_updateFrame] at hframe
    split at hframe
    · obtain ⟨old, hold, rfl⟩ := Option.map_eq_some_iff.mp hframe
      exact ⟨old, hold, rfl, .inl rfl⟩
    · exact ⟨frame, hframe, rfl, .inr rfl⟩
  constructor
  · intro g frame outer hframe houter
    obtain ⟨old, hold, hparent, _⟩ := hold hframe
    exact hf.older hold (hparent.trans houter)
  · intro g frame hframe
    obtain ⟨old, hold, _, hbindings⟩ := hold hframe
    have hadmits := hf.bound hold
    rcases hbindings with heq | heq
    · exact heq ▸ (hchange _ hadmits).mono hsub
    · exact heq ▸ hadmits.mono hsub
  · intro id v hv
    exact (hf.stored hv).mono hsub

end Founded

/-! ### What comes of a heap -/

/-- Whether a heap can come of another one: it is well founded, and the frames, with their parents,
and the atoms are still there. -/
structure Becomes (h h' : Heap) : Prop where
  founded : h'.Founded
  parents : h.KeepsParents h'
  atoms : h.atoms.size ≤ h'.atoms.size

namespace Becomes

theorem refl (hh : h.Founded) : h.Becomes h := ⟨hh, .refl h, Nat.le_refl _⟩

theorem trans (hb : h.Becomes h') (hb' : h'.Becomes h'') : h.Becomes h'' :=
  ⟨hb'.founded, hb.parents.trans hb'.parents, Nat.le_trans hb.atoms hb'.atoms⟩

theorem congr (hh : h.Founded) (hframes : h'.frames = h.frames) (hatoms : h'.atoms = h.atoms) :
    h.Becomes h' :=
  ⟨hh.congr hframes hatoms, .of_frames hframes, Nat.le_of_eq (congrArg Array.size hatoms).symm⟩

theorem addFrame (hh : h.Founded) (hparent : ∀ outer ∈ parent, outer < h.frames.size)
    (hb : h.present.AdmitsEntries bindings) : h.Becomes (h.addFrame parent bindings).2 :=
  ⟨hh.addFrame hparent hb, .addFrame _ _ _, Nat.le_refl _⟩

theorem updateFrame (hh : h.Founded) (f : FrameId)
    (hchange : ∀ table, h.present.AdmitsEntries table → h.present.AdmitsEntries (change table)) :
    h.Becomes (h.updateFrame f change) :=
  ⟨hh.updateFrame hchange, .updateFrame _ _ _, Nat.le_refl _⟩

theorem present_sub (hb : h.Becomes h') : h.present.Sub h'.present :=
  Heap.present_sub hb.parents.size_le hb.atoms

end Becomes

end SmallLisp.Heap
