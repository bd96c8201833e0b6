import SmallLisp.Heap

/-!
# Frames

Look-up goes from a frame outwards, to older frames, so it sees nothing of frames that are added or
of what is set in them. From a new frame it finds what the frame binds, and of the other symbols
what is found from the frame around it.
-/

namespace SmallLisp.Heap

variable {h : Heap} {f : FrameId} {x : Symbol} {parent : Option FrameId} {bindings : Table Value}

@[simp] theorem size_frames_addFrame :
    (h.addFrame parent bindings).2.frames.size = h.frames.size + 1 := Array.size_push _

theorem frames_addFrame (g : FrameId) : (h.addFrame parent bindings).2.frames[g]? =
    if g = h.frames.size then some ⟨bindings, parent⟩ else h.frames[g]? := Array.getElem?_push

theorem frames_addFrame_of_lt (hf : f < h.frames.size) :
    (h.addFrame parent bindings).2.frames[f]? = h.frames[f]? := by
  rw [frames_addFrame, if_neg (Nat.ne_of_lt hf)]

theorem frames_addFrame_size :
    (h.addFrame parent bindings).2.frames[h.frames.size]? = some ⟨bindings, parent⟩ := by
  rw [frames_addFrame, if_pos rfl]

/-! ### Looking up -/

theorem resolve?_congr {h h' : Heap} (hframes : ∀ g ≤ f, h'.frames[g]? = h.frames[g]?) :
    h'.resolve? f x = h.resolve? f x := by
  induction f using Nat.strongRecOn with
  | ind f ih =>
    unfold resolve?
    rw [hframes f (Nat.le_refl f)]
    cases h.frames[f]? with
    | none => rfl
    | some frame =>
      dsimp only
      cases frame.bindings.get? x.name with
      | some v => rfl
      | none =>
        cases frame.parent with
        | none => rfl
        | some outer =>
          dsimp only
          by_cases houter : outer < f
          · rw [if_pos houter, if_pos houter]
            refine ih outer houter fun g hg => hframes g ?_
            exact Nat.le_of_lt (Nat.lt_of_le_of_lt hg houter)
          · rw [if_neg houter, if_neg houter]

theorem lookup?_congr {h h' : Heap} (hframes : ∀ g ≤ f, h'.frames[g]? = h.frames[g]?) :
    h'.lookup? f x = h.lookup? f x := by
  unfold lookup?
  rw [resolve?_congr hframes]

theorem lookup?_of_bound {v : Value} (hframe : h.frames[f]? = some ⟨bindings, parent⟩)
    (hx : bindings.get? x.name = some v) : h.lookup? f x = some v := by
  unfold lookup? resolve?
  rw [hframe]
  dsimp only
  rw [hx]
  rfl

theorem lookup?_of_outer {outer : FrameId} (hframe : h.frames[f]? = some ⟨bindings, some outer⟩)
    (houter : outer < f) (hx : bindings.get? x.name = none) :
    h.lookup? f x = h.lookup? outer x := by
  conv => lhs; unfold lookup? resolve?
  rw [hframe]
  dsimp only
  rw [hx]
  dsimp only
  rw [if_pos houter]
  rfl

theorem lookup?_addFrame_of_lt (hf : f < h.frames.size) :
    (h.addFrame parent bindings).2.lookup? f x = h.lookup? f x :=
  lookup?_congr fun _ hg => frames_addFrame_of_lt (Nat.lt_of_le_of_lt hg hf)

theorem lookup?_newFrame_bound {v : Value} (hx : bindings.get? x.name = some v) :
    (h.addFrame parent bindings).2.lookup? h.frames.size x = some v :=
  lookup?_of_bound frames_addFrame_size hx

theorem lookup?_newFrame_outer (hf : f < h.frames.size) (hx : bindings.get? x.name = none) :
    (h.addFrame (some f) bindings).2.lookup? h.frames.size x = h.lookup? f x :=
  (lookup?_of_outer frames_addFrame_size hf hx).trans (lookup?_addFrame_of_lt hf)

theorem lt_size_of_lookup? {v : Value} (hx : h.lookup? f x = some v) : f < h.frames.size := by
  by_cases hf : f < h.frames.size
  · exact hf
  · have hnone : h.frames[f]? = none := Array.getElem?_eq_none (Nat.le_of_not_lt hf)
    unfold lookup? resolve? at hx
    rw [hnone] at hx
    cases hx

/-! ### Setting -/

variable {v : Value}

@[simp] theorem size_frames_set : (h.set f x v).frames.size = h.frames.size := by
  simp [Heap.set, Heap.updateFrame]

theorem frames_set_of_ne {g : FrameId} (hg : g ≠ f) : (h.set f x v).frames[g]? = h.frames[g]? := by
  simp only [Heap.set, Heap.updateFrame, Array.getElem?_modify]
  rw [if_neg (Ne.symm hg)]

theorem frames_set_self :
    (h.set f x v).frames[f]? = h.frames[f]?.map fun frame =>
      { frame with bindings := frame.bindings.insert x.name v } := by
  simp [Heap.set, Heap.updateFrame, Array.getElem?_modify]

/-- What is set in a new frame may as well be bound in it from the start. -/
theorem set_newFrame : (h.addFrame (some f) []).2.set h.frames.size x v =
    (h.addFrame (some f) [(x.name, v)]).2 := by
  have hframes : ((h.addFrame (some f) []).2.set h.frames.size x v).frames =
      (h.addFrame (some f) [(x.name, v)]).2.frames := by
    refine Array.ext_getElem? fun g => ?_
    by_cases hg : g = h.frames.size
    · subst hg
      rw [frames_set_self, frames_addFrame_size, frames_addFrame_size]
      rfl
    · rw [frames_set_of_ne hg, frames_addFrame, frames_addFrame, if_neg hg, if_neg hg]
  exact congrArg (fun frames => { h with frames := frames }) hframes

/-- Setting one symbol leaves the others as they are, from every frame. -/
theorem lookup?_set_of_ne {g : FrameId} {y : Symbol} (hx : x ≠ y) :
    (h.set g y v).lookup? f x = h.lookup? f x := by
  have hname : x.name ≠ y.name := fun heq => hx (congrArg Symbol.mk heq)
  have hfound : ∀ table : Table Value, (table.insert y.name v).get? x.name = table.get? x.name :=
    fun table => (Table.get?_insert table y.name x.name v).trans (if_neg hname)
  unfold lookup?
  congr 1
  induction f using Nat.strongRecOn with
  | ind f ih =>
    -- The frame itself binds the symbol to the same value or to none, and has the same parent.
    have hframe : (h.set g y v).frames[f]? = h.frames[f]? ∨
        (h.set g y v).frames[f]? = h.frames[f]?.map fun frame =>
          { frame with bindings := frame.bindings.insert y.name v } := by
      by_cases hf : f = g
      · subst hf
        exact .inr frames_set_self
      · exact .inl (frames_set_of_ne hf)
    unfold resolve?
    cases hold : h.frames[f]? with
    | none =>
      have hnone : (h.set g y v).frames[f]? = none := by
        rcases hframe with h | h
        · exact h.trans hold
        · rw [h, hold]
          rfl
      rw [hnone]
    | some frame =>
      obtain ⟨table, hnew, hsame⟩ : ∃ table, (h.set g y v).frames[f]? = some ⟨table, frame.parent⟩ ∧
          table.get? x.name = frame.bindings.get? x.name := by
        rcases hframe with h | h
        · exact ⟨frame.bindings, h.trans hold, rfl⟩
        · exact ⟨frame.bindings.insert y.name v, by rw [h, hold]; rfl, hfound _⟩
      rw [hnew]
      dsimp only
      rw [hsame]
      cases frame.bindings.get? x.name with
      | some v => rfl
      | none =>
        cases frame.parent with
        | none => rfl
        | some outer =>
          dsimp only
          by_cases houter : outer < f
          · rw [if_pos houter, if_pos houter]
            exact ih outer houter
          · rw [if_neg houter, if_neg houter]

/-! ### Growing -/

/-- Whether a heap has grown out of another one: the frames of that one are as they were. -/
structure Grows (h h' : Heap) : Prop where
  size : h.frames.size ≤ h'.frames.size
  frames : ∀ f < h.frames.size, h'.frames[f]? = h.frames[f]?

namespace Grows

variable {h' h'' : Heap}

theorem refl (h : Heap) : h.Grows h := ⟨Nat.le_refl _, fun _ _ => rfl⟩

theorem trans (hg : h.Grows h') (hg' : h'.Grows h'') : h.Grows h'' where
  size := Nat.le_trans hg.size hg'.size
  frames f hf := (hg'.frames f (Nat.lt_of_lt_of_le hf hg.size)).trans (hg.frames f hf)

theorem addFrame (hg : h.Grows h') : h.Grows (h'.addFrame parent bindings).2 where
  size := by
    rw [size_frames_addFrame]
    exact Nat.le_succ_of_le hg.size
  frames f hf :=
    (frames_addFrame_of_lt (Nat.lt_of_lt_of_le hf hg.size)).trans (hg.frames f hf)

/-- A new frame may be written. -/
theorem set (hg : h.Grows h') (hf : h.frames.size ≤ f) : h.Grows (h'.set f x v) where
  size := by
    rw [size_frames_set]
    exact hg.size
  frames g hlt := (frames_set_of_ne (Nat.ne_of_lt (Nat.lt_of_lt_of_le hlt hf))).trans
    (hg.frames g hlt)

theorem of_frames (hg : h.Grows h') (hsame : h''.frames = h'.frames) : h.Grows h'' := by
  constructor
  · rw [hsame]
    exact hg.size
  · rw [hsame]
    exact hg.frames

theorem lookup? (hg : h.Grows h') (hf : f < h.frames.size) : h'.lookup? f x = h.lookup? f x :=
  lookup?_congr fun g hle => hg.frames g (Nat.lt_of_le_of_lt hle hf)

end Grows

end SmallLisp.Heap
