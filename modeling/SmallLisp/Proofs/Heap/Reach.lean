import SmallLisp.Proofs.Heap.Frames
import SmallLisp.Proofs.Value.References

/-!
# Heaps within a reach

A heap is closed under a reach if what the reach admits leads on only to what it admits. Two heaps
that agree on a reach under which one of them is closed cannot be told apart from inside of it: the
same symbols are found and the same texts are printed. Whatever is added or set within a reach
keeps both.
-/

namespace SmallLisp

namespace Heap

/-- Whether frames and atoms of a reach lead only to what it admits. -/
structure Closed (P : Reach) (h : Heap) : Prop where
  parent : ∀ {f : FrameId} {frame : Frame} {outer : FrameId}, P (.scope f) →
    h.frames[f]? = some frame → frame.parent = some outer → P (.scope outer)
  bound : ∀ {f : FrameId} {frame : Frame}, P (.scope f) → h.frames[f]? = some frame →
    P.AdmitsEntries frame.bindings
  content : ∀ {id : AtomId} {v : Value}, P (.atom id) → h.atoms[id]? = some v → P.Admits v

/-- Whether two heaps are of one size, and hold the same in the frames and atoms of a reach. -/
structure Agree (P : Reach) (h h' : Heap) : Prop where
  frames : ∀ {f : FrameId}, P (.scope f) → h'.frames[f]? = h.frames[f]?
  atoms : ∀ {id : AtomId}, P (.atom id) → h'.atoms[id]? = h.atoms[id]?
  frameCount : h'.frames.size = h.frames.size
  atomCount : h'.atoms.size = h.atoms.size
  identities : h'.identities = h.identities

theorem Agree.refl (P : Reach) (h : Heap) : Agree P h h :=
  ⟨fun _ => rfl, fun _ => rfl, rfl, rfl, rfl⟩

variable {P : Reach} {h h' : Heap} {f : FrameId} {x : Symbol} {id : AtomId} {v : Value}

/-! ### Looking up -/

theorem Agree.resolve? (hagree : Agree P h h') (hclosed : h.Closed P) (hf : P (.scope f)) :
    h'.resolve? f x = h.resolve? f x := by
  induction f using Nat.strongRecOn with
  | ind f ih =>
    unfold Heap.resolve?
    rw [hagree.frames hf]
    cases hframe : h.frames[f]? with
    | none => rfl
    | some frame =>
      dsimp only
      cases frame.bindings.get? x.name with
      | some v => rfl
      | none =>
        cases hparent : frame.parent with
        | none => rfl
        | some outer =>
          dsimp only
          split
          · next houter => exact ih outer houter (hclosed.parent hf hframe hparent)
          · rfl

theorem Agree.lookup? (hagree : Agree P h h') (hclosed : h.Closed P) (hf : P (.scope f)) :
    h'.lookup? f x = h.lookup? f x := by
  unfold Heap.lookup?
  rw [hagree.resolve? hclosed hf]

theorem Closed.resolve? (hclosed : h.Closed P) (hf : P (.scope f)) {found : FrameId × Value}
    (hx : h.resolve? f x = some found) : P.Admits found.2 := by
  induction f using Nat.strongRecOn with
  | ind f ih =>
    unfold Heap.resolve? at hx
    cases hframe : h.frames[f]? with
    | none =>
      rw [hframe] at hx
      cases hx
    | some frame =>
      simp only [hframe] at hx
      cases hv : frame.bindings.get? x.name with
      | some v =>
        rw [hv] at hx
        cases hx
        exact (hclosed.bound hf hframe).get? hv
      | none =>
        rw [hv] at hx
        cases hparent : frame.parent with
        | none =>
          rw [hparent] at hx
          cases hx
        | some outer =>
          simp only [hparent] at hx
          split at hx
          · next houter => exact ih outer houter (hclosed.parent hf hframe hparent) hx
          · cases hx

theorem Closed.lookup? (hclosed : h.Closed P) (hf : P (.scope f)) (hx : h.lookup? f x = some v) :
    P.Admits v := by
  obtain ⟨found, hfound, rfl⟩ := Option.map_eq_some_iff.mp hx
  exact hclosed.resolve? hf hfound

theorem Agree.getD (hagree : Agree P h h') (hid : P (.atom id)) :
    h'.atoms.getD id .nil = h.atoms.getD id .nil := by
  rw [Array.getD_eq_getD_getElem?, Array.getD_eq_getD_getElem?, hagree.atoms hid]

theorem Closed.getD (hclosed : h.Closed P) (hid : P (.atom id)) :
    P.Admits (h.atoms.getD id .nil) := by
  rw [Array.getD_eq_getD_getElem?]
  cases hv : h.atoms[id]? with
  | none => exact Reach.admits_nil
  | some v => exact hclosed.content hid hv

/-! ### Printing -/

theorem Agree.atomText (hagree : Agree P h h') (hclosed : h.Closed P) (n : Nat)
    (hid : P (.atom id)) : h'.atomText n id = h.atomText n id := by
  induction n generalizing id with
  | zero => rfl
  | succ n ih =>
    rw [Heap.atomText, Heap.atomText, hagree.atoms hid]
    cases hv : h.atoms[id]? with
    | none => rfl
    | some v => exact Reach.render_agree (fun _ => ih) true v (hclosed.content hid hv)

theorem Agree.print (hagree : Agree P h h') (hclosed : h.Closed P) (readable : Bool)
    (hv : P.Admits v) : h'.print readable v = h.print readable v := by
  unfold Heap.print
  rw [hagree.atomCount]
  exact Reach.render_agree (fun _ => hagree.atomText hclosed _) readable v hv

theorem Agree.printList (hagree : Agree P h h') (hclosed : h.Closed P) (readable : Bool)
    (separator : String) {vs : List Value} (hvs : P.AdmitsAll vs) :
    h'.printList readable separator vs = h.printList readable separator vs := by
  unfold Heap.printList Value.renderList
  rw [hagree.atomCount, Reach.renderAll_agree (fun _ => hagree.atomText hclosed _) readable vs hvs]

/-! ### Changes -/

@[simp] theorem size_atoms_addAtom : (h.addAtom v).2.atoms.size = h.atoms.size + 1 :=
  Array.size_push _

theorem atoms_addAtom (other : AtomId) : (h.addAtom v).2.atoms[other]? =
    if other = h.atoms.size then some v else h.atoms[other]? := Array.getElem?_push

@[simp] theorem size_atoms_setAtom : (h.setAtom id v).atoms.size = h.atoms.size := by
  simp [Heap.setAtom]

theorem atoms_setAtom_of_ne {other : AtomId} (hother : other ≠ id) :
    (h.setAtom id v).atoms[other]? = h.atoms[other]? := by
  simp [Heap.setAtom, Array.getElem?_setIfInBounds_ne (Ne.symm hother)]

theorem Closed.set (hclosed : h.Closed P) (hv : P.Admits v) : (h.set f x v).Closed P where
  parent := by
    intro g frame outer hg hframe hparent
    by_cases hgf : g = f
    · subst hgf
      rw [frames_set_self] at hframe
      obtain ⟨old, hold, rfl⟩ := Option.map_eq_some_iff.mp hframe
      exact hclosed.parent hg hold hparent
    · rw [frames_set_of_ne hgf] at hframe
      exact hclosed.parent hg hframe hparent
  bound := by
    intro g frame hg hframe
    by_cases hgf : g = f
    · subst hgf
      rw [frames_set_self] at hframe
      obtain ⟨old, hold, rfl⟩ := Option.map_eq_some_iff.mp hframe
      exact (hclosed.bound hg hold).insert hv
    · rw [frames_set_of_ne hgf] at hframe
      exact hclosed.bound hg hframe
  content := hclosed.content

theorem Agree.set (hagree : Agree P h h') : Agree P (h.set f x v) (h'.set f x v) where
  frames := by
    intro g hg
    by_cases hgf : g = f
    · subst hgf
      rw [frames_set_self, frames_set_self, hagree.frames hg]
    · rw [frames_set_of_ne hgf, frames_set_of_ne hgf, hagree.frames hg]
  atoms := hagree.atoms
  frameCount := by simpa using hagree.frameCount
  atomCount := hagree.atomCount
  identities := hagree.identities

theorem Closed.setAtom (hclosed : h.Closed P) (hv : P.Admits v) : (h.setAtom id v).Closed P where
  parent := hclosed.parent
  bound := hclosed.bound
  content := by
    intro other w hother hw
    by_cases heq : other = id
    · subst heq
      rw [Heap.setAtom, Array.set!_eq_setIfInBounds, Array.getElem?_setIfInBounds_self] at hw
      split at hw
      · cases hw
        exact hv
      · cases hw
    · rw [atoms_setAtom_of_ne heq] at hw
      exact hclosed.content hother hw

theorem Agree.setAtom (hagree : Agree P h h') : Agree P (h.setAtom id v) (h'.setAtom id v) where
  frames := hagree.frames
  atoms := by
    intro other hother
    by_cases heq : other = id
    · subst heq
      simp only [Heap.setAtom, Array.set!_eq_setIfInBounds, Array.getElem?_setIfInBounds_self,
        hagree.atomCount]
    · rw [atoms_setAtom_of_ne heq, atoms_setAtom_of_ne heq, hagree.atoms hother]
  frameCount := hagree.frameCount
  atomCount := by simpa using hagree.atomCount
  identities := hagree.identities

end Heap

end SmallLisp
