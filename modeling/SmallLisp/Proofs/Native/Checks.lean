import Mathlib.Data.List.Forall2

/-!
# Checks in turn

Functions check their arguments in turn, and the first check that fails decides. What that means for
sequences of checks in `Except`, and for one check of each element of a list.
-/

namespace SmallLisp

variable {ε α β : Type}

theorem bind_eq_ok_iff {r : Except ε α} {k : α → Except ε β} {b : β} :
    (r >>= k) = .ok b ↔ ∃ a, r = .ok a ∧ k a = .ok b := by
  cases r with
  | error e => exact ⟨nofun, nofun⟩
  | ok a => exact ⟨fun h => ⟨a, rfl, h⟩, fun ⟨_, ha, h⟩ => by cases ha; exact h⟩

theorem forall₂_of_mapM {f : α → Except ε β} {as : List α} {bs : List β}
    (h : as.mapM f = .ok bs) : List.Forall₂ (fun a b => f a = .ok b) as bs := by
  induction as generalizing bs with
  | nil =>
    cases h
    exact .nil
  | cons a rest ih =>
    rw [List.mapM_cons] at h
    obtain ⟨b, hb, h⟩ := bind_eq_ok_iff.mp h
    obtain ⟨others, hothers, h⟩ := bind_eq_ok_iff.mp h
    cases h
    exact .cons hb (ih hothers)

/-- The first element that fails its check decides. -/
theorem mapM_of_first_error {f : α → Except ε β} {front back : List α} {a : α} {e : ε}
    (hfront : ∀ b ∈ front, ∃ c, f b = .ok c) (ha : f a = .error e) :
    (front ++ a :: back).mapM f = .error e := by
  induction front with
  | nil =>
    rw [List.nil_append, List.mapM_cons, ha]
    rfl
  | cons b rest ih =>
    obtain ⟨c, hc⟩ := hfront b List.mem_cons_self
    have hrest := ih fun b hb => hfront b (List.mem_cons_of_mem _ hb)
    rw [List.cons_append, List.mapM_cons, hc, hrest]
    rfl

end SmallLisp
