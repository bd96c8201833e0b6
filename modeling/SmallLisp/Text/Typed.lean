import SmallLisp.Text.Cluster.Basic

/-!
# Typed text

A line that was typed can hold backspaces. Each takes back the cluster that was typed last and not
taken back yet; where there is none it does nothing. The size in bytes of each cluster is kept in
one byte, so that of a cluster of 256 bytes or more only what exceeds a multiple of 256 is taken
back.
-/

namespace SmallLisp.Text

/-- What is typed, in reverse, and the sizes of the clusters that can be taken back, the last one
first. -/
structure Typed where
  reversed : List Char
  sizes : List UInt8
  deriving DecidableEq, Repr

namespace Typed

def empty : Typed := ⟨[], []⟩

/-- The character that takes back. -/
def backspace : Char := '\x08'

/-- The size of a text in bytes, in one byte. -/
def size (cs : List Char) : UInt8 := UInt8.ofNat (String.ofList cs).utf8ByteSize

/-- A reversed text without its last `n` bytes. A character of which only a part would go
stays. -/
def dropBytes (n : Nat) : List Char → List Char
  | [] => []
  | c :: cs => if c.utf8Size ≤ n then dropBytes (n - c.utf8Size) cs else c :: cs

/-- What is typed behind one more cluster. -/
def enter (t : Typed) (cluster : List Char) : Typed :=
  if cluster = [backspace] then
    match t.sizes with
    | [] => t
    | n :: sizes => ⟨dropBytes n.toNat t.reversed, sizes⟩
  else ⟨cluster.reverse ++ t.reversed, size cluster :: t.sizes⟩

def text (t : Typed) : String := String.ofList t.reversed.reverse

end Typed

/-- What remains of a typed line when its backspaces are carried out. -/
def settle (line : String) : String :=
  ((Cluster.list line.toList).foldl Typed.enter .empty).text

theorem foldl_enter {clusters : List (List Char)} (h : [Typed.backspace] ∉ clusters) (t : Typed) :
    (clusters.foldl Typed.enter t).reversed = clusters.flatten.reverse ++ t.reversed := by
  induction clusters generalizing t with
  | nil => rfl
  | cons cluster rest ih =>
    simp only [List.mem_cons, not_or] at h
    rw [List.foldl_cons, ih h.2, Typed.enter, if_neg (Ne.symm h.1)]
    simp

theorem settle_eq_self {line : String} (h : Typed.backspace ∉ line.toList) : settle line = line := by
  have absent : [Typed.backspace] ∉ Cluster.list line.toList := fun member => h (by
    rw [← Cluster.flatten_list line.toList]
    exact List.mem_flatten.2 ⟨_, member, List.mem_singleton_self _⟩)
  simp [settle, Typed.text, foldl_enter absent, Typed.empty, Cluster.flatten_list]

end SmallLisp.Text
