/-!
# Characters and texts

Sets of characters as ranges of their code points, with the white space of Unicode as one of them,
and the outcome of one reading step on a text: what was found, the characters that were taken from
the front, and the characters that are left.
-/

namespace SmallLisp

namespace Text

/-! ### Ranges of characters -/

/-- Whether a character lies in one of some ranges of code points, ends included. -/
def isWithin (ranges : List (Nat × Nat)) (c : Char) : Bool :=
  ranges.any fun range => range.1 ≤ c.toNat && c.toNat ≤ range.2

/-- The ranges of the 25 code points with the property White_Space, ends included. -/
def blankRanges : List (Nat × Nat) :=
  [(0x9, 0xD), (0x20, 0x20), (0x85, 0x85), (0xA0, 0xA0), (0x1680, 0x1680), (0x2000, 0x200A),
    (0x2028, 0x2029), (0x202F, 0x202F), (0x205F, 0x205F), (0x3000, 0x3000)]

/-- Whether a character is white space. -/
def isBlank (c : Char) : Bool := isWithin blankRanges c

/-- A text without the white space at its two ends. -/
def trim (text : String) : String :=
  let front := text.toList.dropWhile isBlank
  String.ofList (front.reverse.dropWhile isBlank).reverse

end Text

/-! ### Cuts -/

/-- What was found at the front of a text, with the text cut in two. -/
structure Split (α : Type) where
  found : α
  taken : List Char
  rest : List Char

namespace Split

/-- The same cut with something else found. -/
def map {α β : Type} (f : α → β) (s : Split α) : Split β := ⟨f s.found, s.taken, s.rest⟩

/-- The cut of a longer text, whose first characters are taken too. -/
def prepend {α : Type} (front : List Char) (s : Split α) : Split α :=
  ⟨s.found, front ++ s.taken, s.rest⟩

/-- The text that was cut. -/
def whole {α : Type} (s : Split α) : List Char := s.taken ++ s.rest

@[simp] theorem whole_map {α β : Type} (f : α → β) (s : Split α) : (s.map f).whole = s.whole :=
  rfl

@[simp] theorem whole_prepend {α : Type} (front : List Char) (s : Split α) :
    (s.prepend front).whole = front ++ s.whole := by
  simp [whole, prepend]

end Split

end SmallLisp
