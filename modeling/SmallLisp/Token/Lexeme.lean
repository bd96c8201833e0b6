import SmallLisp.Token.Scanner

/-!
# Lexemes

The tokens of a whole text in order, each with the position behind it. A failure to scan is a
lexeme too, and the lexemes behind it are those of what it left.
-/

namespace SmallLisp

/-! ### The scans lose nothing -/

@[simp] theorem whole_skipSpace (inComment : Bool) (cs : List Char) :
    (skipSpace inComment cs).whole = cs := by
  induction cs generalizing inComment with
  | nil => rfl
  | cons c cs ih =>
    unfold skipSpace
    split
    · simp [ih]
    · rfl

namespace Scan

@[simp] theorem whole_token (t : Token) (taken rest : List Char) :
    (token t taken rest).whole = taken ++ rest := rfl

@[simp] theorem whole_string (cs : List Char) : (string cs).whole = '"' :: cs := by
  simp [string, Text.Quoted.whole_decode]

@[simp] theorem whole_keyword (cs : List Char) : (keyword cs).whole = ':' :: cs := by
  simp [keyword, Split.whole]

@[simp] theorem whole_number (sign : Option Char) (cs : List Char) :
    (number sign cs).whole = sign.toList ++ cs := by
  simp [number, Split.whole]

@[simp] theorem whole_signed (sign : Char) (cs : List Char) :
    (signed sign cs).whole = sign :: cs := by
  unfold signed
  split <;> simp

@[simp] theorem whole_name (cs : List Char) : (name cs).whole = cs := by
  simp [name]

@[simp] theorem whole_startingWith (c : Char) (cs : List Char) :
    (startingWith c cs).whole = c :: cs := by
  unfold startingWith
  split
  case h_11 => split <;> simp
  case h_16 =>
    split
    · simp
    · split
      · simp
      · rfl
  all_goals simp

theorem taken_startingWith_ne_nil (c : Char) (cs : List Char) :
    (startingWith c cs).taken ≠ [] := by
  unfold startingWith
  split
  case h_11 => split <;> simp [token]
  case h_16 c _ _ _ _ _ _ _ _ _ _ _ _ _ _ _ =>
    split
    · next h => simp [number, h]
    · split
      · next h => simp [name, token, h]
      · simp
  case h_14 => unfold signed; split <;> simp [number, token]
  case h_15 => unfold signed; split <;> simp [number, token]
  all_goals simp [token, string, keyword, Split.prepend]

/-- The first scan of a text, with the space in front of it taken too. -/
def first? (cs : List Char) : Option Scan :=
  match skipSpace false cs with
  | ⟨_, _, []⟩ => none
  | ⟨_, space, c :: rest⟩ => some ((startingWith c rest).prepend space)

theorem eq_of_first? {cs : List Char} {scan : Scan} (h : first? cs = some scan) :
    ∃ space c rest, skipSpace false cs = ⟨(), space, c :: rest⟩ ∧
      scan = (startingWith c rest).prepend space := by
  unfold first? at h
  split at h
  · simp at h
  · next space c rest hs => exact ⟨space, c, rest, hs, (Option.some.inj h).symm⟩

theorem whole_of_first? {cs : List Char} {scan : Scan} (h : first? cs = some scan) :
    scan.whole = cs := by
  obtain ⟨space, c, rest, hs, rfl⟩ := eq_of_first? h
  have whole := whole_skipSpace false cs
  rw [hs] at whole
  rw [Split.whole_prepend, whole_startingWith]
  exact whole

theorem taken_ne_nil_of_first? {cs : List Char} {scan : Scan} (h : first? cs = some scan) :
    scan.taken ≠ [] := by
  obtain ⟨space, c, rest, _, rfl⟩ := eq_of_first? h
  simp [Split.prepend, taken_startingWith_ne_nil c rest]

theorem length_rest_lt {cs : List Char} {scan : Scan} (h : first? cs = some scan) :
    scan.rest.length < cs.length := by
  have taken : 0 < scan.taken.length := List.length_pos_iff.2 (taken_ne_nil_of_first? h)
  rw [← whole_of_first? h, Split.whole, List.length_append]
  omega

end Scan

/-! ### Lexemes with their positions -/

/-- A token or a failure, and the position behind it. -/
structure Lexeme where
  found : Except ScanError Token
  position : Position

namespace Lexeme

/-- The lexemes of a text that begins at a position. -/
def listFrom (p : Position) (cs : List Char) : List Lexeme :=
  match _h : Scan.first? cs with
  | none => []
  | some scan => ⟨scan.found, p.after scan.taken⟩ :: listFrom (p.after scan.taken) scan.rest
termination_by cs.length
decreasing_by exact Scan.length_rest_lt ‹_›

def list (text : String) : List Lexeme := listFrom .start text.toList

/-- The tokens of a text, or its first failure. -/
def tokens (text : String) : Except ScanError (List Token) := (list text).mapM Lexeme.found

end Lexeme

end SmallLisp
