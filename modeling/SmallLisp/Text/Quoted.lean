import SmallLisp.Text.Basic

/-!
# Quoted text

A text between double quotes. Three characters are written with a backslash: the quote, the
backslash and the newline. Reading also accepts `\t` for a tab, and lets every other character
stand for itself, a bare newline included.
-/

namespace SmallLisp.Text.Quoted

/-! ### Writing -/

/-- One character as it is written between quotes. -/
def encodeChar (c : Char) : List Char :=
  if c = '\\' then ['\\', '\\']
  else if c = '"' then ['\\', '"']
  else if c = '\n' then ['\\', 'n']
  else [c]

/-- A text in quotes, as characters. -/
def encodeChars (cs : List Char) : List Char :=
  '"' :: (cs.flatMap encodeChar ++ ['"'])

def encode (text : String) : String := String.ofList (encodeChars text.toList)

/-! ### Reading -/

/-- What can be wrong with a quoted text: an escape that stands for nothing, or a text that ends
after a backslash or before its closing quote. -/
inductive Flaw where
  | unknownEscape (c : Char)
  | openEscape
  | openQuote
  deriving DecidableEq, Repr

/-- The character that a backslash and `c` stand for. -/
def unescape : Char → Option Char
  | 'n' => some '\n'
  | 't' => some '\t'
  | '\\' => some '\\'
  | '"' => some '"'
  | _ => none

/-- Reads up to and including the closing quote, from just after the opening one. -/
def decode : List Char → Split (Except Flaw (List Char))
  | [] => ⟨.error .openQuote, [], []⟩
  | '"' :: rest => ⟨.ok [], ['"'], rest⟩
  | ['\\'] => ⟨.error .openEscape, ['\\'], []⟩
  | '\\' :: c :: rest =>
    match unescape c with
    | some d => ((decode rest).map (Except.map (d :: ·))).prepend ['\\', c]
    | none => ⟨.error (.unknownEscape c), ['\\', c], rest⟩
  | c :: rest => ((decode rest).map (Except.map (c :: ·))).prepend [c]

theorem whole_decode (cs : List Char) : (decode cs).whole = cs := by
  fun_induction decode cs <;> simp_all [Split.whole, Split.map, Split.prepend]

theorem unescape_encodeChar {c : Char} (h : encodeChar c ≠ [c]) :
    ∃ d, encodeChar c = ['\\', d] ∧ unescape d = some c := by
  unfold encodeChar at h ⊢
  split
  · next h1 => exact ⟨'\\', rfl, by subst h1; rfl⟩
  · split
    · next h2 => exact ⟨'"', rfl, by subst h2; rfl⟩
    · split
      · next h3 => exact ⟨'n', rfl, by subst h3; rfl⟩
      · simp_all

end SmallLisp.Text.Quoted
