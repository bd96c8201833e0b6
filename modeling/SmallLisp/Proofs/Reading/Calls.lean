import SmallLisp.Proofs.Reading.Concatenation

/-!
# Scanning and reading by calls

A text can be scanned and read by calls, one for each token or form, and calls can go on behind an
error. What the calls give in turn is what scanning and reading give of the whole text at once: the
main statements are `Cursor.getElem?_list` and `Reading.getElem?_readEach`.
-/

namespace SmallLisp

open Reader

/-! ### Scanning -/

/-- How far scanning has come: a position, and the text that is left behind it. -/
structure Cursor where
  position : Position
  rest : List Char

namespace Cursor

def ofText (text : String) : Cursor := ⟨.start, text.toList⟩

/-- What is found next, unless there is nothing but space, and the cursor behind it. -/
def next (c : Cursor) : Option (Except ScanError Token) × Cursor :=
  match Scan.first? c.rest with
  | none => (none, ⟨c.position.after c.rest, []⟩)
  | some scan => (some scan.found, ⟨c.position.after scan.taken, scan.rest⟩)

/-- The cursor behind some calls. -/
def after (c : Cursor) : Nat → Cursor
  | 0 => c
  | n + 1 => c.next.2.after n

/-- The lexemes that are left. -/
def lexemes (c : Cursor) : List Lexeme := Lexeme.listFrom c.position c.rest

variable {c : Cursor}

theorem next_none (h : Scan.first? c.rest = none) :
    c.next = (none, ⟨c.position.after c.rest, []⟩) := by
  unfold next
  rw [h]

theorem next_some {scan : Scan} (h : Scan.first? c.rest = some scan) :
    c.next = (some scan.found, ⟨c.position.after scan.taken, scan.rest⟩) := by
  unfold next
  rw [h]

theorem after_succ (c : Cursor) (n : Nat) : c.after (n + 1) = (c.after n).next.2 := by
  induction n generalizing c with
  | zero => rfl
  | succ n ih => exact ih c.next.2

/-- A call takes some text from the front of what is left. -/
theorem exists_taken (c : Cursor) : ∃ taken, c.rest = taken ++ c.next.2.rest ∧
    c.next.2.position = c.position.after taken ∧ (c.next.1 ≠ none → taken ≠ []) := by
  cases h : Scan.first? c.rest with
  | none =>
    rw [next_none h]
    exact ⟨c.rest, (List.append_nil _).symm, rfl, fun hnone => absurd rfl hnone⟩
  | some scan =>
    rw [next_some h]
    exact ⟨scan.taken, (Scan.whole_of_first? h).symm, rfl, fun _ => Scan.taken_ne_nil_of_first? h⟩

/-- A call that finds nothing leaves nothing. -/
theorem rest_of_none (h : c.next.1 = none) : c.next.2.rest = [] := by
  cases hfirst : Scan.first? c.rest with
  | none => rw [next_none hfirst]
  | some scan =>
    rw [next_some hfirst] at h
    cases h

theorem length_rest_lt (h : c.next.1 ≠ none) : c.next.2.rest.length < c.rest.length := by
  obtain ⟨taken, htaken, _, hne⟩ := c.exists_taken
  have hpos : 0 < taken.length := List.length_pos_iff.mpr (hne h)
  rw [htaken, List.length_append]
  omega

/-- Where the text ends does not depend on how much of it was scanned. -/
theorem finish_next (c : Cursor) :
    c.next.2.position.after c.next.2.rest = c.position.after c.rest := by
  obtain ⟨taken, htaken, hposition, _⟩ := c.exists_taken
  rw [hposition, ← Position.after_append, ← htaken]

theorem lexemes_nil (h : c.next.1 = none) : c.lexemes = [] := by
  cases hfirst : Scan.first? c.rest with
  | none => exact listFrom_none hfirst
  | some scan =>
    rw [next_some hfirst] at h
    cases h

theorem lexemes_cons {found : Except ScanError Token} (h : c.next.1 = some found) :
    c.lexemes = ⟨found, c.next.2.position⟩ :: c.next.2.lexemes := by
  cases hfirst : Scan.first? c.rest with
  | none =>
    rw [next_none hfirst] at h
    cases h
  | some scan =>
    rw [next_some hfirst] at h ⊢
    cases h
    exact listFrom_some hfirst

theorem getElem?_lexemes (c : Cursor) (n : Nat) :
    c.lexemes[n]? = (c.after n).next.1.map (⟨·, (c.after (n + 1)).position⟩) := by
  induction n generalizing c with
  | zero =>
    cases h : c.next.1 with
    | none =>
      rw [lexemes_nil h]
      change _ = Option.map _ c.next.1
      rw [h]
      rfl
    | some found =>
      rw [lexemes_cons h]
      change _ = Option.map _ c.next.1
      rw [h]
      rfl
  | succ n ih =>
    have hnext := ih c.next.2
    cases h : c.next.1 with
    | none =>
      have hnone : c.next.2.lexemes = [] := listFrom_none (by rw [rest_of_none h]; rfl)
      rw [hnone] at hnext
      rw [lexemes_nil h]
      exact hnext
    | some found =>
      rw [lexemes_cons h, List.getElem?_cons_succ]
      exact hnext

/-- The calls find the lexemes of the text, and stop at their positions. -/
theorem getElem?_list (text : String) (n : Nat) :
    (Lexeme.list text)[n]? = ((ofText text).after n).next.1.map
      (⟨·, ((ofText text).after (n + 1)).position⟩) :=
  getElem?_lexemes (ofText text) n

end Cursor

/-! ### Reading -/

/-- How far reading has come: the token that is next, unless the text ended or scanning failed, the
cursor behind that token, and where the token in front of it ended. -/
structure Reading where
  cursor : Cursor
  ahead : Option Token
  last : Position

namespace Reading

/-- Moves the cursor on. If scanning fails there, nothing is left to be read. -/
def advance (r : Reading) : Option ReadError × Reading :=
  match r.cursor.next with
  | (none, c) => (none, ⟨c, none, r.cursor.position⟩)
  | (some (.ok t), c) => (none, ⟨c, some t, r.cursor.position⟩)
  | (some (.error e), c) => (some ⟨.scan e, c.position⟩, ⟨c, none, r.cursor.position⟩)

/-- Reading starts with a look at the first token, which can fail. -/
def ofText (text : String) : Except ReadError Reading :=
  match advance ⟨.ofText text, none, .start⟩ with
  | (none, r) => .ok r
  | (some e, _) => .error e

/-- How much is left to be read, the token that is next included. -/
def left (r : Reading) : Nat :=
  match r.ahead with
  | none => 0
  | some _ => r.cursor.rest.length + 1

/-- Everything that moving on can do: come to the end, to a token, or to a failure. -/
theorem advance_cases (r : Reading) :
    (r.cursor.next.1 = none ∧ r.advance = (none, ⟨r.cursor.next.2, none, r.cursor.position⟩)) ∨
    (∃ t, r.cursor.next.1 = some (.ok t) ∧
      r.advance = (none, ⟨r.cursor.next.2, some t, r.cursor.position⟩)) ∨
    ∃ e, r.cursor.next.1 = some (.error e) ∧
      r.advance = (some ⟨.scan e, r.cursor.next.2.position⟩,
        ⟨r.cursor.next.2, none, r.cursor.position⟩) := by
  unfold advance
  split
  · next c h => exact .inl (by rw [h]; exact ⟨rfl, rfl⟩)
  · next t c h => exact .inr (.inl ⟨t, by rw [h]; exact ⟨rfl, rfl⟩⟩)
  · next e c h => exact .inr (.inr ⟨e, by rw [h]; exact ⟨rfl, rfl⟩⟩)

theorem cursor_advance (r : Reading) : r.advance.2.cursor = r.cursor.next.2 := by
  rcases r.advance_cases with ⟨_, h⟩ | ⟨_, _, h⟩ | ⟨_, _, h⟩ <;> rw [h]

theorem last_advance (r : Reading) : r.advance.2.last = r.cursor.position := by
  rcases r.advance_cases with ⟨_, h⟩ | ⟨_, _, h⟩ | ⟨_, _, h⟩ <;> rw [h]

theorem left_advance (r : Reading) : r.advance.2.left ≤ r.cursor.rest.length := by
  rcases r.advance_cases with ⟨_, h⟩ | ⟨t, hnext, h⟩ | ⟨_, _, h⟩
  · rw [h]
    exact Nat.zero_le _
  · rw [h]
    exact Cursor.length_rest_lt (by rw [hnext]; nofun)
  · rw [h]
    exact Nat.zero_le _

theorem left_advance_lt {r : Reading} {t : Token} (h : r.ahead = some t) :
    r.advance.2.left < r.left := by
  have hleft : r.left = r.cursor.rest.length + 1 := by
    unfold left
    rw [h]
  rw [hleft]
  exact Nat.lt_succ_of_le r.left_advance

theorem advance_of_ofText {text : String} {r : Reading} (h : ofText text = .ok r) :
    advance ⟨.ofText text, none, .start⟩ = (none, r) := by
  unfold ofText at h
  split at h
  · next r' hadvance =>
    cases h
    exact hadvance
  · cases h

theorem advance_of_ofText_error {text : String} {e : ReadError} (h : ofText text = .error e) :
    (advance ⟨.ofText text, none, .start⟩).1 = some e := by
  unfold ofText at h
  split at h
  · cases h
  · next e' r hadvance =>
    cases h
    rw [hadvance]

/-- Reads on while forms are open, up to the end of a form or to an error. -/
def read (stack : List Open) (r : Reading) : Option (Except ReadError Value) × Reading :=
  match _h : r.ahead with
  | none => ((openAtEnd? r.cursor.position r.last stack).map .error, r)
  | some t =>
    match r.advance.1 with
    | some e => (some (.error e), r.advance.2)
    | none =>
      match shift stack t with
      | .error cause => (some (.error ⟨cause, r.advance.2.last⟩), r.advance.2)
      | .ok (.form v) => (some (.ok v), r.advance.2)
      | .ok (.pending opened) => r.advance.2.read opened
termination_by r.left
decreasing_by exact left_advance_lt _h

/-- What is read next, unless the text ends, and how far reading has come with it. -/
def next (r : Reading) : Option (Except ReadError Value) × Reading := r.read []

/-- How far reading has come with some calls. -/
def after (r : Reading) : Nat → Reading
  | 0 => r
  | n + 1 => r.next.2.after n

theorem after_succ (r : Reading) (n : Nat) : r.after (n + 1) = (r.after n).next.2 := by
  induction n generalizing r with
  | zero => rfl
  | succ n ih => exact ih r.next.2

/-! ### Reading whole texts -/

/-- The lexemes that are left to be read. -/
def lexemes (r : Reading) : List Lexeme :=
  match r.ahead with
  | none => []
  | some t => ⟨.ok t, r.cursor.position⟩ :: r.cursor.lexemes

section

variable {r : Reading} {stack : List Open} {t : Token}

theorem lexemes_none (h : r.ahead = none) : r.lexemes = [] := by
  unfold lexemes
  rw [h]

theorem lexemes_some (h : r.ahead = some t) :
    r.lexemes = ⟨.ok t, r.cursor.position⟩ :: r.cursor.lexemes := by
  unfold lexemes
  rw [h]

/-- The error of moving on is the failure that the lexemes behind the cursor begin with. -/
theorem failure?_lexemes (r : Reading) : failure? r.cursor.lexemes = r.advance.1 := by
  rcases r.advance_cases with ⟨hnext, h⟩ | ⟨t, hnext, h⟩ | ⟨e, hnext, h⟩
  · rw [h, Cursor.lexemes_nil hnext]
    rfl
  · rw [h, Cursor.lexemes_cons hnext]
    rfl
  · rw [h, Cursor.lexemes_cons hnext]
    rfl

theorem lexemes_advance (h : r.advance.1 = none) : r.advance.2.lexemes = r.cursor.lexemes := by
  rcases r.advance_cases with ⟨hnext, hadvance⟩ | ⟨t, hnext, hadvance⟩ | ⟨e, _, hadvance⟩
  · rw [hadvance, Cursor.lexemes_nil hnext]
    rfl
  · rw [hadvance, Cursor.lexemes_cons hnext]
    rfl
  · rw [hadvance] at h
    cases h

theorem lexemes_advance_error {e : ReadError} (h : r.advance.1 = some e) :
    r.advance.2.lexemes = [] := by
  rcases r.advance_cases with ⟨_, hadvance⟩ | ⟨_, _, hadvance⟩ | ⟨_, _, hadvance⟩
  · rw [hadvance] at h
    cases h
  · rw [hadvance] at h
    cases h
  · rw [hadvance]
    rfl

/-- Behind the last token nothing is left of the text, if moving on did not fail. -/
theorem rest_advance (h : r.advance.1 = none) (hend : r.advance.2.ahead = none) :
    r.advance.2.cursor.rest = [] := by
  rcases r.advance_cases with ⟨hnext, hadvance⟩ | ⟨t, _, hadvance⟩ | ⟨e, _, hadvance⟩
  · rw [cursor_advance]
    exact Cursor.rest_of_none hnext
  · rw [hadvance] at hend
    cases hend
  · rw [hadvance] at h
    cases h

theorem read_none (h : r.ahead = none) :
    r.read stack = ((openAtEnd? r.cursor.position r.last stack).map .error, r) := by
  rw [read]
  split
  · rfl
  · next t ht =>
    rw [h] at ht
    cases ht

theorem read_some (h : r.ahead = some t) :
    r.read stack = match r.advance.1 with
      | some e => (some (.error e), r.advance.2)
      | none =>
        match shift stack t with
        | .error cause => (some (.error ⟨cause, r.advance.2.last⟩), r.advance.2)
        | .ok (.form v) => (some (.ok v), r.advance.2)
        | .ok (.pending opened) => r.advance.2.read opened := by
  rw [read]
  split
  · next hnone =>
    rw [h] at hnone
    cases hnone
  · next t' ht =>
    rw [h] at ht
    cases ht
    rfl

theorem finish_advance (r : Reading) :
    r.advance.2.cursor.position.after r.advance.2.cursor.rest =
      r.cursor.position.after r.cursor.rest := by
  rw [cursor_advance, Cursor.finish_next]

theorem finish_read (stack : List Open) (r : Reading) :
    (r.read stack).2.cursor.position.after (r.read stack).2.cursor.rest =
      r.cursor.position.after r.cursor.rest := by
  fun_induction read stack r with
  | case1 => rfl
  | case2 | case3 | case4 => exact finish_advance _
  | case5 _ _ _ _ _ _ _ ih => exact ih.trans (finish_advance _)

/-- A call reads what the lexemes give first, and leaves what they give behind it. -/
theorem outcomes_read (stack : List Open) (r : Reading)
    (hend : stack ≠ [] → r.ahead = none → r.cursor.rest = []) :
    outcomes (r.cursor.position.after r.cursor.rest) stack r.last r.lexemes =
      match (r.read stack).1 with
      | none => []
      | some outcome => outcome :: outcomes (r.cursor.position.after r.cursor.rest) []
          (r.read stack).2.last (r.read stack).2.lexemes := by
  fun_induction read stack r with
  | case1 stack r h =>
    rw [lexemes_none h, outcomes]
    cases stack with
    | nil => rfl
    | cons top outer =>
      rw [hend (List.cons_ne_nil top outer) h, Position.after_nil]
      cases openAtEnd? r.cursor.position r.last (top :: outer) <;> rfl
  | case2 stack r t h e hadvance =>
    rw [lexemes_some h, outcomes_failure ((failure?_lexemes r).trans hadvance),
      lexemes_advance_error hadvance]
    rfl
  | case3 stack r t h hadvance cause hshift =>
    rw [lexemes_some h, outcomes_error ((failure?_lexemes r).trans hadvance) hshift,
      lexemes_advance hadvance, last_advance]
  | case4 stack r t h hadvance v hshift =>
    rw [lexemes_some h, outcomes_form ((failure?_lexemes r).trans hadvance) hshift,
      lexemes_advance hadvance, last_advance]
  | case5 stack r t h hadvance opened hshift ih =>
    have hread := ih fun _ hnone => rest_advance hadvance hnone
    rw [finish_advance, lexemes_advance hadvance, last_advance] at hread
    rw [lexemes_some h, outcomes_pending ((failure?_lexemes r).trans hadvance) hshift, hread]

theorem ahead_of_read_none (h : (r.read stack).1 = none) : (r.read stack).2.ahead = none := by
  fun_induction read stack r with
  | case1 _ _ hnone => exact hnone
  | case2 | case3 | case4 => cases h
  | case5 _ _ _ _ _ _ _ ih => exact ih h

theorem getElem?_outcomes (r : Reading) (n : Nat) :
    (outcomes (r.cursor.position.after r.cursor.rest) [] r.last r.lexemes)[n]? =
      (r.after n).next.1 := by
  induction n generalizing r with
  | zero =>
    rw [outcomes_read [] r fun h => absurd rfl h]
    change _ = (r.read []).1
    cases (r.read []).1 <;> rfl
  | succ n ih =>
    have hnext := ih (r.read []).2
    rw [finish_read] at hnext
    rw [outcomes_read [] r fun h => absurd rfl h]
    change _ = ((r.read []).2.after n).next.1
    rw [← hnext]
    cases h : (r.read []).1 with
    | none =>
      rw [lexemes_none (ahead_of_read_none h)]
      rfl
    | some outcome => rfl

end

/-- A text whose first token cannot be scanned is that failure. Of every other text the calls read
what there is to be read, and then nothing more. -/
theorem getElem?_readEach (text : String) :
    match ofText text with
    | .error e => readEach text = [.error e]
    | .ok r => ∀ n, (readEach text)[n]? = (r.after n).next.1 := by
  cases h : ofText text with
  | error e =>
    have hfailure := failure?_lexemes ⟨.ofText text, none, .start⟩
    exact readEach_of_failure (hfailure.trans (advance_of_ofText_error h))
  | ok r =>
    intro n
    have hadvance := advance_of_ofText h
    have hlexemes := lexemes_advance (r := ⟨.ofText text, none, .start⟩) (by rw [hadvance])
    have hfinish := finish_advance ⟨.ofText text, none, .start⟩
    have hlast := last_advance ⟨.ofText text, none, .start⟩
    have houtcomes := getElem?_outcomes r n
    rw [hadvance] at hlexemes hfinish hlast
    rw [hlexemes, hfinish, hlast] at houtcomes
    exact houtcomes

end Reading

end SmallLisp
