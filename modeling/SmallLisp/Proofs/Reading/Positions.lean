import SmallLisp.Proofs.Reading.Calls

/-!
# Positions that are reported

A position is kept by counting characters while they are taken. It always is the position behind
what was taken of the text, and an error, of scanning or of reading, is placed behind a part of the
text that calls have taken, at its end. The main statement is `positions_are_real`.
-/

namespace SmallLisp

namespace Position

/-- The place behind a text: its line counts the newlines of the text, and its column what stands
behind the last of them, both from one. -/
def behind (front : List Char) : Position :=
  ⟨1 + front.count '\n', 1 + (front.reverse.takeWhile (· ≠ '\n')).length⟩

theorem next_behind (front : List Char) (c : Char) :
    (behind front).next c = behind (front ++ [c]) := by
  unfold next behind
  rw [List.reverse_append, List.reverse_singleton, List.singleton_append, List.count_append]
  by_cases hc : c = '\n'
  · rw [if_pos hc, hc, List.takeWhile_cons_of_neg (by decide), List.count_singleton_self]
    rfl
  · rw [if_neg hc, List.takeWhile_cons_of_pos (by simpa using hc), List.length_cons,
      List.count_singleton, if_neg (by simpa using hc)]
    rfl

theorem start_after (front : List Char) : start.after front = behind front := by
  induction front using List.reverseRecOn with
  | nil => rfl
  | append_singleton front c ih => rw [after_append, ih, after_cons, after_nil, next_behind]

end Position

namespace Cursor

theorem exists_taken_after (c : Cursor) (n : Nat) :
    ∃ taken, c.rest = taken ++ (c.after n).rest ∧
      (c.after n).position = c.position.after taken := by
  induction n with
  | zero => exact ⟨[], rfl, rfl⟩
  | succ n ih =>
    obtain ⟨taken, htaken, hposition⟩ := ih
    obtain ⟨more, hmore, hnext, _⟩ := (c.after n).exists_taken
    rw [after_succ]
    refine ⟨taken ++ more, ?_, ?_⟩
    · rw [List.append_assoc, ← hmore, htaken]
    · rw [Position.after_append, ← hposition, hnext]

/-- The cursor behind some calls stands where its position says. -/
theorem position_after (text : String) (n : Nat) :
    ∃ front, text.toList = front ++ ((ofText text).after n).rest ∧
      ((ofText text).after n).position = .behind front := by
  obtain ⟨taken, htaken, hposition⟩ := (ofText text).exists_taken_after n
  exact ⟨taken, htaken, hposition.trans (Position.start_after taken)⟩

/-- One of the first calls stops at a position: at the end of a token, at a failure or at the end of
the text. -/
def StopsAt (text : String) (calls : Nat) (p : Position) : Prop :=
  ∃ n < calls, ∃ front, text.toList = front ++ ((ofText text).after (n + 1)).rest ∧
    p = .behind front ∧
    ((∃ t, ((ofText text).after n).next.1 = some (.ok t)) ∨
      (∃ e, ((ofText text).after n).next.1 = some (.error e)) ∨ front = text.toList)

variable {text : String} {n calls more : Nat} {p : Position}

theorem StopsAt.mono (h : StopsAt text calls p) (hle : calls ≤ more) : StopsAt text more p := by
  obtain ⟨n, hn, hstop⟩ := h
  exact ⟨n, Nat.lt_of_lt_of_le hn hle, hstop⟩

theorem stopsAt_after (h : n < calls) :
    StopsAt text calls ((ofText text).after (n + 1)).position := by
  obtain ⟨front, hfront, hposition⟩ := position_after text (n + 1)
  refine ⟨n, h, front, hfront, hposition, ?_⟩
  cases hnext : ((ofText text).after n).next.1 with
  | none =>
    have hrest := rest_of_none hnext
    rw [after_succ, hrest, List.append_nil] at hfront
    exact .inr (.inr hfront.symm)
  | some found =>
    cases found with
    | ok t => exact .inl ⟨t, rfl⟩
    | error e => exact .inr (.inl ⟨e, rfl⟩)

end Cursor

namespace Reading

open Reader Cursor

variable {text : String} {r : Reading} {stack : List Open} {e : ReadError} {calls : Nat}

theorem position_of_advance_error (h : r.advance.1 = some e) :
    e.position = r.advance.2.cursor.position := by
  rcases r.advance_cases with ⟨_, hadvance⟩ | ⟨_, _, hadvance⟩ | ⟨_, _, hadvance⟩
  · rw [hadvance] at h
    cases h
  · rw [hadvance] at h
    cases h
  · rw [hadvance] at h ⊢
    cases h
    rfl

theorem cursor_advance_after (h : r.cursor = (Cursor.ofText text).after calls) :
    r.advance.2.cursor = (Cursor.ofText text).after (calls + 1) := by
  rw [cursor_advance, h, Cursor.after_succ]

/-- An error at the end of the text is placed there or behind the last token. -/
theorem stopsAt_of_openAtEnd? {finish last : Position} (h : openAtEnd? finish last stack = some e)
    (hfinish : StopsAt text calls finish) (hlast : stack ≠ [] → StopsAt text calls last) :
    StopsAt text calls e.position := by
  unfold openAtEnd? at h
  split at h
  · cases h
  · cases h
    exact hlast (List.cons_ne_nil _ _)
  · cases h
    exact hfinish

/-- Reading calls for tokens, and an error is placed where one of these calls, or of those in front
of them, has stopped. While forms are open, the token that was read last ends there too. -/
theorem stopsAt_read (stack : List Open) (r : Reading)
    (hcursor : r.cursor = (Cursor.ofText text).after (calls + 1))
    (hlast : stack ≠ [] → StopsAt text (calls + 1) r.last) :
    ∃ more, (r.read stack).2.cursor = (Cursor.ofText text).after (calls + more + 1) ∧
      ∀ e, (r.read stack).1 = some (.error e) → StopsAt text (calls + more + 1) e.position := by
  have hstop : StopsAt text (calls + 1) r.cursor.position :=
    hcursor ▸ stopsAt_after (Nat.lt_succ_self calls)
  have hnext := cursor_advance_after hcursor
  fun_induction read stack r generalizing calls with
  | case1 stack r hahead =>
    refine ⟨0, hcursor, fun e he => ?_⟩
    obtain ⟨e', he', heq⟩ := Option.map_eq_some_iff.mp he
    cases heq
    exact stopsAt_of_openAtEnd? he' hstop hlast
  | case2 stack r t hahead e hadvance =>
    refine ⟨1, hnext, fun e' he => ?_⟩
    cases he
    rw [position_of_advance_error hadvance, hnext]
    exact stopsAt_after (Nat.lt_succ_self _)
  | case3 stack r t hahead hadvance cause hshift =>
    refine ⟨1, hnext, fun e' he => ?_⟩
    cases he
    rw [last_advance]
    exact hstop.mono (Nat.le_succ _)
  | case4 stack r t hahead hadvance v hshift =>
    refine ⟨1, hnext, fun e he => ?_⟩
    cases he
  | case5 stack r t hahead hadvance opened hshift ih =>
    obtain ⟨more, hmore, herror⟩ := ih hnext
      (fun _ => by rw [last_advance]; exact hstop.mono (Nat.le_succ _))
      (hnext ▸ stopsAt_after (Nat.lt_succ_self _)) (cursor_advance_after hnext)
    rw [Nat.add_assoc calls 1 more] at hmore herror
    exact ⟨1 + more, hmore, herror⟩

theorem cursor_ofText (h : ofText text = .ok r) : r.cursor = (Cursor.ofText text).after 1 := by
  have hcursor := cursor_advance ⟨.ofText text, none, .start⟩
  rwa [advance_of_ofText h] at hcursor

/-- A text of which no token can be read fails where the first call stops. -/
theorem stopsAt_ofText (h : ofText text = .error e) : StopsAt text 1 e.position := by
  rw [position_of_advance_error (advance_of_ofText_error h), cursor_advance]
  exact stopsAt_after Nat.zero_lt_one

theorem cursor_after (h : r.cursor = (Cursor.ofText text).after (calls + 1)) (n : Nat) :
    ∃ more, (r.after n).cursor = (Cursor.ofText text).after (more + 1) := by
  induction n with
  | zero => exact ⟨calls, h⟩
  | succ n ih =>
    obtain ⟨more, hmore⟩ := ih
    obtain ⟨further, hfurther, _⟩ := stopsAt_read [] _ hmore fun h => absurd rfl h
    rw [after_succ]
    exact ⟨more + further, hfurther⟩

end Reading

/-- Positions are those of the text that was taken. The cursor behind any number of calls stands
behind a front part of the text, at the line and the column that this part ends at, and what a call
finds, a token or a failure, is placed where the call stops. An error that reading starts with, or
that any of its calls gives, is placed where a call that scans has stopped by then. -/
theorem positions_are_real (text : String) :
    (∀ n, ∃ front, text.toList = front ++ ((Cursor.ofText text).after n).rest ∧
      ((Cursor.ofText text).after n).position = .behind front) ∧
    (∀ n, (Lexeme.list text)[n]? = ((Cursor.ofText text).after n).next.1.map
      (⟨·, ((Cursor.ofText text).after (n + 1)).position⟩)) ∧
    (∀ e, Reading.ofText text = .error e → Cursor.StopsAt text 1 e.position) ∧
    ∀ r, Reading.ofText text = .ok r → ∀ n, ∃ calls,
      (r.after (n + 1)).cursor = (Cursor.ofText text).after calls ∧
      ∀ e, (r.after n).next.1 = some (.error e) → Cursor.StopsAt text calls e.position := by
  refine ⟨Cursor.position_after text, Cursor.getElem?_list text, fun e => Reading.stopsAt_ofText, ?_⟩
  intro r h n
  obtain ⟨calls, hcalls⟩ := Reading.cursor_after (Reading.cursor_ofText h) n
  obtain ⟨more, hmore, herror⟩ := Reading.stopsAt_read [] _ hcalls fun h => absurd rfl h
  refine ⟨calls + more + 1, ?_, herror⟩
  rw [Reading.after_succ]
  exact hmore

/-- A string that is not closed, on the second line of a text and at its start. -/
theorem positions_are_real_unclosed :
    (∃ r, Reading.ofText "a\n  \"oops" = .ok r ∧
      r.next.1 = some (.error ⟨.scan (.quoted .openQuote), ⟨2, 8⟩⟩) ∧
      ∃ calls, Cursor.StopsAt "a\n  \"oops" calls ⟨2, 8⟩) ∧
    Reading.ofText "\"oops" = .error ⟨.scan (.quoted .openQuote), ⟨1, 6⟩⟩ ∧
    Cursor.StopsAt "\"oops" 1 ⟨1, 6⟩ := by
  obtain ⟨calls, _, hstop⟩ := (positions_are_real "a\n  \"oops").2.2.2 _ rfl 0
  have hnext : (Reading.read [] ⟨⟨⟨1, 2⟩, "\n  \"oops".toList⟩, some (.symbol "a"), ⟨1, 1⟩⟩).1 =
      some (.error ⟨.scan (.quoted .openQuote), ⟨2, 8⟩⟩) := by
    rw [Reading.read_some rfl]
    rfl
  exact ⟨⟨_, rfl, hnext, calls, hstop _ hnext⟩, rfl,
    (positions_are_real "\"oops").2.2.1 _ rfl⟩

end SmallLisp
