import Mathlib
import SmallLisp.Proofs.Reading.Feed
import SmallLisp.Proofs.Reading.Lines

/-!
# Texts on further lines

A text that reads as forms leaves nothing open, so that what stands on the lines behind it is read
as it is read alone: the forms are the same, and an error is the same but for the line that it is
placed on. The main statement is `readAll_further_lines`.
-/

namespace SmallLisp

/-! ### Positions on further lines -/

/-- The place that is `k` lines further down. -/
def Position.lower (k : Nat) (p : Position) : Position := ⟨p.line + k, p.column⟩

theorem Position.next_lower (k : Nat) (p : Position) (c : Char) :
    (p.lower k).next c = (p.next c).lower k := by
  unfold next lower
  split
  · rw [Nat.add_right_comm]
  · rfl

theorem Position.after_lower (k : Nat) (p : Position) (cs : List Char) :
    (p.lower k).after cs = (p.after cs).lower k := by
  induction cs generalizing p with
  | nil => rfl
  | cons c cs ih => rw [after_cons, after_cons, next_lower, ih]

theorem Position.line_after (p : Position) (cs : List Char) :
    (p.after cs).line = p.line + cs.count '\n' := by
  induction cs generalizing p with
  | nil => rfl
  | cons c cs ih =>
    rw [after_cons, ih, next]
    by_cases hc : c = '\n'
    · rw [if_pos hc, hc, List.count_cons_self, Nat.add_assoc, Nat.add_comm 1]
    · rw [if_neg hc, List.count_cons_of_ne hc]

/-- Behind a newline a line starts, as at the start of a text. -/
theorem Position.start_after_newline (cs : List Char) :
    start.after (cs ++ ['\n']) = start.lower (cs.count '\n' + 1) := by
  have hline := line_after start cs
  rw [after_append, after_cons, after_nil, next, if_pos rfl, hline, lower, Nat.add_assoc]
  rfl

/-! ### Lexemes on further lines -/

def Lexeme.lower (k : Nat) (lexeme : Lexeme) : Lexeme := ⟨lexeme.found, lexeme.position.lower k⟩

theorem listFrom_lower (k : Nat) (p : Position) (cs : List Char) :
    Lexeme.listFrom (p.lower k) cs = (Lexeme.listFrom p cs).map (Lexeme.lower k) := by
  generalize hn : cs.length = n
  induction n using Nat.strongRecOn generalizing p cs with
  | ind n ih =>
    cases h : Scan.first? cs with
    | none =>
      rw [listFrom_none h, listFrom_none h]
      rfl
    | some scan =>
      have hrest := ih _ (hn ▸ Scan.length_rest_lt h) (p.after scan.taken) scan.rest rfl
      rw [listFrom_some h, listFrom_some h, Position.after_lower, hrest]
      rfl

/-! ### Reading on further lines -/

def ReadError.lower (k : Nat) (e : ReadError) : ReadError := ⟨e.cause, e.position.lower k⟩

namespace Reader

section

variable (k : Nat) {finish last : Position} {stack : List Open} {lexemes : List Lexeme}

theorem failure?_lower (lexemes : List Lexeme) :
    failure? (lexemes.map (Lexeme.lower k)) = (failure? lexemes).map (ReadError.lower k) := by
  cases lexemes with
  | nil => rfl
  | cons lexeme rest =>
    obtain ⟨found, p⟩ := lexeme
    cases found <;> rfl

theorem openAtEnd?_lower (finish last : Position) (stack : List Open) :
    openAtEnd? (finish.lower k) (last.lower k) stack =
      (openAtEnd? finish last stack).map (ReadError.lower k) := by
  cases stack with
  | nil => rfl
  | cons top outer => cases top <;> rfl

theorem outcomes_lower :
    outcomes (finish.lower k) stack (last.lower k) (lexemes.map (Lexeme.lower k)) =
      (outcomes finish stack last lexemes).map (Except.mapError (ReadError.lower k)) := by
  induction lexemes generalizing stack last with
  | nil =>
    rw [List.map_nil, outcomes, outcomes, openAtEnd?_lower]
    cases openAtEnd? finish last stack <;> rfl
  | cons lexeme rest ih =>
    obtain ⟨found, p⟩ := lexeme
    cases found with
    | error e => rfl
    | ok t =>
      have hnext := failure?_lower k rest
      rw [List.map_cons]
      change outcomes _ stack _ (⟨.ok t, p.lower k⟩ :: _) = _
      cases hfailure : failure? rest with
      | some e =>
        rw [hfailure] at hnext
        rw [outcomes_failure hnext, outcomes_failure hfailure]
        rfl
      | none =>
        rw [hfailure] at hnext
        cases hshift : shift stack t with
        | error cause =>
          rw [outcomes_error hnext hshift, outcomes_error hfailure hshift, ih]
          rfl
        | ok progress =>
          cases progress with
          | form v =>
            rw [outcomes_form hnext hshift, outcomes_form hfailure hshift, ih]
            rfl
          | pending opened =>
            rw [outcomes_pending hnext hshift, outcomes_pending hfailure hshift, ih]

/-- Where nothing is open it does not matter where the last token ended. -/
theorem outcomes_anew (finish last last' : Position) (lexemes : List Lexeme) :
    outcomes finish [] last lexemes = outcomes finish [] last' lexemes := by
  cases lexemes with
  | nil => rfl
  | cons lexeme rest =>
    obtain ⟨found, p⟩ := lexeme
    cases found <;> rfl

end

end Reader

open Reader

theorem mapM_id_mapError {ε ε' α : Type} (g : ε → ε') (rs : List (Except ε α)) :
    (rs.map (Except.mapError g)).mapM id = (rs.mapM id).mapError g := by
  induction rs with
  | nil => rfl
  | cons r rs ih =>
    rw [List.map_cons, List.mapM_cons, List.mapM_cons, ih]
    cases r with
    | error e => rfl
    | ok a => cases rs.mapM id <;> rfl

theorem mapM_id_append {ε α : Type} (as : List α) (rs : List (Except ε α)) :
    (as.map Except.ok ++ rs).mapM id = (rs.mapM id).map (as ++ ·) := by
  induction as with
  | nil =>
    rw [List.map_nil, List.nil_append]
    cases rs.mapM id <;> rfl
  | cons a as ih =>
    rw [List.map_cons, List.cons_append, List.mapM_cons, ih]
    cases rs.mapM id <;> rfl

section

variable {front back : String} {vs : List Value}

/-- The lexemes of a text behind a text that consists of tokens, each as many lines further down as
the front text takes. -/
theorem list_further_lines {ts : List Token} (h : scans front.toList = ts.map .ok) (back : String) :
    Lexeme.list (front ++ "\n" ++ back) = Lexeme.list front ++
      (Lexeme.list back).map (Lexeme.lower (front.toList.count '\n' + 1)) := by
  have hwhole : (front ++ "\n" ++ back).toList = front.toList ++ '\n' :: back.toList := by simp
  unfold Lexeme.list
  rw [hwhole, listFrom_line h, Position.start_after_newline, listFrom_lower]

theorem finish_further_lines (front back : String) :
    Position.start.after (front ++ "\n" ++ back).toList =
      (Position.start.after back.toList).lower (front.toList.count '\n' + 1) := by
  have hwhole : (front ++ "\n" ++ back).toList = (front.toList ++ ['\n']) ++ back.toList := by simp
  rw [hwhole, Position.after_append, Position.start_after_newline, Position.after_lower]

/-- What is read of a text that reads as forms and of the lines behind it, if these do not begin with
a failure. -/
theorem readEach_further_lines (h : readAll front = .ok vs)
    (hback : failure? (Lexeme.list back) = none) :
    readEach (front ++ "\n" ++ back) = vs.map .ok ++ (readEach back).map
      (Except.mapError (ReadError.lower (front.toList.count '\n' + 1))) := by
  obtain ⟨ts, hts, hfeed⟩ := readAll_eq_ok_iff.mp h
  have hfront : (Lexeme.list front).map Lexeme.found = ts.map .ok := hts
  unfold readEach
  rw [list_further_lines hts, finish_further_lines, ← outcomes_lower]
  generalize front.toList.count '\n' + 1 = k
  have hclear : failure? ((Lexeme.list back).map (Lexeme.lower k)) = none := by
    rw [failure?_lower, hback]
    rfl
  obtain ⟨last', hout⟩ := outcomes_tokens hfront hclear hfeed
  rw [hout, outcomes_anew _ last' (Position.start.lower k)]

/-- If the lines behind a text that reads as forms begin with a failure, the last form is lost. -/
theorem readEach_before_failure {e : ReadError} (h : readAll front = .ok vs)
    (hback : failure? (Lexeme.list back) = some e) :
    readEach (front ++ "\n" ++ back) =
      vs.dropLast.map .ok ++ [.error (e.lower (front.toList.count '\n' + 1))] := by
  obtain ⟨ts, hts, hfeed⟩ := readAll_eq_ok_iff.mp h
  have hfront : (Lexeme.list front).map Lexeme.found = ts.map .ok := hts
  unfold readEach
  rw [list_further_lines hts]
  generalize front.toList.count '\n' + 1 = k
  have hfailure : failure? ((Lexeme.list back).map (Lexeme.lower k)) = some (e.lower k) := by
    rw [failure?_lower, hback]
    rfl
  obtain ⟨ws, hout, hws⟩ := outcomes_before_failure hfront hfailure hfeed
  rw [hout, hws rfl]

theorem readEach_of_failure {e : ReadError} (hback : failure? (Lexeme.list back) = some e) :
    readEach back = [.error e] := by
  obtain ⟨cause, p, rest, hlist, rfl⟩ := failure?_eq_some hback
  unfold readEach
  rw [hlist]
  rfl

/-- Reading goes on behind forms as it begins. -/
theorem readAll_append (h : readAll front = .ok vs) (back : String) :
    readAll (front ++ "\n" ++ back) =
      ((readAll back).mapError (ReadError.lower (front.toList.count '\n' + 1))).map (vs ++ ·) := by
  cases hfailure : failure? (Lexeme.list back) with
  | none =>
    unfold readAll
    rw [readEach_further_lines h hfailure, mapM_id_append, mapM_id_mapError]
  -- The failure is found with the last token of the front text, and takes its form along.
  | some e =>
    unfold readAll
    rw [readEach_before_failure h hfailure, readEach_of_failure hfailure, mapM_id_append]
    rfl

/-- A text that reads as forms can be read apart from the lines behind it: these read as the forms,
or as the error, that they read as alone, and the error is placed as many lines further down as the
front text takes. -/
theorem readAll_further_lines (h : readAll front = .ok vs) (back : String) :
    (∀ ws, readAll back = .ok ws → readAll (front ++ "\n" ++ back) = .ok (vs ++ ws)) ∧
    ∀ e, readAll back = .error e → readAll (front ++ "\n" ++ back) =
      .error ⟨e.cause, ⟨e.position.line + (front.toList.count '\n' + 1), e.position.column⟩⟩ := by
  have happend := readAll_append h back
  constructor
  · intro ws hws
    rw [hws] at happend
    exact happend
  · intro e he
    rw [he] at happend
    exact happend

theorem readAll_further_lines_sampleComment :
    readAll "1 ; (\n" = .ok [.int 1] ∧
    readAll "1 ; (\n\n2" = .ok [.int 1, .int 2] ∧
    readAll "1 ; (\n\n [2\n3" = .error ⟨.unterminated .square, ⟨4, 2⟩⟩ := by
  have hfront : readAll "1 ; (\n" = .ok [.int 1] := by cbv
  have hforms : readAll "2" = .ok [.int 2] := by cbv
  have herror : readAll " [2\n3" = .error ⟨.unterminated .square, ⟨2, 2⟩⟩ := by cbv
  exact ⟨hfront, (readAll_further_lines hfront "2").1 _ hforms,
    (readAll_further_lines hfront " [2\n3").2 _ herror⟩

end

end SmallLisp
