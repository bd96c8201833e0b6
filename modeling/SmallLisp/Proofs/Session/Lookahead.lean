import Mathlib
import SmallLisp.Proofs.Evaluation.Fuel
import SmallLisp.Proofs.Reading.Concatenation
import SmallLisp.Session.Basic

/-!
# Reading ahead

A form is handed on when the lexeme behind it has been looked at. If that one is a failure, the form
in front of it is lost: it is neither read as the first form nor evaluated. Every other text behind
a form, well-formed or not, leaves it as it is. The main statement is `form_in_front_of_text`.
-/

namespace SmallLisp

open Reader

variable {front back : String} {v : Value} {vs : List Value} {e : ReadError}

/-! ### The first form -/

theorem readFirst_further_lines (h : readAll front = .ok [v])
    (hback : failure? (Lexeme.list back) = none) :
    readFirst (front ++ "\n" ++ back) = .ok v := by
  unfold readFirst
  rw [readEach_further_lines h hback]
  rfl

theorem readFirst_before_failure (h : readAll front = .ok [v])
    (hback : failure? (Lexeme.list back) = some e) :
    readFirst (front ++ "\n" ++ back) = .error (e.lower (front.toList.count '\n' + 1)) := by
  unfold readFirst
  rw [readEach_before_failure h hback]
  rfl

theorem readFirst_further_lines_iff (h : readAll front = .ok [v]) (back : String) :
    readFirst (front ++ "\n" ++ back) = .ok v ↔ failure? (Lexeme.list back) = none := by
  constructor
  · intro hfirst
    cases hback : failure? (Lexeme.list back) with
    | none => rfl
    | some e =>
      rw [readFirst_before_failure h hback] at hfirst
      cases hfirst
  · exact readFirst_further_lines h

/-! ### Evaluating texts -/

/-- Forms in front are evaluated in turn before anything behind them counts. -/
theorem evalEach_append (n : Nat) (f : FrameId) (last : Value) (vs : List Value)
    (rest : List (Except ReadError Value)) :
    evalEach n f last (vs.map .ok ++ rest) =
      Eval.forEach (eval n · f) vs >>= fun ws => evalEach n f (ws.getLastD last) rest := by
  induction vs generalizing last with
  | nil => rfl
  | cons v vs ih =>
    have hfirst : evalEach n f last ((v :: vs).map .ok ++ rest) =
        eval n v f >>= fun w => evalEach n f w (vs.map .ok ++ rest) := rfl
    have hall : Eval.forEach (eval n · f) (v :: vs) = eval n v f >>= fun w =>
        Eval.forEach (eval n · f) vs >>= fun ws => pure (w :: ws) := rfl
    rw [hfirst, hall, bind_assoc]
    refine congrArg (eval n v f >>= ·) (funext fun w => ?_)
    rw [ih, bind_assoc]
    refine congrArg (Eval.forEach (eval n · f) vs >>= ·) (funext fun ws => ?_)
    rw [pure_bind, List.getLastD_cons]

theorem evalText_further_lines (h : readAll front = .ok vs)
    (hback : failure? (Lexeme.list back) = none) (n : Nat) (f : FrameId) :
    evalText n (front ++ "\n" ++ back) f = Eval.forEach (eval n · f) vs >>= fun ws =>
      evalEach n f (ws.getLastD .nil) ((readEach back).map
        (Except.mapError (ReadError.lower (front.toList.count '\n' + 1)))) := by
  unfold evalText
  rw [readEach_further_lines h hback, evalEach_append]

theorem evalText_before_failure (h : readAll front = .ok vs)
    (hback : failure? (Lexeme.list back) = some e) (n : Nat) (f : FrameId) :
    evalText n (front ++ "\n" ++ back) f = Eval.forEach (eval n · f) vs.dropLast >>= fun _ =>
      .fail (.ofReadError (e.lower (front.toList.count '\n' + 1))) := by
  unfold evalText
  rw [readEach_before_failure h hback, evalEach_append]
  rfl

/-! ### The main statement -/

/-- A form is read from in front of a text, and the forms in front of a text are evaluated before
anything behind them, if and only if the text does not begin with a failure to scan. If it does,
reading the first form is that failure, and all forms but the last one are evaluated. -/
theorem form_in_front_of_text (h : readAll front = .ok vs) (back : String) :
    (∀ v, vs = [v] →
      (readFirst (front ++ "\n" ++ back) = .ok v ↔ failure? (Lexeme.list back) = none)) ∧
    (failure? (Lexeme.list back) = none → ∀ n f,
      evalText n (front ++ "\n" ++ back) f = Eval.forEach (eval n · f) vs >>= fun ws =>
        evalEach n f (ws.getLastD .nil) ((readEach back).map
          (Except.mapError (ReadError.lower (front.toList.count '\n' + 1))))) ∧
    ∀ e, failure? (Lexeme.list back) = some e →
      (∀ v, vs = [v] → readFirst (front ++ "\n" ++ back) =
        .error (e.lower (front.toList.count '\n' + 1))) ∧
      ∀ n f, evalText n (front ++ "\n" ++ back) f =
        Eval.forEach (eval n · f) vs.dropLast >>= fun _ =>
          .fail (.ofReadError (e.lower (front.toList.count '\n' + 1))) := by
  refine ⟨?_, fun hback n f => evalText_further_lines h hback n f, fun e hback => ⟨?_, ?_⟩⟩
  · rintro v rfl
    exact readFirst_further_lines_iff h back
  · rintro v rfl
    exact readFirst_before_failure h hback
  · exact fun n f => evalText_before_failure h hback n f

theorem readAll_sampleDefine :
    readAll "(define x 1)" = .ok [.ofList [.named "define", .named "x", .int 1]] := by
  cbv

/-- A string without an end. -/
theorem failure_sampleQuote :
    failure? (Lexeme.list "\"a") = some ⟨.scan (.quoted .openQuote), ⟨1, 3⟩⟩ := by
  cbv

theorem form_in_front_of_text_sampleQuote :
    readFirst "(define x 1)\n) \"a" = .ok (.ofList [.named "define", .named "x", .int 1]) ∧
    readFirst "(define x 1)\n\"a" = .error ⟨.scan (.quoted .openQuote), ⟨2, 3⟩⟩ ∧
    ∀ n f s, evalText n "(define x 1)\n\"a" f s =
      .error (.fault (.read "Unterminated string" ⟨2, 3⟩)) s := by
  have hbracket : failure? (Lexeme.list ") \"a") = none := by cbv
  have hlost := (form_in_front_of_text readAll_sampleDefine "\"a").2.2 _ failure_sampleQuote
  refine ⟨?_, hlost.1 _ rfl, fun n f s => ?_⟩
  · exact ((form_in_front_of_text readAll_sampleDefine ") \"a").1 _ rfl).mpr hbracket
  · exact congrFun (hlost.2 n f) s

/-- A form that can be read on its own is not read in front of a string without an end, and is not
evaluated there. -/
theorem form_lost_before_quote :
    readAll "(define x 1)" = .ok [.ofList [.named "define", .named "x", .int 1]] ∧
    readFirst ("(define x 1)" ++ "\n" ++ "\"a") =
      .error ⟨.scan (.quoted .openQuote), ⟨2, 3⟩⟩ ∧
    evalText 9 ("(define x 1)" ++ "\n" ++ "\"a") 0 (.initial 9 [] .empty 0) =
      .error (.fault (.read "Unterminated string" ⟨2, 3⟩)) (.initial 9 [] .empty 0) := by
  refine ⟨readAll_sampleDefine, by cbv, ?_⟩
  have hlost := evalText_before_failure readAll_sampleDefine failure_sampleQuote 9 0
  exact congrFun hlost _

end SmallLisp
