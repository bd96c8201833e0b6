import SmallLisp.Proofs.Reading.Feed
import SmallLisp.Proofs.Repl.Balance

/-!
# Balance and reading

Balance and reading see the same brackets and strings: the depth behind some tokens is the number of
brackets that reading keeps open, so that a text which reads as forms is balanced, and one that ends
in a bracket or in a string is not. The main statement is `isBalanced_of_readAll`.
-/

namespace SmallLisp

/-! ### Open brackets -/

namespace Reader

def Open.isBracket : Open → Bool
  | .bracket _ _ => true
  | _ => false

/-- The number of brackets among open forms. -/
def brackets (stack : List Open) : Int := stack.countP Open.isBracket

/-- The forms that are open where reading stands. -/
def Progress.stack : Progress → List Open
  | .form _ => []
  | .pending stack => stack

section

variable {stack opened : List Open} {t : Token} {ts : List Token} {v : Value} {vs : List Value}

theorem brackets_bracket (b : Bracket) (items : List Value) (stack : List Open) :
    brackets (.bracket b items :: stack) = brackets stack + 1 := by
  rw [brackets, List.countP_cons_of_pos rfl]
  rfl

theorem brackets_of_waiting {top : Open} (h : top.isBracket = false) (stack : List Open) :
    brackets (top :: stack) = brackets stack := by
  simp [brackets, h]

theorem brackets_nonneg (stack : List Open) : 0 ≤ brackets stack := Int.natCast_nonneg _

theorem brackets_supply (stack : List Open) (v : Value) :
    brackets (supply stack v).stack = brackets stack := by
  induction stack generalizing v with
  | nil => rfl
  | cons top stack ih =>
    cases top with
    | bracket b items =>
      rw [brackets_bracket]
      exact brackets_bracket b (v :: items) stack
    | mark m => exact (ih _).trans (brackets_of_waiting rfl stack).symm
    | metadata => rfl
    | target m => exact (ih _).trans (brackets_of_waiting rfl stack).symm

/-- A token changes the number of open brackets by its own. -/
theorem brackets_shift {progress : Progress} (h : shift stack t = .ok progress) :
    brackets progress.stack = brackets stack + t.delta := by
  cases t with
  | opening b =>
    cases h
    exact brackets_bracket b [] stack
  | mark m =>
    cases h
    exact (brackets_of_waiting rfl stack).trans (Int.add_zero _).symm
  | annotate =>
    cases h
    exact (brackets_of_waiting rfl stack).trans (Int.add_zero _).symm
  | closing b =>
    cases stack with
    | nil => cases h
    | cons top outer =>
      cases top with
      | bracket inner items =>
        rw [shift_closing] at h
        split at h
        · cases hitems : enclose b items.reverse with
          | error cause =>
            rw [hitems] at h
            cases h
          | ok v =>
            rw [hitems] at h
            cases h
            rw [brackets_supply, brackets_bracket, Token.delta, Int.add_neg_cancel_right]
        · cases h
      | _ => cases h
  | _ =>
    cases h
    exact (brackets_supply stack _).trans (Int.add_zero _).symm

/-- Tokens that can be handed on leave as many brackets open as they open and do not close. -/
theorem brackets_feed (h : feed stack ts = .ok (vs, opened)) :
    brackets opened = brackets stack + Token.net ts := by
  induction ts generalizing stack vs with
  | nil =>
    cases h
    rw [Token.net_nil, Int.add_zero]
  | cons t ts ih =>
    rw [Token.net_cons, ← Int.add_assoc]
    rcases feed_cons_cases h with ⟨v, ws, hshift, hfeed, _⟩ | ⟨inner, hshift, hfeed⟩
    · rw [ih hfeed, ← brackets_shift hshift]
      rfl
    · rw [ih hfeed, ← brackets_shift hshift]
      rfl

theorem brackets_of_feed (h : feed [] ts = .ok (vs, opened)) : brackets opened = Token.net ts :=
  (brackets_feed h).trans (Int.zero_add _)

end

end Reader

/-! ### Texts that end too early -/

open Reader

/-- Whether a text ended in a bracket or in a string. -/
def ReadCause.isUnterminated : ReadCause → Bool
  | .unterminated _ => true
  | .scan e => e.isOpen
  | _ => false

theorem ReadCause.isUnterminated_of_message {cause : ReadCause}
    (h : "Unterminated".toList <+: cause.message.toList) : cause.isUnterminated = true := by
  cases cause with
  | unterminated b => rfl
  | scan e =>
    unfold message ScanError.message at h
    cases e with
    | quoted flaw =>
      cases flaw with
      | unknownEscape c => simp at h
      | openEscape => rfl
      | openQuote => rfl
    | _ => simp at h
  | _ =>
    unfold message at h
    simp at h

theorem mapM_id_cons_error {ε α : Type} {a : α} {rs : List (Except ε α)} {e : ε}
    (h : (.ok a :: rs).mapM id = .error e) : rs.mapM id = .error e := by
  rw [List.mapM_cons] at h
  cases hrs : rs.mapM id with
  | error e' =>
    rw [hrs] at h
    cases h
    rfl
  | ok as =>
    rw [hrs] at h
    cases h

theorem entry_error_cause {pair : Value × Value} {cause : ReadCause}
    (h : entry pair = .error cause) : cause.isUnterminated = false := by
  unfold entry at h
  split at h
  · cases h
  · cases h
    rfl

theorem enclose_error_cause {b : Bracket} {items : List Value} {cause : ReadCause}
    (h : enclose b items = .error cause) : cause.isUnterminated = false := by
  cases b with
  | round => cases h
  | square => cases h
  | curly =>
    rw [enclose] at h
    split at h
    · cases h
      rfl
    · obtain ⟨pair, _, hpair⟩ := exists_of_mapM_error (eq_error_of_map h)
      exact entry_error_cause hpair

theorem shift_error_cause {stack : List Open} {t : Token} {cause : ReadCause}
    (h : shift stack t = .error cause) : cause.isUnterminated = false := by
  cases t with
  | closing b =>
    cases stack with
    | nil =>
      cases h
      rfl
    | cons top outer =>
      cases top with
      | bracket inner items =>
        rw [shift_closing] at h
        split at h
        · exact enclose_error_cause (eq_error_of_map h)
        · cases h
          rfl
      | _ =>
        cases h
        rfl
  | _ => cases h

/-- Whether what is found behind open forms ends with a bracket open, or in a string. -/
def EndsEarly (stack : List Open) (found : List (Except ScanError Token)) : Prop :=
  (∃ (ts : List Token) (vs : List Value) (opened : List Open),
    found = ts.map .ok ∧ feed stack ts = .ok (vs, opened) ∧ 0 < brackets opened) ∨
  ∃ (ts : List Token) (e : ScanError) (back : List (Except ScanError Token)),
    found = ts.map .ok ++ .error e :: back ∧ e.isOpen = true

theorem endsEarly_of_open {stack : List Open} {e : ScanError} (he : e.isOpen = true)
    (back : List (Except ScanError Token)) : EndsEarly stack (.error e :: back) :=
  .inr ⟨[], e, back, rfl, he⟩

theorem EndsEarly.token {stack : List Open} {t : Token} {progress : Progress}
    {found : List (Except ScanError Token)} (hshift : shift stack t = .ok progress)
    (h : EndsEarly progress.stack found) : EndsEarly stack (.ok t :: found) := by
  rcases h with ⟨ts, vs, opened, rfl, hfeed, hopen⟩ | ⟨ts, e, back, rfl, he⟩
  · have hproceed : ∃ ws, feed stack (t :: ts) = .ok (ws, opened) := by
      rw [feed_cons hshift]
      cases progress with
      | form v => exact ⟨v :: vs, congrArg (Except.map _) hfeed⟩
      | pending inner => exact ⟨vs, hfeed⟩
    obtain ⟨ws, hws⟩ := hproceed
    exact .inl ⟨t :: ts, ws, opened, rfl, hws, hopen⟩
  · exact .inr ⟨t :: ts, e, back, rfl, he⟩

/-- A text that ends too early ends with a bracket open, or in a string. -/
theorem outcomes_unterminated {finish last : Position} {stack : List Open} {lexemes : List Lexeme}
    {e : ReadError} (h : (outcomes finish stack last lexemes).mapM id = .error e)
    (he : e.cause.isUnterminated = true) : EndsEarly stack (lexemes.map Lexeme.found) := by
  induction lexemes generalizing stack last with
  | nil =>
    refine .inl ⟨[], [], stack, rfl, rfl, ?_⟩
    cases stack with
    | nil => cases h
    | cons top outer =>
      cases top with
      | bracket b items =>
        rw [brackets_bracket]
        exact Int.lt_add_one_of_le (brackets_nonneg outer)
      | _ =>
        cases h
        cases he
  | cons lexeme rest ih =>
    obtain ⟨found, p⟩ := lexeme
    cases found with
    | error cause =>
      cases h
      exact endsEarly_of_open he _
    | ok t =>
      cases hfailure : failure? rest with
      -- The failure comes first, whatever the token in front of it would have done.
      | some e' =>
        rw [outcomes_failure hfailure] at h
        obtain ⟨cause, q, more, rfl, rfl⟩ := failure?_eq_some hfailure
        cases h
        exact .inr ⟨[t], cause, more.map Lexeme.found, rfl, he⟩
      | none =>
        cases hshift : shift stack t with
        | error cause =>
          rw [outcomes_error hfailure hshift] at h
          cases h
          rw [shift_error_cause hshift] at he
          cases he
        | ok progress =>
          refine EndsEarly.token hshift ?_
          cases progress with
          | form v =>
            rw [outcomes_form hfailure hshift] at h
            exact ih (mapM_id_cons_error h)
          | pending inner =>
            rw [outcomes_pending hfailure hshift] at h
            exact ih h

theorem isBalanced_of_forms {text : String} {vs : List Value} (h : readAll text = .ok vs) :
    isBalanced text = true := by
  obtain ⟨ts, hts, hfeed⟩ := readAll_eq_ok_iff.mp h
  rw [isBalanced_of_tokens hts, ← brackets_of_feed hfeed]
  rfl

/-- Where there are less than 2 ^ 31 characters, the depth fits in 32 bits behind each of them. -/
theorem Balance.depth_fits {text : String} (h : text.length < 2 ^ 31) {front : List Char}
    (hfront : front <+: text.toList) :
    -2 ^ 31 ≤ (front.foldl step start).depth ∧ (front.foldl step start).depth < 2 ^ 31 := by
  have hlength : front.length ≤ text.length := hfront.length_le
  have hdepth := depth_after start front
  have hstart : start.depth = 0 := rfl
  unfold after at hdepth
  omega

/-- Text that reads as forms is balanced, and text that ends in a bracket or a string is not. Where
there are less than 2 ^ 31 characters, the depth fits in 32 bits behind each of them. -/
theorem isBalanced_of_readAll (text : String) :
    (∀ vs, readAll text = .ok vs → isBalanced text = true) ∧
    (∀ e, readAll text = .error e → "Unterminated".toList <+: e.cause.message.toList →
      isBalanced text = false) ∧
    (text.length < 2 ^ 31 → ∀ front, front <+: text.toList →
      -2 ^ 31 ≤ (front.foldl Balance.step .start).depth ∧
        (front.foldl Balance.step .start).depth < 2 ^ 31) := by
  refine ⟨fun vs h => isBalanced_of_forms h, fun e h hmessage => ?_,
    fun h _ hfront => Balance.depth_fits h hfront⟩
  have hcause := ReadCause.isUnterminated_of_message hmessage
  rcases outcomes_unterminated h hcause with ⟨ts, vs, opened, hts, hfeed, hopen⟩ |
    ⟨ts, cause, back, hts, hcause⟩
  · rw [isBalanced_of_tokens hts, ← brackets_of_feed hfeed]
    exact decide_eq_false (Int.not_le.mpr hopen)
  · exact isBalanced_of_open hts hcause

theorem isBalanced_of_readAll_sampleString :
    isBalanced "(a \"(\") ; [" = true ∧
    isBalanced "(a ; )\n" = false ∧
    isBalanced "a \"\\" = false ∧
    ("((".toList.foldl Balance.step .start).depth < 2 ^ 31 := by
  have hform : readAll "(a \"(\") ; [" = .ok [.ofList [.named "a", .str "("]] := by cbv
  have hbracket : readAll "(a ; )\n" = .error ⟨.unterminated .round, ⟨1, 3⟩⟩ := by cbv
  have hescape : readAll "a \"\\" = .error ⟨.scan (.quoted .openEscape), ⟨1, 5⟩⟩ := by cbv
  exact ⟨(isBalanced_of_readAll _).1 _ hform,
    (isBalanced_of_readAll _).2.1 _ hbracket (by decide),
    (isBalanced_of_readAll _).2.1 _ hescape (by decide),
    ((isBalanced_of_readAll "((").2.2 (by decide) _ (List.prefix_refl _)).2⟩

end SmallLisp
