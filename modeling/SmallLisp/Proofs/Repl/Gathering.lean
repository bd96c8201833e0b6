import SmallLisp.Proofs.Evaluation.Fuel
import SmallLisp.Proofs.Reading.Concatenation
import SmallLisp.Proofs.Reading.Trim
import SmallLisp.Proofs.Repl.Brackets
import SmallLisp.Repl

/-!
# Gathered lines

The loop cuts the lines that it reads into texts, behind lines where what is gathered is balanced.
If the lines read as forms, no token is lost, added or moved by this. The texts hold the forms of
the lines too, unless some of the lines dangle: a mark or an annotation at the end of a line,
outside of all brackets, is submitted without the form that it waits for. The main statement is
`submissions_of_readAll`; `loop_submits` says that these are the texts that the loop evaluates.
-/

namespace SmallLisp

open Reader

/-! ### Brackets that close -/

/-- Tokens whose brackets are all closed, none of them before it is opened. -/
structure Token.Closes (ts : List Token) : Prop where
  net : Token.net ts = 0
  front : ∀ us vs, ts = us ++ vs → 0 ≤ Token.net us

theorem closes_of_feed {ts : List Token} {vs : List Value} (h : feed [] ts = .ok (vs, [])) :
    Token.Closes ts where
  net := (brackets_of_feed h).symm
  front := by
    rintro us back rfl
    obtain ⟨ws, opened, xs, hus, _, _⟩ := feed_append_cases h
    rw [← brackets_of_feed hus]
    exact brackets_nonneg opened

theorem Token.Closes.behind {us vs : List Token} (h : Token.Closes (us ++ vs))
    (hus : Token.net us ≤ 0) : Token.Closes vs := by
  have hfront := h.front us vs rfl
  have hnet := h.net
  rw [Token.net_append] at hnet
  refine ⟨by omega, ?_⟩
  rintro as bs rfl
  have has := h.front (us ++ as) bs (List.append_assoc us as bs).symm
  rw [Token.net_append] at has
  omega

/-! ### What texts give one behind the other -/

/-- What texts give, one behind the other, or the first error. -/
def collect {ε α : Type} (read : String → Except ε (List α)) (texts : List String) :
    Except ε (List α) :=
  (texts.mapM read).map List.flatten

section

variable {ε α : Type} {read : String → Except ε (List α)} {text : String} {texts more : List String}
  {as bs : List α}

theorem collect_nil : collect read [] = .ok [] := rfl

theorem collect_cons_error {e : ε} (h : read text = .error e) :
    collect read (text :: texts) = .error e := by
  unfold collect
  rw [List.mapM_cons, h]
  rfl

theorem collect_cons_ok (h : read text = .ok as) :
    collect read (text :: texts) = (collect read texts).map (as ++ ·) := by
  unfold collect
  rw [List.mapM_cons, h]
  cases texts.mapM read <;> rfl

theorem collect_singleton (h : read text = .ok as) : collect read [text] = .ok as := by
  rw [collect_cons_ok h, collect_nil]
  exact congrArg Except.ok (List.append_nil as)

theorem collect_append (h : collect read texts = .ok as) :
    collect read (texts ++ more) = (collect read more).map (as ++ ·) := by
  induction texts generalizing as with
  | nil =>
    cases h
    rw [List.nil_append]
    cases collect read more <;> rfl
  | cons text texts ih =>
    rw [List.cons_append]
    cases htext : read text with
    | error e =>
      rw [collect_cons_error htext] at h
      cases h
    | ok front =>
      rw [collect_cons_ok htext] at h ⊢
      cases htexts : collect read texts with
      | error e =>
        rw [htexts] at h
        cases h
      | ok rest =>
        rw [htexts] at h
        cases h
        rw [ih htexts]
        cases collect read more with
        | error e => rfl
        | ok bs => exact congrArg Except.ok (List.append_assoc front rest bs).symm

theorem collect_append_eq_ok_iff (h : collect read texts = .ok as) :
    collect read (texts ++ more) = .ok (as ++ bs) ↔ collect read more = .ok bs := by
  rw [collect_append h]
  cases collect read more with
  | error e => exact iff_of_false nofun nofun
  | ok cs => simp [Except.map]

end

/-! ### Gathered lines -/

namespace Repl

/-- The lines gathered so far with a line behind them. -/
def typed (gathered line : String) : String :=
  if gathered.isEmpty then line else gathered ++ "\n" ++ line

/-- What is submitted of a balanced text. -/
def submitted (text : String) : List String :=
  if (Text.trim text).isEmpty then [] else [Text.trim text]

/-- The text of lines behind the gathered ones. -/
def wholeText (gathered : String) (lines : List String) : String :=
  "\n".intercalate (if gathered.isEmpty then lines else gathered :: lines)

section

variable {gathered line : String} {lines : List String}

theorem submissions_balanced (h : isBalanced (typed gathered line) = true) :
    submissions gathered (line :: lines) =
      (submitted (typed gathered line) ++ (submissions "" lines).1, (submissions "" lines).2) := by
  have hfeed : feed gathered line = (if (Text.trim (typed gathered line)).isEmpty then none
      else some (Text.trim (typed gathered line)), "") := if_pos h
  rw [submissions, hfeed, submitted]
  dsimp only
  split <;> rfl

theorem submissions_unbalanced (h : isBalanced (typed gathered line) = false) :
    submissions gathered (line :: lines) = submissions (typed gathered line) lines := by
  have hfeed : feed gathered line = (none, typed gathered line) := if_neg (Bool.eq_false_iff.mp h)
  rw [submissions, hfeed]
  rfl

theorem wholeText_nil (gathered : String) : wholeText gathered [] = gathered := by
  unfold wholeText
  split
  · next h => rw [String.isEmpty_iff.mp h, String.intercalate_nil]
  · exact String.intercalate_singleton

theorem wholeText_cons (gathered line : String) (lines : List String) :
    wholeText gathered (line :: lines) = "\n".intercalate (typed gathered line :: lines) := by
  unfold wholeText typed
  split
  · rfl
  · rw [String.intercalate_cons_cons, String.intercalate_cons_append]

theorem length_le_intercalate (line : String) (lines : List String) :
    line.length ≤ ("\n".intercalate (line :: lines)).length := by
  cases lines with
  | nil => rw [String.intercalate_singleton]
  | cons next rest =>
    rw [String.intercalate_cons_cons, String.length_append, String.length_append]
    omega

theorem intercalate_tail_le (line : String) (lines : List String) :
    ("\n".intercalate lines).length ≤ ("\n".intercalate (line :: lines)).length := by
  cases lines with
  | nil => exact Nat.zero_le _
  | cons next rest =>
    rw [String.intercalate_cons_cons, String.length_append]
    omega

/-- Whether the lines gathered so far wait for another one, or there are none. -/
def Waits (gathered : String) : Prop := gathered = "" ∨ isBalanced gathered = false

theorem wholeText_unbalanced (h : isBalanced gathered = false) (lines : List String) :
    wholeText gathered lines = "\n".intercalate (gathered :: lines) := by
  have hgathered : ¬ gathered.isEmpty = true := by
    intro hempty
    rw [String.isEmpty_iff.mp hempty] at h
    revert h
    decide
  exact congrArg ("\n".intercalate ·) (if_neg hgathered)

end

/-! ### Cuts at a line -/

section

variable {text : String} {lines : List String} {ts : List Token}

/-- The tokens of lines that begin with a balanced text are those of this text and those of the
lines behind it. -/
theorem scans_balanced (h : scans ("\n".intercalate (text :: lines)).toList = ts.map .ok)
    (hbalanced : isBalanced text = true) :
    ∃ us vs : List Token, ts = us ++ vs ∧ scans text.toList = us.map .ok ∧
      scans ("\n".intercalate lines).toList = vs.map .ok ∧ Token.net us ≤ 0 := by
  have hnet : ∀ us : List Token, scans text.toList = us.map .ok → Token.net us ≤ 0 := by
    intro us hus
    rw [isBalanced_of_tokens hus] at hbalanced
    exact of_decide_eq_true hbalanced
  cases lines with
  | nil =>
    rw [String.intercalate_singleton] at h
    exact ⟨ts, [], (List.append_nil ts).symm, h, scans_empty, hnet ts h⟩
  | cons line lines =>
    have hwhole : ("\n".intercalate (text :: line :: lines)).toList =
        text.toList ++ '\n' :: ("\n".intercalate (line :: lines)).toList := by
      simp [String.intercalate_cons_cons]
    rw [hwhole] at h
    rcases scans_line_cases h with ⟨us, vs, rfl, hus, hvs⟩ | ⟨us, e, back, hus, he⟩
    · exact ⟨us, vs, rfl, hus, hvs, hnet us hus⟩
    · rw [isBalanced_of_open hus he] at hbalanced
      cases hbalanced

theorem collect_tokens_submitted (h : scans text.toList = ts.map .ok) :
    collect Lexeme.tokens (submitted text) = .ok ts := by
  have htrim := scans_trim h
  unfold submitted
  split
  · next hempty =>
    rw [String.isEmpty_iff.mp hempty, scans_empty] at htrim
    rw [collect_nil, eq_of_map_ok htrim]
  · exact collect_singleton (tokens_eq_ok_iff.mpr htrim)

/-- Where the brackets of lines close, their tokens are those of the texts that are submitted, and
no line stays gathered. -/
theorem collect_tokens_submissions {gathered : String} (hwaits : Waits gathered)
    (h : scans (wholeText gathered lines).toList = ts.map .ok) (hts : Token.Closes ts) :
    (submissions gathered lines).2 = "" ∧
      collect Lexeme.tokens (submissions gathered lines).1 = .ok ts := by
  induction lines generalizing gathered ts with
  | nil =>
    rw [wholeText_nil] at h
    rcases hwaits with rfl | hunbalanced
    · rw [scans_empty] at h
      exact ⟨rfl, congrArg Except.ok (eq_of_map_ok h)⟩
    · rw [isBalanced_of_tokens h, hts.net] at hunbalanced
      cases hunbalanced
  | cons line lines ih =>
    rw [wholeText_cons] at h
    cases hbalanced : isBalanced (typed gathered line) with
    | false =>
      rw [submissions_unbalanced hbalanced]
      rw [← wholeText_unbalanced hbalanced] at h
      exact ih (.inr hbalanced) h hts
    | true =>
      obtain ⟨us, vs, rfl, hus, hvs, hnet⟩ := scans_balanced h hbalanced
      obtain ⟨hleft, htokens⟩ := @ih vs "" (.inl rfl) hvs (hts.behind hnet)
      rw [submissions_balanced hbalanced, collect_append (collect_tokens_submitted hus), htokens]
      exact ⟨hleft, rfl⟩

/-! ### Texts that dangle -/

/-- Whether a text ends with a mark or an annotation that still waits for its form, outside of all
brackets: it is balanced, and reading it fails at its end. -/
def Dangles (text : String) : Prop :=
  isBalanced text = true ∧ ∃ position, readAll text = .error ⟨.unexpectedEnd, position⟩

theorem not_dangles_of_readAll {vs : List Value} (h : readAll text = .ok vs) : ¬ Dangles text := by
  rintro ⟨_, position, herror⟩
  rw [h] at herror
  cases herror

theorem Waits.not_dangles {gathered : String} (h : Waits gathered) : ¬ Dangles gathered := by
  rcases h with rfl | hunbalanced
  · exact not_dangles_of_readAll readAll_empty
  · rintro ⟨hbalanced, _⟩
    rw [hunbalanced] at hbalanced
    cases hbalanced

/-- A balanced text of tokens that can be handed on reads as forms, or it dangles. -/
theorem readAll_or_dangles {vs : List Value} {opened : List Open}
    (h : scans text.toList = ts.map .ok) (hfeed : Reader.feed [] ts = .ok (vs, opened))
    (hnet : Token.net ts ≤ 0) : (opened = [] ∧ readAll text = .ok vs) ∨ Dangles text := by
  have hbrackets := brackets_of_feed hfeed
  cases opened with
  | nil => exact .inl ⟨rfl, readAll_eq_ok_iff.mpr ⟨ts, h, hfeed⟩⟩
  | cons top outer =>
    right
    have hbalanced : isBalanced text = true := by
      rw [isBalanced_of_tokens h]
      exact decide_eq_true hnet
    refine ⟨hbalanced, Position.start.after text.toList, ?_⟩
    have hlist : (Lexeme.list text).map Lexeme.found = ts.map .ok := h
    obtain ⟨last, hout⟩ := outcomes_of_feed hlist hfeed
    cases top with
    | bracket b items =>
      have houter := brackets_nonneg outer
      rw [brackets_bracket] at hbrackets
      omega
    | _ => exact mapM_id_eq_error hout

theorem isBalanced_behind {vs : List Value} (h : readAll text = .ok vs) (back : String) :
    isBalanced (text ++ "\n" ++ back) = isBalanced back := by
  obtain ⟨ts, hts, hfeed⟩ := readAll_eq_ok_iff.mp h
  obtain ⟨inComment, hafter⟩ := Balance.after_tokens hts
  have hwhole : (text ++ "\n" ++ back).toList = text.toList ++ '\n' :: back.toList := by simp
  have hline : Balance.step ⟨0, Balance.spaceRegion inComment⟩ '\n' = .start := by
    cases inComment <;> rfl
  rw [(closes_of_feed hfeed).net] at hafter
  change (Balance.start.after (text ++ "\n" ++ back).toList).closed = _
  rw [hwhole, Balance.after_append, hafter, Balance.after_cons, hline]
  rfl

/-- Behind a text that reads as forms it does not matter for dangling. -/
theorem dangles_behind {vs : List Value} (h : readAll text = .ok vs) (front : List String) :
    Dangles ("\n".intercalate (text :: front)) ↔ Dangles ("\n".intercalate front) := by
  cases front with
  | nil =>
    rw [String.intercalate_singleton]
    exact iff_of_false (not_dangles_of_readAll h) (Waits.not_dangles (.inl String.intercalate_nil))
  | cons line front =>
    rw [String.intercalate_cons_cons]
    generalize "\n".intercalate (line :: front) = back
    unfold Dangles
    rw [isBalanced_behind h, readAll_append h]
    refine and_congr_right fun _ => ?_
    cases readAll back with
    | ok ws => exact iff_of_false nofun nofun
    | error e =>
      obtain ⟨cause, position⟩ := e
      constructor
      · rintro ⟨_, herror⟩
        cases herror
        exact ⟨position, rfl⟩
      · rintro ⟨_, herror⟩
        cases herror
        exact ⟨_, rfl⟩

theorem forall_prefix_cons {α : Type} {a : α} {as : List α} {p : List α → Prop} :
    (∀ front, front <+: a :: as → p front) ↔ p [] ∧ ∀ front, front <+: as → p (a :: front) := by
  constructor
  · intro h
    refine ⟨h [] List.nil_prefix, fun front hfront => h (a :: front) ?_⟩
    exact List.cons_prefix_cons.mpr ⟨rfl, hfront⟩
  · rintro ⟨hnil, hcons⟩ front hfront
    rcases List.prefix_cons_iff.mp hfront with rfl | ⟨more, rfl, hmore⟩
    · exact hnil
    · exact hcons more hmore

theorem collect_readAll_submitted {vs : List Value} (h : readAll text = .ok vs) :
    collect readAll (submitted text) = .ok vs := by
  obtain ⟨ts, hts, hfeed⟩ := readAll_eq_ok_iff.mp h
  have htrim := readAll_eq_ok_iff.mpr ⟨ts, scans_trim hts, hfeed⟩
  unfold submitted
  split
  · next hempty =>
    rw [String.isEmpty_iff.mp hempty] at htrim
    exact readAll_empty.symm.trans htrim
  · exact collect_singleton htrim

/-- A text that dangles is submitted, and does not read as forms. -/
theorem collect_readAll_dangles (h : scans text.toList = ts.map .ok) (hdangles : Dangles text)
    (more : List String) (vs : List Value) :
    collect readAll (submitted text ++ more) ≠ .ok vs := by
  intro hvs
  have htrim : ∀ ws, readAll (Text.trim text) ≠ .ok ws := by
    intro ws hws
    obtain ⟨us, hus, hfeed⟩ := readAll_eq_ok_iff.mp hws
    rw [scans_trim h] at hus
    obtain rfl := eq_of_map_ok hus
    exact not_dangles_of_readAll (readAll_eq_ok_iff.mpr ⟨ts, h, hfeed⟩) hdangles
  cases hread : readAll (Text.trim text) with
  | ok ws => exact htrim ws hread
  | error e =>
    unfold submitted at hvs
    split at hvs
    · next hempty =>
      rw [String.isEmpty_iff.mp hempty] at htrim
      exact htrim [] readAll_empty
    · rw [List.cons_append, collect_cons_error hread] at hvs
      cases hvs

/-- The texts that are submitted read as the forms of the lines, unless the lines are cut where
they dangle. -/
theorem collect_readAll_submissions {gathered : String} {forms : List Value}
    (hwaits : Waits gathered) (h : readAll (wholeText gathered lines) = .ok forms) :
    collect readAll (submissions gathered lines).1 = .ok forms ↔
      ∀ front, front <+: lines → ¬ Dangles (wholeText gathered front) := by
  induction lines generalizing gathered forms with
  | nil =>
    rw [wholeText_nil] at h
    rcases hwaits with rfl | hunbalanced
    · refine iff_of_true (readAll_empty.symm.trans h) fun front hfront => ?_
      · rw [List.prefix_nil.mp hfront]
        exact Waits.not_dangles (.inl rfl)
    · rw [isBalanced_of_forms h] at hunbalanced
      cases hunbalanced
  | cons line lines ih =>
    rw [wholeText_cons] at h
    have hfront : ∀ front, wholeText gathered (line :: front) = _ := wholeText_cons gathered line
    simp only [forall_prefix_cons, hfront, wholeText_nil]
    refine Iff.trans ?_ (and_iff_right hwaits.not_dangles).symm
    cases hbalanced : isBalanced (typed gathered line) with
    | false =>
      rw [submissions_unbalanced hbalanced]
      simp only [← wholeText_unbalanced hbalanced] at h ⊢
      exact ih (.inr hbalanced) h
    | true =>
      obtain ⟨ts, hts, hfeed⟩ := readAll_eq_ok_iff.mp h
      obtain ⟨us, vs, rfl, hus, hvs, hnet⟩ := scans_balanced hts hbalanced
      obtain ⟨ws, opened, xs, hread, hbehind, rfl⟩ := feed_append_cases hfeed
      rw [submissions_balanced hbalanced]
      rcases readAll_or_dangles hus hread hnet with ⟨rfl, htext⟩ | hdangles
      · have hxs : readAll (wholeText "" lines) = .ok xs :=
          readAll_eq_ok_iff.mpr ⟨vs, hvs, hbehind⟩
        simp only [dangles_behind htext]
        exact (collect_append_eq_ok_iff (collect_readAll_submitted htext)).trans
          (ih (.inl rfl) hxs)
      · refine iff_of_false (collect_readAll_dangles hus hdangles _ _) fun hall => ?_
        exact hall [] List.nil_prefix (by rwa [String.intercalate_singleton])

end

/-- What is asked about when a line comes is no longer than all lines together. -/
theorem length_typed_submissions (gathered : String) (front : List String) (line : String)
    (back : List String) : (typed (submissions gathered front).2 line).length ≤
      (wholeText gathered (front ++ line :: back)).length := by
  induction front generalizing gathered with
  | nil =>
    rw [List.nil_append, wholeText_cons]
    exact length_le_intercalate (typed gathered line) back
  | cons first front ih =>
    rw [List.cons_append]
    cases hbalanced : isBalanced (typed gathered first) with
    | false =>
      rw [submissions_unbalanced hbalanced, wholeText_cons, ← wholeText_unbalanced hbalanced]
      exact ih _
    | true =>
      rw [submissions_balanced hbalanced, wholeText_cons]
      exact Nat.le_trans (ih "") (intercalate_tail_le (typed gathered first) _)

/-- Lines whose text reads as forms leave nothing gathered, and of their tokens none is lost, added
or moved. Their forms are kept together too, unless some of the lines dangle. Where there are fewer
than 2 ^ 31 characters in all, the depth fits in 32 bits behind each character of every text that is
asked about on the way. -/
theorem submissions_of_readAll {lines : List String} {forms : List Value}
    (h : readAll ("\n".intercalate lines) = .ok forms) :
    (submissions "" lines).2 = "" ∧
    collect Lexeme.tokens (submissions "" lines).1 = Lexeme.tokens ("\n".intercalate lines) ∧
    (collect readAll (submissions "" lines).1 = .ok forms ↔
      ∀ front, front <+: lines → ¬ Dangles ("\n".intercalate front)) ∧
    (("\n".intercalate lines).length < 2 ^ 31 →
      ∀ front line back, lines = front ++ line :: back →
        ∀ cs, cs <+: (typed (submissions "" front).2 line).toList →
          -2 ^ 31 ≤ (cs.foldl Balance.step .start).depth ∧
            (cs.foldl Balance.step .start).depth < 2 ^ 31) := by
  obtain ⟨ts, hts, hfeed⟩ := readAll_eq_ok_iff.mp h
  obtain ⟨hleft, htokens⟩ :=
    @collect_tokens_submissions lines ts "" (.inl rfl) hts (closes_of_feed hfeed)
  refine ⟨hleft, htokens.trans (tokens_eq_ok_iff.mpr hts).symm,
    collect_readAll_submissions (.inl rfl) h, ?_⟩
  rintro hlength front line back rfl cs hcs
  have hasked := length_typed_submissions "" front line back
  exact Balance.depth_fits (Nat.lt_of_le_of_lt hasked hlength) hcs

/-- Three lines, of which the first two hold one form and a string of this form runs on from the
first to the second. -/
def sampleLines : List String := ["(a \"", ") ; \" 'b)", " c"]

def sampleForms : List Value :=
  [.ofList [.named "a", .str "\n) ; ", .ofList [.named "quote", .named "b"]], .named "c"]

theorem submissions_of_readAll_sampleLines :
    readAll ("\n".intercalate sampleLines) = .ok sampleForms ∧
    collect readAll (submissions "" sampleLines).1 = .ok sampleForms ∧
    (submissions "" sampleLines).2 = "" := by
  have hforms : readAll ("\n".intercalate sampleLines) = .ok sampleForms := by cbv
  have hopen : ¬ Dangles "(a \"" := by
    rintro ⟨hbalanced, _⟩
    revert hbalanced
    decide
  have hfirst : readAll "(a \"\n) ; \" 'b)" = .ok (sampleForms.take 1) := by cbv
  obtain ⟨hleft, _, hread, _⟩ := submissions_of_readAll hforms
  refine ⟨hforms, hread.mpr ?_, hleft⟩
  refine forall_prefix_cons.mpr ⟨Waits.not_dangles (.inl rfl), ?_⟩
  refine forall_prefix_cons.mpr ⟨hopen, ?_⟩
  refine forall_prefix_cons.mpr ⟨not_dangles_of_readAll hfirst, fun front hfront => ?_⟩
  rw [List.prefix_nil.mp hfront]
  exact not_dangles_of_readAll hforms

/-- Lines that dangle are cut apart: a mark that ends the first line is submitted on its own. -/
theorem submissions_sampleMark :
    readAll ("\n".intercalate ["'", "x"]) = .ok [.ofList [.named "quote", .named "x"]] ∧
    (∀ line ∈ ["'", "x"], '\n' ∉ line.toList) ∧
    submissions "" ["'", "x"] = (["'", "x"], "") ∧
    collect readAll (submissions "" ["'", "x"]).1 = .error ⟨.unexpectedEnd, ⟨1, 2⟩⟩ := by
  have hcut : submissions "" ["'", "x"] = (["'", "x"], "") := by cbv
  have hmark : readAll "'" = .error ⟨.unexpectedEnd, ⟨1, 2⟩⟩ := by cbv
  refine ⟨by cbv, by decide, hcut, ?_⟩
  rw [hcut]
  exact collect_cons_error hmark

/-! ### The lines of the loop -/

/-- A run of the loop, with some lines gathered: the lines that are read until the input ends or
fails, and the texts that are submitted, each in the state that was left before. -/
inductive Transcript (fuel : Nat) : String → State → List String → List String → State → Prop where
  | ended {gathered : String} {s s' : State}
      (hread : Exchange.readLine.attempt s = .value (.ok none) s') :
      Transcript fuel gathered s [] [] s'
  | failed {gathered : String} {s s₁ s' : State} {e : Error}
      (hread : Exchange.readLine.attempt s = .value (.error e) s₁)
      (hreport : report "Error" e s₁ = .value () s') :
      Transcript fuel gathered s [] [] s'
  | gathers {gathered longer raw : String} {s s₁ s' : State} {lines inputs : List String}
      (hread : Exchange.readLine.attempt s = .value (.ok (some raw)) s₁)
      (hfeed : feed gathered (typedLine raw) = (none, longer))
      (hrest : Transcript fuel longer s₁ lines inputs s') :
      Transcript fuel gathered s (typedLine raw :: lines) inputs s'
  | submits {gathered longer raw input : String} {s s₁ s₂ s' : State} {lines inputs : List String}
      (hread : Exchange.readLine.attempt s = .value (.ok (some raw)) s₁)
      (hfeed : feed gathered (typedLine raw) = (some input, longer))
      (hsubmit : submit fuel input s₁ = .value () s₂)
      (hrest : Transcript fuel longer s₂ lines inputs s') :
      Transcript fuel gathered s (typedLine raw :: lines) (input :: inputs) s'

section

variable {fuel : Nat} {gathered : String} {s s' : State} {lines inputs : List String}

theorem Transcript.submissions_eq (h : Transcript fuel gathered s lines inputs s') :
    (submissions gathered lines).1 = inputs := by
  induction h with
  | ended _ => rfl
  | failed _ _ => rfl
  | gathers _ hfeed _ ih =>
    rw [submissions, hfeed]
    exact ih
  | submits _ hfeed _ _ ih =>
    rw [submissions, hfeed]
    exact congrArg (List.cons _) ih

theorem exists_transcript {steps : Nat} (h : loop fuel gathered steps s = .value () s') :
    ∃ lines inputs, Transcript fuel gathered s lines inputs s' := by
  induction steps generalizing gathered s with
  | zero => cases h
  | succ steps ih =>
    rcases Eval.bind_cases h trivial with ⟨r, s₁, hread, h⟩ | ⟨_, _, _, herror⟩
    · cases r with
      | error e => exact ⟨[], [], .failed hread h⟩
      | ok line? =>
        cases line? with
        | none =>
          cases h
          exact ⟨[], [], .ended hread⟩
        | some raw =>
          dsimp only at h
          cases hfeed : feed gathered (typedLine raw) with
          | mk input longer =>
            rw [hfeed] at h
            cases input with
            | none =>
              obtain ⟨lines, inputs, htranscript⟩ := ih h
              exact ⟨_, _, .gathers hread hfeed htranscript⟩
            | some input =>
              rcases Eval.bind_cases h trivial with ⟨_, s₂, hsubmit, h⟩ | ⟨_, _, _, herror⟩
              · obtain ⟨lines, inputs, htranscript⟩ := ih h
                exact ⟨_, _, .submits hread hfeed hsubmit htranscript⟩
              · cases herror
    · cases herror

theorem Transcript.exists_raw (h : Transcript fuel gathered s lines inputs s') :
    ∃ raw : List String, lines = raw.map typedLine := by
  induction h with
  | ended _ => exact ⟨[], rfl⟩
  | failed _ _ => exact ⟨[], rfl⟩
  | @gathers _ _ first _ _ _ _ _ _ _ _ ih =>
    obtain ⟨raw, rfl⟩ := ih
    exact ⟨first :: raw, rfl⟩
  | @submits _ _ first _ _ _ _ _ _ _ _ _ _ _ ih =>
    obtain ⟨raw, rfl⟩ := ih
    exact ⟨first :: raw, rfl⟩

theorem mem_of_mem_dropNewline {line : String} {c : Char} (h : c ∈ (dropNewline line).toList) :
    c ∈ line.toList := by
  rw [← List.mem_reverse]
  unfold dropNewline at h
  split at h
  · next front heq =>
    rw [String.toList_ofList, List.mem_reverse] at h
    rw [heq]
    exact List.mem_cons_of_mem _ (List.mem_cons_of_mem _ h)
  · next front _ heq =>
    rw [String.toList_ofList, List.mem_reverse] at h
    rw [heq]
    exact List.mem_cons_of_mem _ h
  · exact List.mem_reverse.mpr h

/-- A line without backspaces counts as it was read, without its newline. -/
theorem typedLine_eq {line : String} (h : Text.Typed.backspace ∉ line.toList) :
    typedLine line = dropNewline line :=
  Text.settle_eq_self fun hmem => h (mem_of_mem_dropNewline hmem)

/-- The loop submits the texts that the lines give which it reads. Where no backspace was typed,
these are the lines of the input. -/
theorem loop_submits {steps : Nat} (h : loop fuel gathered steps s = .value () s') :
    ∃ raw : List String, Transcript fuel gathered s (raw.map typedLine)
        (submissions gathered (raw.map typedLine)).1 s' ∧
      ((∀ line ∈ raw, Text.Typed.backspace ∉ line.toList) →
        raw.map typedLine = raw.map dropNewline) := by
  obtain ⟨lines, inputs, htranscript⟩ := exists_transcript h
  obtain ⟨raw, rfl⟩ := htranscript.exists_raw
  refine ⟨raw, htranscript.submissions_eq.symm ▸ htranscript, fun hraw => ?_⟩
  exact List.map_congr_left fun line hline => typedLine_eq (hraw line hline)

end

end Repl

end SmallLisp
