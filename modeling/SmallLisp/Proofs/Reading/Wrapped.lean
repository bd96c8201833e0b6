import SmallLisp.Proofs.Reading.Feed
import SmallLisp.Proofs.Reading.Lines
import SmallLisp.Proofs.Reading.Source

/-!
# Texts inside a form

A file is run by reading its text inside the form `(do ...)`, with `nil` on a line behind it. The
form is read if the text is a sequence of forms, but not only then: a bracket in the text that closes
nothing closes the form, and a mark at the end of the text takes the `nil`.
`readFirst_wrapped_iff` says which texts are read, and as what.
-/

namespace SmallLisp

open Reader

/-- The text of the form that runs the forms of a text. -/
def wrapped (text : String) : String := "(do " ++ text ++ "\nnil)"

/-- Whether a text is some forms up to a round bracket that closes nothing, and no failure to scan
follows the bracket. -/
def ClosesEarly (text : String) (forms : List Value) : Prop :=
  ∃ ts back, scans text.toList = ts.map .ok ++ .ok (.closing .round) :: back ∧ Clear back ∧
    feed [] ts = .ok (forms, [])

/-- Whether a text is run as some forms: it reads as them with a `nil` on a line behind it, or it
closes the form that it stands in. -/
def RunsAs (text : String) (forms : List Value) : Prop :=
  readAll (text ++ "\nnil") = .ok forms ∨ ClosesEarly text forms

/-! ### Inside an open bracket -/

section

variable {stack opened : List Open} {t : Token} {ts : List Token} {v : Value} {vs : List Value}
  {b : Bracket} {items : List Value}

/-- Where reading stands inside a bracket when it would stand somewhere outside of it. -/
def Reader.Progress.within (b : Bracket) (items : List Value) : Progress → Progress
  | .form v => .pending [.bracket b (v :: items)]
  | .pending opened => .pending (opened ++ [.bracket b items])

theorem supply_append (v : Value) (stack : List Open) (b : Bracket) (items : List Value) :
    supply (stack ++ [.bracket b items]) v = (supply stack v).within b items := by
  induction stack generalizing v with
  | nil => rfl
  | cons top stack ih =>
    cases top with
    | bracket inner more => rfl
    | mark m => exact ih _
    | metadata => rfl
    | target m => exact ih _

/-- Inside a bracket a token does what it does alone, except that a finished form is one more
element. -/
theorem shift_append {progress : Progress} (h : shift stack t = .ok progress) :
    shift (stack ++ [.bracket b items]) t = .ok (progress.within b items) := by
  have hsupply : ∀ v, supply stack v = progress →
      (.ok (supply (stack ++ [.bracket b items]) v) : Except ReadCause Progress) =
        .ok (progress.within b items) := by
    rintro v rfl
    rw [supply_append]
  cases t with
  | opening inner =>
    cases h
    rfl
  | mark m =>
    cases h
    rfl
  | annotate =>
    cases h
    rfl
  | closing inner =>
    cases stack with
    | nil => cases h
    | cons top outer =>
      cases top with
      | bracket other more =>
        rw [shift_closing] at h
        rw [List.cons_append, shift_closing]
        split at h
        · next hsame =>
          rw [if_pos hsame]
          cases hv : enclose inner more.reverse with
          | error cause =>
            rw [hv] at h
            cases h
          | ok v =>
            rw [hv] at h
            cases h
            change Except.ok (supply (outer ++ [.bracket b items]) v) = _
            rw [supply_append]
        · cases h
      | _ => cases h
  | _ => exact hsupply _ (Except.ok.inj h)

/-- Inside a bracket a token that cannot stand where it stands can only close the bracket. -/
theorem shift_append_error {cause : ReadCause} (h : shift stack t = .error cause)
    {progress : Progress} (hb : shift (stack ++ [.bracket b items]) t = .ok progress) :
    stack = [] ∧ t = .closing b := by
  cases t with
  | closing inner =>
    cases stack with
    | nil =>
      rw [List.nil_append, shift_closing] at hb
      split at hb
      · next hsame => exact ⟨rfl, congrArg Token.closing hsame⟩
      · cases hb
    | cons top outer =>
      cases top with
      | bracket other more =>
        rw [shift_closing] at h
        rw [List.cons_append, shift_closing] at hb
        split at h
        · next hsame =>
          rw [if_pos hsame] at hb
          cases hv : enclose inner more.reverse with
          | error cause' =>
            rw [hv] at hb
            cases hb
          | ok v =>
            rw [hv] at h
            cases h
        · next hother =>
          rw [if_neg hother] at hb
          cases hb
      | _ => cases hb
  | _ => cases h

theorem feed_bracket (h : feed stack ts = .ok (vs, opened)) :
    feed (stack ++ [.bracket b items]) ts =
      .ok ([], opened ++ [.bracket b (vs.reverse ++ items)]) := by
  induction ts generalizing stack items vs with
  | nil =>
    cases h
    rfl
  | cons t ts ih =>
    rcases feed_cons_cases h with ⟨w, ws, hshift, hfeed, rfl⟩ | ⟨inner, hshift, hfeed⟩
    · have hinner := @ih [] ws (w :: items) hfeed
      rw [feed_cons (shift_append hshift), List.reverse_cons, List.append_assoc]
      exact hinner
    · rw [feed_cons (shift_append hshift)]
      exact ih hfeed

/-- Tokens that close an open bracket and do nothing more are forms and the closing bracket. -/
theorem forms_of_feed_bracket
    (h : feed (stack ++ [.bracket .round items]) ts = .ok ([v], [])) :
    ∃ us forms, ts = us ++ [.closing .round] ∧ feed stack us = .ok (forms, []) ∧
      v = .ofList (items.reverse ++ forms) := by
  induction ts generalizing stack items with
  | nil => cases h
  | cons t ts ih =>
    cases hshift : shift stack t with
    | error cause =>
      cases hbracket : shift (stack ++ [.bracket .round items]) t with
      | error cause' =>
        rw [feed_error hbracket] at h
        cases h
      | ok progress =>
        obtain ⟨rfl, rfl⟩ := shift_append_error hshift hbracket
        have hclose : shift ([] ++ [.bracket .round items]) (.closing .round) =
            .ok (.form (.ofList items.reverse)) := rfl
        rw [feed_form hclose] at h
        cases hfeed : feed [] ts with
        | error cause' =>
          rw [hfeed] at h
          cases h
        | ok read =>
          obtain ⟨ws, opened⟩ := read
          rw [hfeed] at h
          cases h
          obtain ⟨_, rfl⟩ := eq_nil_of_feed hfeed
          exact ⟨[], [], rfl, rfl, by rw [List.append_nil]⟩
    | ok progress =>
      rw [feed_cons (shift_append hshift)] at h
      cases progress with
      | form w =>
        have hinner : feed ([] ++ [.bracket .round (w :: items)]) ts = .ok ([v], []) := h
        obtain ⟨us, forms, rfl, hfeed, rfl⟩ := ih hinner
        refine ⟨t :: us, w :: forms, rfl, ?_, ?_⟩
        · rw [feed_form hshift, hfeed]
          rfl
        · rw [List.reverse_cons, List.append_assoc]
          rfl
      | pending opened' =>
        obtain ⟨us, forms, rfl, hfeed, rfl⟩ := ih h
        exact ⟨t :: us, forms, rfl, (feed_pending hshift).trans hfeed, rfl⟩

theorem feed_bracket_of_forms {forms : List Value} (h : feed [] ts = .ok (forms, [])) :
    feed [.bracket .round items] (ts ++ [.closing .round]) =
      .ok ([.ofList (items.reverse ++ forms)], []) := by
  have hinner := @feed_bracket [] [] ts forms .round items h
  rw [List.nil_append, List.nil_append] at hinner
  have hclose : shift [.bracket .round (forms.reverse ++ items)] (.closing .round) =
      .ok (.form (.ofList (items.reverse ++ forms))) := by
    rw [shift_closing, if_pos rfl, List.reverse_append, List.reverse_reverse]
    rfl
  rw [feed_append hinner, feed_cons hclose]
  rfl

end

/-! ### What is found in the wrapped text -/

theorem exists_cons_of_append {t : Token} {ts : List Token}
    {rest back : List (Except ScanError Token)} (h : .ok t :: rest = ts.map .ok ++ back)
    (hts : ts ≠ []) : ∃ us, ts = t :: us ∧ rest = us.map .ok ++ back := by
  cases ts with
  | nil => exact absurd rfl hts
  | cons u us =>
    cases h
    exact ⟨us, rfl, rfl⟩

theorem head?_nil_ne (u : Token) :
    ([] : List (Except ScanError Token)).head? ≠ some (.ok u) := by
  intro h
  cases h

theorem head?_error_ne (e : ScanError) (rest : List (Except ScanError Token)) (u : Token) :
    (.error e :: rest : List (Except ScanError Token)).head? ≠ some (.ok u) := by
  intro h
  cases h

/-- Where a token is found behind some tokens and in front of something that begins with no
token. -/
theorem exists_of_append_eq {ts us : List Token} {t : Token}
    {tail back : List (Except ScanError Token)} (htail : ∀ u, tail.head? ≠ some (.ok u))
    (h : ts.map .ok ++ tail = us.map .ok ++ .ok t :: back) :
    ∃ rest, ts = us ++ t :: rest ∧ back = rest.map .ok ++ tail := by
  induction us generalizing ts with
  | nil =>
    cases ts with
    | nil => exact absurd (congrArg List.head? h) (htail t)
    | cons u ts =>
      cases h
      exact ⟨ts, rfl, rfl⟩
  | cons u us ih =>
    cases ts with
    | nil => exact absurd (congrArg List.head? h) (htail u)
    | cons w ts =>
      obtain ⟨hw, hrest⟩ := List.cons.inj h
      cases hw
      obtain ⟨rest, rfl, rfl⟩ := ih hrest
      exact ⟨rest, rfl, rfl⟩

theorem scans_wrapped (text : String) :
    scans (wrapped text).toList = .ok (.opening .round) :: .ok (.symbol "do") ::
      scans (text.toList ++ '\n' :: "nil)".toList) := by
  have hwhole : (wrapped text).toList =
      '(' :: ("do".toList ++ ' ' :: (text.toList ++ '\n' :: "nil)".toList)) := by
    simp [wrapped]
  have hopening := @scans_source (.opening .round) trivial
    ("do".toList ++ ' ' :: (text.toList ++ '\n' :: "nil)".toList)) trivial
  have hstops : Stops (' ' :: (text.toList ++ '\n' :: "nil)".toList)) := stops_cons (by decide) _
  have hdo := scans_plainName (rfl : "do".toList = ['d', 'o']) (by decide) (by decide) hstops
  have hname : Token.ofName "do" = .symbol "do" := rfl
  rw [hwhole]
  refine hopening.trans (congrArg _ ?_)
  rw [hdo, hname, scans_blank (by decide)]

theorem scans_nil_literal {cs : List Char} (hcs : Stops cs) :
    scans ("nil".toList ++ cs) = .ok .nil :: scans cs :=
  @scans_source .nil trivial cs hcs

theorem scans_behind : scans "nil)".toList = [.ok .nil, .ok (.closing .round)] := by
  have hclosing : scans [')'] = .ok (.closing .round) :: scans [] :=
    @scans_source (.closing .round) trivial [] trivial
  have hnone : scans [] = [] := scans_none rfl
  have hnil := scans_nil_literal (stops_cons (by decide) [] : Stops [')'])
  rw [hclosing, hnone] at hnil
  exact hnil

theorem scans_behind_nil : scans "nil".toList = [.ok .nil] := by
  have hnone : scans [] = [] := scans_none rfl
  have hnil := scans_nil_literal stops_nil
  rwa [hnone, List.append_nil] at hnil

/-! ### What the wrapped text reads as -/

section

variable {text : String} {forms : List Value} {v : Value}

theorem readFirst_wrapped_iff_closes :
    readFirst (wrapped text) = .ok v ↔ ∃ us forms back,
      scans (text.toList ++ '\n' :: "nil)".toList) =
        us.map .ok ++ .ok (.closing .round) :: back ∧ Clear back ∧
      feed [] us = .ok (forms, []) ∧ v = .ofList (.named "do" :: forms) := by
  rw [readFirst_eq_ok_iff, scans_wrapped]
  constructor
  · rintro (⟨hnone, _⟩ | ⟨ts, back, hts, hback, hfeed⟩)
    · cases hnone
    · obtain ⟨us, rfl, hus⟩ := exists_cons_of_append hts (by rintro rfl; cases hfeed)
      obtain ⟨ws, rfl, hws⟩ := exists_cons_of_append hus (by rintro rfl; cases hfeed)
      have hinner : feed ([] ++ [.bracket .round [.named "do"]]) ws = .ok ([v], []) := hfeed
      obtain ⟨us, forms, rfl, hus, rfl⟩ := forms_of_feed_bracket hinner
      refine ⟨us, forms, back, ?_, hback, hus, rfl⟩
      rw [hws, List.map_append, List.append_assoc]
      rfl
  · rintro ⟨us, forms, back, hscans, hback, hfeed, rfl⟩
    refine .inr ⟨.opening .round :: .symbol "do" :: (us ++ [.closing .round]), back, ?_, hback, ?_⟩
    · rw [hscans]
      simp
    · exact feed_bracket_of_forms hfeed

theorem tokens_of_nil_line (h : readAll (text ++ "\nnil") = .ok forms) :
    ∃ ts, scans text.toList = ts.map .ok ∧ feed [] (ts ++ [.nil]) = .ok (forms, []) := by
  obtain ⟨us, hus, hfeed⟩ := readAll_eq_ok_iff.mp h
  have hwhole : (text ++ "\nnil").toList = text.toList ++ '\n' :: "nil".toList := by simp
  rw [hwhole] at hus
  obtain ⟨ts, hts | ⟨e, back, hts⟩⟩ := scans_cases text.toList
  · rw [scans_line_tokens hts, scans_behind_nil] at hus
    have hmap : ((ts ++ [Token.nil]).map .ok : List (Except ScanError Token)) = us.map .ok := by
      rw [List.map_append]
      exact hus
    obtain rfl := eq_of_map_ok hmap
    exact ⟨ts, hts, hfeed⟩
  · obtain ⟨e', back', hline⟩ := scans_line_failure hts (by decide : '"' ∉ "nil".toList)
    rw [hus] at hline
    have hmem : (.error e' : Except ScanError Token) ∈ us.map .ok := by
      rw [hline]
      simp
    obtain ⟨u, _, hu⟩ := List.mem_map.mp hmem
    cases hu

theorem readAll_nil_line {ts : List Token} (hts : scans text.toList = ts.map .ok)
    (h : feed [] (ts ++ [.nil]) = .ok (forms, [])) : readAll (text ++ "\nnil") = .ok forms := by
  have hwhole : (text ++ "\nnil").toList = text.toList ++ '\n' :: "nil".toList := by simp
  refine readAll_eq_ok_iff.mpr ⟨ts ++ [.nil], ?_, h⟩
  rw [hwhole, scans_line_tokens hts, scans_behind_nil, List.map_append]
  rfl

theorem forms_of_closes {us : List Token} {back : List (Except ScanError Token)}
    (hscans : scans (text.toList ++ '\n' :: "nil)".toList) =
      us.map .ok ++ .ok (.closing .round) :: back) (hback : Clear back)
    (hfeed : feed [] us = .ok (forms, [])) :
    RunsAs text forms := by
  obtain ⟨ts, hts | ⟨e, rest, hts⟩⟩ := scans_cases text.toList
  · have hline : scans (text.toList ++ '\n' :: "nil)".toList) =
        (ts ++ [Token.nil, .closing .round]).map .ok ++ [] := by
      rw [scans_line_tokens hts, scans_behind]
      simp
    obtain ⟨more, hmore, _⟩ := exists_of_append_eq head?_nil_ne (hline.symm.trans hscans)
    -- The bracket is the one behind the text or one of the text.
    rcases List.append_eq_append_iff.mp hmore with ⟨mid, rfl, hmid⟩ | ⟨mid, rfl, hmid⟩
    · cases mid with
      | nil => cases hmid
      | cons u mid =>
        cases mid with
        | nil =>
          cases hmid
          exact .inl (readAll_nil_line hts hfeed)
        | cons u' mid =>
          obtain ⟨_, hmid⟩ := List.cons.inj hmid
          obtain ⟨_, hmid⟩ := List.cons.inj hmid
          cases mid <;> cases hmid
    · cases mid with
      | nil => cases hmid
      | cons u mid =>
        obtain ⟨rfl, _⟩ := List.cons.inj hmid
        refine .inr ⟨us, mid.map .ok, ?_, by simpa using clear_append clear_nil, hfeed⟩
        rw [hts, List.map_append]
        rfl
  · obtain ⟨e', rest', hline⟩ := scans_line_failure hts (by decide : '"' ∉ "nil)".toList)
    obtain ⟨more, rfl, rfl⟩ := exists_of_append_eq (head?_error_ne e' rest') (hline.symm.trans hscans)
    refine .inr ⟨us, more.map .ok ++ .error e :: rest, ?_, ?_, hfeed⟩
    · rw [hts]
      simp
    · cases more with
      | nil => exact absurd rfl (hback e')
      | cons u more => exact clear_ok u _

theorem closes_of_forms (h : RunsAs text forms) :
    ∃ us back, scans (text.toList ++ '\n' :: "nil)".toList) =
        us.map .ok ++ .ok (.closing .round) :: back ∧ Clear back ∧
      feed [] us = .ok (forms, []) := by
  rcases h with h | ⟨us, back, hscans, hback, hfeed⟩
  · obtain ⟨ts, hts, hfeed⟩ := tokens_of_nil_line h
    refine ⟨ts ++ [.nil], [], ?_, clear_nil, hfeed⟩
    rw [scans_line_tokens hts, scans_behind]
    simp
  · obtain ⟨ts, hts | ⟨e, rest, hts⟩⟩ := scans_cases text.toList
    · have hline : scans text.toList = ts.map .ok ++ [] := by rw [hts, List.append_nil]
      obtain ⟨more, rfl, rfl⟩ := exists_of_append_eq head?_nil_ne (hline.symm.trans hscans)
      refine ⟨us, more.map .ok ++ scans "nil)".toList, ?_, ?_, hfeed⟩
      · rw [scans_line_tokens hts]
        simp
      · rw [scans_behind]
        exact clear_append (clear_ok .nil _)
    · obtain ⟨more, rfl, rfl⟩ := exists_of_append_eq (head?_error_ne e rest) (hts.symm.trans hscans)
      obtain ⟨e', rest', hline⟩ := scans_line_failure hts (by decide : '"' ∉ "nil)".toList)
      refine ⟨us, more.map .ok ++ .error e' :: rest', ?_, ?_, hfeed⟩
      · rw [hline]
        simp
      · cases more with
        | nil => exact absurd rfl (hback e)
        | cons u more => exact clear_ok u _

/-- Which texts can be read inside the form that runs them, and as what. -/
theorem readFirst_wrapped_iff :
    readFirst (wrapped text) = .ok v ↔
      ∃ forms, RunsAs text forms ∧ v = .ofList (.named "do" :: forms) := by
  rw [readFirst_wrapped_iff_closes]
  constructor
  · rintro ⟨us, forms, back, hscans, hback, hfeed, rfl⟩
    exact ⟨forms, forms_of_closes hscans hback hfeed, rfl⟩
  · rintro ⟨forms, hforms, rfl⟩
    obtain ⟨us, back, hscans, hback, hfeed⟩ := closes_of_forms hforms
    exact ⟨us, forms, back, hscans, hback, hfeed, rfl⟩

/-! ### Malformed texts that are read -/

theorem readAll_of_closesEarly (h : ClosesEarly text forms) :
    ∃ p, readAll text = .error ⟨.unexpectedClosing .round, p⟩ := by
  obtain ⟨ts, back, hscans, hback, hfeed⟩ := h
  have hlexemes : (Lexeme.list text).map Lexeme.found =
      ts.map .ok ++ .ok (.closing .round) :: back := (map_found_list text).trans hscans
  obtain ⟨last, behind, hbehind, hout⟩ :=
    @outcomes_append (Position.start.after text.toList) _ _ .start _ _ _ _ hlexemes
      (clear_ok _ back) hfeed
  cases behind with
  | nil => cases hbehind
  | cons lexeme rest =>
    obtain ⟨found, p⟩ := lexeme
    obtain ⟨rfl, hrest⟩ := List.cons.inj hbehind
    have hfailure : failure? rest = none := by
      rw [failure?_eq_none]
      exact hrest ▸ hback
    have hclosing : shift [] (.closing .round) = .error (.unexpectedClosing .round) := rfl
    rw [outcomes_error hfailure hclosing] at hout
    exact ⟨p, mapM_id_eq_error hout⟩

theorem openAtEnd?_of_supply {opened : List Open} {w : Value} (finish last : Position)
    (h : supply opened v = .form w) :
    opened = [] ∨ openAtEnd? finish last opened = some ⟨.unexpectedEnd, finish⟩ := by
  cases opened with
  | nil => exact .inl rfl
  | cons top outer =>
    cases top with
    | bracket b items => cases h
    | metadata => cases h
    | _ => exact .inr rfl

theorem cause_of_nil_line {e : ReadError} (h : readAll (text ++ "\nnil") = .ok forms)
    (he : readAll text = .error e) : e.cause = .unexpectedEnd := by
  obtain ⟨ts, hts, hfeed⟩ := tokens_of_nil_line h
  obtain ⟨vs, opened, ws, hopen, hfeed, _⟩ := feed_append_cases hfeed
  have hsupply : ∃ w, supply opened .nil = .form w := by
    cases hs : supply opened .nil with
    | form w => exact ⟨w, rfl⟩
    | pending inner =>
      have hshift : shift opened .nil = .ok (.pending inner) := congrArg Except.ok hs
      rw [feed_pending hshift, feed_nil] at hfeed
      cases hfeed
      exact absurd hs (supply_ne_pending_nil opened .nil)
  obtain ⟨w, hw⟩ := hsupply
  have hlexemes : (Lexeme.list text).map Lexeme.found = ts.map .ok :=
    (map_found_list text).trans hts
  obtain ⟨last, hout⟩ :=
    @outcomes_of_feed (Position.start.after text.toList) _ _ .start _ _ _ hlexemes hopen
  rcases openAtEnd?_of_supply (Position.start.after text.toList) last hw with rfl | hend
  · have hok : readAll text = .ok vs := mapM_id_eq_ok_iff.mpr (hout.trans (List.append_nil _))
    rw [hok] at he
    cases he
  · rw [hend] at hout
    have herror : readAll text = .error ⟨.unexpectedEnd, _⟩ := mapM_id_eq_error hout
    rw [herror] at he
    cases he
    rfl

/-- A malformed text is run only if it breaks off behind a mark or closes a bracket that it has not
opened. -/
theorem cause_of_runsAs {e : ReadError} (h : RunsAs text forms) (he : readAll text = .error e) :
    e.cause = .unexpectedEnd ∨ e.cause = .unexpectedClosing .round := by
  rcases h with h | h
  · exact .inl (cause_of_nil_line h he)
  · obtain ⟨p, hp⟩ := readAll_of_closesEarly h
    rw [hp] at he
    cases he
    exact .inr rfl

end

end SmallLisp
