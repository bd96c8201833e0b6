import SmallLisp.Proofs.Reading.Scans
import SmallLisp.Reader.Basic

/-!
# Reading without positions

`feed` hands tokens to the open forms one after another. A text reads as forms when its scans are
tokens that `feed` makes these forms of and that leave none open, and the first form of a text is
the first one that `feed` finishes, unless a failure follows it. The main statements are
`readAll_eq_ok_iff` and `readFirst_eq_ok_iff`.
-/

namespace SmallLisp.Reader

/-- The forms that tokens finish, and the forms that are open behind them. -/
def feed (stack : List Open) : List Token → Except ReadCause (List Value × List Open)
  | [] => .ok ([], stack)
  | t :: ts =>
    match shift stack t with
    | .error cause => .error cause
    | .ok (.form v) => (feed [] ts).map fun read => (v :: read.1, read.2)
    | .ok (.pending opened) => feed opened ts

section

variable {stack opened : List Open} {t : Token} {ts us : List Token} {v : Value} {vs : List Value}
  {cause : ReadCause}

@[simp] theorem feed_nil (stack : List Open) : feed stack [] = .ok ([], stack) := rfl

theorem feed_error (h : shift stack t = .error cause) : feed stack (t :: ts) = .error cause := by
  rw [feed, h]

theorem feed_form (h : shift stack t = .ok (.form v)) :
    feed stack (t :: ts) = (feed [] ts).map fun read => (v :: read.1, read.2) := by
  rw [feed, h]

theorem feed_pending (h : shift stack t = .ok (.pending opened)) :
    feed stack (t :: ts) = feed opened ts := by
  rw [feed, h]

/-- Reads on behind a finished form or with forms open. -/
def proceed : Progress → List Token → Except ReadCause (List Value × List Open)
  | .form v, ts => (feed [] ts).map fun read => (v :: read.1, read.2)
  | .pending opened, ts => feed opened ts

theorem feed_cons {progress : Progress} (h : shift stack t = .ok progress) :
    feed stack (t :: ts) = proceed progress ts := by
  cases progress with
  | form v => exact feed_form h
  | pending opened => exact feed_pending h

theorem feed_cons_cases (h : feed stack (t :: ts) = .ok (vs, opened)) :
    (∃ v ws, shift stack t = .ok (.form v) ∧ feed [] ts = .ok (ws, opened) ∧ vs = v :: ws) ∨
      ∃ inner, shift stack t = .ok (.pending inner) ∧ feed inner ts = .ok (vs, opened) := by
  cases hshift : shift stack t with
  | error cause =>
    rw [feed_error hshift] at h
    cases h
  | ok progress =>
    cases progress with
    | form v =>
      rw [feed_form hshift] at h
      cases hts : feed [] ts with
      | error cause =>
        rw [hts] at h
        cases h
      | ok read =>
        obtain ⟨ws, opened'⟩ := read
        rw [hts] at h
        cases h
        exact .inl ⟨v, ws, rfl, rfl, rfl⟩
    | pending inner =>
      rw [feed_pending hshift] at h
      exact .inr ⟨inner, rfl, h⟩

theorem feed_append (h : feed stack ts = .ok (vs, opened)) :
    feed stack (ts ++ us) = (feed opened us).map fun read => (vs ++ read.1, read.2) := by
  induction ts generalizing stack vs with
  | nil =>
    cases h
    rw [List.nil_append]
    cases feed opened us <;> rfl
  | cons t ts ih =>
    rw [List.cons_append]
    rcases feed_cons_cases h with ⟨v, ws, hshift, hfeed, rfl⟩ | ⟨inner, hshift, hfeed⟩
    · rw [feed_form hshift, ih hfeed]
      cases feed opened us <;> rfl
    · rw [feed_pending hshift]
      exact ih hfeed

theorem feed_append_cases (h : feed stack (ts ++ us) = .ok (vs, opened)) :
    ∃ ws inner xs, feed stack ts = .ok (ws, inner) ∧ feed inner us = .ok (xs, opened) ∧
      vs = ws ++ xs := by
  induction ts generalizing stack vs with
  | nil => exact ⟨[], stack, vs, rfl, h, rfl⟩
  | cons t ts ih =>
    rcases feed_cons_cases h with ⟨v, ws, hshift, hfeed, rfl⟩ | ⟨inner, hshift, hfeed⟩
    · obtain ⟨ws, inner, xs, hts, hus, rfl⟩ := ih hfeed
      exact ⟨v :: ws, inner, xs, by rw [feed_form hshift, hts]; rfl, hus, rfl⟩
    · obtain ⟨ws, inner, xs, hts, hus, rfl⟩ := ih hfeed
      exact ⟨ws, inner, xs, (feed_pending hshift).trans hts, hus, rfl⟩

theorem supply_ne_pending_nil (stack : List Open) (v : Value) : supply stack v ≠ .pending [] := by
  induction stack generalizing v with
  | nil => nofun
  | cons top stack ih =>
    cases top with
    | bracket b items => nofun
    | mark m => exact ih _
    | metadata => nofun
    | target m => exact ih _

theorem shift_closing (b inner : Bracket) (items : List Value) (outer : List Open) :
    shift (.bracket inner items :: outer) (.closing b) =
      if b = inner then (enclose b items.reverse).map (supply outer)
      else .error (.unexpectedClosing b) := rfl

theorem shift_ne_pending_nil : shift stack t ≠ .ok (.pending []) := by
  have hsupply : ∀ stack v, (.ok (supply stack v) : Except ReadCause Progress) ≠ .ok (.pending []) :=
    fun stack v h => supply_ne_pending_nil stack v (Except.ok.inj h)
  cases t with
  | opening b => nofun
  | mark m => nofun
  | annotate => nofun
  | closing b =>
    intro h
    cases stack with
    | nil => cases h
    | cons top outer =>
      cases top with
      | bracket inner items =>
        rw [shift_closing] at h
        split at h
        · cases hitems : enclose b items.reverse with
          | error cause =>
            rw [hitems] at h
            cases h
          | ok v =>
            rw [hitems] at h
            exact hsupply outer v h
        · cases h
      | _ => cases h
  | _ => exact hsupply _ _

/-- Tokens that finish no form and leave none open are none. -/
theorem eq_nil_of_feed (h : feed stack ts = .ok ([], [])) : stack = [] ∧ ts = [] := by
  induction ts generalizing stack with
  | nil =>
    cases h
    exact ⟨rfl, rfl⟩
  | cons t ts ih =>
    rcases feed_cons_cases h with ⟨v, ws, _, _, hnil⟩ | ⟨inner, hshift, hfeed⟩
    · cases hnil
    · obtain ⟨rfl, _⟩ := ih hfeed
      exact absurd hshift shift_ne_pending_nil

end

/-! ### Failures behind a token -/

/-- Whether what is found does not begin with a failure. -/
def Clear (found : List (Except ScanError Token)) : Prop := ∀ e, found.head? ≠ some (.error e)

theorem clear_nil : Clear [] := nofun

theorem clear_ok (t : Token) (found : List (Except ScanError Token)) : Clear (.ok t :: found) := nofun

theorem clear_append {ts : List Token} {found : List (Except ScanError Token)} (h : Clear found) :
    Clear (ts.map .ok ++ found) := by
  cases ts with
  | nil => exact h
  | cons t ts => exact clear_ok t _

theorem failure?_eq_none {lexemes : List Lexeme} :
    failure? lexemes = none ↔ Clear (lexemes.map Lexeme.found) := by
  cases lexemes with
  | nil => exact ⟨fun _ => clear_nil, fun _ => rfl⟩
  | cons lexeme rest =>
    obtain ⟨found, p⟩ := lexeme
    cases found with
    | ok t => exact ⟨fun _ => clear_ok t _, fun _ => rfl⟩
    | error e => exact ⟨nofun, fun h => absurd rfl (h e)⟩

theorem failure?_eq_some {lexemes : List Lexeme} {e : ReadError} (h : failure? lexemes = some e) :
    ∃ cause p rest, lexemes = ⟨.error cause, p⟩ :: rest ∧ e = ⟨.scan cause, p⟩ := by
  cases lexemes with
  | nil => cases h
  | cons lexeme rest =>
    obtain ⟨found, p⟩ := lexeme
    cases found with
    | ok t => cases h
    | error cause => exact ⟨cause, p, rest, rfl, (Option.some.inj h).symm⟩

/-! ### Outcomes -/

section

variable {finish : Position} {stack opened : List Open} {last p : Position} {t : Token}
  {rest lexemes : List Lexeme}

theorem outcomes_failure {e : ReadError} (h : failure? rest = some e) :
    outcomes finish stack last (⟨.ok t, p⟩ :: rest) = [.error e] := by
  rw [outcomes, h]

theorem outcomes_error {cause : ReadCause} (h : failure? rest = none)
    (hshift : shift stack t = .error cause) :
    outcomes finish stack last (⟨.ok t, p⟩ :: rest) =
      .error ⟨cause, p⟩ :: outcomes finish [] p rest := by
  rw [outcomes, h, hshift]

theorem outcomes_form {v : Value} (h : failure? rest = none)
    (hshift : shift stack t = .ok (.form v)) :
    outcomes finish stack last (⟨.ok t, p⟩ :: rest) = .ok v :: outcomes finish [] p rest := by
  rw [outcomes, h, hshift]

theorem outcomes_pending (h : failure? rest = none)
    (hshift : shift stack t = .ok (.pending opened)) :
    outcomes finish stack last (⟨.ok t, p⟩ :: rest) = outcomes finish opened p rest := by
  rw [outcomes, h, hshift]

/-- What tokens that can be handed on leave to be read behind the forms that they finish. -/
theorem outcomes_tokens {ts : List Token} {behind : List Lexeme} {vs : List Value}
    (hts : lexemes.map Lexeme.found = ts.map .ok) (hbehind : failure? behind = none)
    (h : feed stack ts = .ok (vs, opened)) :
    ∃ last', outcomes finish stack last (lexemes ++ behind) =
      vs.map .ok ++ outcomes finish opened last' behind := by
  induction ts generalizing stack last vs lexemes with
  | nil =>
    obtain rfl := List.map_eq_nil_iff.mp hts
    cases h
    exact ⟨last, rfl⟩
  | cons t ts ih =>
    cases lexemes with
    | nil => cases hts
    | cons lexeme rest =>
      obtain ⟨found, p⟩ := lexeme
      obtain ⟨rfl, hrest⟩ := List.cons.inj hts
      have hfailure : failure? (rest ++ behind) = none := by
        rw [failure?_eq_none, List.map_append, hrest]
        exact clear_append (failure?_eq_none.mp hbehind)
      rw [List.cons_append]
      rcases feed_cons_cases h with ⟨v, ws, hshift, hfeed, rfl⟩ | ⟨inner, hshift, hfeed⟩
      · obtain ⟨last', hout⟩ := @ih [] p rest ws hrest hfeed
        refine ⟨last', ?_⟩
        rw [outcomes_form hfailure hshift, hout]
        rfl
      · obtain ⟨last', hout⟩ := @ih inner p rest vs hrest hfeed
        exact ⟨last', (outcomes_pending hfailure hshift).trans hout⟩

theorem outcomes_append {ts : List Token} {back : List (Except ScanError Token)} {vs : List Value}
    (hts : lexemes.map Lexeme.found = ts.map .ok ++ back) (hback : Clear back)
    (h : feed stack ts = .ok (vs, opened)) :
    ∃ last' behind, behind.map Lexeme.found = back ∧
      outcomes finish stack last lexemes = vs.map .ok ++ outcomes finish opened last' behind := by
  obtain ⟨front, behind, rfl, hfront, hbehind⟩ := List.map_eq_append_iff.mp hts
  obtain ⟨last', hout⟩ := outcomes_tokens hfront (failure?_eq_none.mpr (hbehind ▸ hback)) h
  exact ⟨last', behind, hbehind, hout⟩

/-- A failure behind tokens that can be handed on is the error in the end, even where the last token
finished a form. If nothing is left open it did, and that form is lost. -/
theorem outcomes_before_failure {ts : List Token} {behind : List Lexeme} {vs : List Value}
    {e : ReadError} (hts : lexemes.map Lexeme.found = ts.map .ok) (hbehind : failure? behind = some e)
    (h : feed stack ts = .ok (vs, opened)) :
    ∃ ws : List Value, outcomes finish stack last (lexemes ++ behind) = ws.map .ok ++ [.error e] ∧
      (opened = [] → ws = vs.dropLast) := by
  induction ts generalizing stack last vs lexemes with
  | nil =>
    obtain rfl := List.map_eq_nil_iff.mp hts
    obtain ⟨e', p, more, rfl, rfl⟩ := failure?_eq_some hbehind
    cases h
    exact ⟨[], rfl, fun _ => rfl⟩
  | cons t ts ih =>
    cases lexemes with
    | nil => cases hts
    | cons lexeme rest =>
      obtain ⟨found, p⟩ := lexeme
      obtain ⟨rfl, hrest⟩ := List.cons.inj hts
      rw [List.cons_append]
      cases hfailure : failure? (rest ++ behind) with
      | some e' =>
        obtain rfl : ts = [] := by
          cases ts with
          | nil => rfl
          | cons u us =>
            have hclear : failure? (rest ++ behind) = none := by
              rw [failure?_eq_none, List.map_append, hrest]
              exact clear_ok u _
            rw [hfailure] at hclear
            cases hclear
        obtain rfl := List.map_eq_nil_iff.mp hrest
        rw [List.nil_append, hbehind] at hfailure
        cases hfailure
        refine ⟨[], outcomes_failure hbehind, fun hopened => ?_⟩
        subst hopened
        rcases feed_cons_cases h with ⟨v, us, _, hfeed, rfl⟩ | ⟨inner, hshift, hfeed⟩
        · cases hfeed
          rfl
        · cases hfeed
          exact absurd hshift shift_ne_pending_nil
      | none =>
        rcases feed_cons_cases h with ⟨v, us, hshift, hfeed, rfl⟩ | ⟨inner, hshift, hfeed⟩
        · obtain ⟨ws, hout, hws⟩ := @ih [] p rest us hrest hfeed
          refine ⟨v :: ws, ?_, fun hopened => ?_⟩
          · rw [outcomes_form hfailure hshift, hout]
            rfl
          -- The form is not the last one, since the failure is not behind its token.
          · subst hopened
            have hus : us ≠ [] := by
              rintro rfl
              obtain ⟨_, rfl⟩ := eq_nil_of_feed hfeed
              obtain rfl := List.map_eq_nil_iff.mp hrest
              cases hfailure.symm.trans hbehind
            rw [hws rfl, List.dropLast_cons_of_ne_nil hus]
        · obtain ⟨ws, hout, hws⟩ := @ih inner p rest vs hrest hfeed
          exact ⟨ws, (outcomes_pending hfailure hshift).trans hout, hws⟩

/-- What is left to be read of tokens that can all be handed on. -/
theorem outcomes_of_feed {ts : List Token} {vs : List Value}
    (hts : lexemes.map Lexeme.found = ts.map .ok) (h : feed stack ts = .ok (vs, opened)) :
    ∃ last', outcomes finish stack last lexemes =
      vs.map .ok ++ (openAtEnd? finish last' opened).toList.map .error := by
  have hall : lexemes.map Lexeme.found = ts.map .ok ++ [] := by rw [hts, List.append_nil]
  obtain ⟨last', behind, hbehind, hout⟩ := outcomes_append hall clear_nil h
  obtain rfl : behind = [] := List.map_eq_nil_iff.mp hbehind
  exact ⟨last', hout⟩

/-- What is read of a lexeme in front of others: an error, or a token that no failure follows. -/
theorem outcomes_cons_cases (finish : Position) (stack : List Open) (last : Position)
    (lexeme : Lexeme) (rest : List Lexeme) :
    (∃ e more, outcomes finish stack last (lexeme :: rest) = .error e :: more) ∨
      ∃ t, lexeme.found = .ok t ∧ Clear (rest.map Lexeme.found) ∧
        ((∃ v, shift stack t = .ok (.form v) ∧ outcomes finish stack last (lexeme :: rest) =
            .ok v :: outcomes finish [] lexeme.position rest) ∨
          ∃ inner, shift stack t = .ok (.pending inner) ∧
            outcomes finish stack last (lexeme :: rest) =
              outcomes finish inner lexeme.position rest) := by
  obtain ⟨found, p⟩ := lexeme
  cases found with
  | error e => exact .inl ⟨_, _, rfl⟩
  | ok t =>
    cases hfailure : failure? rest with
    | some e => exact .inl ⟨_, _, outcomes_failure hfailure⟩
    | none =>
      have hclear := failure?_eq_none.mp hfailure
      cases hshift : shift stack t with
      | error cause => exact .inl ⟨_, _, outcomes_error hfailure hshift⟩
      | ok progress =>
        cases progress with
        | form v => exact .inr ⟨t, rfl, hclear, .inl ⟨v, hshift, outcomes_form hfailure hshift⟩⟩
        | pending inner =>
          exact .inr ⟨t, rfl, hclear, .inr ⟨inner, hshift, outcomes_pending hfailure hshift⟩⟩

theorem map_ok_ne_error (vs : List Value) (e : ReadError) (rest : List (Except ReadError Value)) :
    vs.map .ok ≠ .error e :: rest := by
  cases vs <;> nofun

theorem feed_of_outcomes {vs : List Value} (h : outcomes finish stack last lexemes = vs.map .ok) :
    ∃ ts : List Token, lexemes.map Lexeme.found = ts.map .ok ∧ feed stack ts = .ok (vs, []) := by
  induction lexemes generalizing stack last vs with
  | nil =>
    cases stack with
    | nil =>
      cases vs with
      | nil => exact ⟨[], rfl, rfl⟩
      | cons v vs => cases h
    | cons top stack => cases top <;> exact absurd h.symm (map_ok_ne_error vs _ _)
  | cons lexeme rest ih =>
    rcases outcomes_cons_cases finish stack last lexeme rest with
      ⟨e, more, he⟩ | ⟨t, ht, _, ⟨v, hshift, hout⟩ | ⟨inner, hshift, hout⟩⟩
    · exact absurd (h.symm.trans he) (map_ok_ne_error vs e more)
    · rw [hout] at h
      cases vs with
      | nil => cases h
      | cons w ws =>
        obtain ⟨hv, hws⟩ := List.cons.inj h
        cases hv
        obtain ⟨us, hus, hfeed⟩ := ih hws
        refine ⟨t :: us, by rw [List.map_cons, ht, hus, List.map_cons], ?_⟩
        rw [feed_form hshift, hfeed]
        rfl
    · rw [hout] at h
      obtain ⟨us, hus, hfeed⟩ := ih h
      exact ⟨t :: us, by rw [List.map_cons, ht, hus, List.map_cons], (feed_pending hshift).trans hfeed⟩

theorem feed_of_head?_outcomes {v : Value}
    (h : (outcomes finish stack last lexemes).head? = some (.ok v)) :
    ∃ ts back, lexemes.map Lexeme.found = ts.map .ok ++ back ∧ Clear back ∧
      feed stack ts = .ok ([v], []) := by
  induction lexemes generalizing stack last with
  | nil =>
    cases stack with
    | nil => cases h
    | cons top stack => cases top <;> cases h
  | cons lexeme rest ih =>
    rcases outcomes_cons_cases finish stack last lexeme rest with
      ⟨e, more, he⟩ | ⟨t, ht, hclear, ⟨w, hshift, hout⟩ | ⟨inner, hshift, hout⟩⟩
    · rw [he] at h
      cases h
    · rw [hout] at h
      cases h
      refine ⟨[t], rest.map Lexeme.found, by rw [List.map_cons, ht]; rfl, hclear, ?_⟩
      rw [feed_form hshift]
      rfl
    · rw [hout] at h
      obtain ⟨ts, back, hts, hback, hfeed⟩ := ih h
      exact ⟨t :: ts, back, by rw [List.map_cons, ht, hts]; rfl, hback,
        (feed_pending hshift).trans hfeed⟩

end

end SmallLisp.Reader

/-! ### Texts -/

namespace SmallLisp

open Reader

theorem mapM_id_eq_ok_iff {ε α : Type} {rs : List (Except ε α)} {as : List α} :
    rs.mapM id = .ok as ↔ rs = as.map .ok := by
  induction rs generalizing as with
  | nil => cases as <;> simp [pure, Except.pure]
  | cons r rs ih =>
    rw [List.mapM_cons]
    cases r with
    | error e => cases as <;> simp [bind, Except.bind]
    | ok a =>
      cases hrs : rs.mapM id with
      | error e =>
        have hno : ∀ bs : List α, rs ≠ bs.map .ok := by
          intro bs hbs
          rw [ih.mpr hbs] at hrs
          cases hrs
        cases as <;> simp [bind, Except.bind, hno]
      | ok bs =>
        have hbs := ih.mp hrs
        have hinj : ∀ cs : List α, (bs.map .ok : List (Except ε α)) = cs.map .ok ↔ bs = cs :=
          fun cs => List.map_inj_right fun _ _ => Except.ok.inj
        cases as <;> simp [bind, Except.bind, pure, Except.pure, hbs, hinj]

theorem exists_of_mapM_error {ε α β : Type} {f : α → Except ε β} {as : List α} {e : ε}
    (h : as.mapM f = .error e) : ∃ a ∈ as, f a = .error e := by
  induction as with
  | nil => cases h
  | cons a as ih =>
    rw [List.mapM_cons] at h
    cases ha : f a with
    | error e' =>
      rw [ha] at h
      cases h
      exact ⟨a, List.mem_cons_self, ha⟩
    | ok b =>
      cases has : as.mapM f with
      | error e' =>
        rw [ha, has] at h
        cases h
        obtain ⟨a', hmem, ha'⟩ := ih has
        exact ⟨a', List.mem_cons_of_mem a hmem, ha'⟩
      | ok bs =>
        rw [ha, has] at h
        cases h

theorem mapM_id_eq_error {rs rest : List (Except ReadError Value)} {vs : List Value} {e : ReadError}
    (h : rs = vs.map .ok ++ .error e :: rest) : rs.mapM id = .error e := by
  subst h
  induction vs with
  | nil => rfl
  | cons v vs ih =>
    rw [List.map_cons, List.cons_append, List.mapM_cons, ih]
    rfl

theorem tokens_eq_ok_iff {text : String} {ts : List Token} :
    Lexeme.tokens text = .ok ts ↔ scans text.toList = ts.map .ok := by
  rw [← map_found_list, ← mapM_id_eq_ok_iff, List.mapM_map]
  rfl

/-- The texts that read as forms. -/
theorem readAll_eq_ok_iff {text : String} {vs : List Value} :
    readAll text = .ok vs ↔
      ∃ ts : List Token, scans text.toList = ts.map .ok ∧ feed [] ts = .ok (vs, []) := by
  unfold readAll readEach
  rw [mapM_id_eq_ok_iff]
  constructor
  · exact feed_of_outcomes
  · rintro ⟨ts, hts, h⟩
    obtain ⟨_, hout⟩ := outcomes_of_feed hts h
    exact hout.trans (List.append_nil _)

theorem readAll_empty : readAll "" = .ok [] := readAll_eq_ok_iff.mpr ⟨[], scans_empty, rfl⟩

/-- The texts that a form can be read from. -/
theorem readFirst_eq_ok_iff {text : String} {v : Value} :
    readFirst text = .ok v ↔ (scans text.toList = [] ∧ v = .nil) ∨
      ∃ ts back, scans text.toList = ts.map .ok ++ back ∧ Clear back ∧
        feed [] ts = .ok ([v], []) := by
  have hhead : readFirst text = .ok v ↔ (readEach text = [] ∧ v = .nil) ∨
      (readEach text).head? = some (.ok v) := by
    unfold readFirst
    cases readEach text with
    | nil => simp [eq_comm]
    | cons r rs => simp
  have hnone : readEach text = [] ↔ scans text.toList = [] := by
    constructor
    · intro h
      have hmap : readEach text = ([] : List Value).map .ok := h
      obtain ⟨ts, hts, hfeed⟩ := feed_of_outcomes hmap
      obtain ⟨_, rfl⟩ := eq_nil_of_feed hfeed
      exact hts
    · intro h
      have hmap : (Lexeme.list text).map Lexeme.found = ([] : List Token).map .ok := h
      obtain ⟨_, hout⟩ := outcomes_of_feed hmap (feed_nil [])
      exact hout
  rw [hhead, hnone]
  refine or_congr_right ?_
  constructor
  · exact feed_of_head?_outcomes
  · rintro ⟨ts, back, hts, hback, h⟩
    obtain ⟨_, _, _, hout⟩ := outcomes_append hts hback h
    exact congrArg List.head? hout

end SmallLisp
