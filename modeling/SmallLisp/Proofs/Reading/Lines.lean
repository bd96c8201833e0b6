import SmallLisp.Proofs.Reading.Scans

/-!
# Scans of lines

A newline ends every token but an open string. What is found in a text is therefore found in front
of a further line too, up to the first failure; a failure stays one, unless the further line closes
a string that is open.
-/

namespace SmallLisp

/-! ### Single scans -/

/-- A cut of a longer text, whose last characters are left too. -/
def Split.append {α : Type} (s : Split α) (back : List Char) : Split α :=
  ⟨s.found, s.taken, s.rest ++ back⟩

section

variable {p : Char → Bool} {cs ds : List Char}

theorem takeWhile_append_of_stop (h : ∀ c, ds.head? = some c → p c = false) :
    (cs ++ ds).takeWhile p = cs.takeWhile p := by
  have hds : ds.takeWhile p = [] := by
    cases ds with
    | nil => rfl
    | cons d ds => simp [h d rfl]
  rw [List.takeWhile_append, hds, List.append_nil]
  split
  · next hlength =>
    have hprefix := List.takeWhile_append_dropWhile (p := p) (l := cs)
    have hdrop : cs.dropWhile p = [] := by
      have hsum := congrArg List.length hprefix
      rw [List.length_append] at hsum
      exact List.length_eq_zero_iff.mp (by omega)
    rw [hdrop, List.append_nil] at hprefix
    exact hprefix.symm
  · rfl

theorem dropWhile_append_of_stop (h : ∀ c, ds.head? = some c → p c = false) :
    (cs ++ ds).dropWhile p = cs.dropWhile p ++ ds := by
  have hds : ds.dropWhile p = ds := by
    cases ds with
    | nil => rfl
    | cons d ds => simp [h d rfl]
  rw [List.dropWhile_append, hds]
  split
  · next hempty =>
    rw [List.isEmpty_iff.mp hempty, List.nil_append]
  · rfl

theorem keyword_append (h : Stops ds) : Scan.keyword (cs ++ ds) = (Scan.keyword cs).append ds := by
  unfold Scan.keyword
  rw [takeWhile_append_of_stop h, dropWhile_append_of_stop h]
  rfl

theorem name_append (h : Stops ds) : Scan.name (cs ++ ds) = (Scan.name cs).append ds := by
  unfold Scan.name
  rw [takeWhile_append_of_stop h, dropWhile_append_of_stop h]
  rfl

theorem number_append (h : Stops ds) (sign : Option Char) :
    Scan.number sign (cs ++ ds) = (Scan.number sign cs).append ds := by
  unfold Scan.number
  rw [takeWhile_append_of_stop h.digit, dropWhile_append_of_stop h.digit]
  cases cs.dropWhile Char.isDigit with
  | cons c rest => rfl
  | nil =>
    cases ds with
    | nil => rfl
    | cons d ds =>
      have hd : isSymbolChar d = false := h d rfl
      simp [Split.append, hd]

theorem signed_append (h : Stops ds) (sign : Char) :
    Scan.signed sign (cs ++ ds) = (Scan.signed sign cs).append ds := by
  have hhead : ((cs ++ ds).head?.map Char.isDigit).getD false =
      (cs.head?.map Char.isDigit).getD false := by
    cases cs with
    | cons c cs => rfl
    | nil =>
      cases ds with
      | nil => rfl
      | cons d ds => exact h.digit d rfl
  unfold Scan.signed
  rw [hhead, number_append h, takeWhile_append_of_stop h, dropWhile_append_of_stop h]
  split <;> rfl

theorem startingWith_append {c : Char} (hc : c ≠ '"') (h : Stops ds) (hmark : ds.head? ≠ some '@') :
    Scan.startingWith c (cs ++ ds) = (Scan.startingWith c cs).append ds := by
  unfold Scan.startingWith
  split
  case h_11 =>
    cases cs with
    | cons c cs => by_cases hat : c = '@' <;> simp [Split.append, Scan.token, hat]
    | nil =>
      cases ds with
      | nil => rfl
      | cons d ds =>
        have hd : d ≠ '@' := fun hat => hmark (congrArg some hat)
        simp [Split.append, Scan.token, hd]
  case h_12 => exact absurd rfl hc
  case h_13 => exact keyword_append h
  case h_14 => exact signed_append h '-'
  case h_15 => exact signed_append h '+'
  case h_16 =>
    split
    · exact @number_append (_ :: cs) ds h none
    · split
      · exact @name_append (_ :: cs) ds h
      · rfl
  all_goals rfl

end

/-! ### Strings -/

theorem ne_slash {c : Char} {rest : List Char} (hlast : c = '\\' → rest = [] → False)
    (hescape : ∀ d more, c = '\\' → rest = d :: more → False) : c ≠ '\\' := by
  rintro rfl
  cases rest with
  | nil => exact hlast rfl rfl
  | cons d more => exact hescape d more rfl rfl

theorem decode_cons {c : Char} (hquote : c ≠ '"') (hslash : c ≠ '\\') (rest : List Char) :
    Text.Quoted.decode (c :: rest) =
      ((Text.Quoted.decode rest).map (Except.map (c :: ·))).prepend [c] := by
  rw [Text.Quoted.decode]
  · exact hquote
  · exact fun h _ => hslash h
  · exact fun _ _ h _ => hslash h

/-- Whether a flaw is that the text ended too early. -/
def Text.Quoted.Flaw.isOpen : Text.Quoted.Flaw → Bool
  | .unknownEscape _ => false
  | .openEscape | .openQuote => true

/-- A quoted text that is read to its end, or to an escape that stands for nothing, is read as far
in front of further text. -/
theorem decode_append {cs : List Char}
    (h : ∀ flaw, (Text.Quoted.decode cs).found = .error flaw → flaw.isOpen = false)
    (ds : List Char) : Text.Quoted.decode (cs ++ ds) = (Text.Quoted.decode cs).append ds := by
  fun_induction Text.Quoted.decode cs with
  | case1 => cases h _ rfl
  | case2 rest => rfl
  | case3 => cases h _ rfl
  | case4 c rest d hd ih =>
    have hrest : ∀ flaw, (Text.Quoted.decode rest).found = .error flaw → flaw.isOpen = false :=
      fun flaw hflaw => h flaw (by simp [Split.prepend, Split.map, Except.map, hflaw])
    rw [List.cons_append, List.cons_append, Text.Quoted.decode, hd, ih hrest]
    rfl
  | case5 c rest hd =>
    rw [List.cons_append, List.cons_append, Text.Quoted.decode, hd]
    rfl
  | case6 c rest hquote hlast hescape ih =>
    have hrest : ∀ flaw, (Text.Quoted.decode rest).found = .error flaw → flaw.isOpen = false :=
      fun flaw hflaw => h flaw (by simp [Split.prepend, Split.map, Except.map, hflaw])
    rw [List.cons_append, decode_cons hquote (ne_slash hlast hescape), ih hrest]
    rfl

theorem decode_open {ds : List Char} (h : '"' ∉ ds) :
    ∃ flaw, (Text.Quoted.decode ds).found = .error flaw := by
  fun_induction Text.Quoted.decode ds with
  | case1 => exact ⟨_, rfl⟩
  | case2 rest => exact absurd List.mem_cons_self h
  | case3 => exact ⟨_, rfl⟩
  | case4 c rest d hd ih =>
    obtain ⟨flaw, hflaw⟩ := ih fun hmem => h (List.mem_cons_of_mem _ (List.mem_cons_of_mem _ hmem))
    exact ⟨flaw, by simp [Split.prepend, Split.map, Except.map, hflaw]⟩
  | case5 c rest hd => exact ⟨_, rfl⟩
  | case6 c rest hquote hlast hescape ih =>
    obtain ⟨flaw, hflaw⟩ := ih fun hmem => h (List.mem_cons_of_mem _ hmem)
    exact ⟨flaw, by simp [Split.prepend, Split.map, Except.map, hflaw]⟩

theorem decode_append_open {cs ds : List Char} {flaw : Text.Quoted.Flaw}
    (h : (Text.Quoted.decode cs).found = .error flaw) (hds : '"' ∉ ds) :
    ∃ flaw', (Text.Quoted.decode (cs ++ ds)).found = .error flaw' := by
  fun_induction Text.Quoted.decode cs generalizing flaw with
  | case1 => exact decode_open hds
  | case2 rest => cases h
  | case3 =>
    refine decode_open fun hmem => ?_
    rcases List.mem_cons.mp hmem with hc | hmem
    · cases hc
    · exact hds hmem
  | case4 c rest d hd ih =>
    cases hfound : (Text.Quoted.decode rest).found with
    | ok more => simp [Split.prepend, Split.map, Except.map, hfound] at h
    | error flaw' =>
      obtain ⟨flaw'', hflaw⟩ := ih hfound
      refine ⟨flaw'', ?_⟩
      rw [List.cons_append, List.cons_append, Text.Quoted.decode, hd]
      simp [Split.prepend, Split.map, Except.map, hflaw]
  | case5 c rest hd =>
    refine ⟨.unknownEscape c, ?_⟩
    rw [List.cons_append, List.cons_append, Text.Quoted.decode, hd]
  | case6 c rest hquote hlast hescape ih =>
    cases hfound : (Text.Quoted.decode rest).found with
    | ok more => simp [Split.prepend, Split.map, Except.map, hfound] at h
    | error flaw' =>
      obtain ⟨flaw'', hflaw⟩ := ih hfound
      refine ⟨flaw'', ?_⟩
      rw [List.cons_append, decode_cons hquote (ne_slash hlast hescape)]
      simp [Split.prepend, Split.map, Except.map, hflaw]

/-! ### The first scan -/

/-- Whether a failure is that the text ended in a string. -/
def ScanError.isOpen : ScanError → Bool
  | .quoted flaw => flaw.isOpen
  | _ => false

/-- Whether further text cannot change what is found. -/
def Settled (found : Except ScanError Token) : Prop :=
  ∀ e, found = .error e → e.isOpen = false

theorem settled_ok (t : Token) : Settled (.ok t) := nofun

section

variable {cs ds : List Char}

theorem startingWith_append_settled {c : Char} (h : Stops ds) (hmark : ds.head? ≠ some '@')
    (hsettled : Settled (Scan.startingWith c cs).found) :
    Scan.startingWith c (cs ++ ds) = (Scan.startingWith c cs).append ds := by
  by_cases hc : c = '"'
  · subst hc
    have hbody : ∀ flaw, (Text.Quoted.decode cs).found = .error flaw → flaw.isOpen = false := by
      intro flaw hflaw
      refine hsettled (.quoted flaw) ?_
      change (Scan.string cs).found = _
      rw [found_string, hflaw]
    change Scan.string (cs ++ ds) = (Scan.string cs).append ds
    unfold Scan.string
    rw [decode_append hbody]
    rfl
  · exact startingWith_append hc h hmark

theorem startingWith_append_error {c : Char} {e : ScanError} (h : Stops ds)
    (hmark : ds.head? ≠ some '@') (hquote : '"' ∉ ds)
    (he : (Scan.startingWith c cs).found = .error e) :
    ∃ e', (Scan.startingWith c (cs ++ ds)).found = .error e' := by
  by_cases hc : c = '"'
  · subst hc
    obtain ⟨flaw, hflaw, _⟩ := exists_flaw_of_string he
    obtain ⟨flaw', hflaw'⟩ := decode_append_open hflaw hquote
    refine ⟨.quoted flaw', ?_⟩
    change (Scan.string (cs ++ ds)).found = _
    rw [found_string, hflaw']
  · rw [startingWith_append hc h hmark]
    exact ⟨e, he⟩

theorem skipSpace_none {inComment : Bool} {c : Char} (h : spaceState? inComment c = none)
    (cs : List Char) : skipSpace inComment (c :: cs) = ⟨(), [], c :: cs⟩ := by
  rw [skipSpace, h]

theorem skipSpace_some {inComment running : Bool} {c : Char}
    (h : spaceState? inComment c = some running) (cs : List Char) :
    skipSpace inComment (c :: cs) = (skipSpace running cs).prepend [c] := by
  rw [skipSpace, h]

theorem skipSpace_append_token {inComment : Bool} {c : Char} {space rest : List Char}
    (h : skipSpace inComment cs = ⟨(), space, c :: rest⟩) :
    skipSpace inComment (cs ++ ds) = ⟨(), space, c :: (rest ++ ds)⟩ := by
  induction cs generalizing inComment space with
  | nil => cases h
  | cons d cs ih =>
    rw [List.cons_append]
    cases hstate : spaceState? inComment d with
    | none =>
      rw [skipSpace_none hstate] at h ⊢
      cases h
      rfl
    | some running =>
      rw [skipSpace_some hstate] at h ⊢
      cases hskip : skipSpace running cs with
      | mk _ taken left =>
        rw [hskip] at h
        cases h
        rw [ih hskip]
        rfl

theorem skipSpace_append_end {inComment : Bool} (h : (skipSpace inComment cs).rest = [])
    (w : List Char) :
    skipSpace inComment (cs ++ '\n' :: w) = (skipSpace false w).prepend (cs ++ ['\n']) := by
  induction cs generalizing inComment with
  | nil =>
    have hnewline : spaceState? inComment '\n' = some false := by
      cases inComment <;> decide
    exact skipSpace_some hnewline w
  | cons d cs ih =>
    rw [List.cons_append]
    cases hstate : spaceState? inComment d with
    | none =>
      rw [skipSpace_none hstate] at h
      cases h
    | some running =>
      rw [skipSpace_some hstate] at h ⊢
      rw [ih h]
      rfl

theorem rest_skipSpace_of_none (h : Scan.first? cs = none) : (skipSpace false cs).rest = [] := by
  unfold Scan.first? at h
  cases hskip : skipSpace false cs with
  | mk _ space rest =>
    rw [hskip] at h
    cases rest with
    | nil => rfl
    | cons c rest => cases h

/-- Behind a text without tokens a newline and what follows it are all that there is to scan. -/
theorem first?_append_end (h : Scan.first? cs = none) (w : List Char) :
    Scan.first? (cs ++ '\n' :: w) = (Scan.first? w).map (Split.prepend (cs ++ ['\n'])) := by
  unfold Scan.first?
  rw [skipSpace_append_end (rest_skipSpace_of_none h) w]
  generalize skipSpace false w = s
  obtain ⟨_, space, rest⟩ := s
  cases rest with
  | nil => rfl
  | cons c rest => simp [Split.prepend]

theorem first?_append_settled {scan : Scan} (h : Scan.first? cs = some scan)
    (hsettled : Settled scan.found) (hstop : Stops ds) (hmark : ds.head? ≠ some '@') :
    Scan.first? (cs ++ ds) = some (scan.append ds) := by
  obtain ⟨space, c, rest, hskip, rfl⟩ := Scan.eq_of_first? h
  unfold Scan.first?
  rw [skipSpace_append_token hskip]
  simp only [startingWith_append_settled hstop hmark hsettled]
  rfl

theorem first?_append_error {scan : Scan} {e : ScanError} (h : Scan.first? cs = some scan)
    (he : scan.found = .error e) (hstop : Stops ds) (hmark : ds.head? ≠ some '@')
    (hquote : '"' ∉ ds) :
    ∃ scan' e', Scan.first? (cs ++ ds) = some scan' ∧ scan'.found = .error e' := by
  obtain ⟨space, c, rest, hskip, rfl⟩ := Scan.eq_of_first? h
  obtain ⟨e', he'⟩ := startingWith_append_error hstop hmark hquote he
  refine ⟨(Scan.startingWith c (rest ++ ds)).prepend space, e', ?_, he'⟩
  unfold Scan.first?
  rw [skipSpace_append_token hskip]

end

/-! ### Lines -/

theorem stops_newline (w : List Char) : Stops ('\n' :: w) := stops_cons (by decide) w

theorem newline_not_mark (w : List Char) : ('\n' :: w).head? ≠ some '@' := by
  simp

/-- The tokens of a line are found in front of a further line too, and behind them what is found in
that line, from its position on. -/
theorem listFrom_line {cs : List Char} {ts : List Token} (h : scans cs = ts.map .ok) (p : Position)
    (w : List Char) : Lexeme.listFrom p (cs ++ '\n' :: w) =
      Lexeme.listFrom p cs ++ Lexeme.listFrom (p.after (cs ++ ['\n'])) w := by
  induction ts generalizing cs p with
  | nil =>
    cases hfirst : Scan.first? cs with
    | none =>
      have hline := first?_append_end hfirst w
      rw [listFrom_none hfirst, List.nil_append]
      cases hw : Scan.first? w with
      | none =>
        rw [hw] at hline
        rw [listFrom_none hline, listFrom_none hw]
      | some scan =>
        rw [hw] at hline
        rw [listFrom_some hline, listFrom_some hw]
        simp [Split.prepend]
    | some scan =>
      rw [scans_some hfirst] at h
      cases h
  | cons t ts ih =>
    cases hfirst : Scan.first? cs with
    | none =>
      rw [scans_none hfirst] at h
      cases h
    | some scan =>
      rw [scans_some hfirst] at h
      obtain ⟨hfound, hrest⟩ := List.cons.inj h
      have hline := first?_append_settled hfirst (hfound ▸ settled_ok t) (stops_newline w)
        (newline_not_mark w)
      have hwhole : scan.taken ++ scan.rest = cs := Scan.whole_of_first? hfirst
      have hafter : p.after (cs ++ ['\n']) = (p.after scan.taken).after (scan.rest ++ ['\n']) := by
        rw [← Position.after_append, ← List.append_assoc, hwhole]
      rw [listFrom_some hline, listFrom_some hfirst, hafter, List.cons_append]
      exact congrArg (List.cons _) (ih hrest (p.after scan.taken))

/-- What is found in a line, up to its first failure, is found in front of a further line too. -/
theorem scans_line_tokens {cs : List Char} {ts : List Token} (h : scans cs = ts.map .ok)
    (w : List Char) : scans (cs ++ '\n' :: w) = ts.map .ok ++ scans w := by
  rw [← h]
  unfold scans
  rw [listFrom_line h, List.map_append]
  exact congrArg _ (map_found_listFrom _ _ w)

/-- Behind the tokens at the front of a text it does not matter what stood in front of them. -/
theorem Takes.scans_append {cs ds rest : List Char} {ts : List Token} (h : Takes cs ts rest)
    (hstop : Stops ds) (hmark : ds.head? ≠ some '@') :
    scans (cs ++ ds) = ts.map .ok ++ scans (rest ++ ds) := by
  induction h with
  | nothing cs => rfl
  | @token cs rest scan t ts hfirst hfound _ ih =>
    rw [scans_some (first?_append_settled hfirst (hfound ▸ settled_ok t) hstop hmark)]
    change scan.found :: scans (scan.rest ++ ds) = _
    rw [hfound, ih]
    rfl

theorem scans_append_failure {cs ds : List Char} {ts : List Token} {e : ScanError}
    {back : List (Except ScanError Token)} (h : scans cs = ts.map .ok ++ .error e :: back)
    (hstop : Stops ds) (hmark : ds.head? ≠ some '@') (hquote : '"' ∉ ds) :
    ∃ e' back', scans (cs ++ ds) = ts.map .ok ++ .error e' :: back' := by
  obtain ⟨rest, htakes, hrest⟩ := exists_takes h
  obtain ⟨scan, hfirst, hfound⟩ := exists_first? hrest
  obtain ⟨scan', e', hscan, he'⟩ := first?_append_error hfirst hfound hstop hmark hquote
  refine ⟨e', scans scan'.rest, ?_⟩
  rw [htakes.scans_append hstop hmark, scans_some hscan, he']

theorem scans_line_failure {cs : List Char} {ts : List Token} {e : ScanError}
    {back : List (Except ScanError Token)} (h : scans cs = ts.map .ok ++ .error e :: back)
    {w : List Char} (hquote : '"' ∉ w) :
    ∃ e' back', scans (cs ++ '\n' :: w) = ts.map .ok ++ .error e' :: back' := by
  refine scans_append_failure h (stops_newline w) (newline_not_mark w) fun hmem => ?_
  rcases List.mem_cons.mp hmem with hc | hmem
  · cases hc
  · exact hquote hmem

theorem scans_line_settled {cs : List Char} {ts : List Token} {e : ScanError}
    {back : List (Except ScanError Token)} (h : scans cs = ts.map .ok ++ .error e :: back)
    (he : e.isOpen = false) (w : List Char) :
    ∃ back', scans (cs ++ '\n' :: w) = ts.map .ok ++ .error e :: back' := by
  obtain ⟨rest, htakes, hrest⟩ := exists_takes h
  obtain ⟨scan, hfirst, hfound⟩ := exists_first? hrest
  have hsettled : Settled scan.found := by
    intro e' he'
    rw [hfound] at he'
    cases he'
    exact he
  refine ⟨scans (scan.rest ++ '\n' :: w), ?_⟩
  rw [htakes.scans_append (stops_newline w) (newline_not_mark w),
    scans_some (first?_append_settled hfirst hsettled (stops_newline w) (newline_not_mark w))]
  exact congrArg (fun found => ts.map .ok ++ found :: scans (scan.rest ++ '\n' :: w)) hfound

/-- What is found in a text: tokens, and the first failure if there is one. -/
theorem scans_cases (cs : List Char) :
    ∃ ts : List Token, scans cs = ts.map .ok ∨
      ∃ e back, scans cs = ts.map .ok ++ .error e :: back := by
  induction scans cs with
  | nil => exact ⟨[], .inl rfl⟩
  | cons found rest ih =>
    cases found with
    | error e => exact ⟨[], .inr ⟨e, rest, rfl⟩⟩
    | ok t =>
      obtain ⟨ts, hts | ⟨e, back, hts⟩⟩ := ih
      · exact ⟨t :: ts, .inl (by rw [hts]; rfl)⟩
      · exact ⟨t :: ts, .inr ⟨e, back, by rw [hts]; rfl⟩⟩

theorem eq_of_map_ok {ts us : List Token}
    (h : (ts.map .ok : List (Except ScanError Token)) = us.map .ok) : ts = us :=
  (List.map_inj_right fun _ _ => Except.ok.inj).mp h

theorem map_ok_ne_failure (ts us : List Token) (e : ScanError)
    (back : List (Except ScanError Token)) : ts.map .ok ≠ us.map .ok ++ .error e :: back := by
  intro h
  have hmem : .error e ∈ ts.map (@Except.ok ScanError Token) :=
    h ▸ List.mem_append_right _ List.mem_cons_self
  obtain ⟨t, _, ht⟩ := List.mem_map.mp hmem
  cases ht

/-- A text of tokens that is cut at a newline is two texts of tokens, unless a string is open at the
newline. -/
theorem scans_line_cases {cs w : List Char} {ts : List Token}
    (h : scans (cs ++ '\n' :: w) = ts.map .ok) :
    (∃ us vs : List Token, ts = us ++ vs ∧ scans cs = us.map .ok ∧ scans w = vs.map .ok) ∨
      ∃ (us : List Token) (e : ScanError) (back : List (Except ScanError Token)),
        scans cs = us.map .ok ++ .error e :: back ∧ e.isOpen = true := by
  obtain ⟨us, hus | ⟨e, back, hus⟩⟩ := scans_cases cs
  · left
    rw [scans_line_tokens hus] at h
    obtain ⟨us', vs, rfl, hus', hvs⟩ := List.map_eq_append_iff.mp h.symm
    obtain rfl := eq_of_map_ok hus'
    exact ⟨us', vs, rfl, hus, hvs.symm⟩
  · cases he : e.isOpen with
    | true => exact .inr ⟨us, e, back, hus, he⟩
    | false =>
      obtain ⟨back', hback⟩ := scans_line_settled hus he w
      exact absurd (h.symm.trans hback) (map_ok_ne_failure ts us e back')

end SmallLisp
