import SmallLisp.Token.Lexeme

/-!
# Scans without positions

What is found in a text, token by token and failure by failure, where positions are left out. A
token that is written out, in front of a text that does not lengthen it, is found again, and what
is found behind it is what is found in that text alone.
-/

namespace SmallLisp

/-! ### What is found -/

/-- What is found in some characters, in order. -/
def scans (cs : List Char) : List (Except ScanError Token) :=
  (Lexeme.listFrom .start cs).map Lexeme.found

theorem listFrom_none {p : Position} {cs : List Char} (h : Scan.first? cs = none) :
    Lexeme.listFrom p cs = [] := by
  rw [Lexeme.listFrom]
  split
  · rfl
  · next scan hscan =>
    rw [h] at hscan
    cases hscan

theorem listFrom_some {p : Position} {cs : List Char} {scan : Scan}
    (h : Scan.first? cs = some scan) :
    Lexeme.listFrom p cs = ⟨scan.found, p.after scan.taken⟩ ::
      Lexeme.listFrom (p.after scan.taken) scan.rest := by
  rw [Lexeme.listFrom]
  split
  · next hnone =>
    rw [h] at hnone
    cases hnone
  · next scan' hscan =>
    rw [h] at hscan
    cases hscan
    rfl

theorem map_found_listFrom (p p' : Position) (cs : List Char) :
    (Lexeme.listFrom p cs).map Lexeme.found = (Lexeme.listFrom p' cs).map Lexeme.found := by
  generalize hn : cs.length = n
  induction n using Nat.strongRecOn generalizing p p' cs with
  | ind n ih =>
    cases h : Scan.first? cs with
    | none => rw [listFrom_none h, listFrom_none h]
    | some scan =>
      have hlt : scan.rest.length < n := hn ▸ Scan.length_rest_lt h
      rw [listFrom_some h, listFrom_some h]
      exact congrArg (scan.found :: ·) (ih _ hlt _ _ scan.rest rfl)

theorem map_found_list (text : String) :
    (Lexeme.list text).map Lexeme.found = scans text.toList := rfl

theorem scans_none {cs : List Char} (h : Scan.first? cs = none) : scans cs = [] := by
  unfold scans
  rw [listFrom_none h]
  rfl

theorem scans_empty : scans "".toList = ([] : List Token).map .ok := scans_none rfl

theorem scans_some {cs : List Char} {scan : Scan} (h : Scan.first? cs = some scan) :
    scans cs = scan.found :: scans scan.rest := by
  unfold scans
  rw [listFrom_some h]
  exact congrArg (scan.found :: ·) (map_found_listFrom _ _ scan.rest)

/-- Whether some tokens stand at the front of some characters, and others are left behind them. -/
inductive Takes : List Char → List Token → List Char → Prop where
  | nothing (cs : List Char) : Takes cs [] cs
  | token {cs rest : List Char} {scan : Scan} {t : Token} {ts : List Token}
      (hfirst : Scan.first? cs = some scan) (hfound : scan.found = .ok t)
      (hrest : Takes scan.rest ts rest) : Takes cs (t :: ts) rest

theorem exists_takes {cs : List Char} {ts : List Token} {back : List (Except ScanError Token)}
    (h : scans cs = ts.map .ok ++ back) : ∃ rest, Takes cs ts rest ∧ scans rest = back := by
  induction ts generalizing cs with
  | nil => exact ⟨cs, .nothing cs, h⟩
  | cons t ts ih =>
    cases hfirst : Scan.first? cs with
    | none =>
      rw [scans_none hfirst] at h
      cases h
    | some scan =>
      rw [scans_some hfirst] at h
      obtain ⟨hfound, hscans⟩ := List.cons.inj h
      obtain ⟨rest, htakes, hrest⟩ := ih hscans
      exact ⟨rest, .token hfirst hfound htakes, hrest⟩

theorem exists_first? {cs : List Char} {found : Except ScanError Token}
    {back : List (Except ScanError Token)} (h : scans cs = found :: back) :
    ∃ scan, Scan.first? cs = some scan ∧ scan.found = found := by
  cases hfirst : Scan.first? cs with
  | none =>
    rw [scans_none hfirst] at h
    cases h
  | some scan =>
    rw [scans_some hfirst] at h
    exact ⟨scan, rfl, (List.cons.inj h).1⟩

theorem first?_eq_none {cs : List Char} (h : scans cs = []) : Scan.first? cs = none := by
  cases hfirst : Scan.first? cs with
  | none => rfl
  | some scan =>
    rw [scans_some hfirst] at h
    cases h

/-! ### Blank space -/

theorem first?_blank {c : Char} (h : spaceState? false c = some false) (cs : List Char) :
    Scan.first? (c :: cs) = (Scan.first? cs).map (Split.prepend [c]) := by
  have hskip : skipSpace false (c :: cs) = (skipSpace false cs).prepend [c] := by
    rw [skipSpace, h]
  unfold Scan.first?
  rw [hskip]
  generalize skipSpace false cs = s
  obtain ⟨_, space, rest⟩ := s
  cases rest with
  | nil => rfl
  | cons d ds => rfl

theorem scans_blank {c : Char} (h : spaceState? false c = some false) (cs : List Char) :
    scans (c :: cs) = scans cs := by
  have hfirst := first?_blank h cs
  cases hcs : Scan.first? cs with
  | none =>
    rw [hcs] at hfirst
    rw [scans_none hfirst, scans_none hcs]
  | some scan =>
    rw [hcs] at hfirst
    rw [scans_some hfirst, scans_some hcs]
    rfl

theorem first?_token {c : Char} (h : spaceState? false c = none) (cs : List Char) :
    Scan.first? (c :: cs) = some (Scan.startingWith c cs) := by
  unfold Scan.first?
  rw [skipSpace, h]
  rfl

theorem scans_token {c : Char} (h : spaceState? false c = none) {cs rest taken : List Char}
    {found : Except ScanError Token} (hscan : Scan.startingWith c cs = ⟨found, taken, rest⟩) :
    scans (c :: cs) = found :: scans rest := by
  have hfirst := first?_token h cs
  rw [hscan] at hfirst
  exact scans_some hfirst

/-! ### Characters of symbols -/

theorem spaceState?_symbolChar {c : Char} (h : isSymbolChar c = true) :
    spaceState? false c = none := by
  unfold isSymbolChar at h
  simp only [Bool.and_eq_true, Bool.not_eq_true', delimiters, List.contains_eq_mem,
    decide_eq_false_iff_not, List.mem_cons, not_or] at h
  unfold spaceState?
  simp [h]

theorem isSymbolChar_of_isDigit {c : Char} (h : c.isDigit = true) : isSymbolChar c = true := by
  have hall : ∀ n < 58, 48 ≤ n → isSymbolChar (Char.ofNat n) = true := by decide
  simp only [Char.isDigit, Bool.and_eq_true, decide_eq_true_eq] at h
  have hlow : 48 ≤ c.toNat := h.1
  have hhigh : c.toNat ≤ 57 := h.2
  have hc := hall c.toNat (by omega) hlow
  rwa [Char.ofNat_toNat] at hc

/-! ### Numbers -/

theorem number_cases (sign : Option Char) (cs : List Char) :
    (∃ n, (Scan.number sign cs).found = .ok (.int n)) ∨
      ∃ e, (Scan.number sign cs).found = .error e ∧ ∀ flaw, e ≠ .quoted flaw := by
  unfold Scan.number
  dsimp only
  cases Integer.ofNumeral? sign (cs.takeWhile Char.isDigit) with
  | none =>
    split
    · split
      · exact .inr ⟨_, rfl, nofun⟩
      · exact .inr ⟨_, rfl, nofun⟩
    · exact .inr ⟨_, rfl, nofun⟩
  | some n =>
    split
    · split
      · exact .inr ⟨_, rfl, nofun⟩
      · exact .inl ⟨n, rfl⟩
    · exact .inl ⟨n, rfl⟩

theorem exists_int_of_number {sign : Option Char} {cs : List Char} {t : Token}
    (h : (Scan.number sign cs).found = .ok t) : ∃ n, t = .int n := by
  rcases number_cases sign cs with ⟨n, hn⟩ | ⟨e, he, _⟩
  · rw [h] at hn
    exact ⟨n, Except.ok.inj hn⟩
  · rw [h] at he
    cases he

/-! ### Strings -/

/-- What is found from an opening quote on, told from the text behind it. -/
theorem found_string (cs : List Char) : (Scan.string cs).found =
    match (Text.Quoted.decode cs).found with
    | .ok text => .ok (.str (String.ofList text))
    | .error flaw => .error (.quoted flaw) := rfl

theorem exists_text_of_string {cs : List Char} {t : Token} (h : (Scan.string cs).found = .ok t) :
    ∃ text, (Text.Quoted.decode cs).found = .ok text ∧ t = .str (String.ofList text) := by
  rw [found_string] at h
  split at h
  · next text hfound => exact ⟨text, hfound, (Except.ok.inj h).symm⟩
  · cases h

theorem exists_flaw_of_string {cs : List Char} {e : ScanError}
    (h : (Scan.string cs).found = .error e) :
    ∃ flaw, (Text.Quoted.decode cs).found = .error flaw ∧ e = .quoted flaw := by
  rw [found_string] at h
  split at h
  · cases h
  · next flaw hfound => exact ⟨flaw, hfound, (Except.error.inj h).symm⟩

/-! ### What ends a symbol -/

/-- Whether a text does not go on with a character of a symbol. -/
def Stops (cs : List Char) : Prop := ∀ c, cs.head? = some c → isSymbolChar c = false

theorem stops_nil : Stops [] := by
  intro c hc
  cases hc

theorem stops_cons {c : Char} (h : isSymbolChar c = false) (cs : List Char) : Stops (c :: cs) := by
  intro d hd
  cases hd
  exact h

theorem Stops.digit {cs : List Char} (h : Stops cs) :
    ∀ c, cs.head? = some c → c.isDigit = false := by
  intro c hc
  have hsymbol := h c hc
  cases hdigit : c.isDigit with
  | false => rfl
  | true =>
    have hyes := isSymbolChar_of_isDigit hdigit
    rw [hsymbol] at hyes
    cases hyes

section

variable {p : Char → Bool} {front cs : List Char}

theorem of_mem_takeWhile {c : Char} (h : c ∈ cs.takeWhile p) : p c = true :=
  List.all_eq_true.mp List.all_takeWhile c h

theorem takeWhile_exact (hfront : ∀ c ∈ front, p c = true)
    (hcs : ∀ c, cs.head? = some c → p c = false) : (front ++ cs).takeWhile p = front := by
  rw [List.takeWhile_append_of_pos hfront]
  cases cs with
  | nil => simp
  | cons c cs => simp [hcs c rfl]

theorem dropWhile_exact (hfront : ∀ c ∈ front, p c = true)
    (hcs : ∀ c, cs.head? = some c → p c = false) : (front ++ cs).dropWhile p = cs := by
  rw [List.dropWhile_append_of_pos hfront]
  cases cs with
  | nil => rfl
  | cons c cs => simp [hcs c rfl]

end

end SmallLisp
