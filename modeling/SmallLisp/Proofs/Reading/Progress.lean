import SmallLisp.Proofs.Reading.Calls
import SmallLisp.Proofs.Reading.Space

/-!
# Progress of scanning and reading

Every call that finds something takes text from the front of what is left, also where it finds a
failure, and every character that can stand behind space begins a token. So calls come to the end of
a text, whatever is wrong with it. The main statement is `calls_come_to_an_end`.
-/

namespace SmallLisp

/-! ### Every character begins a token -/

/-- Whether what is found is a token or a failure that some token can have. -/
def Expected (found : Except ScanError Token) : Prop :=
  ∀ d, found ≠ .error (.unexpectedCharacter d)

section

variable {c : Char} {cs rest space : List Char}

theorem expected_ok (t : Token) : Expected (.ok t) := nofun

theorem expected_string (cs : List Char) : Expected (Scan.string cs).found := by
  intro d h
  obtain ⟨flaw, _, hflaw⟩ := exists_flaw_of_string h
  cases hflaw

theorem expected_keyword (cs : List Char) : Expected (Scan.keyword cs).found := by
  intro d h
  simp only [Scan.keyword] at h
  split at h <;> cases h

theorem expected_number (sign : Option Char) (cs : List Char) :
    Expected (Scan.number sign cs).found := by
  intro d h
  simp only [Scan.number] at h
  cases hn : Integer.ofNumeral? sign (cs.takeWhile Char.isDigit) with
  | none =>
    rw [hn] at h
    split at h
    · split at h <;> cases h
    · cases h
  | some n =>
    rw [hn] at h
    split at h
    · split at h <;> cases h
    · cases h

theorem expected_signed (sign : Char) (cs : List Char) :
    Expected (Scan.signed sign cs).found := by
  unfold Scan.signed
  split
  · exact expected_number _ _
  · exact expected_ok _

theorem spaceState?_eq_none (h : spaceState? false c = none) :
    Text.isBlank c = false ∧ c ≠ ';' ∧ c ≠ ',' := by
  unfold spaceState? at h
  rw [if_neg Bool.false_ne_true] at h
  split at h
  · cases h
  · next hsemicolon =>
    split at h
    · cases h
    · next hblank => simpa [hsemicolon] using hblank

/-- A character that is neither space nor begins any other token is that of a symbol. -/
theorem expected_startingWith (h : spaceState? false c = none) (cs : List Char) :
    Expected (Scan.startingWith c cs).found := by
  unfold Scan.startingWith
  split
  case h_11 => split <;> exact expected_ok _
  case h_12 => exact expected_string cs
  case h_13 => exact expected_keyword cs
  case h_14 => exact expected_signed '-' cs
  case h_15 => exact expected_signed '+' cs
  case h_16 =>
    split
    · exact expected_number _ _
    · split
      · exact expected_ok _
      · next hsymbol =>
        obtain ⟨hblank, hsemicolon, hcomma⟩ := spaceState?_eq_none h
        refine absurd ?_ hsymbol
        simp_all [isSymbolChar, delimiters]
  all_goals exact expected_ok _

theorem spaceState?_of_skipSpace {inComment : Bool}
    (h : skipSpace inComment cs = ⟨(), space, c :: rest⟩) : spaceState? false c = none := by
  induction cs generalizing inComment space with
  | nil => cases h
  | cons d cs ih =>
    cases hstate : spaceState? inComment d with
    | none =>
      rw [skipSpace_none hstate] at h
      cases h
      cases inComment with
      | false => exact hstate
      | true => cases hstate
    | some running =>
      rw [skipSpace_some hstate] at h
      cases hskip : skipSpace running cs with
      | mk _ taken left =>
        rw [hskip] at h
        cases h
        exact ih hskip

theorem expected_first? {scan : Scan} (h : Scan.first? cs = some scan) : Expected scan.found := by
  obtain ⟨space, c, rest, hskip, rfl⟩ := Scan.eq_of_first? h
  exact expected_startingWith (spaceState?_of_skipSpace hskip) rest

end

namespace Cursor

variable {c : Cursor}

theorem next_eq_none_iff : c.next.1 = none ↔ IsSpace c.rest := by
  rw [← first?_eq_none_iff]
  cases h : Scan.first? c.rest with
  | none => simp [next_none h]
  | some scan => simp [next_some h]

theorem expected_next {found : Except ScanError Token} (h : c.next.1 = some found) :
    Expected found := by
  cases hfirst : Scan.first? c.rest with
  | none =>
    rw [next_none hfirst] at h
    cases h
  | some scan =>
    rw [next_some hfirst] at h
    cases h
    exact expected_first? hfirst

end Cursor

/-! ### Reading comes to an end -/

namespace Reading

open Reader

variable {r : Reading} {stack : List Open} {t : Token}

theorem left_read (stack : List Open) (r : Reading) : (r.read stack).2.left ≤ r.left := by
  fun_induction read stack r with
  | case1 => exact Nat.le_refl _
  | case2 _ _ _ h | case3 _ _ _ h | case4 _ _ _ h => exact Nat.le_of_lt (left_advance_lt h)
  | case5 _ _ _ h _ _ _ ih => exact Nat.le_trans ih (Nat.le_of_lt (left_advance_lt h))

theorem left_read_lt (h : r.ahead = some t) : (r.read stack).2.left < r.left := by
  have hlt := left_advance_lt h
  rw [read_some h]
  split
  · exact hlt
  · split
    · exact hlt
    · exact hlt
    · exact Nat.lt_of_le_of_lt (left_read _ _) hlt

/-- A call that reads something leaves less to be read. -/
theorem left_next_lt (h : r.next.1 ≠ none) : r.next.2.left < r.left := by
  cases hahead : r.ahead with
  | none =>
    refine absurd ?_ h
    change (r.read []).1 = none
    rw [read_none hahead]
    rfl
  | some t => exact left_read_lt hahead

theorem left_after {n : Nat} (h : ∀ i < n, (r.after i).next.1 ≠ none) :
    (r.after n).left + n ≤ r.left := by
  induction n with
  | zero => exact Nat.le_refl _
  | succ n ih =>
    have hbefore := ih fun i hi => h i (Nat.lt_succ_of_lt hi)
    have hlt := left_next_lt (h n (Nat.lt_succ_self n))
    rw [after_succ]
    omega

theorem left_ofText {text : String} (h : ofText text = .ok r) : r.left ≤ text.length := by
  have hleft := left_advance ⟨.ofText text, none, .start⟩
  rw [advance_of_ofText h] at hleft
  rwa [← String.length_toList]

/-- There are at most as many forms and errors as there are characters. -/
theorem length_readEach {text : String} (h : ofText text = .ok r) :
    (readEach text).length ≤ text.length := by
  have hcalls := getElem?_readEach text
  rw [h] at hcalls
  have hsome : ∀ i < (readEach text).length, (r.after i).next.1 ≠ none := by
    intro i hi hnone
    rw [← hcalls i, List.getElem?_eq_none_iff] at hnone
    omega
  have hafter := left_after hsome
  have hleft := left_ofText h
  omega

end Reading

/-- Calls make progress, and go on doing so behind errors. A call that scans finds nothing exactly
where nothing but space is left; every other one finds a token or a failure, for which it takes some
text, and never a character that nothing begins with. Calls that read come to the end of the text
after as many as there are characters, and stay there. What they give is what is scanned and read of
the text as a whole. -/
theorem calls_come_to_an_end (text : String) :
    (∀ n, let c := (Cursor.ofText text).after n
      (c.next.1 = none ↔ IsSpace c.rest) ∧
      (∀ found, c.next.1 = some found → ∃ taken, taken ≠ [] ∧ c.rest = taken ++ c.next.2.rest) ∧
      (∀ d, c.next.1 ≠ some (.error (.unexpectedCharacter d))) ∧
      ((Lexeme.list text).map Lexeme.found)[n]? = c.next.1) ∧
    ∀ r, Reading.ofText text = .ok r →
      (∃ n ≤ text.length, ∀ i, (r.after i).next.1 = none ↔ n ≤ i) ∧
      ∀ i, (r.after i).next.1 = (readEach text)[i]? := by
  constructor
  · intro n c
    refine ⟨Cursor.next_eq_none_iff, ?_, ?_, ?_⟩
    · intro found hfound
      obtain ⟨taken, htaken, _, hne⟩ := c.exists_taken
      exact ⟨taken, hne (by rw [hfound]; nofun), htaken⟩
    · exact fun d hd => Cursor.expected_next hd d rfl
    · rw [List.getElem?_map, Cursor.getElem?_list, Option.map_map]
      exact Option.map_id'
  · intro r hr
    have hcalls := Reading.getElem?_readEach text
    rw [hr] at hcalls
    refine ⟨⟨(readEach text).length, Reading.length_readEach hr, fun i => ?_⟩, ?_⟩
    · rw [← hcalls i, List.getElem?_eq_none_iff]
    · exact fun i => (hcalls i).symm

/-- Behind a bracket that closes nothing stands a string that is not closed: two calls find tokens,
the third one fails, and reading comes to the end as well. -/
theorem calls_come_to_an_end_unclosed :
    (∃ taken, taken ≠ [] ∧
      "1)\"a".toList = taken ++ ((Cursor.ofText "1)\"a").after 1).rest) ∧
    (∃ taken, taken ≠ [] ∧ ((Cursor.ofText "1)\"a").after 2).rest =
      taken ++ ((Cursor.ofText "1)\"a").after 3).rest) ∧
    ∃ r, Reading.ofText "1)\"a" = .ok r ∧
      ∃ n ≤ 4, ∀ i, (r.after i).next.1 = none ↔ n ≤ i :=
  ⟨((calls_come_to_an_end "1)\"a").1 0).2.1 (.ok (.int 1)) (by decide +kernel),
    ((calls_come_to_an_end "1)\"a").1 2).2.1 (.error (.quoted .openQuote)) (by decide +kernel),
    _, rfl, ((calls_come_to_an_end "1)\"a").2 _ rfl).1⟩

end SmallLisp
