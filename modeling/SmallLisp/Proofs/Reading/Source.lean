import SmallLisp.Proofs.Reading.Scans
import SmallLisp.Names

/-!
# Tokens as they are written

`Token.source` is how a token is written, with strings escaped. The main statement is
`scans_source`: a written token is found again in front of every text that does not lengthen it.
-/

namespace SmallLisp

/-! ### Names that can be written -/

/-- Whether a symbol is found again where its name is written: the name consists of symbol
characters, is no number or keyword at its start, and is no literal. -/
structure Symbol.Readable (s : Symbol) : Prop where
  nonempty : s.name.toList ≠ []
  chars : ∀ c ∈ s.name.toList, isSymbolChar c = true
  start : ∀ c, s.name.toList.head? = some c → c ≠ ':' ∧ c.isDigit = false
  sign : ∀ sign c rest, s.name.toList = sign :: c :: rest → sign = '-' ∨ sign = '+' →
    c.isDigit = false
  literal : s.name ≠ "nil" ∧ s.name ≠ "true" ∧ s.name ≠ "false"

/-- Whether a text can be written behind a colon to be the name of a keyword. -/
structure IsKeywordName (name : String) : Prop where
  nonempty : name.toList ≠ []
  chars : ∀ c ∈ name.toList, isSymbolChar c = true

/-- A token as it is written. -/
def Token.source : Token → List Char
  | opening b => [b.opening]
  | closing b => [b.closing]
  | mark m => m.text.toList
  | annotate => ['^']
  | nil => "nil".toList
  | bool b => (if b then "true" else "false").toList
  | int n => (Integer.text n).toList
  | str text => Text.Quoted.encodeChars text.toList
  | symbol name => name.toList
  | keyword name => ':' :: name.toList

/-- Whether a token is found again where it is written. -/
def Token.Readable : Token → Prop
  | symbol name => Symbol.Readable ⟨name⟩
  | keyword name => IsKeywordName name
  | _ => True

/-- Whether a token that is written in front of a text ends there. -/
def Token.EndsBefore (t : Token) (cs : List Char) : Prop :=
  match t with
  | opening _ => True
  | closing _ => True
  | mark m => m = .unquote → cs.head? ≠ some '@'
  | annotate => True
  | str _ => True
  | _ => Stops cs

/-! ### Names -/

theorem startingWith_symbolChar {c : Char} (h : isSymbolChar c = true) (hcolon : c ≠ ':')
    (cs : List Char) :
    Scan.startingWith c cs =
      if c = '-' ∨ c = '+' then Scan.signed c cs
      else if c.isDigit then Scan.number none (c :: cs)
      else Scan.name (c :: cs) := by
  have hdelimiter : ∀ d ∈ delimiters, c ≠ d := by
    rintro d hd rfl
    simp [isSymbolChar, hd] at h
  unfold Scan.startingWith
  split
  case h_13 => exact absurd rfl hcolon
  case h_14 => rfl
  case h_15 => rfl
  case h_16 hminus hplus =>
    have hsign : ¬ (c = '-' ∨ c = '+') := by
      rintro (hc | hc)
      · exact hminus hc
      · exact hplus hc
    rw [if_neg hsign]
    split
    · rfl
    · rfl
  all_goals exact absurd rfl (hdelimiter _ (by decide))

theorem name_exact {name cs : List Char} (hname : ∀ c ∈ name, isSymbolChar c = true)
    (hcs : Stops cs) : Scan.name (name ++ cs) = ⟨.ok (.ofName (String.ofList name)), name, cs⟩ := by
  unfold Scan.name
  rw [takeWhile_exact hname hcs, dropWhile_exact hname hcs]
  rfl

theorem scans_name {c : Char} {rest cs : List Char}
    (hname : ∀ d ∈ c :: rest, isSymbolChar d = true) (hcolon : c ≠ ':')
    (hsign : ¬ (c = '-' ∨ c = '+')) (hdigit : c.isDigit = false) (hcs : Stops cs) :
    scans (c :: rest ++ cs) = .ok (.ofName (String.ofList (c :: rest))) :: scans cs := by
  have hc : isSymbolChar c = true := hname c List.mem_cons_self
  have hscan := startingWith_symbolChar hc hcolon (rest ++ cs)
  rw [if_neg hsign, hdigit, if_neg Bool.false_ne_true] at hscan
  exact scans_token (spaceState?_symbolChar hc) (hscan.trans (name_exact hname hcs))

theorem scans_signedName {c : Char} {rest cs : List Char}
    (hname : ∀ d ∈ c :: rest, isSymbolChar d = true) (hsign : c = '-' ∨ c = '+')
    (hdigit : ∀ d, rest.head? = some d → d.isDigit = false) (hcs : Stops cs) :
    scans (c :: rest ++ cs) = .ok (.symbol (String.ofList (c :: rest))) :: scans cs := by
  have hc : isSymbolChar c = true := hname c List.mem_cons_self
  have hcolon : c ≠ ':' := by
    rcases hsign with rfl | rfl <;> decide
  have hrest : ∀ d ∈ rest, isSymbolChar d = true := fun d hd => hname d (List.mem_cons_of_mem c hd)
  have hhead : (((rest ++ cs).head?.map Char.isDigit).getD false) = false := by
    cases rest with
    | nil =>
      cases cs with
      | nil => rfl
      | cons d cs => exact hcs.digit d rfl
    | cons d rest => exact hdigit d rfl
  have hscan := startingWith_symbolChar hc hcolon (rest ++ cs)
  rw [if_pos hsign] at hscan
  unfold Scan.signed at hscan
  rw [hhead, if_neg Bool.false_ne_true, takeWhile_exact hrest hcs,
    dropWhile_exact hrest hcs] at hscan
  exact scans_token (spaceState?_symbolChar hc) hscan

theorem scans_symbol {s : Symbol} (hs : s.Readable) {cs : List Char} (hcs : Stops cs) :
    scans (s.name.toList ++ cs) = .ok (.symbol s.name) :: scans cs := by
  cases hname : s.name.toList with
  | nil => exact absurd hname hs.nonempty
  | cons c rest =>
    have hchars := hs.chars
    rw [hname] at hchars
    have hback : String.ofList (c :: rest) = s.name := by
      rw [← hname, String.ofList_toList]
    obtain ⟨hcolon, hdigit⟩ := hs.start c (by rw [hname]; rfl)
    by_cases hsign : c = '-' ∨ c = '+'
    · have hrest : ∀ d, rest.head? = some d → d.isDigit = false := by
        intro d hd
        cases rest with
        | nil => cases hd
        | cons e rest =>
          cases hd
          exact hs.sign c d rest hname hsign
      rw [scans_signedName hchars hsign hrest hcs, hback]
    · rw [scans_name hchars hcolon hsign hdigit hcs, hback]
      have hliteral := hs.literal
      simp [Token.ofName, hliteral]

theorem scans_plainName {name : String} {c : Char} {rest cs : List Char}
    (hname : name.toList = c :: rest) (hchars : (c :: rest).all isSymbolChar = true)
    (hstart : c ≠ ':' ∧ ¬ (c = '-' ∨ c = '+') ∧ c.isDigit = false) (hcs : Stops cs) :
    scans (name.toList ++ cs) = .ok (.ofName name) :: scans cs := by
  obtain ⟨hcolon, hsign, hdigit⟩ := hstart
  have hevery : ∀ d ∈ c :: rest, isSymbolChar d = true := List.all_eq_true.mp hchars
  rw [hname, scans_name hevery hcolon hsign hdigit hcs, ← hname, String.ofList_toList]

theorem scans_keyword {name : String} (h : IsKeywordName name) {cs : List Char} (hcs : Stops cs) :
    scans (':' :: name.toList ++ cs) = .ok (.keyword name) :: scans cs := by
  have hscan : Scan.startingWith ':' (name.toList ++ cs) =
      ⟨.ok (.keyword name), ':' :: name.toList, cs⟩ := by
    change Scan.keyword (name.toList ++ cs) = _
    unfold Scan.keyword
    rw [takeWhile_exact h.chars hcs, dropWhile_exact h.chars hcs]
    have hempty : name.toList.isEmpty = false := by
      simpa using h.nonempty
    simp [hempty]
  exact scans_token (by decide) hscan

/-! ### Strings -/

theorem decode_encode (text rest : List Char) :
    Text.Quoted.decode (text.flatMap Text.Quoted.encodeChar ++ '"' :: rest) =
      ⟨.ok text, text.flatMap Text.Quoted.encodeChar ++ ['"'], rest⟩ := by
  induction text with
  | nil => rfl
  | cons c text ih =>
    rw [List.flatMap_cons, List.append_assoc]
    by_cases hc : Text.Quoted.encodeChar c = [c]
    · have hquote : c ≠ '"' := by
        rintro rfl
        cases hc
      have hslash : c ≠ '\\' := by
        rintro rfl
        cases hc
      rw [hc, List.singleton_append, Text.Quoted.decode, ih]
      · rfl
      · exact fun hq => hquote hq
      · exact fun hq _ => hslash hq
      · exact fun _ _ hq _ => hslash hq
    · obtain ⟨d, hd, hback⟩ := Text.Quoted.unescape_encodeChar hc
      rw [hd, List.cons_append, List.singleton_append, Text.Quoted.decode, hback, ih]
      rfl

theorem scans_quoted (text : String) (cs : List Char) :
    scans (Text.Quoted.encodeChars text.toList ++ cs) = .ok (.str text) :: scans cs := by
  have hscan : Scan.startingWith '"' (text.toList.flatMap Text.Quoted.encodeChar ++ '"' :: cs) =
      ⟨.ok (.str text), Text.Quoted.encodeChars text.toList, cs⟩ := by
    change Scan.string _ = _
    unfold Scan.string
    rw [decode_encode]
    simp [Split.map, Split.prepend, Text.Quoted.encodeChars]
  have hwhole : Text.Quoted.encodeChars text.toList ++ cs =
      '"' :: (text.toList.flatMap Text.Quoted.encodeChar ++ '"' :: cs) := by
    simp [Text.Quoted.encodeChars]
  rw [hwhole]
  exact scans_token (by decide) hscan

/-! ### Integers -/

theorem ofDigits_toDigits (n : Nat) : Integer.ofDigits (Nat.toDigits 10 n) = n := by
  have hfold : Integer.ofDigits (Nat.toDigits 10 n) =
      Nat.ofDigitChars 10 (Nat.toDigits 10 n) 0 := by
    unfold Integer.ofDigits
    rw [Nat.ofDigitChars_eq_foldl]
    simp only [Nat.mul_comm]
  rw [hfold, Nat.ofDigitChars_ten_toDigits]

theorem isDigit_of_mem_toDigits {n : Nat} {c : Char} (h : c ∈ Nat.toDigits 10 n) :
    c.isDigit = true := Nat.isDigit_of_mem_toDigits (by decide) (by decide) h

theorem number_exact {sign : Option Char} {m : Nat} {n : Int64} {cs : List Char}
    (hn : Integer.ofNumeral? sign (Nat.toDigits 10 m) = some n) (hcs : Stops cs) :
    Scan.number sign (Nat.toDigits 10 m ++ cs) =
      ⟨.ok (.int n), sign.toList ++ Nat.toDigits 10 m, cs⟩ := by
  have hdigits : ∀ c ∈ Nat.toDigits 10 m, c.isDigit = true := fun c => isDigit_of_mem_toDigits
  unfold Scan.number
  rw [takeWhile_exact hdigits hcs.digit, dropWhile_exact hdigits hcs.digit]
  simp only [hn]
  cases cs with
  | nil => rfl
  | cons c cs =>
    have hc := hcs c rfl
    simp [hc]

theorem toDigits_cons (m : Nat) :
    ∃ d ds, Nat.toDigits 10 m = d :: ds ∧ d.isDigit = true := by
  cases h : Nat.toDigits 10 m with
  | nil => exact absurd h Nat.toDigits_ne_nil
  | cons d ds => exact ⟨d, ds, rfl, isDigit_of_mem_toDigits (h ▸ List.mem_cons_self)⟩

theorem scans_negative {m : Nat} {n : Int64} {cs : List Char}
    (hn : Integer.ofNumeral? (some '-') (Nat.toDigits 10 m) = some n) (hcs : Stops cs) :
    scans ('-' :: Nat.toDigits 10 m ++ cs) = .ok (.int n) :: scans cs := by
  obtain ⟨d, ds, hdigits, hd⟩ := toDigits_cons m
  have hhead : (((Nat.toDigits 10 m ++ cs).head?.map Char.isDigit).getD false) = true := by
    rw [hdigits]
    exact hd
  have hscan : Scan.startingWith '-' (Nat.toDigits 10 m ++ cs) =
      Scan.number (some '-') (Nat.toDigits 10 m ++ cs) := by
    change Scan.signed '-' _ = _
    unfold Scan.signed
    rw [if_pos hhead]
  exact scans_token (by decide) (hscan.trans (number_exact hn hcs))

theorem scans_natural {m : Nat} {n : Int64} {cs : List Char}
    (hn : Integer.ofNumeral? none (Nat.toDigits 10 m) = some n) (hcs : Stops cs) :
    scans (Nat.toDigits 10 m ++ cs) = .ok (.int n) :: scans cs := by
  obtain ⟨d, ds, hdigits, hd⟩ := toDigits_cons m
  have hsymbol : isSymbolChar d = true := isSymbolChar_of_isDigit hd
  have hcolon : d ≠ ':' := by
    rintro rfl
    cases hd
  have hsign : ¬ (d = '-' ∨ d = '+') := by
    rintro (rfl | rfl) <;> cases hd
  have hnumber := number_exact hn hcs
  rw [hdigits] at hnumber
  have hscan := startingWith_symbolChar hsymbol hcolon (ds ++ cs)
  rw [if_neg hsign, if_pos hd] at hscan
  rw [hdigits]
  exact scans_token (spaceState?_symbolChar hsymbol) (hscan.trans hnumber)

theorem scans_int (n : Int64) {cs : List Char} (hcs : Stops cs) :
    scans ((Integer.text n).toList ++ cs) = .ok (.int n) :: scans cs := by
  unfold Integer.text
  by_cases hneg : n.toInt < 0
  · have hn : Integer.ofNumeral? (some '-') (Nat.toDigits 10 n.toInt.natAbs) = some n := by
      have habs : -(n.toInt.natAbs : Int) = n.toInt := by omega
      unfold Integer.ofNumeral?
      simp only [ofDigits_toDigits, habs, if_pos]
      exact Integer.ofInt?_toInt n
    simpa [hneg] using scans_negative hn hcs
  · have hn : Integer.ofNumeral? none (Nat.toDigits 10 n.toInt.natAbs) = some n := by
      have habs : (n.toInt.natAbs : Int) = n.toInt := by omega
      unfold Integer.ofNumeral?
      simp only [ofDigits_toDigits, habs, reduceCtorEq, if_false]
      exact Integer.ofInt?_toInt n
    simpa [hneg] using scans_natural hn hcs

/-! ### Tokens -/

/-- A written token is found again in front of every text that it ends before. -/
theorem scans_source {t : Token} (ht : t.Readable) {cs : List Char} (hcs : t.EndsBefore cs) :
    scans (t.source ++ cs) = .ok t :: scans cs := by
  cases t with
  | opening b => cases b <;> exact scans_token (by decide) rfl
  | closing b => cases b <;> exact scans_token (by decide) rfl
  | mark m =>
    cases m with
    | unquote =>
      have hcs : cs.head? ≠ some '@' := hcs rfl
      have hscan : Scan.startingWith '~' cs = ⟨.ok (.mark .unquote), ['~'], cs⟩ := by
        cases cs with
        | nil => rfl
        | cons c cs =>
          have hc : c ≠ '@' := fun h => hcs (congrArg some h)
          simp [Scan.startingWith, Scan.token, hc]
      exact scans_token (by decide) hscan
    | _ => exact scans_token (by decide) rfl
  | annotate => exact scans_token (by decide) rfl
  | nil => exact scans_plainName rfl (by decide) (by decide) hcs
  | bool b => cases b <;> exact scans_plainName rfl (by decide) (by decide) hcs
  | int n => exact scans_int n hcs
  | str text => exact scans_quoted text cs
  | symbol name => exact scans_symbol ht hcs
  | keyword name => exact scans_keyword ht hcs

end SmallLisp
