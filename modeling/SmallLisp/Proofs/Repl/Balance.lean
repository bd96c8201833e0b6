import Mathlib
import SmallLisp.Balance
import SmallLisp.Proofs.Reading.Lines

/-!
# Balance along tokens

Behind every token the balance stands in code, and its depth has changed by one for a bracket and
not at all for another token. A string that is open in the scans leaves the balance in a string. So
the tokens of a text tell whether it is balanced: `isBalanced_of_tokens` and `isBalanced_of_open`.
-/

namespace SmallLisp

/-! ### Characters -/

namespace Balance

/-- The balance behind further characters. -/
def after (b : Balance) (cs : List Char) : Balance := cs.foldl step b

@[simp] theorem after_nil (b : Balance) : b.after [] = b := rfl

@[simp] theorem after_cons (b : Balance) (c : Char) (cs : List Char) :
    b.after (c :: cs) = (b.step c).after cs := rfl

@[simp] theorem after_append (b : Balance) (cs ds : List Char) :
    b.after (cs ++ ds) = (b.after cs).after ds := List.foldl_append

section

variable (d : Int) {c : Char} {cs : List Char}

/-- The characters that change the balance of code. -/
def counted : List Char := ['"', ';', '(', '[', '\x7b', ')', ']', '\x7d']

theorem stepCode_of_class {p : Char → Bool} (hp : counted.any p = false) (h : p c = true) :
    stepCode d c = ⟨d, .code⟩ := by
  have hc : c ∉ counted := fun hmem => List.any_eq_false.mp hp c hmem h
  simp only [counted, List.mem_cons, not_or] at hc
  simp [stepCode, hc]

theorem symbolChar_counted : counted.any isSymbolChar = false := by
  decide

theorem blank_counted : counted.any Text.isBlank = false := by
  decide

theorem after_symbolChars (h : ∀ c ∈ cs, isSymbolChar c = true) :
    after ⟨d, .code⟩ cs = ⟨d, .code⟩ := by
  induction cs with
  | nil => rfl
  | cons c cs ih =>
    have hc : step ⟨d, .code⟩ c = ⟨d, .code⟩ :=
      stepCode_of_class d symbolChar_counted (h c List.mem_cons_self)
    rw [after_cons, hc]
    exact ih fun c' hc' => h c' (List.mem_cons_of_mem c hc')

theorem after_takeWhile (cs : List Char) :
    after ⟨d, .code⟩ (cs.takeWhile isSymbolChar) = ⟨d, .code⟩ :=
  after_symbolChars d fun _ hc => of_mem_takeWhile hc

/-- A character changes the depth by one at most. -/
theorem depth_step (b : Balance) (c : Char) :
    b.depth - 1 ≤ (b.step c).depth ∧ (b.step c).depth ≤ b.depth + 1 := by
  unfold step stepCode
  cases b.region with
  | code => (repeat' split) <;> dsimp only <;> omega
  | _ => dsimp only; omega

theorem depth_after (b : Balance) (cs : List Char) :
    b.depth - cs.length ≤ (b.after cs).depth ∧ (b.after cs).depth ≤ b.depth + cs.length := by
  induction cs generalizing b with
  | nil => simp
  | cons c cs ih =>
    have hstep := depth_step b c
    have hrest := ih (b.step c)
    rw [after_cons, List.length_cons]
    omega

end

end Balance

/-! ### Scans -/

theorem eq_error_of_map {ε α β : Type} {f : α → β} {r : Except ε α} {e : ε}
    (h : r.map f = .error e) : r = .error e := by
  cases r with
  | error e' =>
    cases h
    rfl
  | ok a => cases h

/-- How a token changes the number of open brackets. -/
def Token.delta : Token → Int
  | .opening _ => 1
  | .closing _ => -1
  | _ => 0

theorem Token.delta_ofName (name : String) : (Token.ofName name).delta = 0 := by
  unfold ofName
  (repeat' split) <;> rfl

namespace Balance

section

variable (d : Int) {c : Char} {cs taken rest : List Char} {t : Token}

/-- Where space leaves the balance, as far as a comment runs on behind it. -/
def spaceRegion (inComment : Bool) : Region := if inComment then .comment else .code

theorem step_space {inComment running : Bool} (h : spaceState? inComment c = some running) :
    step ⟨d, spaceRegion inComment⟩ c = ⟨d, spaceRegion running⟩ := by
  cases inComment with
  | true =>
    obtain rfl : (c != '\n') = running := Option.some.inj h
    by_cases hc : c = '\n' <;> simp [step, spaceRegion, hc]
  | false =>
    unfold spaceState? at h
    rw [if_neg (by decide)] at h
    split at h
    · next hc =>
      cases h
      rw [hc]
      rfl
    · split at h
      · next hc =>
        cases h
        rcases Bool.or_eq_true_iff.mp hc with hblank | hcomma
        · exact stepCode_of_class d blank_counted hblank
        · rw [of_decide_eq_true hcomma]
          rfl
      · cases h

/-- Space leaves the balance of code as it is. In front of a token it ends in code. -/
theorem after_space (inComment : Bool) (cs : List Char) :
    ∃ running, after ⟨d, spaceRegion inComment⟩ (skipSpace inComment cs).taken =
        ⟨d, spaceRegion running⟩ ∧
      ((skipSpace inComment cs).rest ≠ [] → running = false) := by
  induction cs generalizing inComment with
  | nil => exact ⟨inComment, rfl, fun h => absurd rfl h⟩
  | cons c cs ih =>
    cases hstate : spaceState? inComment c with
    | none =>
      rw [skipSpace_none hstate]
      refine ⟨inComment, rfl, fun _ => ?_⟩
      cases inComment with
      | true => cases hstate
      | false => rfl
    | some running =>
      rw [skipSpace_some hstate]
      obtain ⟨running', hafter, hend⟩ := ih running
      refine ⟨running', ?_, hend⟩
      change (step _ c).after (skipSpace running cs).taken = _
      rw [step_space d hstate, hafter]

/-- Where reading a quoted text leaves the balance. -/
def quotedRegion {α : Type} : Except Text.Quoted.Flaw α → Region
  | .ok _ => .code
  | .error .openEscape => .escape
  | .error _ => .string

theorem after_decode (cs : List Char) :
    after ⟨d, .string⟩ (Text.Quoted.decode cs).taken =
      ⟨d, quotedRegion (Text.Quoted.decode cs).found⟩ := by
  fun_induction Text.Quoted.decode cs with
  | case1 => rfl
  | case2 rest => rfl
  | case3 => rfl
  | case4 c rest e he ih =>
    change after ⟨d, .string⟩ (Text.Quoted.decode rest).taken = ⟨d, quotedRegion (Except.map _ _)⟩
    rw [ih]
    cases (Text.Quoted.decode rest).found <;> rfl
  | case5 c rest he => rfl
  | case6 c rest hquote hlast hescape ih =>
    have hslash := ne_slash hlast hescape
    have hquote' : c ≠ '"' := hquote
    have hc : step ⟨d, .string⟩ c = ⟨d, .string⟩ := by simp [step, hquote', hslash]
    change (step ⟨d, .string⟩ c).after (Text.Quoted.decode rest).taken =
      ⟨d, quotedRegion (Except.map _ _)⟩
    rw [hc, ih]
    cases (Text.Quoted.decode rest).found <;> rfl

theorem after_string (cs : List Char) :
    after ⟨d, .code⟩ (Scan.string cs).taken = ⟨d, quotedRegion (Text.Quoted.decode cs).found⟩ :=
  after_decode d cs

theorem code_of_delta (h : t.delta = 0) : (⟨d, .code⟩ : Balance) = ⟨d + t.delta, .code⟩ := by
  rw [h, Int.add_zero]

theorem after_string_token (h : (Scan.string cs).found = .ok t) :
    after ⟨d, .code⟩ (Scan.string cs).taken = ⟨d + t.delta, .code⟩ := by
  obtain ⟨text, hfound, rfl⟩ := exists_text_of_string h
  rw [after_string, hfound]
  exact code_of_delta d rfl

theorem after_keyword_token (h : (Scan.keyword cs).found = .ok t) :
    after ⟨d, .code⟩ (Scan.keyword cs).taken = ⟨d + t.delta, .code⟩ := by
  have htaken : after ⟨d, .code⟩ (Scan.keyword cs).taken = ⟨d, .code⟩ := after_takeWhile d cs
  rw [htaken]
  simp only [Scan.keyword] at h
  split at h
  · cases h
  · cases h
    exact code_of_delta d rfl

theorem after_number_token {sign : Option Char} (hsign : ∀ c ∈ sign, isSymbolChar c = true)
    (h : (Scan.number sign cs).found = .ok t) :
    after ⟨d, .code⟩ (Scan.number sign cs).taken = ⟨d + t.delta, .code⟩ := by
  have htaken : after ⟨d, .code⟩ (Scan.number sign cs).taken = ⟨d, .code⟩ := by
    refine after_symbolChars d fun c hc => ?_
    rcases List.mem_append.mp hc with hc | hc
    · exact hsign c (Option.mem_toList.mp hc)
    · exact isSymbolChar_of_isDigit (of_mem_takeWhile hc)
  obtain ⟨n, rfl⟩ := exists_int_of_number h
  exact htaken.trans (code_of_delta d rfl)

theorem after_signed_token {sign : Char} (hsign : isSymbolChar sign = true)
    (h : (Scan.signed sign cs).found = .ok t) :
    after ⟨d, .code⟩ (Scan.signed sign cs).taken = ⟨d + t.delta, .code⟩ := by
  unfold Scan.signed at h ⊢
  split at h
  · next hdigit =>
    rw [if_pos hdigit]
    refine after_number_token d (fun c hc => ?_) h
    cases hc
    exact hsign
  · next hdigit =>
    rw [if_neg hdigit]
    cases h
    have hstep : step ⟨d, .code⟩ sign = ⟨d, .code⟩ :=
      stepCode_of_class d symbolChar_counted hsign
    change (step ⟨d, .code⟩ sign).after (cs.takeWhile isSymbolChar) = _
    rw [hstep, after_takeWhile]
    exact code_of_delta d rfl

theorem after_name_token (h : (Scan.name cs).found = .ok t) :
    after ⟨d, .code⟩ (Scan.name cs).taken = ⟨d + t.delta, .code⟩ := by
  cases h
  exact (after_takeWhile d cs).trans (code_of_delta d (Token.delta_ofName _))

/-- A token leaves the balance in code. -/
theorem after_startingWith (h : (Scan.startingWith c cs).found = .ok t) :
    after ⟨d, .code⟩ (Scan.startingWith c cs).taken = ⟨d + t.delta, .code⟩ := by
  revert h
  unfold Scan.startingWith
  split
  case h_7 | h_8 | h_9 | h_10 =>
    intro h
    cases h
    exact code_of_delta d rfl
  case h_11 =>
    split
    · intro h
      cases h
      exact code_of_delta d rfl
    · intro h
      cases h
      exact code_of_delta d rfl
  case h_12 => exact after_string_token d
  case h_13 => exact after_keyword_token d
  case h_14 => exact after_signed_token d (by decide)
  case h_15 => exact after_signed_token d (by decide)
  case h_16 =>
    split
    · exact after_number_token d nofun
    · split
      · exact after_name_token d
      · nofun
  all_goals
    intro h
    cases h
    rfl

theorem settled_of_not_quoted {found : Except ScanError Token}
    (h : ∀ flaw, found ≠ .error (.quoted flaw)) : Settled found := by
  intro e he
  cases e with
  | quoted flaw => exact absurd he (h flaw)
  | _ => rfl

theorem settled_number (sign : Option Char) (cs : List Char) :
    Settled (Scan.number sign cs).found := by
  refine settled_of_not_quoted fun flaw hflaw => ?_
  rcases number_cases sign cs with ⟨n, hn⟩ | ⟨e, he, hquoted⟩
  · rw [hn] at hflaw
    cases hflaw
  · rw [he] at hflaw
    exact hquoted flaw (Except.error.inj hflaw)

theorem settled_signed (sign : Char) (cs : List Char) : Settled (Scan.signed sign cs).found := by
  unfold Scan.signed
  split
  · exact settled_number _ _
  · exact settled_ok _

theorem settled_keyword (cs : List Char) : Settled (Scan.keyword cs).found := by
  refine settled_of_not_quoted fun flaw hflaw => ?_
  simp only [Scan.keyword] at hflaw
  split at hflaw
  · cases hflaw
  · cases hflaw

/-- Only a quote can begin what further text changes. -/
theorem settled_startingWith (hc : c ≠ '"') : Settled (Scan.startingWith c cs).found := by
  unfold Scan.startingWith
  split
  case h_11 => split <;> exact settled_ok _
  case h_12 => exact absurd rfl hc
  case h_13 => exact settled_keyword cs
  case h_14 => exact settled_signed '-' cs
  case h_15 => exact settled_signed '+' cs
  case h_16 =>
    split
    · exact settled_number _ _
    · split
      · exact settled_ok _
      · exact settled_of_not_quoted nofun
  all_goals exact settled_ok _

theorem rest_decode_open {flaw : Text.Quoted.Flaw}
    (h : (Text.Quoted.decode cs).found = .error flaw) (hflaw : flaw.isOpen = true) :
    (Text.Quoted.decode cs).rest = [] := by
  fun_induction Text.Quoted.decode cs with
  | case1 => rfl
  | case2 rest => cases h
  | case3 => rfl
  | case4 c rest e he ih => exact ih (eq_error_of_map h)
  | case5 c rest he =>
    cases h
    cases hflaw
  | case6 c rest hquote hlast hescape ih => exact ih (eq_error_of_map h)

/-- In front of a token space leaves the balance in code. -/
theorem after_front_space {space : List Char} (h : skipSpace false cs = ⟨(), space, c :: rest⟩) :
    after ⟨d, .code⟩ space = ⟨d, .code⟩ := by
  obtain ⟨running, hspace, hend⟩ := after_space d false cs
  rw [h] at hspace hend
  obtain rfl := hend (List.cons_ne_nil c rest)
  exact hspace

theorem after_first {scan : Scan} (h : Scan.first? cs = some scan) (ht : scan.found = .ok t) :
    after ⟨d, .code⟩ scan.taken = ⟨d + t.delta, .code⟩ := by
  obtain ⟨space, c, rest, hskip, rfl⟩ := Scan.eq_of_first? h
  change after ⟨d, .code⟩ (space ++ (Scan.startingWith c rest).taken) = _
  rw [after_append, after_front_space d hskip]
  exact after_startingWith d ht

/-- A string that is open takes the rest of the text, and leaves the balance in it. -/
theorem after_open {scan : Scan} {e : ScanError} (h : Scan.first? cs = some scan)
    (he : scan.found = .error e) (hopen : e.isOpen = true) :
    (after ⟨d, .code⟩ cs).closed = false := by
  obtain ⟨space, c, rest, hskip, rfl⟩ := Scan.eq_of_first? h
  have hquote : c = '"' := by
    refine Classical.byContradiction fun hc => ?_
    rw [settled_startingWith hc e he] at hopen
    cases hopen
  subst hquote
  obtain ⟨flaw, hfound, rfl⟩ := exists_flaw_of_string he
  have hrest : (Scan.string rest).rest = [] := rest_decode_open hfound hopen
  have htaken : (Scan.string rest).taken = '"' :: rest := by
    have hwhole := Scan.whole_string rest
    rwa [Split.whole, hrest, List.append_nil] at hwhole
  have hcs : cs = space ++ '"' :: rest := by
    have hwhole := whole_skipSpace false cs
    rw [hskip] at hwhole
    exact hwhole.symm
  rw [hcs, after_append, after_front_space d hskip, ← htaken, after_string, hfound]
  cases flaw with
  | unknownEscape c => cases hopen
  | openEscape => simp [quotedRegion, closed]
  | openQuote => simp [quotedRegion, closed]

theorem after_none (h : Scan.first? cs = none) :
    ∃ inComment, after ⟨d, .code⟩ cs = ⟨d, spaceRegion inComment⟩ := by
  obtain ⟨running, hspace, _⟩ := after_space d false cs
  have hwhole := whole_skipSpace false cs
  rw [Split.whole, rest_skipSpace_of_none h, List.append_nil] at hwhole
  rw [hwhole] at hspace
  exact ⟨running, hspace⟩

theorem closed_space (inComment : Bool) :
    closed ⟨d, spaceRegion inComment⟩ = decide (d ≤ 0) := by
  have hclosed : closed ⟨d, spaceRegion inComment⟩ = (decide (d ≤ 0) && true && true) := by
    cases inComment <;> rfl
  rw [hclosed, Bool.and_true, Bool.and_true]

end

end Balance

/-! ### Texts -/

/-- How tokens change the number of open brackets. -/
def Token.net (ts : List Token) : Int := (ts.map Token.delta).sum

@[simp] theorem Token.net_nil : net [] = 0 := rfl

@[simp] theorem Token.net_cons (t : Token) (ts : List Token) : net (t :: ts) = t.delta + net ts :=
  List.sum_cons

@[simp] theorem Token.net_append (ts us : List Token) : net (ts ++ us) = net ts + net us := by
  simp [net]

namespace Balance

variable {cs rest : List Char} {ts : List Token}

/-- Tokens change the depth by their brackets. -/
theorem after_takes (h : Takes cs ts rest) (d : Int) :
    after ⟨d, .code⟩ cs = after ⟨d + Token.net ts, .code⟩ rest := by
  induction h generalizing d with
  | nothing cs => rw [Token.net_nil, Int.add_zero]
  | @token cs rest scan t ts hfirst hfound _ ih =>
    rw [← Scan.whole_of_first? hfirst, Split.whole, after_append, after_first d hfirst hfound, ih,
      Token.net_cons, Int.add_assoc]

end Balance

theorem Balance.after_tokens {cs : List Char} {ts : List Token} (h : scans cs = ts.map .ok) :
    ∃ inComment, start.after cs = ⟨Token.net ts, spaceRegion inComment⟩ := by
  obtain ⟨rest, htakes, hrest⟩ := exists_takes (h.trans (List.append_nil _).symm)
  obtain ⟨inComment, hafter⟩ := after_none (0 + Token.net ts) (first?_eq_none hrest)
  refine ⟨inComment, (after_takes htakes 0).trans ?_⟩
  rw [hafter, Int.zero_add]

theorem isBalanced_of_tokens {text : String} {ts : List Token}
    (h : scans text.toList = ts.map .ok) : isBalanced text = decide (Token.net ts ≤ 0) := by
  obtain ⟨inComment, hafter⟩ := Balance.after_tokens h
  change (Balance.start.after text.toList).closed = _
  rw [hafter, Balance.closed_space]

theorem isBalanced_of_open {text : String} {ts : List Token} {e : ScanError}
    {back : List (Except ScanError Token)} (h : scans text.toList = ts.map .ok ++ .error e :: back)
    (he : e.isOpen = true) : isBalanced text = false := by
  obtain ⟨rest, htakes, hrest⟩ := exists_takes h
  obtain ⟨scan, hfirst, hfound⟩ := exists_first? hrest
  have hafter : Balance.start.after text.toList = _ := Balance.after_takes htakes 0
  change (Balance.start.after text.toList).closed = false
  rw [hafter]
  exact Balance.after_open _ hfirst hfound he

end SmallLisp
