import SmallLisp.Proofs.Reading.Acceptance
import SmallLisp.Value.Equality

/-!
# Reading back what was read

What a text reads as is printed as a text that reads as the same again, if the sentinel stands in
front of no key but those of keywords that can be written. The condition is needed: a keyword token
whose name is the sentinel alone reads as a keyword without a name. The main statement is
`read_back`.
-/

namespace SmallLisp

open Reader

/-! ### Tokens that are found can be written -/

theorem readable_keyword {cs : List Char} {t : Token} (h : (Scan.keyword cs).found = .ok t) :
    t.Readable := by
  simp only [Scan.keyword] at h
  split at h
  · cases h
  · next hname =>
    cases h
    refine ⟨?_, ?_⟩
    · simpa using hname
    · intro c hc
      rw [String.toList_ofList] at hc
      exact of_mem_takeWhile hc

theorem readable_number {sign : Option Char} {cs : List Char} {t : Token}
    (h : (Scan.number sign cs).found = .ok t) : t.Readable := by
  obtain ⟨n, rfl⟩ := exists_int_of_number h
  trivial

theorem readable_signedName {sign : Char} {cs : List Char} (hsign : sign = '-' ∨ sign = '+')
    (hdigit : (cs.head?.map Char.isDigit).getD false = false) :
    Symbol.Readable ⟨String.ofList (sign :: cs.takeWhile isSymbolChar)⟩ where
  nonempty := by simp
  chars := by
    intro c hc
    rw [String.toList_ofList] at hc
    rcases List.mem_cons.mp hc with rfl | hc
    · rcases hsign with rfl | rfl <;> decide
    · exact of_mem_takeWhile hc
  start := by
    intro c hc
    rw [String.toList_ofList] at hc
    cases hc
    rcases hsign with rfl | rfl <;> decide
  sign := by
    intro first c rest hname _
    rw [String.toList_ofList] at hname
    obtain ⟨_, htake⟩ := List.cons.inj hname
    cases cs with
    | nil => cases htake
    | cons d ds =>
      have hd : d.isDigit = false := hdigit
      rw [List.takeWhile_cons] at htake
      split at htake
      · cases htake
        exact hd
      · cases htake
  literal := by
    have hne : ∀ name : String, name.toList.head? ≠ some '-' → name.toList.head? ≠ some '+' →
        String.ofList (sign :: cs.takeWhile isSymbolChar) ≠ name := by
      rintro name hminus hplus rfl
      rw [String.toList_ofList] at hminus hplus
      rcases hsign with rfl | rfl
      · exact hminus rfl
      · exact hplus rfl
    exact ⟨hne "nil" (by decide) (by decide), hne "true" (by decide) (by decide),
      hne "false" (by decide) (by decide)⟩

theorem readable_name {c : Char} {cs : List Char} (hc : isSymbolChar c = true) (hcolon : c ≠ ':')
    (hsign : ¬ (c = '-' ∨ c = '+')) (hdigit : c.isDigit = false) :
    (Token.ofName (String.ofList ((c :: cs).takeWhile isSymbolChar))).Readable := by
  have htake : (c :: cs).takeWhile isSymbolChar = c :: cs.takeWhile isSymbolChar :=
    List.takeWhile_cons_of_pos hc
  rw [htake]
  unfold Token.ofName
  split
  · trivial
  · next hnil =>
    split
    · trivial
    · next htrue =>
      split
      · trivial
      · next hfalse =>
        exact {
          nonempty := by simp
          chars := by
            intro d hd
            rw [String.toList_ofList, ← htake] at hd
            exact of_mem_takeWhile hd
          start := by
            intro d hd
            rw [String.toList_ofList] at hd
            cases hd
            exact ⟨hcolon, hdigit⟩
          sign := by
            intro first d rest hname hfirst
            rw [String.toList_ofList] at hname
            obtain ⟨rfl, _⟩ := List.cons.inj hname
            exact absurd hfirst hsign
          literal := ⟨hnil, htrue, hfalse⟩ }

theorem readable_startingWith {c : Char} {cs : List Char} {t : Token}
    (h : (Scan.startingWith c cs).found = .ok t) : t.Readable := by
  by_cases hc : isSymbolChar c = true ∧ c ≠ ':'
  · obtain ⟨hsymbol, hcolon⟩ := hc
    rw [startingWith_symbolChar hsymbol hcolon] at h
    split at h
    · next hsign =>
      unfold Scan.signed at h
      split at h
      · exact readable_number h
      · next hdigit =>
        cases h
        exact readable_signedName hsign (by simpa using hdigit)
    · next hsign =>
      split at h
      · exact readable_number h
      · next hdigit =>
        cases h
        exact readable_name hsymbol hcolon hsign (by simpa using hdigit)
  -- Behind any other character no name begins: a bracket, a mark, a string or a keyword is left.
  · unfold Scan.startingWith at h
    split at h
    case h_11 =>
      split at h
      · cases h
        trivial
      · cases h
        trivial
    case h_12 =>
      obtain ⟨text, _, rfl⟩ := exists_text_of_string h
      trivial
    case h_13 => exact readable_keyword h
    case h_14 => exact absurd ⟨by decide, by decide⟩ hc
    case h_15 => exact absurd ⟨by decide, by decide⟩ hc
    case h_16 hcolon _ _ =>
      split at h
      · exact readable_number h
      · split at h
        · next hsymbol => exact absurd ⟨hsymbol, hcolon⟩ hc
        · cases h
    all_goals
      cases h
      trivial

/-- Every token that is found in a text is found again where it is written. -/
theorem readable_of_mem_scans {cs : List Char} {t : Token} (h : .ok t ∈ scans cs) : t.Readable := by
  generalize hn : cs.length = n
  induction n using Nat.strongRecOn generalizing cs with
  | ind n ih =>
    cases hfirst : Scan.first? cs with
    | none =>
      rw [scans_none hfirst] at h
      cases h
    | some scan =>
      rw [scans_some hfirst] at h
      rcases List.mem_cons.mp h with hfound | hrest
      · obtain ⟨space, c, rest, _, rfl⟩ := Scan.eq_of_first? hfirst
        exact readable_startingWith hfound.symm
      · exact ih _ (hn ▸ Scan.length_rest_lt hfirst) hrest rfl

/-! ### The keys of a value -/

mutual

/-- The keys of the keywords and of the entries of maps that a value is written with. -/
def Value.keys : Value → List String
  | .keyword k => [k.key]
  | .list items _ => keysOfAll items
  | .vector items _ => keysOfAll items
  | .map entries _ => keysOfEntries entries
  | .closure _ body _ => body.keys
  | _ => []

def keysOfAll : List Value → List String
  | [] => []
  | v :: rest => v.keys ++ keysOfAll rest

def keysOfEntries : List (String × Value) → List String
  | [] => []
  | (key, v) :: rest => key :: (v.keys ++ keysOfEntries rest)

end

theorem mem_keysOfEntries {entries : List (String × Value)} {entry : String × Value}
    (h : entry ∈ entries) : entry.1 ∈ keysOfEntries entries ∧
      ∀ key ∈ entry.2.keys, key ∈ keysOfEntries entries := by
  induction entries with
  | nil => cases h
  | cons first rest ih =>
    rw [keysOfEntries]
    rcases List.mem_cons.mp h with rfl | h
    · exact ⟨List.mem_cons_self,
        fun key hkey => List.mem_cons_of_mem _ (List.mem_append_left _ hkey)⟩
    · obtain ⟨hkey, hkeys⟩ := ih h
      exact ⟨List.mem_cons_of_mem _ (List.mem_append_right _ hkey),
        fun key h => List.mem_cons_of_mem _ (List.mem_append_right _ (hkeys key h))⟩

theorem areEntries_iff {entries : List (String × Value)} :
    AreEntries entries ↔ ∀ entry ∈ entries, IsReadableKey entry.1 ∧ entry.2.IsData := by
  induction entries with
  | nil => simp [AreEntries]
  | cons entry rest ih => simp [AreEntries, ih, and_assoc]

theorem isReadableKey_key {k : Keyword} : IsReadableKey k.key ↔ k.Readable := by
  constructor
  · rintro (hstart | ⟨k', hk', hkey⟩)
    · have hhead : k.key.toList.head? = some Keyword.sentinel := by simp [Keyword.key]
      exact absurd hhead hstart
    · have hsome := Keyword.ofKey?_key k
      rw [hkey, Keyword.ofKey?_key] at hsome
      exact Option.some.inj hsome ▸ hk'
  · exact fun h => .inr ⟨k, h, rfl⟩

/-! ### What is read is data -/

theorem readable_of_scans {name : String} (h : scans name.toList = [.ok (.symbol name)]) :
    Symbol.Readable ⟨name⟩ := by
  have hmem : .ok (.symbol name) ∈ scans name.toList := h ▸ List.mem_singleton_self _
  exact readable_of_mem_scans hmem

theorem readable_markName (m : Mark) : Symbol.Readable ⟨m.name⟩ := by
  refine readable_of_scans ?_
  cases m <;> cbv

theorem readable_withMeta : Symbol.Readable ⟨"with-meta"⟩ := readable_of_scans (by cbv)

namespace ParseTree

mutual

/-- A derived form is a datum, if its tokens and its keys can be written. -/
theorem isData_value : ∀ t : ParseTree, (∀ token ∈ t.tokens, token.Readable) →
    (∀ key ∈ t.value.keys, IsReadableKey key) → t.value.IsData
  | .nil, _, _ => trivial
  | .bool _, _, _ => trivial
  | .int _, _, _ => trivial
  | .str _, _, _ => trivial
  | .symbol _, htokens, _ => htokens _ List.mem_cons_self
  | .keyword _, _, hkeys => isReadableKey_key.mp (hkeys _ List.mem_cons_self)
  | .list forms, htokens, hkeys => by
    refine areData_values forms (fun token h => ?_) hkeys
    exact htokens token (List.mem_cons_of_mem _ (List.mem_append_left _ h))
  | .vector forms, htokens, hkeys => by
    refine areData_values forms (fun token h => ?_) hkeys
    exact htokens token (List.mem_cons_of_mem _ (List.mem_append_left _ h))
  | .map entries, htokens, hkeys => by
    refine ⟨Table.sorted_ofList _, areEntries_iff.mpr ?_⟩
    intro entry hentry
    obtain ⟨hkey, hinner⟩ := mem_keysOfEntries hentry
    refine ⟨hkeys _ hkey, ?_⟩
    refine isData_entries entries (fun token h => ?_) entry (Table.mem_of_mem_ofList hentry)
      fun key h => hkeys key (hinner key h)
    exact htokens token (List.mem_cons_of_mem _ (List.mem_append_left _ h))
  | .mark m form, htokens, hkeys => by
    refine ⟨readable_markName m, isData_value form (fun token h => ?_) fun key h => ?_, trivial⟩
    · exact htokens token (List.mem_cons_of_mem _ h)
    · exact hkeys key (List.mem_append_right [] (List.mem_append_left _ h))
  | .annotated metadata target, htokens, hkeys => by
    refine ⟨readable_withMeta, isData_value target (fun token h => ?_) fun key h => ?_,
      isData_value metadata (fun token h => ?_) fun key h => ?_, trivial⟩
    · exact htokens token (List.mem_cons_of_mem _ (List.mem_append_right _ h))
    · exact hkeys key (List.mem_append_right [] (List.mem_append_left _ h))
    · exact htokens token (List.mem_cons_of_mem _ (List.mem_append_left _ h))
    · exact hkeys key (List.mem_append_right [] (List.mem_append_right _ (List.mem_append_left _ h)))

theorem areData_values : ∀ forms : List ParseTree, (∀ token ∈ tokensOfForms forms, token.Readable) →
    (∀ key ∈ keysOfAll (valuesOfForms forms), IsReadableKey key) → AreData (valuesOfForms forms)
  | [], _, _ => trivial
  | form :: rest, htokens, hkeys =>
    ⟨isData_value form (fun token h => htokens token (List.mem_append_left _ h))
        fun key h => hkeys key (List.mem_append_left _ h),
      areData_values rest (fun token h => htokens token (List.mem_append_right _ h))
        fun key h => hkeys key (List.mem_append_right _ h)⟩

theorem isData_entries : ∀ entries : List (KeyTree × ParseTree),
    (∀ token ∈ tokensOfMap entries, token.Readable) →
      ∀ entry ∈ entriesOfMap entries, (∀ key ∈ entry.2.keys, IsReadableKey key) → entry.2.IsData
  | [], _, _, hentry, _ => nomatch hentry
  | (key, form) :: rest, htokens, entry, hentry, hkeys => by
    rcases List.mem_cons.mp hentry with rfl | hentry
    · refine isData_value form (fun token h => ?_) hkeys
      exact htokens token (List.mem_cons_of_mem _ (List.mem_append_left _ h))
    · refine isData_entries rest (fun token h => ?_) entry hentry hkeys
      exact htokens token (List.mem_cons_of_mem _ (List.mem_append_right _ h))

end

mutual

theorem bare_value : ∀ t : ParseTree, t.value.bare = t.value
  | .nil => rfl
  | .bool _ => rfl
  | .int _ => rfl
  | .str _ => rfl
  | .symbol _ => rfl
  | .keyword _ => rfl
  | .list forms => congrArg Value.ofList (bare_values forms)
  | .vector forms => congrArg Value.ofVector (bare_values forms)
  | .map entries => by
    have hbare : ∀ entry ∈ Table.ofList (entriesOfMap entries), (entry.1, entry.2.bare) = entry :=
      fun entry hentry => Prod.ext rfl (bare_entries entries entry (Table.mem_of_mem_ofList hentry))
    have htable := (List.map_congr_left hbare).trans (List.map_id' _)
    rw [← bareEntries_eq] at htable
    exact congrArg Value.ofTable htable
  | .mark m form => by
    simp only [value, Value.ofList, Value.bare, bareAll, bare_value form]
    rfl
  | .annotated metadata target => by
    simp only [value, Value.ofList, Value.bare, bareAll, bare_value metadata, bare_value target]
    rfl

theorem bare_values : ∀ forms : List ParseTree, bareAll (valuesOfForms forms) = valuesOfForms forms
  | [] => rfl
  | form :: rest => by
    rw [valuesOfForms, bareAll, bare_value form, bare_values rest]

theorem bare_entries : ∀ entries : List (KeyTree × ParseTree), ∀ entry ∈ entriesOfMap entries,
    entry.2.bare = entry.2
  | [], _, hentry => nomatch hentry
  | (key, form) :: rest, entry, hentry => by
    rcases List.mem_cons.mp hentry with rfl | hentry
    · exact bare_value form
    · exact bare_entries rest entry hentry

end

end ParseTree

/-! ### Keywords -/

theorem ofKey?_eq_some_iff {key : String} {k : Keyword} :
    Keyword.ofKey? key = some k ↔ key = k.key := by
  constructor
  · intro h
    unfold Keyword.ofKey? at h
    split at h
    · next c name hkey =>
      split at h
      · next hc =>
        cases h
        rw [Keyword.key, ← String.ofList_cons, ← hc, ← hkey, String.ofList_toList]
      · cases h
    · cases h
  · rintro rfl
    exact Keyword.ofKey?_key k

/-- The keyword of a name has that name, if the name does not begin with the sentinel. -/
theorem ofName_name_eq_iff {k : Keyword} :
    Keyword.ofName k.name = k ↔ k.name.toList.head? ≠ some Keyword.sentinel := by
  unfold Keyword.ofName
  constructor
  · intro h hhead
    cases hkey : Keyword.ofKey? k.name with
    | none => exact absurd hhead (ofKey?_eq_none_iff.mp hkey)
    | some k' =>
      rw [hkey] at h
      obtain rfl : k' = k := h
      have hlength := congrArg (fun text => text.toList.length) (ofKey?_eq_some_iff.mp hkey)
      simp [Keyword.key] at hlength
  · intro h
    rw [ofKey?_eq_none_iff.mpr h]
    rfl

theorem mem_name_of_mem_ofName {name : String} {c : Char}
    (h : c ∈ (Keyword.ofName name).name.toList) : c ∈ name.toList := by
  unfold Keyword.ofName at h
  cases hkey : Keyword.ofKey? name with
  | none =>
    rw [hkey] at h
    exact h
  | some k =>
    rw [hkey] at h
    rw [ofKey?_eq_some_iff.mp hkey, Keyword.key, String.toList_append]
    exact List.mem_append_right _ h

/-- A keyword of symbol characters is read where it is printed exactly if its name is not empty and
does not begin with the sentinel. -/
theorem read_printed_keyword_iff (h : Heap) {k : Keyword}
    (hchars : ∀ c ∈ k.name.toList, isSymbolChar c = true) :
    readFirst (h.print true (.keyword k)) = .ok (.keyword k) ↔ k.Readable := by
  have hprint : h.print true (.keyword k) = k.text := rfl
  rw [hprint]
  by_cases hempty : k.name.toList = []
  · have htext : k.text = ":" := by
      rw [Keyword.text, String.toList_eq_nil_iff.mp hempty, String.append_empty]
    have hread : readFirst ":" = .error ⟨.scan .namelessKeyword, ⟨1, 2⟩⟩ := by cbv
    rw [htext, hread]
    constructor
    · intro herror
      cases herror
    · exact fun hk => absurd hempty hk.name.nonempty
  · have hname : IsKeywordName k.name := ⟨hempty, hchars⟩
    have hscans : scans k.text.toList = [.ok (.keyword k.name)] := by
      have hnone : scans [] = [] := scans_none rfl
      have hfound := scans_keyword hname stops_nil
      rw [hnone, List.append_nil] at hfound
      rwa [Keyword.text, String.toList_append]
    have hread : readFirst k.text = .ok (.keyword (.ofName k.name)) :=
      readFirst_eq_ok_iff.mpr (.inr ⟨[.keyword k.name], [], hscans, clear_nil, rfl⟩)
    rw [hread, Except.ok.injEq, Value.keyword.injEq, ofName_name_eq_iff]
    exact ⟨fun hstart => ⟨hname, hstart⟩, fun hk => hk.start⟩

/-! ### Texts -/

/-- What was read reads back as it was, if all of its keys can be written. A keyword that was read
reads back only then. -/
theorem read_back (h : Heap) {text : String} {v : Value} (hread : readFirst text = .ok v) :
    ((∀ key ∈ v.keys, IsReadableKey key) → v.IsData ∧ readFirst (h.print true v) = .ok v) ∧
    ∀ k, v = .keyword k → (readFirst (h.print true v) = .ok v ↔ k.Readable) := by
  rcases exists_tree_of_readFirst hread with rfl | ⟨t, htokens, rfl⟩
  · exact ⟨fun _ => ⟨trivial, @readFirst_print h .nil trivial⟩, nofun⟩
  · have hreadable : ∀ token ∈ t.tokens, token.Readable :=
      fun token htoken => readable_of_mem_scans (htokens token htoken)
    constructor
    · intro hkeys
      have hdata := t.isData_value hreadable hkeys
      have hback := readFirst_print h hdata
      rw [t.bare_value] at hback
      exact ⟨hdata, hback⟩
    · intro k hk
      rw [hk]
      refine read_printed_keyword_iff h ?_
      cases t with
      | keyword name =>
        cases hk
        have hname : IsKeywordName name := hreadable _ List.mem_cons_self
        exact fun c hc => hname.chars c (mem_name_of_mem_ofName hc)
      | _ => cases hk

/-- The map of the key `a` and a quoted string of two lines. -/
def Value.sampleRead : Value :=
  .ofTable [((⟨"a"⟩ : Keyword).key, .ofList [.named "quote", .str "x\ny"])]

theorem read_back_sampleRead :
    readFirst "\x7b :a \x27\"x\\ny\" \x7d" = .ok .sampleRead ∧
    (∀ key ∈ Value.sampleRead.keys, IsReadableKey key) ∧
    readFirst (Heap.empty.print true .sampleRead) = .ok .sampleRead := by
  have hread : readFirst "\x7b :a \x27\"x\\ny\" \x7d" = .ok .sampleRead := by cbv
  have hkeys : ∀ key ∈ Value.sampleRead.keys, IsReadableKey key := by
    intro key hkey
    obtain rfl := List.mem_singleton.mp hkey
    have hname : IsKeywordName "a" := @readable_keyword ['a'] (.keyword "a") (by cbv)
    exact isReadableKey_key.mpr ⟨hname, by decide⟩
  exact ⟨hread, hkeys, ((read_back .empty hread).1 hkeys).2⟩

/-- A keyword token of the sentinel alone reads as a keyword without a name, which does not read
back where it is printed. One that begins with two sentinels reads back as another keyword. -/
theorem sentinel_keywords_read :
    readFirst ":\u029e" = .ok (.keyword ⟨""⟩) ∧
    readFirst (Heap.empty.print true (.keyword ⟨""⟩)) = .error ⟨.scan .namelessKeyword, ⟨1, 2⟩⟩ ∧
    readFirst ":\u029e\u029ea" = .ok (.keyword ⟨"\u029ea"⟩) ∧
    readFirst (Heap.empty.print true (.keyword ⟨"\u029ea"⟩)) = .ok (.keyword ⟨"a"⟩) ∧
    Value.equal (.keyword ⟨"a"⟩) (.keyword ⟨"\u029ea"⟩) = false := by
  refine ⟨?_, ?_, ?_, ?_, by decide⟩
  · cbv
  · cbv
  · cbv
  · cbv

end SmallLisp
