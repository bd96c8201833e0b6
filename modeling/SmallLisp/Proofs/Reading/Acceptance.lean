import Mathlib
import SmallLisp.Proofs.Reading.Grammar

/-!
# The texts that read as forms

Reading accepts the grammar and nothing else. Derivations are read token by token, whatever is open
around them. Conversely, the open forms behind some tokens are what is left of a derivation: a
stack of `Pending` forms holds the derivations of the finished parts, and every token keeps the
tokens of the stack equal to those that were handed on. The main statement is
`readAll_iff_parseTrees`.
-/

namespace SmallLisp

open Reader

namespace ParseTree

/-! ### Derivations are read -/

/-- The keys and forms of a map in turn, as they are read. -/
def readItems (entries : List (KeyTree × ParseTree)) : List Value :=
  entries.flatMap fun entry => [entry.1.value, entry.2.value]

theorem enclose_readItems (entries : List (KeyTree × ParseTree)) :
    enclose .curly (readItems entries) = .ok (ParseTree.map entries).value := by
  have hentries := mapM_entry (fun entry => entry.2.value) entries fun entry => entry.1.key?_value
  simp only [enclose, readItems, pairs?_flatMap, hentries, value, entriesOfMap_eq]
  rfl

theorem reads_keyTree (k : KeyTree) : Reads [k.token] k.value := by
  cases k <;> exact .of_shift fun _ => rfl

theorem Reads.mark {ts : List Token} {v : Value} (h : Reads ts v) (m : Mark) :
    Reads (.mark m :: ts) (.ofList [.named m.name, v]) := fun stack us =>
  (feed_pending rfl).trans (h (.mark m :: stack) us)

theorem Reads.annotated {ts us : List Token} {v w : Value} (h : Reads ts v) (hs : Reads us w) :
    Reads (.annotate :: (ts ++ us)) (.ofList [.named "with-meta", w, v]) := by
  intro stack rest
  have hmetadata : feed (.metadata :: stack) (ts ++ (us ++ rest)) =
      feed (.target v :: stack) (us ++ rest) := h _ _
  rw [List.cons_append, List.append_assoc, feed_pending rfl, hmetadata]
  exact hs (.target v :: stack) rest

mutual

theorem reads_value : ∀ t : ParseTree, Reads t.tokens t.value
  | .nil => .of_shift fun _ => rfl
  | .bool _ => .of_shift fun _ => rfl
  | .int _ => .of_shift fun _ => rfl
  | .str _ => .of_shift fun _ => rfl
  | .symbol _ => .of_shift fun _ => rfl
  | .keyword _ => .of_shift fun _ => rfl
  | .list forms => (readsAll_values forms).enclosed rfl
  | .vector forms => (readsAll_values forms).enclosed rfl
  | .map entries => (readsAll_readItems entries).enclosed (enclose_readItems entries)
  | .mark m form => Reads.mark (reads_value form) m
  | .annotated metadata target => Reads.annotated (reads_value metadata) (reads_value target)

theorem readsAll_values : ∀ forms : List ParseTree,
    ReadsAll (tokensOfForms forms) (valuesOfForms forms)
  | [] => .nil
  | form :: rest => .cons (reads_value form) (readsAll_values rest)

theorem readsAll_readItems : ∀ entries : List (KeyTree × ParseTree),
    ReadsAll (tokensOfMap entries) (readItems entries)
  | [] => .nil
  | (key, form) :: rest =>
    .cons (reads_keyTree key) (.cons (reads_value form) (readsAll_readItems rest))

end

theorem feed_tokensOfForms (forms : List ParseTree) :
    feed [] (tokensOfForms forms) = .ok (forms.map value, []) := by
  induction forms with
  | nil => rfl
  | cons form rest ih =>
    rw [tokensOfForms, reads_value form [] (tokensOfForms rest)]
    change (feed [] (tokensOfForms rest)).map _ = _
    rw [ih]
    rfl

/-! ### What is read was derived -/

theorem exists_keyTree {t : ParseTree} {key : String} (h : t.value.key? = some key) :
    ∃ k : KeyTree, t.tokens = [k.token] ∧ k.raw = key := by
  cases t with
  | str text => exact ⟨.str text, rfl, Option.some.inj h⟩
  | keyword name => exact ⟨.keyword name, rfl, Option.some.inj h⟩
  | _ => cases h

theorem entry_eq_ok {v w : Value} {key : String} {u : Value} (h : entry (v, w) = .ok (key, u)) :
    v.key? = some key ∧ w = u := by
  unfold entry at h
  split at h
  · next hkey =>
    cases h
    exact ⟨hkey, rfl⟩
  · cases h

theorem exists_map {forms : List ParseTree} {pairs : List (Value × Value)}
    {table : List (String × Value)} (hpairs : pairs? (forms.map value) = some pairs)
    (htable : pairs.mapM entry = .ok table) :
    ∃ entries, tokensOfMap entries = tokensOfForms forms ∧ entriesOfMap entries = table := by
  fun_induction pairs? forms generalizing pairs table with
  | case1 =>
    cases hpairs
    cases htable
    exact ⟨[], rfl, rfl⟩
  | case2 => cases hpairs
  | case3 keyForm form rest ih =>
    simp only [List.map_cons, pairs?, Option.map_eq_some_iff] at hpairs
    obtain ⟨more, hmore, rfl⟩ := hpairs
    rw [List.mapM_cons] at htable
    cases hfirst : entry (keyForm.value, form.value) with
    | error cause =>
      rw [hfirst] at htable
      cases htable
    | ok first =>
      cases hrest : more.mapM entry with
      | error cause =>
        rw [hfirst, hrest] at htable
        cases htable
      | ok others =>
        rw [hfirst, hrest] at htable
        cases htable
        obtain ⟨key, u⟩ := first
        obtain ⟨hkey, rfl⟩ := entry_eq_ok hfirst
        obtain ⟨k, htoken, rfl⟩ := exists_keyTree hkey
        obtain ⟨entries, htokens, rfl⟩ := ih hmore hrest
        refine ⟨(k, form) :: entries, ?_, rfl⟩
        rw [tokensOfMap, htokens, tokensOfForms, tokensOfForms, htoken]
        rfl

theorem exists_enclosed {b : Bracket} {forms : List ParseTree} {v : Value}
    (h : enclose b (forms.map value) = .ok v) :
    ∃ t : ParseTree,
      t.tokens = .opening b :: (tokensOfForms forms ++ [.closing b]) ∧ t.value = v := by
  cases b with
  | round =>
    cases h
    exact ⟨.list forms, rfl, by rw [value, valuesOfForms_eq]⟩
  | square =>
    cases h
    exact ⟨.vector forms, rfl, by rw [value, valuesOfForms_eq]⟩
  | curly =>
    simp only [enclose] at h
    split at h
    · cases h
    · next pairs hpairs =>
      cases htable : pairs.mapM entry with
      | error cause =>
        rw [htable] at h
        cases h
      | ok table =>
        rw [htable] at h
        cases h
        obtain ⟨entries, htokens, rfl⟩ := exists_map hpairs htable
        exact ⟨.map entries, by rw [tokens, htokens], rfl⟩

end ParseTree

/-- A form that is still open, with the derivations of its finished parts, the last one first. -/
inductive Pending where
  | bracket (b : Bracket) (forms : List ParseTree)
  | mark (m : Mark)
  | metadata
  | target (metadata : ParseTree)

namespace Pending

open ParseTree

/-- The open form that reading keeps for a pending one. -/
def opened : Pending → Open
  | bracket b forms => .bracket b (forms.map value)
  | mark m => .mark m
  | metadata => .metadata
  | target t => .target t.value

/-- The tokens of the finished parts of a pending form. -/
def tokens : Pending → List Token
  | bracket b forms => .opening b :: tokensOfForms forms.reverse
  | mark m => [.mark m]
  | metadata => [.annotate]
  | target t => .annotate :: t.tokens

/-- The tokens of pending forms that stand inside of each other, the innermost one first. -/
def tokensOfStack : List Pending → List Token
  | [] => []
  | top :: stack => tokensOfStack stack ++ top.tokens

/-- Whether tokens derive what reading has come to. -/
def Covers (ts : List Token) : Progress → Prop
  | .form v => ∃ t : ParseTree, t.tokens = ts ∧ t.value = v
  | .pending stack => ∃ pending, tokensOfStack pending = ts ∧ pending.map opened = stack

theorem covers_supply (stack : List Pending) (t : ParseTree) :
    Covers (tokensOfStack stack ++ t.tokens) (supply (stack.map opened) t.value) := by
  induction stack generalizing t with
  | nil => exact ⟨t, rfl, rfl⟩
  | cons top stack ih =>
    rw [tokensOfStack, List.append_assoc]
    cases top with
    | bracket b forms =>
      refine ⟨.bracket b (t :: forms) :: stack, ?_, rfl⟩
      simp only [tokensOfStack, tokens, List.reverse_cons, tokensOfForms_append, tokensOfForms,
        List.append_nil, List.cons_append]
    | mark m => exact ih (.mark m t)
    | metadata => exact ⟨.target t :: stack, rfl, rfl⟩
    | target metadata => exact ih (.annotated metadata t)

theorem covers_shift {stack : List Pending} {t : Token} {progress : Progress}
    (h : shift (stack.map opened) t = .ok progress) :
    Covers (tokensOfStack stack ++ [t]) progress := by
  -- A token that is a form on its own is a derivation of one token, which the open forms take.
  have hsupply : ∀ tree : ParseTree, tree.tokens = [t] →
      shift (stack.map opened) t = .ok (supply (stack.map opened) tree.value) →
        Covers (tokensOfStack stack ++ [t]) progress := by
    intro tree htokens hshift
    rw [hshift] at h
    cases h
    exact htokens ▸ covers_supply stack tree
  cases t with
  | nil => exact hsupply .nil rfl rfl
  | bool b => exact hsupply (.bool b) rfl rfl
  | int n => exact hsupply (.int n) rfl rfl
  | str text => exact hsupply (.str text) rfl rfl
  | symbol name => exact hsupply (.symbol name) rfl rfl
  | keyword name => exact hsupply (.keyword name) rfl rfl
  | opening b =>
    cases h
    exact ⟨.bracket b [] :: stack, rfl, rfl⟩
  | mark m =>
    cases h
    exact ⟨.mark m :: stack, rfl, rfl⟩
  | annotate =>
    cases h
    exact ⟨.metadata :: stack, rfl, rfl⟩
  | closing b =>
    cases stack with
    | nil => cases h
    | cons top outer =>
      cases top with
      | bracket inner forms =>
        rw [List.map_cons, opened, shift_closing] at h
        split at h
        · next hb =>
          subst hb
          cases hv : enclose b (forms.map ParseTree.value).reverse with
          | error cause =>
            rw [hv] at h
            cases h
          | ok v =>
            rw [hv] at h
            cases h
            rw [← List.map_reverse] at hv
            obtain ⟨tree, htokens, rfl⟩ := exists_enclosed hv
            have hcovers := covers_supply outer tree
            rw [htokens] at hcovers
            simpa only [tokensOfStack, tokens, List.append_assoc, List.cons_append] using hcovers
        · cases h
      | _ => cases h

/-- The forms that tokens finish behind pending ones are derived from all the tokens. -/
theorem exists_trees {stack : List Pending} {ts : List Token} {vs : List Value}
    (h : feed (stack.map opened) ts = .ok (vs, [])) :
    ∃ trees, tokensOfForms trees = tokensOfStack stack ++ ts ∧ trees.map value = vs := by
  induction ts generalizing stack vs with
  | nil =>
    cases stack with
    | nil =>
      cases h
      exact ⟨[], rfl, rfl⟩
    | cons top stack => cases h
  | cons t ts ih =>
    rcases feed_cons_cases h with ⟨v, ws, hshift, hfeed, rfl⟩ | ⟨inner, hshift, hfeed⟩
    · obtain ⟨tree, htree, rfl⟩ := covers_shift hshift
      obtain ⟨trees, htrees, rfl⟩ := @ih [] ws hfeed
      refine ⟨tree :: trees, ?_, rfl⟩
      rw [tokensOfForms, htree, htrees, List.append_assoc]
      rfl
    · obtain ⟨pending, htokens, rfl⟩ := covers_shift hshift
      obtain ⟨trees, htrees, rfl⟩ := ih hfeed
      exact ⟨trees, by rw [htrees, htokens, List.append_assoc]; rfl, rfl⟩

end Pending

/-! ### Texts -/

open ParseTree

/-- A form that was read from a text is derived from some tokens, or the text holds none. -/
theorem exists_tree_of_readFirst {text : String} {v : Value} (h : readFirst text = .ok v) :
    v = .nil ∨ ∃ t : ParseTree,
      (∀ token ∈ t.tokens, .ok token ∈ scans text.toList) ∧ t.value = v := by
  rcases readFirst_eq_ok_iff.mp h with ⟨_, rfl⟩ | ⟨ts, back, hscans, _, hfeed⟩
  · exact .inl rfl
  · obtain ⟨trees, htokens, hvalue⟩ := @Pending.exists_trees [] _ _ hfeed
    match trees, hvalue with
    | [t], hvalue =>
      cases hvalue
      refine .inr ⟨t, ?_, rfl⟩
      intro token htoken
      have hmem : token ∈ ts := by
        have hts : t.tokens = ts := by simpa [tokensOfForms, Pending.tokensOfStack] using htokens
        exact hts ▸ htoken
      rw [hscans]
      exact List.mem_append_left back (List.mem_map_of_mem hmem)

/-- A text reads as forms exactly if its tokens derive these forms, and the derivation is the only
one that the tokens have. -/
theorem readAll_iff_parseTrees (text : String) :
    (∀ vs : List Value, readAll text = .ok vs ↔
      ∃ ts trees, Lexeme.tokens text = .ok ts ∧ tokensOfForms trees = ts ∧ trees.map value = vs) ∧
    ∀ trees trees' : List ParseTree, tokensOfForms trees = tokensOfForms trees' → trees = trees' := by
  refine ⟨?_, fun trees trees' h => tokensOfForms_inj h⟩
  intro vs
  rw [readAll_eq_ok_iff]
  constructor
  · rintro ⟨ts, hscans, hfeed⟩
    obtain ⟨trees, htrees, hvalues⟩ := @Pending.exists_trees [] _ _ hfeed
    exact ⟨ts, trees, tokens_eq_ok_iff.mpr hscans, htrees, hvalues⟩
  · rintro ⟨ts, trees, hscans, rfl, rfl⟩
    exact ⟨tokensOfForms trees, tokens_eq_ok_iff.mp hscans, feed_tokensOfForms trees⟩

/-- The derivation of a map whose key `a` is given twice, first with a quoted list and then with a
symbol that is annotated with `nil`. -/
def ParseTree.sampleMap : ParseTree :=
  .map [(.keyword "a", .mark .quote (.list [.int 1])),
    (.keyword "a", .annotated .nil (.symbol "x"))]

theorem readAll_iff_parseTrees_sampleMap :
    readAll "\x7b:a \x27(1) :a ^nil x\x7d" =
      .ok [.ofTable [((⟨"a"⟩ : Keyword).key, .ofList [.named "with-meta", .named "x", .nil])]] ∧
    ∃ trees, tokensOfForms trees = ParseTree.sampleMap.tokens ∧ trees = [.sampleMap] := by
  obtain ⟨hreads, honly⟩ := readAll_iff_parseTrees "\x7b:a \x27(1) :a ^nil x\x7d"
  refine ⟨(hreads _).mpr ⟨_, [.sampleMap], ?_, rfl, ?_⟩, [.sampleMap], ?_, honly _ _ rfl⟩
  · cbv
  · cbv
  · exact List.append_nil _

end SmallLisp
