import SmallLisp.Proofs.Reading.RoundTrip

/-!
# The grammar of forms

A `ParseTree` is a derivation of one form from tokens: a literal, a name, a bracket around forms, a
mark in front of a form, or an annotation in front of the form that carries it. The keys of a map
are the forms that read as a string or a keyword. No tokens have two derivations, even where further
tokens follow.
-/

namespace SmallLisp

open Reader

/-! ### Derivations -/

/-- A form that can be a key in a map. -/
inductive KeyTree where
  | str (text : String)
  | keyword (name : String)

/-- A derivation of one form. -/
inductive ParseTree where
  | nil
  | bool (b : Bool)
  | int (n : Int64)
  | str (text : String)
  | symbol (name : String)
  | keyword (name : String)
  | list (forms : List ParseTree)
  | vector (forms : List ParseTree)
  | map (entries : List (KeyTree × ParseTree))
  | mark (m : Mark) (form : ParseTree)
  | annotated (metadata target : ParseTree)

namespace KeyTree

def token : KeyTree → Token
  | str text => .str text
  | keyword name => .keyword name

def value : KeyTree → Value
  | str text => .str text
  | keyword name => .keyword (.ofName name)

/-- The key of the entry in the map. -/
def raw : KeyTree → String
  | str text => text
  | keyword name => (Keyword.ofName name).key

theorem key?_value (k : KeyTree) : k.value.key? = some k.raw := by
  cases k <;> rfl

theorem eq_of_token {k k' : KeyTree} (h : k.token = k'.token) : k = k' := by
  cases k <;> cases k' <;> cases h <;> rfl

theorem token_ne_closing (k : KeyTree) (b : Bracket) : k.token ≠ .closing b := by
  cases k <;> nofun

end KeyTree

namespace ParseTree

mutual

/-- The tokens that a derivation derives its form from. -/
def tokens : ParseTree → List Token
  | .nil => [.nil]
  | .bool b => [.bool b]
  | .int n => [.int n]
  | .str text => [.str text]
  | .symbol name => [.symbol name]
  | .keyword name => [.keyword name]
  | .list forms => .opening .round :: (tokensOfForms forms ++ [.closing .round])
  | .vector forms => .opening .square :: (tokensOfForms forms ++ [.closing .square])
  | .map entries => .opening .curly :: (tokensOfMap entries ++ [.closing .curly])
  | .mark m form => .mark m :: form.tokens
  | .annotated metadata target => .annotate :: (metadata.tokens ++ target.tokens)

def tokensOfForms : List ParseTree → List Token
  | [] => []
  | form :: rest => form.tokens ++ tokensOfForms rest

def tokensOfMap : List (KeyTree × ParseTree) → List Token
  | [] => []
  | (key, form) :: rest => key.token :: (form.tokens ++ tokensOfMap rest)

end

mutual

/-- The form that is derived. Of the entries of a map with one key the last counts. -/
def value : ParseTree → Value
  | .nil => .nil
  | .bool b => .bool b
  | .int n => .int n
  | .str text => .str text
  | .symbol name => .named name
  | .keyword name => .keyword (.ofName name)
  | .list forms => .ofList (valuesOfForms forms)
  | .vector forms => .ofVector (valuesOfForms forms)
  | .map entries => .ofTable (Table.ofList (entriesOfMap entries))
  | .mark m form => .ofList [.named m.name, form.value]
  | .annotated metadata target => .ofList [.named "with-meta", target.value, metadata.value]

def valuesOfForms : List ParseTree → List Value
  | [] => []
  | form :: rest => form.value :: valuesOfForms rest

def entriesOfMap : List (KeyTree × ParseTree) → List (String × Value)
  | [] => []
  | (key, form) :: rest => (key.raw, form.value) :: entriesOfMap rest

end

theorem valuesOfForms_eq (forms : List ParseTree) : valuesOfForms forms = forms.map value := by
  induction forms with
  | nil => rfl
  | cons form rest ih => rw [valuesOfForms, ih, List.map_cons]

theorem entriesOfMap_eq (entries : List (KeyTree × ParseTree)) :
    entriesOfMap entries = entries.map fun entry => (entry.1.raw, entry.2.value) := by
  induction entries with
  | nil => rfl
  | cons entry rest ih => rw [entriesOfMap, ih, List.map_cons]

theorem tokensOfForms_append (forms more : List ParseTree) :
    tokensOfForms (forms ++ more) = tokensOfForms forms ++ tokensOfForms more := by
  induction forms with
  | nil => rfl
  | cons form rest ih => rw [List.cons_append, tokensOfForms, tokensOfForms, ih, List.append_assoc]

/-! ### No two derivations -/

theorem exists_tokens_cons (t : ParseTree) :
    ∃ first rest, t.tokens = first :: rest ∧ ∀ b, first ≠ .closing b := by
  cases t <;> exact ⟨_, _, rfl, nofun⟩

mutual

/-- A derivation is known from its tokens, also in front of further ones. -/
theorem eq_of_tokens : ∀ (t t' : ParseTree) {us us' : List Token},
    t.tokens ++ us = t'.tokens ++ us' → t = t' ∧ us = us'
  | .nil, t', _, _, h => by cases t' <;> simp_all [tokens]
  | .bool _, t', _, _, h => by cases t' <;> simp_all [tokens]
  | .int _, t', _, _, h => by cases t' <;> simp_all [tokens]
  | .str _, t', _, _, h => by cases t' <;> simp_all [tokens]
  | .symbol _, t', _, _, h => by cases t' <;> simp_all [tokens]
  | .keyword _, t', _, _, h => by cases t' <;> simp_all [tokens]
  | .list forms, t', us, us', h => by
    cases t' with
    | list forms' =>
      simp only [tokens, List.cons_append, List.append_assoc, List.nil_append, List.cons.injEq,
        true_and] at h
      obtain ⟨rfl, -, rfl⟩ := eq_of_tokensOfForms forms forms' h
      exact ⟨rfl, rfl⟩
    | _ => simp [tokens] at h
  | .vector forms, t', us, us', h => by
    cases t' with
    | vector forms' =>
      simp only [tokens, List.cons_append, List.append_assoc, List.nil_append, List.cons.injEq,
        true_and] at h
      obtain ⟨rfl, -, rfl⟩ := eq_of_tokensOfForms forms forms' h
      exact ⟨rfl, rfl⟩
    | _ => simp [tokens] at h
  | .map entries, t', us, us', h => by
    cases t' with
    | map entries' =>
      simp only [tokens, List.cons_append, List.append_assoc, List.nil_append, List.cons.injEq,
        true_and] at h
      obtain ⟨rfl, -, rfl⟩ := eq_of_tokensOfMap entries entries' h
      exact ⟨rfl, rfl⟩
    | _ => simp [tokens] at h
  | .mark m form, t', us, us', h => by
    cases t' with
    | mark m' form' =>
      simp only [tokens, List.cons_append, List.cons.injEq, Token.mark.injEq] at h
      obtain ⟨rfl, rfl⟩ := eq_of_tokens form form' h.2
      exact ⟨by rw [h.1], rfl⟩
    | _ => simp [tokens] at h
  | .annotated metadata target, t', us, us', h => by
    cases t' with
    | annotated metadata' target' =>
      simp only [tokens, List.cons_append, List.append_assoc, List.cons.injEq, true_and] at h
      obtain ⟨rfl, htarget⟩ := eq_of_tokens metadata metadata' h
      obtain ⟨rfl, rfl⟩ := eq_of_tokens target target' htarget
      exact ⟨rfl, rfl⟩
    | _ => simp [tokens] at h

theorem eq_of_tokensOfForms : ∀ (forms forms' : List ParseTree) {b b' : Bracket}
    {us us' : List Token},
    tokensOfForms forms ++ .closing b :: us = tokensOfForms forms' ++ .closing b' :: us' →
      forms = forms' ∧ b = b' ∧ us = us'
  | [], [], _, _, _, _, h => by simpa [tokensOfForms] using h
  -- The forms end where a closing bracket stands in front: no form begins with one.
  | [], form :: rest, b, _, _, _, h => by
    obtain ⟨first, more, hform, hclosing⟩ := exists_tokens_cons form
    simp only [tokensOfForms, hform, List.nil_append, List.cons_append, List.cons.injEq] at h
    exact absurd h.1.symm (hclosing b)
  | form :: rest, [], _, b', _, _, h => by
    obtain ⟨first, more, hform, hclosing⟩ := exists_tokens_cons form
    simp only [tokensOfForms, hform, List.nil_append, List.cons_append, List.cons.injEq] at h
    exact absurd h.1 (hclosing b')
  | form :: rest, form' :: rest', _, _, _, _, h => by
    simp only [tokensOfForms, List.append_assoc] at h
    obtain ⟨rfl, hrest⟩ := eq_of_tokens form form' h
    obtain ⟨rfl, hb, hus⟩ := eq_of_tokensOfForms rest rest' hrest
    exact ⟨rfl, hb, hus⟩

theorem eq_of_tokensOfMap : ∀ (entries entries' : List (KeyTree × ParseTree)) {b b' : Bracket}
    {us us' : List Token},
    tokensOfMap entries ++ .closing b :: us = tokensOfMap entries' ++ .closing b' :: us' →
      entries = entries' ∧ b = b' ∧ us = us'
  | [], [], _, _, _, _, h => by simpa [tokensOfMap] using h
  | [], (key, form) :: rest, b, _, _, _, h => by
    simp only [tokensOfMap, List.nil_append, List.cons_append, List.cons.injEq] at h
    exact absurd h.1.symm (key.token_ne_closing b)
  | (key, form) :: rest, [], _, b', _, _, h => by
    simp only [tokensOfMap, List.nil_append, List.cons_append, List.cons.injEq] at h
    exact absurd h.1 (key.token_ne_closing b')
  | (key, form) :: rest, (key', form') :: rest', _, _, _, _, h => by
    simp only [tokensOfMap, List.cons_append, List.append_assoc, List.cons.injEq] at h
    obtain rfl := KeyTree.eq_of_token h.1
    obtain ⟨rfl, hrest⟩ := eq_of_tokens form form' h.2
    obtain ⟨rfl, hb, hus⟩ := eq_of_tokensOfMap rest rest' hrest
    exact ⟨rfl, hb, hus⟩

end

/-- Tokens have one derivation at most. -/
theorem tokensOfForms_inj {forms forms' : List ParseTree}
    (h : tokensOfForms forms = tokensOfForms forms') : forms = forms' := by
  have hclosed : tokensOfForms forms ++ [.closing .round] =
      tokensOfForms forms' ++ [.closing .round] := by rw [h]
  exact (eq_of_tokensOfForms forms forms' hclosed).1

end ParseTree

end SmallLisp
