import SmallLisp.Proofs.Reading.ReadBack
import SmallLisp.Proofs.Reading.Space

/-!
# Layout

Tokens can be written out with any space between them. As long as there is some between every two,
they are found again, so that the space makes no difference to what a text reads as. The main
statement is `tokens_layOut`.
-/

namespace SmallLisp

/-- Tokens as they are written one after another, with some text in front of the first one and
behind each. -/
def layOut (front : List Char) : List (Token × List Char) → List Char
  | [] => front
  | (t, gap) :: rest => front ++ t.source ++ layOut gap rest

/-- Whether what stands around tokens is space, and whether there is some between every two. -/
structure IsLayout (front : List Char) (parts : List (Token × List Char)) : Prop where
  front : Separator front
  gaps : ∀ part ∈ parts, Separator part.2
  apart : ∀ part ∈ parts.dropLast, part.2 ≠ []

/-- Whether a token can be found. Of symbols and keywords this is asked, all others can be. -/
def Token.CanBeFound (t : Token) : Prop :=
  match t with
  | symbol _ | keyword _ => ∃ text, .ok t ∈ (Lexeme.list text).map Lexeme.found
  | _ => True

theorem Token.CanBeFound.readable {t : Token} (h : t.CanBeFound) : t.Readable := by
  cases t with
  | symbol name | keyword name =>
    obtain ⟨text, htext⟩ := h
    exact readable_of_mem_scans htext
  | _ => trivial

/-! ### Ends of tokens -/

theorem Token.endsBefore {cs : List Char} (t : Token) (hstop : Stops cs)
    (hmark : cs.head? ≠ some '@') : t.EndsBefore cs := by
  cases t with
  | nil | bool | int | symbol | keyword => exact hstop
  | mark m => exact fun _ => hmark
  | _ => trivial

theorem Separator.ends {w : List Char} (h : Separator w) (hne : w ≠ []) (cs : List Char) :
    Stops (w ++ cs) ∧ (w ++ cs).head? ≠ some '@' := by
  cases w with
  | nil => exact absurd rfl hne
  | cons c w =>
    obtain ⟨hsymbol, hmark⟩ := h.head
    exact ⟨stops_cons hsymbol _, fun hhead => hmark (Option.some.inj hhead)⟩

/-- Where a layout begins every token ends. -/
theorem IsLayout.ends {gap : List Char} {parts : List (Token × List Char)}
    (h : IsLayout gap parts) (hne : parts ≠ [] → gap ≠ []) :
    Stops (layOut gap parts) ∧ (layOut gap parts).head? ≠ some '@' := by
  cases parts with
  | nil =>
    cases gap with
    | nil => exact ⟨stops_nil, nofun⟩
    | cons c gap =>
      have hends := h.front.ends (List.cons_ne_nil c gap) []
      rwa [List.append_nil] at hends
  | cons part rest =>
    rw [layOut, List.append_assoc]
    exact h.front.ends (hne (List.cons_ne_nil part rest)) _

/-- Behind a token there is a layout again, and it begins with space if a token follows. -/
theorem IsLayout.behind {front gap : List Char} {t : Token} {rest : List (Token × List Char)}
    (h : IsLayout front ((t, gap) :: rest)) :
    IsLayout gap rest ∧ (rest ≠ [] → gap ≠ []) := by
  refine ⟨⟨h.gaps _ List.mem_cons_self, fun part hpart => h.gaps part (.tail _ hpart), ?_⟩, ?_⟩
  · intro part hpart
    refine h.apart part ?_
    cases rest with
    | nil => cases hpart
    | cons next rest => exact .tail _ hpart
  · intro hrest
    refine h.apart (t, gap) ?_
    rw [List.dropLast_cons_of_ne_nil hrest]
    exact List.mem_cons_self

/-! ### What is found in a layout -/

theorem scans_layOut {front : List Char} {parts : List (Token × List Char)}
    (h : IsLayout front parts) (hparts : ∀ part ∈ parts, part.1.Readable) :
    scans (layOut front parts) = (parts.map Prod.fst).map .ok := by
  induction parts generalizing front with
  | nil =>
    have hscans := h.front.scans []
    rw [List.append_nil] at hscans
    exact hscans.trans (scans_none rfl)
  | cons part rest ih =>
    obtain ⟨t, gap⟩ := part
    obtain ⟨hbehind, hgap⟩ := h.behind
    obtain ⟨hstop, hmark⟩ := hbehind.ends hgap
    have ht : t.Readable := hparts (t, gap) List.mem_cons_self
    rw [layOut, List.append_assoc, h.front.scans, scans_source ht (t.endsBefore hstop hmark),
      ih hbehind fun part hpart => hparts part (.tail _ hpart)]
    rfl

/-- Tokens that are laid out are the tokens of the text, whatever the space between them. -/
theorem tokens_layOut {front : List Char} {parts : List (Token × List Char)}
    (h : IsLayout front parts) (hparts : ∀ part ∈ parts, part.1.CanBeFound) :
    Lexeme.tokens (String.ofList (layOut front parts)) = .ok (parts.map Prod.fst) ∧
    ∀ front' parts', IsLayout front' parts' → parts'.map Prod.fst = parts.map Prod.fst →
      Lexeme.tokens (String.ofList (layOut front' parts')) =
        Lexeme.tokens (String.ofList (layOut front parts)) := by
  have htokens : ∀ front' parts', IsLayout front' parts' →
      parts'.map Prod.fst = parts.map Prod.fst →
        Lexeme.tokens (String.ofList (layOut front' parts')) = .ok (parts.map Prod.fst) := by
    intro front' parts' h' hsame
    have hreadable : ∀ part ∈ parts', part.1.Readable := by
      intro part hpart
      have hmem : part.1 ∈ parts.map Prod.fst := hsame ▸ List.mem_map_of_mem hpart
      obtain ⟨part', hpart', heq⟩ := List.mem_map.mp hmem
      exact heq ▸ (hparts part' hpart').readable
    rw [tokens_eq_ok_iff, String.toList_ofList, scans_layOut h' hreadable, hsame]
  refine ⟨htokens front parts h rfl, fun front' parts' h' hsame => ?_⟩
  rw [htokens front' parts' h' hsame, htokens front parts h rfl]

/-- The tokens `~`, `@`, `-5`, `"a;\"b"`, `-` and `:k` in two layouts: with one space between every
two, and with commas, comments and wide space. -/
def samplePlain : List (Token × List Char) :=
  [(.mark .unquote, [' ']), (.mark .deref, [' ']), (.int (-5), [' ']), (.str "a;\"b", [' ']),
    (.symbol "-", [' ']), (.keyword "k", [])]

def sampleAiry : List (Token × List Char) :=
  [(.mark .unquote, [';', '@', '\n']), (.mark .deref, [',']), (.int (-5), [';', '\n', '\t']),
    (.str "a;\"b", ['\u3000']), (.symbol "-", [',']), (.keyword "k", ['\n', ';', '(', '\n'])]

theorem isLayout_samplePlain : IsLayout [] samplePlain where
  front := .nil
  gaps := by
    have hspace : Separator [' '] := .blank (by decide) .nil
    simp [samplePlain, hspace, Separator.nil]
  apart := by decide

theorem isLayout_sampleAiry : IsLayout [','] sampleAiry where
  front := .blank (by decide) .nil
  gaps := by
    have hmark : Separator [';', '@', '\n'] := @Separator.comment ['@'] [] (by decide) .nil
    have htab : Separator [';', '\n', '\t'] :=
      @Separator.comment [] ['\t'] (by decide) (.blank (by decide) .nil)
    have hbracket : Separator ['\n', ';', '(', '\n'] :=
      .blank (by decide) (@Separator.comment ['('] [] (by decide) .nil)
    have hcomma : Separator [','] := .blank (by decide) .nil
    have hwide : Separator ['\u3000'] := .blank (by decide) .nil
    simp [sampleAiry, hmark, htab, hbracket, hcomma, hwide]
  apart := by decide

theorem tokens_layOut_sampleAiry :
    Lexeme.tokens "~ @ -5 \"a;\\\"b\" - :k" =
      .ok [.mark .unquote, .mark .deref, .int (-5), .str "a;\"b", .symbol "-", .keyword "k"] ∧
    Lexeme.tokens ",~;@\n@,-5;\n\t\"a;\\\"b\"\u3000-,:k\n;(\n" =
      Lexeme.tokens "~ @ -5 \"a;\\\"b\" - :k" := by
  have hminus : (Token.symbol "-").CanBeFound := ⟨"-", by cbv; exact .head _⟩
  have hkey : (Token.keyword "k").CanBeFound := ⟨":k", by cbv; exact .head _⟩
  have hparts : ∀ part ∈ samplePlain, part.1.CanBeFound := by
    simp only [samplePlain, List.forall_mem_cons]
    exact ⟨trivial, trivial, trivial, trivial, hminus, hkey, fun _ h => absurd h List.not_mem_nil⟩
  obtain ⟨htokens, hothers⟩ := tokens_layOut isLayout_samplePlain hparts
  have hplain : String.ofList (layOut [] samplePlain) = "~ @ -5 \"a;\\\"b\" - :k" := by cbv
  have hairy : String.ofList (layOut [','] sampleAiry) =
    ",~;@\n@,-5;\n\t\"a;\\\"b\"\u3000-,:k\n;(\n" := by cbv
  rw [← hplain, ← hairy]
  exact ⟨htokens, hothers [','] sampleAiry isLayout_sampleAiry rfl⟩

end SmallLisp
