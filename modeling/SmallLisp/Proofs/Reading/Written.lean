import SmallLisp.Heap
import SmallLisp.Proofs.Reading.Source

/-!
# Printed data are tokens

The data of the language are the values that are built from literals, names, lists, vectors and
maps. A printed datum is the text of its tokens: they are what is found there, in front of every
text that does not go on with a character of a symbol.
-/

namespace SmallLisp

/-! ### Data -/

/-- Whether a keyword is found again where it is written. -/
structure Keyword.Readable (k : Keyword) : Prop where
  name : IsKeywordName k.name
  start : k.name.toList.head? ≠ some sentinel

/-- Whether a text is the key of a string or of a keyword that can be written. -/
def IsReadableKey (key : String) : Prop :=
  key.toList.head? ≠ some Keyword.sentinel ∨ ∃ k : Keyword, k.Readable ∧ key = k.key

mutual

/-- The values that are data. Their names can be written, and the entries of their maps are
tables. -/
def Value.IsData : Value → Prop
  | .nil => True
  | .bool _ => True
  | .int _ => True
  | .str _ => True
  | .keyword k => k.Readable
  | .symbol s => s.Readable
  | .list items _ => AreData items
  | .vector items _ => AreData items
  | .map entries _ => Table.Sorted entries ∧ AreEntries entries
  | .native _ _ _ => False
  | .closure _ _ _ => False
  | .atom _ => False

/-- The lists of data. -/
def AreData : List Value → Prop
  | [] => True
  | v :: rest => v.IsData ∧ AreData rest

/-- The entries of data under keys that can be written. -/
def AreEntries : List (String × Value) → Prop
  | [] => True
  | (key, v) :: rest => IsReadableKey key ∧ v.IsData ∧ AreEntries rest

end

theorem areData_iff {vs : List Value} : AreData vs ↔ ∀ v ∈ vs, v.IsData := by
  induction vs with
  | nil => simp [AreData]
  | cons v vs ih => simp [AreData, ih]

/-! ### Their tokens -/

/-- The token of a key. -/
def keyToken (key : String) : Token :=
  match Keyword.ofKey? key with
  | some k => .keyword k.name
  | none => .str key

mutual

/-- The tokens that a datum is written with. -/
def Value.tokens : Value → List Token
  | .nil => [.nil]
  | .bool b => [.bool b]
  | .int n => [.int n]
  | .str text => [.str text]
  | .keyword k => [.keyword k.name]
  | .symbol s => [.symbol s.name]
  | .list items _ => .opening .round :: (tokensOfAll items ++ [.closing .round])
  | .vector items _ => .opening .square :: (tokensOfAll items ++ [.closing .square])
  | .map entries _ => .opening .curly :: (tokensOfEntries entries ++ [.closing .curly])
  | .native _ _ _ => []
  | .closure _ _ _ => []
  | .atom _ => []

/-- The tokens that some data are written with. -/
def tokensOfAll : List Value → List Token
  | [] => []
  | v :: rest => v.tokens ++ tokensOfAll rest

/-- The tokens that some entries are written with. -/
def tokensOfEntries : List (String × Value) → List Token
  | [] => []
  | (key, v) :: rest => keyToken key :: (v.tokens ++ tokensOfEntries rest)

end

/-! ### Written texts -/

/-- Whether tokens are what is found in a text, in front of every text that does not go on with a
character of a symbol. -/
def Written (text : String) (ts : List Token) : Prop :=
  ∀ cs, Stops cs → scans (text.toList ++ cs) = ts.map .ok ++ scans cs

/-- Whether tokens are what is found in some texts, one after another. -/
inductive WrittenAll : List String → List Token → Prop where
  | nil : WrittenAll [] []
  | cons {text texts ts us} (h : Written text ts) (hs : WrittenAll texts us) :
      WrittenAll (text :: texts) (ts ++ us)

theorem toList_joinWith (text : String) (texts : List String) :
    (joinWith " " (text :: texts)).toList =
      text.toList ++ texts.flatMap fun text => ' ' :: text.toList := by
  change (texts.foldl (fun front text => front ++ " " ++ text) text).toList = _
  induction texts generalizing text with
  | nil => simp
  | cons next texts ih =>
    rw [List.foldl_cons, ih]
    simp

theorem stops_texts (texts : List String) {cs : List Char} (hcs : Stops cs) :
    Stops ((texts.flatMap fun text => ' ' :: text.toList) ++ cs) := by
  cases texts with
  | nil => exact hcs
  | cons text texts => exact stops_cons (by decide) _

theorem WrittenAll.spaced {texts : List String} {ts : List Token} (h : WrittenAll texts ts)
    {cs : List Char} (hcs : Stops cs) :
    scans ((texts.flatMap fun text => ' ' :: text.toList) ++ cs) = ts.map .ok ++ scans cs := by
  induction h with
  | nil => rfl
  | @cons text texts ts us h hs ih =>
    rw [List.flatMap_cons, List.append_assoc, List.cons_append, scans_blank (by decide),
      h _ (stops_texts texts hcs), ih, List.map_append, List.append_assoc]

theorem WrittenAll.join {texts : List String} {ts : List Token} (h : WrittenAll texts ts) :
    Written (joinWith " " texts) ts := by
  intro cs hcs
  cases h with
  | nil => rfl
  | @cons text texts ts us h hs =>
    rw [toList_joinWith, List.append_assoc, h _ (stops_texts texts hcs), hs.spaced hcs,
      List.map_append, List.append_assoc]

theorem Written.of_source {t : Token} {text : String} (htext : text.toList = t.source)
    (ht : t.Readable) (hend : ∀ cs, Stops cs → t.EndsBefore cs) : Written text [t] := by
  intro cs hcs
  rw [htext, scans_source ht (hend cs hcs)]
  rfl

/-- What stands in brackets is found between them. -/
theorem Written.enclosed {text : String} {ts : List Token} (h : Written text ts) (b : Bracket) :
    Written (String.singleton b.opening ++ text ++ String.singleton b.closing)
      (.opening b :: (ts ++ [.closing b])) := by
  intro cs _
  have hopening : ∀ ds, scans (b.opening :: ds) = .ok (.opening b) :: scans ds :=
    fun ds => @scans_source (.opening b) trivial ds trivial
  have hclosing : scans (b.closing :: cs) = .ok (.closing b) :: scans cs :=
    @scans_source (.closing b) trivial cs trivial
  have hstops : Stops (b.closing :: cs) := by
    cases b <;> exact stops_cons (by decide) cs
  have hwhole : (String.singleton b.opening ++ text ++ String.singleton b.closing).toList ++ cs =
      b.opening :: (text.toList ++ b.closing :: cs) := by
    simp
  rw [hwhole, hopening, h _ hstops, hclosing]
  simp

theorem Written.quoted (text : String) : Written (Text.Quoted.encode text) [.str text] :=
  .of_source String.toList_ofList trivial fun _ _ => trivial

theorem Written.keyword {k : Keyword} (h : IsKeywordName k.name) : Written k.text [.keyword k.name] :=
  .of_source (by simp [Keyword.text, Token.source]) h fun _ hcs => hcs

/-- A key is that of a keyword exactly if the sentinel stands in front of it. -/
theorem ofKey?_eq_none_iff {key : String} :
    Keyword.ofKey? key = none ↔ key.toList.head? ≠ some Keyword.sentinel := by
  unfold Keyword.ofKey?
  cases key.toList with
  | nil => simp
  | cons c name => simp

theorem Written.key {key : String} (h : IsReadableKey key) :
    Written (match Keyword.ofKey? key with
      | some k => k.text
      | none => if true then Text.Quoted.encode key else key) [keyToken key] := by
  unfold keyToken
  rcases h with h | ⟨k, hk, rfl⟩
  · rw [ofKey?_eq_none_iff.mpr h]
    exact .quoted key
  · rw [Keyword.ofKey?_key]
    exact .keyword hk.name

/-! ### Printed data -/

section

variable (atomText : AtomId → String)

mutual

theorem written_render : ∀ v : Value, v.IsData → Written (v.render atomText true) v.tokens
  | .nil, _ => .of_source rfl trivial fun _ hcs => hcs
  | .bool _, _ => .of_source rfl trivial fun _ hcs => hcs
  | .int _, _ => .of_source rfl trivial fun _ hcs => hcs
  | .str text, _ => .quoted text
  | .keyword _, h => .keyword h.name
  | .symbol _, h => .of_source rfl h fun _ hcs => hcs
  | .list items _, h => (writtenAll_render items h).join.enclosed .round
  | .vector items _, h => (writtenAll_render items h).join.enclosed .square
  | .map entries _, h => (writtenAll_renderEntries entries h.2).join.enclosed .curly
  | .native _ _ _, h => h.elim
  | .closure _ _ _, h => h.elim
  | .atom _, h => h.elim

theorem writtenAll_render : ∀ vs : List Value, AreData vs →
    WrittenAll (Value.renderAll atomText true vs) (tokensOfAll vs)
  | [], _ => .nil
  | v :: rest, h => .cons (written_render v h.1) (writtenAll_render rest h.2)

theorem writtenAll_renderEntries : ∀ entries : List (String × Value), AreEntries entries →
    WrittenAll (Value.renderEntries atomText true entries) (tokensOfEntries entries)
  | [], _ => .nil
  | (_, v) :: rest, h =>
    .cons (.key h.1) (.cons (written_render v h.2.1) (writtenAll_renderEntries rest h.2.2))

end

end

theorem scans_printList (h : Heap) {vs : List Value} (hvs : ∀ v ∈ vs, v.IsData) :
    scans (h.printList true " " vs).toList = (tokensOfAll vs).map .ok := by
  have hwritten := (writtenAll_render (h.atomText h.atoms.size) vs (areData_iff.mpr hvs)).join
  have hnone : scans [] = [] := scans_none rfl
  have hscans := hwritten [] stops_nil
  rwa [List.append_nil, hnone, List.append_nil] at hscans

end SmallLisp
