import SmallLisp.Proofs.Reading.Feed
import SmallLisp.Proofs.Reading.Written

/-!
# Printed data read back

The tokens of a datum read as that datum without its metadata, whatever is open around them.
Together with what is found in printed data this gives `read_printed_data`: reading what was printed
readably gives the data back.
-/

namespace SmallLisp

open Reader

/-! ### Metadata -/

mutual

/-- A value without metadata, at any depth. -/
def Value.bare : Value → Value
  | .list items _ => .list (bareAll items) none
  | .vector items _ => .vector (bareAll items) none
  | .map entries _ => .map (bareEntries entries) none
  | .native fn identity _ => .native fn identity none
  | .closure fn body _ => .closure fn body.bare none
  | v => v

/-- Some values without metadata. -/
def bareAll : List Value → List Value
  | [] => []
  | v :: rest => v.bare :: bareAll rest

/-- Some entries with their values without metadata. -/
def bareEntries : List (String × Value) → List (String × Value)
  | [] => []
  | (key, v) :: rest => (key, v.bare) :: bareEntries rest

end

theorem bareEntries_eq (entries : List (String × Value)) :
    bareEntries entries = entries.map fun entry => (entry.1, entry.2.bare) := by
  induction entries with
  | nil => rfl
  | cons entry entries ih => rw [bareEntries, ih, List.map_cons]

/-! ### Reading tokens -/

/-- Whether tokens read as a value, whatever is open around them. -/
def Reads (ts : List Token) (v : Value) : Prop :=
  ∀ stack us, feed stack (ts ++ us) = proceed (supply stack v) us

/-- Whether tokens read as some values where a bracket is open. -/
def ReadsAll (ts : List Token) (vs : List Value) : Prop :=
  ∀ b items stack us, feed (.bracket b items :: stack) (ts ++ us) =
    feed (.bracket b (vs.reverse ++ items) :: stack) us

theorem Reads.of_shift {t : Token} {v : Value} (h : ∀ stack, shift stack t = .ok (supply stack v)) :
    Reads [t] v := fun stack _ => feed_cons (h stack)

theorem ReadsAll.nil : ReadsAll [] [] := fun _ _ _ _ => rfl

theorem ReadsAll.cons {ts us : List Token} {v : Value} {vs : List Value} (h : Reads ts v)
    (hs : ReadsAll us vs) : ReadsAll (ts ++ us) (v :: vs) := by
  intro b items stack rest
  have hitem : feed (.bracket b items :: stack) (ts ++ (us ++ rest)) =
      feed (.bracket b (v :: items) :: stack) (us ++ rest) := h _ _
  rw [List.append_assoc, hitem, hs, List.reverse_cons, List.append_assoc]
  rfl

theorem ReadsAll.enclosed {ts : List Token} {vs : List Value} {b : Bracket} {v : Value}
    (h : ReadsAll ts vs) (hv : enclose b vs = .ok v) :
    Reads (.opening b :: (ts ++ [.closing b])) v := by
  intro stack us
  have hshift : shift (.bracket b (vs.reverse ++ []) :: stack) (.closing b) =
      .ok (supply stack v) := by
    rw [shift_closing, if_pos rfl, List.append_nil, List.reverse_reverse, hv]
    rfl
  have hopen : feed stack (.opening b :: (ts ++ [.closing b]) ++ us) =
      feed (.bracket b [] :: stack) (ts ++ (.closing b :: us)) := by
    rw [List.cons_append, List.append_assoc]
    exact feed_pending rfl
  rw [hopen, h]
  exact feed_cons hshift

/-! ### Entries -/

theorem reads_keyToken {key : String} (h : IsReadableKey key) :
    Reads [keyToken key] (Value.ofKey key) := by
  unfold keyToken Value.ofKey
  rcases h with h | ⟨k, hk, rfl⟩
  · rw [ofKey?_eq_none_iff.mpr h]
    exact .of_shift fun _ => rfl
  · rw [Keyword.ofKey?_key]
    have hname : Keyword.ofName k.name = k := by
      unfold Keyword.ofName
      rw [ofKey?_eq_none_iff.mpr hk.start]
      rfl
    refine .of_shift fun stack => ?_
    change Except.ok (supply stack (.keyword (.ofName k.name))) = _
    rw [hname]

/-- The keys and values of some entries in turn. -/
def alternating (entries : List (String × Value)) : List Value :=
  entries.flatMap fun entry => [Value.ofKey entry.1, entry.2]

theorem mapM_entry {β : Type} {first : β → Value} {key : β → String} (second : β → Value)
    (bs : List β) (h : ∀ b, (first b).key? = some (key b)) :
    (bs.map fun b => (first b, second b)).mapM entry = .ok (bs.map fun b => (key b, second b)) := by
  induction bs with
  | nil => rfl
  | cons b bs ih =>
    have hfirst : entry (first b, second b) = .ok (key b, second b) := by
      unfold entry
      rw [h b]
    rw [List.map_cons, List.mapM_cons, hfirst, ih]
    rfl

theorem enclose_alternating {entries : List (String × Value)} (h : Table.Sorted entries) :
    enclose .curly (alternating entries) = .ok (.map entries none) := by
  have hentries := mapM_entry Prod.snd entries fun entry => Value.key?_ofKey entry.1
  rw [List.map_id'] at hentries
  simp only [enclose, alternating, pairs?_flatMap, hentries, Except.map, Table.ofList_of_sorted h]
  rfl

theorem sorted_bareEntries {entries : List (String × Value)} (h : Table.Sorted entries) :
    Table.Sorted (bareEntries entries) := by
  rw [bareEntries_eq]
  exact List.pairwise_map.mpr h

/-! ### Data -/

mutual

theorem reads_tokens : ∀ v : Value, v.IsData → Reads v.tokens v.bare
  | .nil, _ => .of_shift fun _ => rfl
  | .bool _, _ => .of_shift fun _ => rfl
  | .int _, _ => .of_shift fun _ => rfl
  | .str _, _ => .of_shift fun _ => rfl
  | .keyword k, h => by
    have hkey := reads_keyToken (.inr ⟨k, h, rfl⟩)
    unfold keyToken Value.ofKey at hkey
    rwa [Keyword.ofKey?_key] at hkey
  | .symbol _, _ => .of_shift fun _ => rfl
  | .list items _, h => (readsAll_tokens items h).enclosed rfl
  | .vector items _, h => (readsAll_tokens items h).enclosed rfl
  | .map entries _, h =>
    (readsAll_tokensOfEntries entries h.2).enclosed (enclose_alternating (sorted_bareEntries h.1))
  | .native _ _ _, h => h.elim
  | .closure _ _ _, h => h.elim
  | .atom _, h => h.elim

theorem readsAll_tokens : ∀ vs : List Value, AreData vs → ReadsAll (tokensOfAll vs) (bareAll vs)
  | [], _ => .nil
  | v :: rest, h => .cons (reads_tokens v h.1) (readsAll_tokens rest h.2)

theorem readsAll_tokensOfEntries : ∀ entries : List (String × Value), AreEntries entries →
    ReadsAll (tokensOfEntries entries) (alternating (bareEntries entries))
  | [], _ => .nil
  | (_, v) :: rest, h =>
    .cons (reads_keyToken h.1) (.cons (reads_tokens v h.2.1) (readsAll_tokensOfEntries rest h.2.2))

end

theorem feed_tokensOfAll {vs : List Value} (h : ∀ v ∈ vs, v.IsData) :
    feed [] (tokensOfAll vs) = .ok (vs.map Value.bare, []) := by
  induction vs with
  | nil => rfl
  | cons v vs ih =>
    have hv := reads_tokens v (h v List.mem_cons_self) [] (tokensOfAll vs)
    have hvs := ih fun w hw => h w (List.mem_cons_of_mem v hw)
    rw [tokensOfAll, hv]
    change (feed [] (tokensOfAll vs)).map _ = _
    rw [hvs]
    rfl

theorem readFirst_print (h : Heap) {v : Value} (hv : v.IsData) :
    readFirst (h.print true v) = .ok v.bare := by
  have hvs : ∀ w ∈ [v], w.IsData := by simpa using hv
  have hscans := scans_printList h hvs
  rw [readFirst_eq_ok_iff]
  refine .inr ⟨tokensOfAll [v], [], ?_, clear_nil, feed_tokensOfAll hvs⟩
  rw [List.append_nil]
  exact hscans

/-- Data that were printed readably read back as they were, without their metadata. -/
theorem read_printed_data (h : Heap) :
    (∀ vs : List Value, (∀ v ∈ vs, v.IsData) →
      readAll (h.printList true " " vs) = .ok (vs.map Value.bare)) ∧
    ∀ v : Value, v.IsData → readFirst (h.print true v) = .ok v.bare := by
  constructor
  · intro vs hvs
    rw [readAll_eq_ok_iff]
    exact ⟨tokensOfAll vs, scans_printList h hvs, feed_tokensOfAll hvs⟩
  · exact fun v hv => readFirst_print h hv

/-- The datum of the list of the symbol `+`, the integer -5, and the map of the key `a` and a string
of two lines, which carries metadata. -/
def Value.sampleDatum : Value :=
  .list [.named "+", .int (-5), .map [("a", .str "x\ny")] (some .nil)] none

theorem isData_sampleDatum : Value.sampleDatum.IsData := by
  have hplus : Symbol.Readable ⟨"+"⟩ := {
    nonempty := by decide
    chars := List.all_eq_true.mp (by decide)
    start := by
      intro c hc
      cases hc
      decide
    sign := by
      intro sign c rest hname
      have hone : "+".toList = ['+'] := rfl
      rw [hone] at hname
      cases hname
    literal := by decide }
  have hkey : IsReadableKey "a" := .inl (by decide)
  exact ⟨hplus, trivial, ⟨List.pairwise_singleton _ _, hkey, trivial, trivial⟩, trivial⟩

theorem read_printed_data_sampleDatum :
    readAll (Heap.empty.printList true " " [.sampleDatum, .sampleDatum]) =
      .ok [Value.sampleDatum.bare, Value.sampleDatum.bare] ∧
    readFirst (Heap.empty.print true .sampleDatum) = .ok Value.sampleDatum.bare := by
  have hdata := isData_sampleDatum
  obtain ⟨hall, hone⟩ := read_printed_data .empty
  refine ⟨hall [.sampleDatum, .sampleDatum] ?_, hone .sampleDatum hdata⟩
  simpa using hdata

end SmallLisp
