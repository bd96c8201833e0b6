import Mathlib
import SmallLisp.Native.Collection
import SmallLisp.Native.Sequence
import SmallLisp.Proofs.Native.Checks
import SmallLisp.Proofs.Reading.Acceptance
import SmallLisp.Proofs.Table.Order

/-!
# The contents of maps

What a map holds is a finite map from raw keys to values. A map literal, `hash-map`, `assoc`,
`dissoc` and `conj` stand for changes of it, and `Made` says which changes a map was made by. Its
table is in order and holds what these changes make of nothing, one after the other, and so the
functions that look into a map show these contents. The main statement is `made_maps_show_contents`.
-/

namespace SmallLisp

/-! ### Changes -/

/-- What a map holds: values under raw keys. -/
abbrev Contents := Finmap fun _ : String => Value

inductive Change where
  | put (key : String) (v : Value)
  | remove (key : String)

namespace Change

def apply (contents : Contents) : Change → Contents
  | put key v => contents.insert key v
  | remove key => contents.erase key

/-- What is held behind some changes in turn. -/
def replay (contents : Contents) (changes : List Change) : Contents := changes.foldl apply contents

def ofEntries (entries : List (String × Value)) : List Change :=
  entries.map fun entry => put entry.1 entry.2

/-- The changes that keys and values in turn stand for. -/
def ofPairs : List Value → List Change
  | k :: v :: rest => (k.key?.toList.map fun key => put key v) ++ ofPairs rest
  | _ => []

/-- The changes that keys to remove stand for. -/
def ofKeys (keys : List Value) : List Change := (keys.filterMap Value.key?).map remove

/-- The changes that a map, or a vector of a key and a value, stands for when it is added. -/
def ofAddition : Value → List Change
  | .map entries _ => ofEntries entries
  | .vector items _ => ofPairs items
  | _ => []

theorem replay_append (contents : Contents) (changes more : List Change) :
    replay contents (changes ++ more) = replay (replay contents changes) more :=
  List.foldl_append

end Change

/-! ### Tables that hold contents -/

namespace Table

/-- Whether a table is in order and has the entries of some contents. -/
structure Holds (table : Table Value) (contents : Contents) : Prop where
  sorted : table.Sorted
  get?_eq : ∀ key, table.get? key = contents.lookup key

variable {table table' : Table Value} {contents : Contents}

theorem Holds.nil : Holds [] ∅ := ⟨.nil, fun _ => rfl⟩

theorem Holds.insert (h : table.Holds contents) (key : String) (v : Value) :
    (table.insert key v).Holds (contents.insert key v) := by
  refine ⟨sorted_insert h.sorted, fun key' => ?_⟩
  rw [get?_insert, h.get?_eq]
  split
  · next heq => rw [heq, Finmap.lookup_insert]
  · next hne => rw [Finmap.lookup_insert_of_ne _ hne]

theorem Holds.erase (h : table.Holds contents) (key : String) :
    (table.erase key).Holds (contents.erase key) := by
  refine ⟨sorted_erase h.sorted, fun key' => ?_⟩
  rw [get?_erase, h.get?_eq]
  split
  · next heq => rw [heq, Finmap.lookup_erase]
  · next hne => rw [Finmap.lookup_erase_ne hne]

theorem Holds.insertAll (h : table.Holds contents) (entries : List (String × Value)) :
    (table.insertAll entries).Holds (Change.replay contents (Change.ofEntries entries)) := by
  induction entries generalizing table contents with
  | nil => exact h
  | cons entry rest ih => exact ih (Holds.insert h entry.1 entry.2)

theorem Holds.eraseAll (h : table.Holds contents) (keys : List String) :
    Holds (keys.foldl (fun table key => table.erase key) table)
      (Change.replay contents (keys.map Change.remove)) := by
  induction keys generalizing table contents with
  | nil => exact h
  | cons key rest ih => exact ih (Holds.erase h key)

/-- Contents have one table. -/
theorem Holds.unique (h : table.Holds contents) (h' : table'.Holds contents) : table = table' :=
  eq_of_get? h.sorted h'.sorted fun key => (h.get?_eq key).trans (h'.get?_eq key).symm

theorem Holds.mem_iff (h : table.Holds contents) {key : String} {v : Value} :
    (key, v) ∈ table ↔ contents.lookup key = some v := by
  rw [mem_iff_get? h.sorted, h.get?_eq]

theorem Holds.mem_keys_iff (h : table.Holds contents) {key : String} :
    key ∈ table.map Prod.fst ↔ key ∈ contents := by
  rw [Finmap.mem_iff, List.mem_map]
  constructor
  · rintro ⟨⟨_, v⟩, hmem, rfl⟩
    exact ⟨v, h.mem_iff.mp hmem⟩
  · rintro ⟨v, hv⟩
    exact ⟨(key, v), h.mem_iff.mpr hv, rfl⟩

theorem Holds.card_keys (h : table.Holds contents) : contents.keys.card = table.length := by
  have hnodup : (table.map Prod.fst).Nodup := (sorted_keys h.sorted).imp ne_of_lt
  have hkeys : contents.keys = (table.map Prod.fst).toFinset := by
    ext key
    rw [Finmap.mem_keys, List.mem_toFinset, h.mem_keys_iff]
  rw [hkeys, List.toFinset_card_of_nodup hnodup, List.length_map]

theorem Holds.map_getD (h : table.Holds contents) :
    (table.map Prod.fst).map (fun key => (contents.lookup key).getD .nil) =
      table.map fun entry => entry.2 := by
  rw [List.map_map]
  refine List.map_congr_left fun entry hmem => ?_
  have hfound : contents.lookup entry.1 = some entry.2 := h.mem_iff.mp hmem
  rw [Function.comp_apply, hfound]
  rfl

end Table

/-! ### Arguments that stand for changes -/

namespace Change

/-- Keys and values that were taken as entries stand for putting in these. -/
theorem ofPairs_eq {ε : Type} {f : Value × Value → Except ε (String × Value)}
    (hf : ∀ pair entry, f pair = .ok entry → pair.1.key? = some entry.1 ∧ pair.2 = entry.2)
    {args : List Value} {pairs : List (Value × Value)} {entries : List (String × Value)}
    (hpairs : pairs? args = some pairs) (h : pairs.mapM f = .ok entries) :
    ofPairs args = ofEntries entries := by
  replace h := forall₂_of_mapM h
  fun_induction pairs? args generalizing pairs entries with
  | case1 =>
    cases hpairs
    cases h
    rfl
  | case2 => cases hpairs
  | case3 k v rest ih =>
    obtain ⟨more, hmore, rfl⟩ := Option.map_eq_some_iff.mp hpairs
    cases h with
    | cons hfirst hrest =>
      obtain ⟨hkey, rfl⟩ := hf _ _ hfirst
      rw [ofPairs, ih hmore hrest, hkey]
      rfl

theorem key_eq_ok {name : String} {v : Value} {key : String} (h : Native.key name v = .ok key) :
    v.key? = some key := by
  unfold Native.key at h
  split at h
  · next hkey =>
    cases h
    exact hkey
  · cases h

theorem exists_of_insertPairs {op : Collection} {table table' : Table Value} {args : List Value}
    (h : op.insertPairs table args = .ok table') :
    ∃ entries, ofPairs args = ofEntries entries ∧ table' = table.insertAll entries := by
  unfold Collection.insertPairs at h
  split at h
  · cases h
  · next pairs hpairs =>
    obtain ⟨entries, hentries, h⟩ := bind_eq_ok_iff.mp h
    cases h
    refine ⟨entries, ofPairs_eq ?_ hpairs hentries, rfl⟩
    intro pair entry hentry
    obtain ⟨key, hkey, hentry⟩ := bind_eq_ok_iff.mp hentry
    cases hentry
    exact ⟨key_eq_ok hkey, rfl⟩

theorem ofKeys_eq {name : String} {args : List Value} {keys : List String}
    (h : args.mapM (Native.key name) = .ok keys) : ofKeys args = keys.map remove := by
  refine congrArg (List.map remove) ?_
  replace h := forall₂_of_mapM h
  induction h with
  | nil => rfl
  | cons hfirst _ ih => rw [List.filterMap_cons, key_eq_ok hfirst, ih]

theorem ofAddition_eq {v : Value} {entries : List (String × Value)}
    (h : Sequence.conj.additions v = .ok entries) : ofAddition v = ofEntries entries := by
  unfold Sequence.additions at h
  split at h
  · cases h
    rfl
  · obtain ⟨key, hkey, h⟩ := bind_eq_ok_iff.mp h
    cases h
    simp only [ofAddition, ofPairs, key_eq_ok hkey]
    rfl
  · cases h

theorem ofAdditions_eq {args : List Value} {additions : List (List (String × Value))}
    (h : args.mapM Sequence.conj.additions = .ok additions) :
    args.flatMap ofAddition = ofEntries additions.flatten := by
  replace h := forall₂_of_mapM h
  induction h with
  | nil => rfl
  | cons hfirst _ ih =>
    rw [List.flatMap_cons, ofAddition_eq hfirst, ih, List.flatten_cons]
    exact List.map_append.symm

end Change

/-! ### One change after another -/

/-- Whether a value is a map whose table holds some contents. -/
def Value.Holds (v : Value) (contents : Contents) : Prop :=
  ∃ table m, v = .map table m ∧ Table.Holds table contents

namespace Value.Holds

variable {m v : Value} {contents : Contents} {args : List Value}

theorem literal {forms : List Value} (h : Reader.enclose .curly forms = .ok v) :
    v.Holds (Change.replay ∅ (Change.ofPairs forms)) := by
  simp only [Reader.enclose] at h
  split at h
  · cases h
  · next pairs hpairs =>
    cases hentries : pairs.mapM Reader.entry with
    | error e =>
      rw [hentries] at h
      cases h
    | ok entries =>
      rw [hentries] at h
      cases h
      have hchanges := Change.ofPairs_eq (fun _ _ => ParseTree.entry_eq_ok) hpairs hentries
      exact ⟨_, none, rfl, hchanges ▸ Table.Holds.nil.insertAll entries⟩

theorem hashMap (h : Collection.hashMap.run args = .ok v) :
    v.Holds (Change.replay ∅ (Change.ofPairs args)) := by
  obtain ⟨table, htable, h⟩ := bind_eq_ok_iff.mp h
  cases h
  obtain ⟨entries, hchanges, rfl⟩ := Change.exists_of_insertPairs htable
  exact ⟨_, none, rfl, hchanges ▸ Table.Holds.nil.insertAll entries⟩

theorem assoc (hm : m.Holds contents) (h : Collection.assoc.run (m :: args) = .ok v) :
    v.Holds (Change.replay contents (Change.ofPairs args)) := by
  obtain ⟨table, meta', rfl, hholds⟩ := hm
  obtain _ | ⟨first, _ | ⟨second, rest⟩⟩ := args
  · cases h
  · cases h
  · obtain ⟨table', htable', h⟩ := bind_eq_ok_iff.mp h
    cases htable'
    obtain ⟨table'', htable'', h⟩ := bind_eq_ok_iff.mp h
    cases h
    obtain ⟨entries, hchanges, rfl⟩ := Change.exists_of_insertPairs htable''
    exact ⟨_, none, rfl, hchanges ▸ hholds.insertAll entries⟩

theorem dissoc (hm : m.Holds contents) (h : Collection.dissoc.run (m :: args) = .ok v) :
    v.Holds (Change.replay contents (Change.ofKeys args)) := by
  obtain ⟨table, meta', rfl, hholds⟩ := hm
  obtain ⟨pair, hpair, h⟩ := bind_eq_ok_iff.mp h
  cases hpair
  obtain ⟨table', htable', h⟩ := bind_eq_ok_iff.mp h
  cases htable'
  obtain ⟨keys, hkeys, h⟩ := bind_eq_ok_iff.mp h
  cases h
  exact ⟨_, none, rfl, Change.ofKeys_eq hkeys ▸ hholds.eraseAll keys⟩

theorem conj (hm : m.Holds contents) (h : Sequence.conj.run (m :: args) = .ok v) :
    v.Holds (Change.replay contents (args.flatMap Change.ofAddition)) := by
  obtain ⟨table, meta', rfl, hholds⟩ := hm
  cases args with
  | nil => cases h
  | cons item more =>
    obtain ⟨triple, htriple, h⟩ := bind_eq_ok_iff.mp h
    cases htriple
    obtain ⟨additions, hadditions, h⟩ := bind_eq_ok_iff.mp h
    cases h
    exact ⟨_, meta', rfl, Change.ofAdditions_eq hadditions ▸ hholds.insertAll additions.flatten⟩

end Value.Holds

/-! ### Maps that were made -/

/-- `Made v changes`: the map `v` was made by these changes, that is, by closing the brackets of a
map literal around its forms, or by a call on arguments that stand for them. -/
inductive Made : Value → List Change → Prop where
  | literal {forms v} (h : Reader.enclose .curly forms = .ok v) : Made v (Change.ofPairs forms)
  | hashMap {args v} (h : Collection.hashMap.run args = .ok v) : Made v (Change.ofPairs args)
  | assoc {m changes args v} (hm : Made m changes) (h : Collection.assoc.run (m :: args) = .ok v) :
      Made v (changes ++ Change.ofPairs args)
  | dissoc {m changes args v} (hm : Made m changes)
      (h : Collection.dissoc.run (m :: args) = .ok v) : Made v (changes ++ Change.ofKeys args)
  | conj {m changes args v} (hm : Made m changes) (h : Sequence.conj.run (m :: args) = .ok v) :
      Made v (changes ++ args.flatMap Change.ofAddition)

/-- What was made by some changes holds what they make of nothing. -/
theorem Made.holds {v : Value} {changes : List Change} (h : Made v changes) :
    v.Holds (Change.replay ∅ changes) := by
  induction h with
  | literal h => exact .literal h
  | hashMap h => exact .hashMap h
  | assoc _ h ih =>
    rw [Change.replay_append]
    exact ih.assoc h
  | dissoc _ h ih =>
    rw [Change.replay_append]
    exact ih.dissoc h
  | conj _ h ih =>
    rw [Change.replay_append]
    exact ih.conj h

/-! ### What maps show -/

/-- Whether a value is a map that shows some contents: its entries are these contents and, in the
order of the keys, so are the lists of its keys and of its values; and it is these contents that are
looked up and counted, as far as integers go. -/
structure Shows (v : Value) (contents : Contents) : Prop where
  entries : ∃ table m, v = .map table m ∧
    ∀ key w, (key, w) ∈ table ↔ contents.lookup key = some w
  get : ∀ k key, k.key? = some key →
    Collection.get.run [v, k] = .ok ((contents.lookup key).getD .nil)
  contains : ∀ k key, k.key? = some key →
    Collection.contains.run [v, k] = .ok (.bool (contents.lookup key).isSome)
  count : ∀ n : Int64, Sequence.count.run [v] = .ok (.int n) ↔ n.toInt = contents.keys.card
  listed : ∃ keys : List String, keys.Pairwise (· < ·) ∧ (∀ key, key ∈ keys ↔ key ∈ contents) ∧
    Collection.keys.run [v] = .ok (.ofList (keys.map .ofKey)) ∧
    Collection.vals.run [v] =
      .ok (.ofList (keys.map fun key => (contents.lookup key).getD .nil))

theorem Table.Holds.shows {table : Table Value} {contents : Contents}
    (h : Table.Holds table contents) (m : Option Value) : Shows (.map table m) contents where
  entries := ⟨table, m, rfl, fun _ _ => h.mem_iff⟩
  get k key hkey := by
    simp [Collection.run, Native.two, Native.entries, Native.key, hkey, h.get?_eq, bind, pure,
      Except.bind, Except.pure]
  contains k key hkey := by
    simp [Collection.run, Native.two, Native.entries, Native.key, hkey, h.get?_eq, bind, pure,
      Except.bind, Except.pure, Table.contains]
  count n := by
    rw [h.card_keys]
    exact Sequence.counted_eq_ok_iff
  listed := by
    refine ⟨table.map Prod.fst, sorted_keys h.sorted, fun _ => h.mem_keys_iff, ?_, ?_⟩
    · rw [List.map_map]
      rfl
    · rw [h.map_getD]
      rfl

/-! ### Map literals -/

/-- The changes that the keys and forms of a map literal stand for. -/
def Change.ofLiteral (entries : List (KeyTree × ParseTree)) : List Change :=
  entries.map fun entry => put entry.1.raw entry.2.value

theorem Change.ofPairs_readItems (entries : List (KeyTree × ParseTree)) :
    ofPairs (ParseTree.readItems entries) = ofLiteral entries := by
  induction entries with
  | nil => rfl
  | cons entry rest ih =>
    change (entry.1.value.key?.toList.map _) ++ ofPairs (ParseTree.readItems rest) = _
    rw [ih, entry.1.key?_value]
    rfl

theorem Made.parseTree (entries : List (KeyTree × ParseTree)) :
    Made (ParseTree.map entries).value (Change.ofLiteral entries) :=
  Change.ofPairs_readItems entries ▸ .literal (ParseTree.enclose_readItems entries)

theorem readAll_of_mapTokens {text : String} {entries : List (KeyTree × ParseTree)}
    (h : Lexeme.tokens text = .ok (ParseTree.map entries).tokens) :
    readAll text = .ok [(ParseTree.map entries).value] := by
  refine readAll_eq_ok_iff.mpr ⟨_, tokens_eq_ok_iff.mp h, ?_⟩
  have hfeed := ParseTree.feed_tokensOfForms [.map entries]
  rwa [ParseTree.tokensOfForms, ParseTree.tokensOfForms, List.append_nil] at hfeed

/-! ### The main statement -/

theorem Made.shows {v : Value} {changes : List Change} (h : Made v changes) :
    Shows v (Change.replay ∅ changes) := by
  obtain ⟨table, m, rfl, hholds⟩ := h.holds
  exact hholds.shows m

theorem Made.exists_table {v w : Value} {changes changes' : List Change} (h : Made v changes)
    (h' : Made w changes') (heq : Change.replay ∅ changes = Change.replay ∅ changes') :
    ∃ table m m', v = .map table m ∧ w = .map table m' := by
  obtain ⟨table, m, rfl, hholds⟩ := h.holds
  obtain ⟨table', m', rfl, hholds'⟩ := h'.holds
  obtain rfl := hholds.unique (heq ▸ hholds')
  exact ⟨table, m, m', rfl, rfl⟩

/-- Maps that were made by any map literals and calls show what the changes by these make of
nothing. Two maps with the same contents have the same entries in the same order, and the same text,
whatever they were made by. A text of a map literal reads as the map that its entries make. -/
theorem made_maps_show_contents :
    (∀ v changes, Made v changes → Shows v (Change.replay ∅ changes)) ∧
    (∀ v w changes changes', Made v changes → Made w changes' →
      Change.replay ∅ changes = Change.replay ∅ changes' →
        (∃ table m m', v = .map table m ∧ w = .map table m') ∧
        ∀ atomText readable, v.render atomText readable = w.render atomText readable) ∧
    ∀ text entries, Lexeme.tokens text = .ok (ParseTree.map entries).tokens →
      ∃ v, readAll text = .ok [v] ∧ Made v (Change.ofLiteral entries) := by
  refine ⟨fun _ _ h => h.shows, ?_, ?_⟩
  · intro v w changes changes' hv hw heq
    obtain ⟨table, m, m', rfl, rfl⟩ := hv.exists_table hw heq
    exact ⟨⟨table, m, m', rfl, rfl⟩, fun _ _ => rfl⟩
  · exact fun text entries h => ⟨_, readAll_of_mapTokens h, .parseTree entries⟩

/-- The entries of the map literal `{"c" 3 :b 0 :b 2}`. -/
def KeyTree.sampleEntries : List (KeyTree × ParseTree) :=
  [(.str "c", .int 3), (.keyword "b", .int 0), (.keyword "b", .int 2)]

/-- What `{"c" 3 :b 0 :b 2}` is without `"c"` and with `"a"` has the text of the map that `hash-map`
makes of `"a"` and `:b`. -/
theorem made_maps_show_contents_sampleEntries :
    ∃ v w u u', readAll "\x7b\"c\" 3 :b 0 :b 2\x7d" = .ok [v] ∧
      Collection.dissoc.run [v, .str "c"] = .ok w ∧
      Sequence.conj.run [w, .ofVector [.str "a", .int 1]] = .ok u ∧
      Collection.hashMap.run [.str "a", .int 1, .keyword (.ofName "b"), .int 2] = .ok u' ∧
      (∃ contents, Shows u contents ∧ contents.lookup "a" = some (.int 1)) ∧
      ∀ atomText readable, u.render atomText readable = u'.render atomText readable := by
  obtain ⟨hshows, hsame, hread⟩ := made_maps_show_contents
  have htokens : Lexeme.tokens "\x7b\"c\" 3 :b 0 :b 2\x7d" =
      .ok (ParseTree.map KeyTree.sampleEntries).tokens := by cbv
  obtain ⟨v, hv, hmade⟩ := hread _ _ htokens
  have hvalue : readAll "\x7b\"c\" 3 :b 0 :b 2\x7d" =
    .ok [.ofTable [("c", .int 3), ((Keyword.ofName "b").key, .int 2)]] := by cbv
  cases hv.symm.trans hvalue
  have hw : Collection.dissoc.run
    [.ofTable [("c", .int 3), ((Keyword.ofName "b").key, .int 2)], .str "c"] =
      .ok (.ofTable [((Keyword.ofName "b").key, .int 2)]) := by cbv
  have hu : Sequence.conj.run
    [.ofTable [((Keyword.ofName "b").key, .int 2)], .ofVector [.str "a", .int 1]] =
      .ok (.ofTable [("a", .int 1), ((Keyword.ofName "b").key, .int 2)]) := by cbv
  have hu' : Collection.hashMap.run [.str "a", .int 1, .keyword (.ofName "b"), .int 2] =
    .ok (.ofTable [("a", .int 1), ((Keyword.ofName "b").key, .int 2)]) := by cbv
  have hmade' := Made.conj (.dissoc hmade hw) hu
  have hsame' := hsame _ _ _ _ hmade' (.hashMap hu') ?_
  · refine ⟨_, _, _, _, hv, hw, hu, hu', ⟨_, hshows _ _ hmade', ?_⟩, hsame'.2⟩
    cbv
  · refine Finmap.ext_lookup fun key => ?_
    cbv
    by_cases ha : "a" = key
    · subst ha
      rfl
    · simp [ha, List.dlookup]

end SmallLisp
