import SmallLisp.Proofs.Evaluation.Instantiation
import SmallLisp.Proofs.Evaluation.Level
import SmallLisp.Proofs.Evaluation.Parameters
import SmallLisp.Proofs.Reading.ReadBack

/-!
# Printed closures

A closure prints as an abstraction of its parameters and its body. Where these are data, which is to
say that they read back in every part, the printed closure reads as that abstraction, and evaluating
it makes the closure again. The main statement is `printed_closure_rebuilds`.
-/

namespace SmallLisp

open Reader

/-! ### Values that read back -/

/-- What a value is made of: itself, the parts of its elements, and the keys and the parts of the
values of its entries. -/
inductive Value.PartOf : Value → Value → Prop where
  | self (v) : PartOf v v
  | ofList {w item items m} (hitem : item ∈ items) (h : PartOf w item) : PartOf w (.list items m)
  | ofVector {w item items m} (hitem : item ∈ items) (h : PartOf w item) :
      PartOf w (.vector items m)
  | key {entry : String × Value} {entries m} (hentry : entry ∈ entries) :
      PartOf (.ofKey entry.1) (.map entries m)
  | ofMap {w} {entry : String × Value} {entries m} (hentry : entry ∈ entries)
      (h : PartOf w entry.2) : PartOf w (.map entries m)

/-- Whether everything that a value is made of reads back as it was printed, without metadata. -/
def Value.ReadsBack (h : Heap) (v : Value) : Prop :=
  ∀ w : Value, w.PartOf v → readFirst (h.print true w) = .ok w.bare

section

variable {text : String} {v w : Value} {h : Heap}

theorem tree_of_readFirst (hread : readFirst text = .ok v) (hv : v ≠ .nil) :
    ∃ t : ParseTree, (∀ token ∈ t.tokens, token.Readable) ∧ t.value = v := by
  rcases exists_tree_of_readFirst hread with hnil | ⟨t, htokens, hvalue⟩
  · exact absurd hnil hv
  · exact ⟨t, fun token htoken => readable_of_mem_scans (htokens token htoken), hvalue⟩

theorem symbol_readable_of_readFirst {x : Symbol} (hread : readFirst text = .ok (.symbol x)) :
    x.Readable := by
  obtain ⟨t, htokens, hvalue⟩ := tree_of_readFirst hread nofun
  cases t with
  | symbol name =>
    cases hvalue
    exact htokens _ List.mem_cons_self
  | _ => cases hvalue

theorem keyword_readable_of_readFirst {k : Keyword}
    (hread : readFirst (h.print true (.keyword k)) = .ok (.keyword k)) : k.Readable := by
  obtain ⟨t, htokens, hvalue⟩ := tree_of_readFirst hread nofun
  cases t with
  | keyword name =>
    cases hvalue
    have hname : IsKeywordName name := htokens _ List.mem_cons_self
    refine (read_printed_keyword_iff h fun c hc => ?_).mp hread
    exact hname.chars c (mem_name_of_mem_ofName hc)
  | _ => cases hvalue

theorem sorted_of_readFirst {entries : List (String × Value)} {m : Option Value}
    (hread : readFirst text = .ok (Value.map entries m).bare) : Table.Sorted entries := by
  obtain ⟨t, _, hvalue⟩ := tree_of_readFirst hread nofun
  cases t with
  | map trees =>
    have hentries : Table.ofList (ParseTree.entriesOfMap trees) = bareEntries entries :=
      (Value.map.inj hvalue).1
    have hsorted := Table.sorted_ofList (ParseTree.entriesOfMap trees)
    rw [hentries, bareEntries_eq] at hsorted
    unfold Table.Sorted at hsorted
    rwa [List.pairwise_map] at hsorted
  | _ => cases hvalue

theorem not_function_of_readFirst (hread : readFirst text = .ok v) : ¬ v.IsFunction := by
  intro hv
  obtain ⟨t, _, rfl⟩ := tree_of_readFirst hread (by rintro rfl; exact hv)
  cases t <;> exact hv

theorem not_atom_of_readFirst (hread : readFirst text = .ok v) (id : AtomId) : v ≠ .atom id := by
  rintro rfl
  obtain ⟨t, _, hvalue⟩ := tree_of_readFirst hread nofun
  cases t <;> cases hvalue

theorem isReadableKey_ofKey {key : String} : IsReadableKey key ↔ (Value.ofKey key).IsData := by
  cases hkey : Keyword.ofKey? key with
  | some k =>
    obtain rfl := ofKey?_eq_some_iff.mp hkey
    unfold Value.ofKey
    rw [hkey]
    exact isReadableKey_key
  | none =>
    unfold Value.ofKey
    rw [hkey]
    exact ⟨fun _ => trivial, fun _ => .inl (ofKey?_eq_none_iff.mp hkey)⟩

theorem isReadableKey_of_readFirst {key : String}
    (hread : readFirst (h.print true (.ofKey key)) = .ok (Value.ofKey key).bare) :
    IsReadableKey key := by
  rw [isReadableKey_ofKey]
  unfold Value.ofKey at hread ⊢
  cases hkey : Keyword.ofKey? key with
  | none => trivial
  | some k =>
    rw [hkey] at hread
    exact keyword_readable_of_readFirst hread

mutual

theorem isData_of_readsBack : ∀ v : Value, v.ReadsBack h → v.IsData
  | .nil, _ => trivial
  | .bool _, _ => trivial
  | .int _, _ => trivial
  | .str _, _ => trivial
  | .keyword _, hv => keyword_readable_of_readFirst (hv _ (.self _))
  | .symbol _, hv => symbol_readable_of_readFirst (hv _ (.self _))
  | .list items _, hv => areData_of_readsBack items fun _ hitem w hw => hv w (.ofList hitem hw)
  | .vector items _, hv =>
    areData_of_readsBack items fun _ hitem w hw => hv w (.ofVector hitem hw)
  | .map entries _, hv =>
    ⟨sorted_of_readFirst (hv _ (.self _)),
      areEntries_of_readsBack entries (fun _ hentry => hv _ (.key hentry))
        fun _ hentry w hw => hv w (.ofMap hentry hw)⟩
  | .native _ _ _, hv => not_function_of_readFirst (hv _ (.self _)) trivial
  | .closure _ _ _, hv => not_function_of_readFirst (hv _ (.self _)) trivial
  | .atom id, hv => not_atom_of_readFirst (hv _ (.self _)) id rfl

theorem areData_of_readsBack : ∀ vs : List Value, (∀ v ∈ vs, v.ReadsBack h) → AreData vs
  | [], _ => trivial
  | v :: rest, hvs =>
    ⟨isData_of_readsBack v (hvs v List.mem_cons_self),
      areData_of_readsBack rest fun w hw => hvs w (List.mem_cons_of_mem v hw)⟩

theorem areEntries_of_readsBack : ∀ entries : List (String × Value),
    (∀ entry ∈ entries,
      readFirst (h.print true (.ofKey entry.1)) = .ok (Value.ofKey entry.1).bare) →
      (∀ entry ∈ entries, entry.2.ReadsBack h) → AreEntries entries
  | [], _, _ => trivial
  | (key, v) :: rest, hkeys, hvs =>
    ⟨isReadableKey_of_readFirst (hkeys (key, v) List.mem_cons_self),
      isData_of_readsBack v (hvs (key, v) List.mem_cons_self),
      areEntries_of_readsBack rest (fun entry hentry => hkeys entry (List.mem_cons_of_mem _ hentry))
        fun entry hentry => hvs entry (List.mem_cons_of_mem _ hentry)⟩

end

theorem Value.PartOf.isData (hpart : w.PartOf v) (hv : v.IsData) : w.IsData := by
  induction hpart with
  | self => exact hv
  | ofList hitem _ ih | ofVector hitem _ ih => exact ih (areData_iff.mp hv _ hitem)
  | key hentry => exact isReadableKey_ofKey.mp (areEntries_iff.mp hv.2 _ hentry).1
  | ofMap hentry _ ih => exact ih (areEntries_iff.mp hv.2 _ hentry).2

/-- The data are the values that read back in every part. -/
theorem readsBack_iff : v.ReadsBack h ↔ v.IsData :=
  ⟨isData_of_readsBack v, fun hv _ hpart => readFirst_print h (hpart.isData hv)⟩

end

/-! ### How closures are printed -/

/-- The form that makes a closure of parameters and a body. -/
def abstractionForm (p : Params) (body : Value) : Value :=
  .ofList [.named "lambda", .ofParams p, body]

section

variable {p : Params} {body form : Value} {forms : List Value}

theorem renderAll_symbols (atomText : AtomId → String) (readable : Bool) (symbols : List Symbol) :
    Value.renderAll atomText readable (symbols.map .symbol) = symbols.map Symbol.name := by
  induction symbols with
  | nil => rfl
  | cons x symbols ih =>
    rw [List.map_cons, Value.renderAll, ih]
    rfl

theorem print_closure (h : Heap) (fn : Lambda) (body : Value) (m : Option Value) :
    h.print true (.closure fn body m) = h.print true (abstractionForm fn.params body) := by
  unfold Heap.print abstractionForm Value.ofParams
  simp only [Value.render, Value.ofList, Value.named, Value.renderAll, renderAll_symbols, joinWith,
    List.foldl_cons, List.foldl_nil]
  simp only [String.append_assoc]
  rfl

theorem readable_lambda : Symbol.Readable ⟨"lambda"⟩ := readable_of_scans (by cbv)

theorem readable_do : Symbol.Readable ⟨"do"⟩ := readable_of_scans (by cbv)

theorem isData_body (h : AreData forms) : (Special.body forms).IsData := by
  match forms, h with
  | [], _ => trivial
  | [_], h => exact h.1
  | _ :: _ :: _, h => exact ⟨readable_do, h⟩

theorem areData_of_items? (h : form.IsData) {items : List Value}
    (hitems : form.items? = some items) : AreData items := by
  cases form with
  | list | vector =>
    cases hitems
    exact h
  | _ => cases hitems

theorem bareAll_symbols (symbols : List Symbol) :
    bareAll (symbols.map .symbol) = symbols.map .symbol := by
  induction symbols with
  | nil => rfl
  | cons x symbols ih =>
    rw [List.map_cons, bareAll, ih]
    rfl

theorem bare_abstractionForm (p : Params) (body : Value) :
    (abstractionForm p body).bare = abstractionForm p body.bare := by
  have hparams : (Value.ofParams p).bare = .ofParams p := congrArg Value.ofList (bareAll_symbols _)
  change Value.ofList [.named "lambda", (Value.ofParams p).bare, body.bare] = _
  rw [hparams]
  rfl

/-- A closure of data prints as a form that makes one like it. -/
theorem readFirst_print_closure (h : Heap) {fn : Lambda}
    (hparams : (Value.ofParams fn.params).IsData) (hbody : body.IsData) (m : Option Value) :
    readFirst (h.print true (.closure fn body m)) =
      .ok (abstractionForm fn.params body.bare) := by
  have hform : (abstractionForm fn.params body).IsData := ⟨readable_lambda, hparams, hbody, trivial⟩
  rw [print_closure, readFirst_print h hform, bare_abstractionForm]

end

/-! ### What abstractions evaluate to -/

section

variable {n : Nat} {args : List Value} {m : Option Value} {f : FrameId} {s s₁ : State} {p : Params}
  {body v : Value}

/-- The state behind an abstraction: one more identity is taken. -/
def State.abstracted (s : State) : State :=
  (s.enter.withHeap s.heap.addIdentity.2).leave

theorem run_abstraction (hlambda : ¬ s.heap.IsMacro f "lambda") (eval : Evaluator) (k : Nat) :
    eval.run (k + 2) (.list (.named "lambda" :: args) m) f s =
      match Special.abstraction args with
      | .error fault => .error (.fault fault) s
      | .ok (p, body) => .value (.closure ⟨s.heap.identities, p, f, false⟩ body none)
          (s.withHeap s.heap.addIdentity.2) := by
  rw [run_eq_finish (macroCall?_named hlambda _ _)]
  dsimp only [Evaluator.finish]
  rw [Evaluator.stepList_special (rfl : Special.ofHead? (.named "lambda") = some .lambda), step_eq]
  unfold Special.parse
  cases Special.abstraction args <;> rfl

theorem eval_abstraction (hlambda : ¬ s.heap.IsMacro f "lambda")
    (hroom : s.gauge.depth < s.gauge.limit) (h : Special.abstraction args = .ok (p, body))
    (n : Nat) : eval (n + 3) (.list (.named "lambda" :: args) m) f s =
      .value (.closure ⟨s.heap.identities, p, f, false⟩ body none) s.abstracted := by
  have hrun := @run_abstraction args m f s.enter hlambda (eval (n + 2)) n
  rw [h] at hrun
  refine (Eval.deeper_of_lt hroom).trans ?_
  rw [hrun]
  rfl

/-- An abstraction that has a value has the shape of one, and was given the steps that it takes. -/
theorem eval_abstraction_value (hlambda : ¬ s.heap.IsMacro f "lambda")
    (h : eval n (.list (.named "lambda" :: args) m) f s = .value v s₁) :
    s.gauge.depth < s.gauge.limit ∧ ∃ k p body, n = k + 3 ∧
      Special.abstraction args = .ok (p, body) := by
  cases n with
  | zero => cases h
  | succ n =>
    have h : (Eval.deeper _) s = .value v s₁ := h
    by_cases hroom : s.gauge.depth < s.gauge.limit
    · rw [Eval.deeper_of_lt hroom] at h
      match n, h with
      | 0, h => cases h
      | 1, h => cases h
      | k + 2, h =>
        have hrun := @run_abstraction args m f s.enter hlambda (eval (k + 2)) k
        rw [hrun] at h
        cases habs : Special.abstraction args with
        | error fault =>
          rw [habs] at h
          cases h
        | ok parsed => exact ⟨hroom, k, parsed.1, parsed.2, rfl, rfl⟩
    · rw [Eval.deeper_of_not_lt hroom] at h
      cases h

end

/-! ### Printed closures that are evaluated -/

/-- Where `lambda` is no macro, a closure that an abstraction of parts that read back evaluates to
is printed as a text that can be read, and what it reads as evaluates to a closure with the same
parameters, a body that is the same but for metadata, and the same captured frame. The state in
which it is evaluated, which can be the one that the abstraction left, need only have room for it;
it takes no more steps than the abstraction. -/
theorem printed_closure_rebuilds {n : Nat} {parameters : Value} {forms : List Value}
    {m m' : Option Value} {f : FrameId} {s s₁ : State} {fn : Lambda} {body : Value}
    (hlambda : ¬ s.heap.IsMacro f "lambda") (hparameters : parameters.ReadsBack s.heap)
    (hforms : ∀ form ∈ forms, form.ReadsBack s.heap)
    (h : eval n (.list (.named "lambda" :: parameters :: forms) m) f s =
      .value (.closure fn body m') s₁) :
    fn.scope = f ∧ ¬ s₁.heap.IsMacro f "lambda" ∧ s₁.gauge.depth < s₁.gauge.limit ∧
    ∃ form, (∀ h' : Heap, readFirst (h'.print true (.closure fn body m')) = .ok form) ∧
      ∀ s₂ : State, ¬ s₂.heap.IsMacro f "lambda" → s₂.gauge.depth < s₂.gauge.limit →
        ∃ identity s₃, eval n form f s₂ =
          .value (.closure ⟨identity, fn.params, fn.scope, fn.isMacro⟩ body.bare none) s₃ := by
  obtain ⟨hroom, k, p, body', rfl, habs⟩ := eval_abstraction_value hlambda h
  rw [eval_abstraction hlambda hroom habs] at h
  cases h
  unfold Special.abstraction at habs
  dsimp only at habs
  cases hp : Special.parameters parameters with
  | error fault =>
    rw [hp] at habs
    cases habs
  | ok q =>
    rw [hp] at habs
    cases habs
    obtain ⟨hitems, hmark⟩ := Special.parameters_eq_ok_iff.mp hp
    have hparams : (Value.ofParams p).IsData :=
      areData_of_items? (readsBack_iff.mp hparameters) hitems
    have hbody : (Special.body forms).IsData :=
      isData_body (areData_iff.mpr fun form hform => readsBack_iff.mp (hforms form hform))
    have hsame : s.abstracted.heap.lookup? f ⟨"lambda"⟩ = s.heap.lookup? f ⟨"lambda"⟩ :=
      Heap.lookup?_congr fun _ _ => rfl
    have hlambda₁ : ¬ s.abstracted.heap.IsMacro f "lambda" := not_isMacro_congr hsame hlambda
    refine ⟨rfl, hlambda₁, hroom, abstractionForm p (Special.body forms).bare,
      fun h' => readFirst_print_closure h' hparams hbody none, fun s₂ hlambda₂ hroom₂ => ?_⟩
    have hagain : Special.abstraction [.ofParams p, (Special.body forms).bare] =
        .ok (p, (Special.body forms).bare) := by
      unfold Special.abstraction
      dsimp only
      rw [Special.parameters_eq_ok_iff.mpr ⟨rfl, hmark⟩]
      rfl
    exact ⟨_, _, eval_abstraction hlambda₂ hroom₂ hagain k⟩

/-- The forms `x` and `"a"`. -/
def Value.sampleForms : List Value := [.named "x", .str "a"]

theorem printed_closure_rebuilds_sampleRest :
    ∃ form, readFirst (Heap.empty.print true
        (.closure ⟨0, ⟨[⟨"x"⟩], some ⟨"r"⟩⟩, 0, false⟩ (Special.body Value.sampleForms) none)) =
      .ok form ∧
    ∃ identity s, eval 3 form 0 (State.sample 2) = .value
      (.closure ⟨identity, ⟨[⟨"x"⟩], some ⟨"r"⟩⟩, 0, false⟩ (Special.body Value.sampleForms) none)
      s := by
  have hlambda : ¬ (State.sample 2).heap.IsMacro 0 "lambda" := not_isMacro_of_unbound (by cbv)
  have hx : Symbol.Readable ⟨"x"⟩ := readable_of_scans (by cbv)
  have hr : Symbol.Readable ⟨"r"⟩ := readable_of_scans (by cbv)
  have hmark : Symbol.Readable ⟨"&"⟩ := readable_of_scans (by cbv)
  have hparameters : (Value.ofVector [.named "x", .named "&", .named "r"]).IsData :=
    ⟨hx, hmark, hr, trivial⟩
  have hforms : ∀ form ∈ Value.sampleForms, form.IsData := areData_iff.mp ⟨hx, trivial, trivial⟩
  have heval : eval 3 (.list (.named "lambda" ::
      .ofVector [.named "x", .named "&", .named "r"] :: Value.sampleForms) none) 0 (.sample 2) =
    .value (.closure ⟨0, ⟨[⟨"x"⟩], some ⟨"r"⟩⟩, 0, false⟩ (Special.body Value.sampleForms) none)
      (State.sample 2).abstracted := by cbv
  obtain ⟨_, _, _, form, hread, hagain⟩ := printed_closure_rebuilds hlambda
    (readsBack_iff.mpr hparameters) (fun form hform => readsBack_iff.mpr (hforms form hform)) heval
  exact ⟨form, hread .empty, hagain (.sample 2) hlambda (by decide)⟩

end SmallLisp
