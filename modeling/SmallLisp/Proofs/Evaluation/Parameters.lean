import SmallLisp.Proofs.Evaluation.Parts
import SmallLisp.Proofs.Heap.Frames
import SmallLisp.Proofs.Table.Order

/-!
# Parameters and arguments

Parameters are written as symbols: the required ones, and behind the rest mark the one that takes
what is left. Which symbols can be read so is said by `AreParameters`, and they are read as what
they are written for. A call gives a symbol in its frame the last thing that it assigns to it. The
main statement is `parameters_take_arguments`.
-/

namespace SmallLisp

/-! ### Parameter lists -/

/-- Whether symbols can be the parameters of a function: there is no rest mark among them, or the
first one stands in front of the last symbol. -/
def AreParameters (symbols : List Symbol) : Prop :=
  Symbol.restMark ∉ symbols ∨
    ∃ front last, Symbol.restMark ∉ front ∧ symbols = front ++ [Symbol.restMark, last]

namespace Special

theorem params_cons {s : Symbol} (hs : s ≠ .restMark) (forms : List Value) :
    params (.symbol s :: forms) =
      (params forms).map fun p => { p with required := s :: p.required } := by
  have hmark : s.isRestMark = false := beq_eq_false_iff_ne.mpr hs
  have hsymbol : lambda.symbolOf (.symbol s) = .ok s := rfl
  rw [params.eq_def]
  dsimp only
  rw [hsymbol]
  change (if s.isRestMark = true then _ else _) = _
  rw [hmark]
  cases params forms <;> rfl

/-- Forms are read as parameters exactly if they are the symbols that these are written as. -/
theorem params_eq_ok_iff {forms : List Value} {p : Params} :
    params forms = .ok p ↔ forms = p.symbols.map .symbol ∧ Symbol.restMark ∉ p.required := by
  constructor
  · intro h
    induction forms generalizing p with
    | nil =>
      cases h
      exact ⟨rfl, List.not_mem_nil⟩
    | cons form forms ih =>
      cases form with
      | symbol s =>
        by_cases hs : s = .restMark
        · subst hs
          cases forms with
          | nil => cases h
          | cons rest more =>
            cases rest with
            | symbol r =>
              cases more with
              | nil =>
                cases h
                exact ⟨rfl, List.not_mem_nil⟩
              | cons next more => cases h
            | _ => cases h
        · rw [params_cons hs] at h
          cases hforms : params forms with
          | error fault =>
            rw [hforms] at h
            cases h
          | ok others =>
            rw [hforms] at h
            cases h
            obtain ⟨rfl, hmark⟩ := ih hforms
            exact ⟨rfl, List.not_mem_cons_of_ne_of_not_mem (Ne.symm hs) hmark⟩
      | _ => cases h
  · obtain ⟨required, rest⟩ := p
    rintro ⟨rfl, hmark⟩
    induction required with
    | nil => cases rest <;> rfl
    | cons s required ih =>
      obtain ⟨hs, hrequired⟩ := List.ne_and_not_mem_of_not_mem_cons hmark
      change params (.symbol s :: (Params.symbols ⟨required, rest⟩).map .symbol) = _
      rw [params_cons hs.symm, ih hrequired]
      rfl

theorem exists_params_iff {symbols : List Symbol} :
    (∃ p, params (symbols.map .symbol) = .ok p) ↔ AreParameters symbols := by
  constructor
  · rintro ⟨⟨required, rest⟩, h⟩
    obtain ⟨hsymbols, hmark⟩ := params_eq_ok_iff.mp h
    obtain rfl := List.map_injective_iff.mpr (fun _ _ => Value.symbol.inj) hsymbols
    cases rest with
    | none =>
      refine .inl ?_
      rw [Params.symbols, List.append_nil]
      exact hmark
    | some r => exact .inr ⟨required, r, hmark, rfl⟩
  · rintro (hmark | ⟨front, last, hmark, rfl⟩)
    · have hsymbols : symbols = Params.symbols ⟨symbols, none⟩ := (List.append_nil symbols).symm
      exact ⟨⟨symbols, none⟩, params_eq_ok_iff.mpr ⟨congrArg _ hsymbols, hmark⟩⟩
    · exact ⟨⟨front, some last⟩, params_eq_ok_iff.mpr ⟨rfl, hmark⟩⟩

theorem parameters_eq_ok_iff {form : Value} {p : Params} :
    parameters form = .ok p ↔
      form.items? = some (p.symbols.map .symbol) ∧ Symbol.restMark ∉ p.required := by
  unfold parameters
  cases form.items? with
  | none => simp
  | some items =>
    dsimp only
    rw [params_eq_ok_iff, Option.some.injEq]

end Special

/-- The required parameters are the symbols in front of the first rest mark. -/
theorem Params.length_required {p : Params} (h : Symbol.restMark ∉ p.required) :
    p.required.length = p.symbols.idxOf .restMark := by
  obtain ⟨required, rest⟩ := p
  unfold Params.symbols
  cases rest with
  | none => rw [List.append_nil, List.idxOf_of_notMem h]
  | some r => rw [List.idxOf_append_of_notMem h, List.idxOf_cons_self, Nat.add_zero]

/-! ### What a call assigns -/

namespace Params

variable {p : Params} {args : List Value} {x : Symbol}

/-- What a call assigns to its parameters in turn. -/
def assigned (p : Params) (args : List Value) : List (Symbol × Value) :=
  p.required.zip args ++ p.rest.toList.map fun s => (s, .ofList (args.drop p.required.length))

/-- What a parameter stands for in a call: the last thing that is assigned to it. -/
def argument? (p : Params) (args : List Value) (x : Symbol) : Option Value :=
  ((p.assigned args).reverse.find? (·.1 = x)).map (·.2)

theorem argument?_rest (h : p.rest = some x) :
    p.argument? args x = some (.ofList (args.drop p.required.length)) := by
  simp [argument?, assigned, h]

theorem argument?_of_rest_ne (h : p.rest ≠ some x) :
    p.argument? args x = ((p.required.zip args).reverse.find? (·.1 = x)).map (·.2) := by
  unfold argument? assigned
  cases hrest : p.rest with
  | none => simp
  | some r =>
    have hr : r ≠ x := fun heq => h (heq ▸ hrest)
    simp [hr]

theorem find?_zip_of_not_mem {symbols : List Symbol} (h : x ∉ symbols) (args : List Value) :
    (symbols.zip args).reverse.find? (·.1 = x) = none := by
  refine List.find?_eq_none.mpr fun pair hpair => ?_
  have hmem : pair.1 ∈ symbols := (List.of_mem_zip (List.mem_reverse.mp hpair)).1
  have hne : pair.1 ≠ x := fun heq => h (heq ▸ hmem)
  simpa using hne

theorem argument?_of_not_mem (h : x ∉ p.required) (hrest : p.rest ≠ some x) :
    p.argument? args x = none := by
  rw [argument?_of_rest_ne hrest, find?_zip_of_not_mem h]
  rfl

theorem find?_zip_of_last {symbols : List Symbol} {args : List Value} {i : Nat} {v : Value}
    (hx : symbols[i]? = some x) (hlast : x ∉ symbols.drop (i + 1)) (hv : args[i]? = some v) :
    (symbols.zip args).reverse.find? (·.1 = x) = some (x, v) := by
  induction symbols generalizing args i with
  | nil => cases hx
  | cons s symbols ih =>
    cases args with
    | nil => cases hv
    | cons a args =>
      rw [List.zip_cons_cons, List.reverse_cons, List.find?_append]
      cases i with
      | zero =>
        cases hx
        cases hv
        have hbehind : x ∉ symbols := hlast
        rw [find?_zip_of_not_mem hbehind]
        simp
      | succ i =>
        rw [@ih args i hx hlast hv]
        rfl

/-- A required parameter stands for the argument at its last position. -/
theorem argument?_of_last {i : Nat} {v : Value} (hx : p.required[i]? = some x)
    (hlast : x ∉ p.required.drop (i + 1)) (hrest : p.rest ≠ some x)
    (hv : args[i]? = some v) : p.argument? args x = some v := by
  rw [argument?_of_rest_ne hrest, find?_zip_of_last hx hlast hv]
  rfl

end Params

/-! ### The frame of a call -/

namespace Heap

variable {h h' : Heap} {f g : FrameId} {p : Params} {args : List Value} {x : Symbol}

/-- The bindings of a call that supplies enough arguments. -/
def bindingsOf (p : Params) (args : List Value) : Table Value :=
  .ofList ((p.assigned args).map fun pair => (pair.1.name, pair.2))

theorem bindings?_of_le (hlength : p.required.length ≤ args.length) :
    bindings? p args = .ok (bindingsOf p args) := by
  unfold bindings? bindingsOf Params.assigned
  rw [if_neg (Nat.not_lt.mpr hlength), List.map_append, List.map_map]
  rfl

theorem bindings?_of_lt (hlength : args.length < p.required.length) :
    ∃ fault, bindings? p args = .error fault := by
  unfold bindings?
  rw [if_pos hlength]
  exact ⟨_, rfl⟩

theorem get?_bindingsOf (p : Params) (args : List Value) (x : Symbol) :
    (bindingsOf p args).get? x.name = p.argument? args x := by
  have hname : ∀ pair : Symbol × Value, decide (pair.1.name = x.name) = decide (pair.1 = x) := by
    rintro ⟨⟨name⟩, v⟩
    obtain ⟨name'⟩ := x
    simp
  unfold bindingsOf Table.ofList Params.argument?
  rw [Table.get?_insertAll, ← List.map_reverse, List.find?_map, Option.map_map, Table.get?_nil,
    Option.or_none]
  simp only [Function.comp_def, hname]

theorem bind_of_le (h : Heap) (f : FrameId) (hlength : p.required.length ≤ args.length) :
    h.bind f p args = .ok (h.addFrame (some f) (bindingsOf p args)) := by
  unfold bind
  rw [bindings?_of_le hlength]
  rfl

theorem bind_of_lt (hlength : args.length < p.required.length) : ∃ fault,
    (∀ h f, bind h f p args = .error fault) ∧
    ∀ fn s, fn.params = p → Evaluator.enter fn args s = .error (.fault fault) s := by
  obtain ⟨fault, hfault⟩ := bindings?_of_lt hlength
  refine ⟨fault, fun h f => ?_, fun fn s hfn => Evaluator.enter_error s (hfn ▸ hfault)⟩
  unfold bind
  rw [hfault]
  rfl

/-- What a new frame does not bind is found from the frame around it, if it is found at all. -/
theorem lookup?_newFrame_unbound {bindings : Table Value} (f : FrameId)
    (hx : bindings.get? x.name = none) :
    (h.addFrame (some f) bindings).2.lookup? h.frames.size x = h.lookup? f x := by
  by_cases hf : f < h.frames.size
  · exact lookup?_newFrame_outer hf hx
  · have hnone : h.lookup? f x = none := by
      cases hlookup : h.lookup? f x with
      | none => rfl
      | some v => exact absurd (lt_size_of_lookup? hlookup) hf
    rw [hnone]
    unfold lookup? resolve?
    rw [frames_addFrame_size]
    dsimp only
    rw [hx]
    dsimp only
    rw [if_neg hf]
    rfl

end Heap

/-- What symbols stand for in the frame of a call: the rest parameter for the list of the arguments
behind the required ones, every other parameter for the argument at its last position, and every
other symbol for what it stands for around the frame. -/
structure Params.Receive (p : Params) (args : List Value) (outer inner : Symbol → Option Value) :
    Prop where
  rest : ∀ x, p.rest = some x → inner x = some (.ofList (args.drop p.required.length))
  last : ∀ (i : Nat) x, p.required[i]? = some x → x ∉ p.required.drop (i + 1) →
    p.rest ≠ some x → ∃ v, args[i]? = some v ∧ inner x = some v
  other : ∀ x, x ∉ p.required → p.rest ≠ some x → inner x = outer x

theorem Params.receive_newFrame {p : Params} {args : List Value}
    (hlength : p.required.length ≤ args.length) (h : Heap) (f : FrameId) :
    p.Receive args (h.lookup? f)
      ((h.addFrame (some f) (Heap.bindingsOf p args)).2.lookup? h.frames.size) where
  rest x hx := Heap.lookup?_newFrame_bound
    ((Heap.get?_bindingsOf p args x).trans (argument?_rest hx))
  last i x hx hlast hrest := by
    have hi : i < args.length :=
      Nat.lt_of_lt_of_le (List.getElem?_eq_some_iff.mp hx).1 hlength
    refine ⟨args[i], List.getElem?_eq_getElem hi, Heap.lookup?_newFrame_bound ?_⟩
    rw [Heap.get?_bindingsOf]
    exact argument?_of_last hx hlast hrest (List.getElem?_eq_getElem hi)
  other x hx hrest := Heap.lookup?_newFrame_unbound f
    ((Heap.get?_bindingsOf p args x).trans (argument?_of_not_mem hx hrest))

/-- Which forms are parameters, and what a call does with them. They are written as the symbols that
they were read from. Too few arguments for the symbols in front of the rest mark fail, and nothing
changes then; otherwise there is one more frame, in which the parameters receive the arguments. -/
theorem parameters_take_arguments (form : Value) :
    ((∃ p, Special.parameters form = .ok p) ↔
      ∃ symbols, form.items? = some (symbols.map .symbol) ∧ AreParameters symbols) ∧
    ∀ p, Special.parameters form = .ok p →
      (Value.ofParams p).items? = form.items? ∧ Special.parameters (.ofParams p) = .ok p ∧
      p.required.length = p.symbols.idxOf .restMark ∧
      ∀ args : List Value,
        (args.length < p.required.length → ∃ fault, (∀ h f, Heap.bind h f p args = .error fault) ∧
          ∀ fn s, fn.params = p → Evaluator.enter fn args s = .error (.fault fault) s) ∧
        (p.required.length ≤ args.length → ∀ h f, ∃ h',
          Heap.bind h f p args = .ok (h.frames.size, h') ∧
          (∀ fn s, fn.params = p → fn.scope = f → s.heap = h →
            Evaluator.enter fn args s = .value h.frames.size (s.withHeap h')) ∧
          h.Grows h' ∧ h'.frames.size = h.frames.size + 1 ∧
          p.Receive args (h.lookup? f) (h'.lookup? h.frames.size)) := by
  constructor
  · constructor
    · rintro ⟨p, hp⟩
      obtain ⟨hitems, hmark⟩ := Special.parameters_eq_ok_iff.mp hp
      have hparams := Special.params_eq_ok_iff.mpr ⟨rfl, hmark⟩
      exact ⟨p.symbols, hitems, Special.exists_params_iff.mp ⟨p, hparams⟩⟩
    · rintro ⟨symbols, hitems, hsymbols⟩
      obtain ⟨p, hparams⟩ := Special.exists_params_iff.mpr hsymbols
      obtain ⟨heq, hmark⟩ := Special.params_eq_ok_iff.mp hparams
      exact ⟨p, Special.parameters_eq_ok_iff.mpr ⟨hitems.trans (congrArg some heq), hmark⟩⟩
  · intro p hp
    obtain ⟨hitems, hmark⟩ := Special.parameters_eq_ok_iff.mp hp
    refine ⟨hitems.symm, Special.parameters_eq_ok_iff.mpr ⟨rfl, hmark⟩,
      Params.length_required hmark, fun args => ⟨Heap.bind_of_lt, fun hlength h f => ?_⟩⟩
    refine ⟨_, Heap.bind_of_le h f hlength, ?_, .addFrame (.refl h), Heap.size_frames_addFrame,
      Params.receive_newFrame hlength h f⟩
    rintro fn s rfl rfl rfl
    exact Evaluator.enter_ok (Heap.bindings?_of_le hlength) rfl

/-- The form `[a b a & r]`. -/
def Value.sampleParameters : Value :=
  .ofVector [.named "a", .named "b", .named "a", .named "&", .named "r"]

/-- A heap with one frame, which binds `b` and `x`. -/
def Heap.sampleOuter : Heap := ⟨#[⟨[("b", .nil), ("x", .bool true)], none⟩], #[], 0⟩

theorem parameters_take_arguments_sampleRepeated :
    Special.parameters .sampleParameters = .ok ⟨[⟨"a"⟩, ⟨"b"⟩, ⟨"a"⟩], some ⟨"r"⟩⟩ ∧
    (∃ fault, Heap.sampleOuter.bind 0 ⟨[⟨"a"⟩, ⟨"b"⟩, ⟨"a"⟩], some ⟨"r"⟩⟩ [.int 1, .int 2] =
      .error fault) ∧
    ∃ h', Heap.sampleOuter.bind 0 ⟨[⟨"a"⟩, ⟨"b"⟩, ⟨"a"⟩], some ⟨"r"⟩⟩
        [.int 1, .int 2, .int 3, .int 4] = .ok (1, h') ∧
      h'.lookup? 1 ⟨"r"⟩ = some (.ofList [.int 4]) ∧ h'.lookup? 1 ⟨"a"⟩ = some (.int 3) ∧
      h'.lookup? 1 ⟨"b"⟩ = some (.int 2) ∧ h'.lookup? 1 ⟨"x"⟩ = some (.bool true) := by
  have hread : Special.parameters .sampleParameters =
      .ok ⟨[⟨"a"⟩, ⟨"b"⟩, ⟨"a"⟩], some ⟨"r"⟩⟩ := rfl
  obtain ⟨_, _, _, htake⟩ := (parameters_take_arguments .sampleParameters).2 _ hread
  obtain ⟨fault, hfault, _⟩ := (htake [.int 1, .int 2]).1 (by decide)
  obtain ⟨h', hbind, _, _, _, hreceive⟩ :=
    (htake [.int 1, .int 2, .int 3, .int 4]).2 (by decide) .sampleOuter 0
  obtain ⟨v, hv, ha⟩ := hreceive.last 2 ⟨"a"⟩ rfl (by decide) (by decide)
  obtain ⟨w, hw, hb⟩ := hreceive.last 1 ⟨"b"⟩ rfl (by decide) (by decide)
  cases hv
  cases hw
  have hx : Heap.sampleOuter.lookup? 0 ⟨"x"⟩ = some (.bool true) := by cbv
  exact ⟨hread, ⟨fault, hfault _ _⟩, h', hbind, hreceive.rest _ rfl, ha, hb,
    (hreceive.other _ (by decide) (by decide)).trans hx⟩

end SmallLisp
