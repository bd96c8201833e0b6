import SmallLisp.Proofs.Evaluation.Room

/-!
# Constants

A constant is a value in which evaluation finds nothing to look up and nothing to call. It evaluates
to itself, up to the metadata of its vectors and maps, exactly if the limit leaves room for as many
levels as it is high, and nothing else happens. The main statement is
`constants_evaluate_within_limit`.
-/

namespace SmallLisp

/-! ### Constants -/

mutual

/-- Whether a value is built of vectors and maps from what is its own value. -/
def Value.IsConstant : Value → Prop
  | .symbol _ => False
  | .list items _ => items = []
  | .vector items _ => AreConstants items
  | .map entries _ => Table.Sorted entries ∧ AreConstantEntries entries
  | _ => True

def AreConstants : List Value → Prop
  | [] => True
  | v :: rest => v.IsConstant ∧ AreConstants rest

def AreConstantEntries : List (String × Value) → Prop
  | [] => True
  | (_, v) :: rest => v.IsConstant ∧ AreConstantEntries rest

end

mutual

/-- How many levels the evaluation of a constant takes. The keys of a map are evaluated too. -/
def Value.height : Value → Nat
  | .vector items _ => heightOfAll items + 1
  | .map entries _ => heightOfEntries entries + 1
  | _ => 1

/-- The greatest height of some constants. -/
def heightOfAll : List Value → Nat
  | [] => 0
  | v :: rest => max v.height (heightOfAll rest)

def heightOfEntries : List (String × Value) → Nat
  | [] => 0
  | (_, v) :: rest => max (max 1 v.height) (heightOfEntries rest)

end

theorem Value.height_pos (v : Value) : 0 < v.height := by
  cases v <;> exact Nat.succ_pos _

mutual

/-- A constant without the metadata of the vectors and maps that it is built of. -/
def Value.plain : Value → Value
  | .vector items _ => .vector (plainAll items) none
  | .map entries _ => .map (plainEntries entries) none
  | v => v

def plainAll : List Value → List Value
  | [] => []
  | v :: rest => v.plain :: plainAll rest

def plainEntries : List (String × Value) → List (String × Value)
  | [] => []
  | (key, v) :: rest => (key, v.plain) :: plainEntries rest

end

theorem plainEntries_eq (entries : List (String × Value)) :
    plainEntries entries = entries.map fun entry => (entry.1, entry.2.plain) := by
  induction entries with
  | nil => rfl
  | cons entry rest ih => rw [plainEntries, ih, List.map_cons]

theorem sorted_plainEntries {entries : List (String × Value)} (h : Table.Sorted entries) :
    Table.Sorted (plainEntries entries) := by
  rw [plainEntries_eq]
  exact List.pairwise_map.mpr h

/-! ### Levels -/

/-- Whether a gauge leaves room for some levels. Having no levels below needs no room. -/
def Gauge.HasRoom (g : Gauge) (levels : Nat) : Prop := levels = 0 ∨ g.depth + levels ≤ g.limit

section

variable {g g' : Gauge} {i j : Nat}

theorem Gauge.hasRoom_max : g.HasRoom (max i j) ↔ g.HasRoom i ∧ g.HasRoom j := by
  unfold HasRoom
  omega

theorem Gauge.hasRoom_succ :
    g.HasRoom (i + 1) ↔ g.depth < g.limit ∧ g.enter.HasRoom i := by
  unfold HasRoom enter
  dsimp only
  omega

theorem Gauge.Alike.hasRoom_iff (h : g.Alike g') : g'.HasRoom i ↔ g.HasRoom i := by
  unfold HasRoom
  rw [h.depth, h.limit]

end

/-- Whether an evaluation in a heap gives a value and takes nothing but some levels: where there is
room for them it changes nothing but how deep evaluations were at most, and where there is none it is
refused and changes nothing but how many were. -/
structure Eval.TakesIn {α : Type} (h : Heap) (levels : Nat) (m : Eval α) (a : α) : Prop where
  given : ∀ s, s.heap = h → s.gauge.HasRoom levels →
    ∃ g, s.gauge.Alike g ∧ m s = .value a (s.regauge g)
  refused : ∀ s, s.heap = h → ¬ s.gauge.HasRoom levels → ∃ g, s.Level (s.regauge g) ∧
    m s = .error (.fault (.tooDeep s.gauge.limit)) (s.regauge g)

namespace Eval.TakesIn

variable {α β : Type} {h : Heap} {m : Eval α} {k : α → Eval β} {a : α} {b : β} {i j : Nat}

theorem of_eq (hm : ∀ s, s.heap = h → m s = .value a s) : m.TakesIn h 0 a where
  given s hs _ := ⟨s.gauge, .refl s.gauge, hm s hs⟩
  refused _ _ hroom := absurd (.inl rfl) hroom

theorem pure (a : α) : (Pure.pure a : Eval α).TakesIn h 0 a := of_eq fun _ _ => rfl

theorem bind (hm : m.TakesIn h i a) (hk : (k a).TakesIn h j b) :
    (m >>= k).TakesIn h (max i j) b where
  given s hs hroom := by
    obtain ⟨hi, hj⟩ := Gauge.hasRoom_max.mp hroom
    obtain ⟨g, halike, hm⟩ := hm.given s hs hi
    obtain ⟨g', halike', hb⟩ := hk.given (s.regauge g) hs (halike.hasRoom_iff.mpr hj)
    rw [bind_value hm, hb]
    exact ⟨g', halike.trans halike', rfl⟩
  refused s hs hroom := by
    -- Where the first part is refused the second one is not reached.
    by_cases hi : s.gauge.HasRoom i
    · have hj : ¬ s.gauge.HasRoom j := fun hj => hroom (Gauge.hasRoom_max.mpr ⟨hi, hj⟩)
      obtain ⟨g, halike, hm⟩ := hm.given s hs hi
      obtain ⟨g', hlevel, hb⟩ := hk.refused (s.regauge g) hs (mt halike.hasRoom_iff.mp hj)
      rw [bind_value hm, hb, State.regauge_gauge, halike.limit]
      exact ⟨g', ⟨hlevel.depth.trans halike.depth, hlevel.limit.trans halike.limit⟩, rfl⟩
    · obtain ⟨g, hlevel, hm⟩ := hm.refused s hs hi
      exact ⟨g, hlevel, bind_error hm⟩

theorem map (hm : m.TakesIn h i a) (g : α → β) :
    (m >>= fun a => Pure.pure (g a)).TakesIn h i (g a) := by
  have hbind := hm.bind (k := fun a => Pure.pure (g a)) (.pure (g a))
  rwa [Nat.max_zero] at hbind

theorem deeper (hm : m.TakesIn h i a) : m.deeper.TakesIn h (i + 1) a where
  given s hs hroom := by
    obtain ⟨hlt, hinside⟩ := Gauge.hasRoom_succ.mp hroom
    obtain ⟨g, halike, hm⟩ := hm.given s.enter hs hinside
    rw [deeper_of_lt hlt, hm]
    exact ⟨g.leave, halike.leave, rfl⟩
  refused s hs hroom := by
    by_cases hlt : s.gauge.depth < s.gauge.limit
    · have hinside : ¬ s.enter.gauge.HasRoom i := fun hi => hroom (Gauge.hasRoom_succ.mpr ⟨hlt, hi⟩)
      obtain ⟨g, hlevel, hm⟩ := hm.refused s.enter hs hinside
      rw [deeper_of_lt hlt, hm]
      refine ⟨g.leave, ⟨?_, hlevel.limit⟩, rfl⟩
      have hdepth : g.depth = s.gauge.depth + 1 := hlevel.depth
      simp only [State.regauge_gauge, Gauge.leave, hdepth, Nat.add_sub_cancel]
    · rw [deeper_of_not_lt hlt]
      exact ⟨s.gauge.refuse, ⟨rfl, rfl⟩, rfl⟩

end Eval.TakesIn

/-- Whether an evaluation gives a value and takes nothing but some levels: where there is room for
them it changes nothing but how deep evaluations were at most, and where there is none it is refused
and changes nothing but how many were. -/
structure Eval.Takes {α : Type} (levels : Nat) (m : Eval α) (a : α) : Prop where
  given : ∀ s, s.gauge.HasRoom levels → ∃ g, s.gauge.Alike g ∧ m s = .value a (s.regauge g)
  refused : ∀ s, ¬ s.gauge.HasRoom levels → ∃ g, s.Level (s.regauge g) ∧
    m s = .error (.fault (.tooDeep s.gauge.limit)) (s.regauge g)

namespace Eval.Takes

variable {α β : Type} {m : Eval α} {k : α → Eval β} {a : α} {b : β} {i j : Nat}

theorem inHeap (h : m.Takes i a) (heap : Heap) : m.TakesIn heap i a where
  given s _ := h.given s
  refused s _ := h.refused s

theorem of_inHeap (h : ∀ heap, m.TakesIn heap i a) : m.Takes i a where
  given s := (h s.heap).given s rfl
  refused s := (h s.heap).refused s rfl

theorem pure (a : α) : (Pure.pure a : Eval α).Takes 0 a := of_inHeap fun _ => .pure a

theorem bind (h : m.Takes i a) (hk : (k a).Takes j b) : (m >>= k).Takes (max i j) b :=
  of_inHeap fun heap => (h.inHeap heap).bind (hk.inHeap heap)

theorem map (h : m.Takes i a) (g : α → β) : (m >>= fun a => Pure.pure (g a)).Takes i (g a) :=
  of_inHeap fun heap => (h.inHeap heap).map g

theorem deeper (h : m.Takes i a) : m.deeper.Takes (i + 1) a :=
  of_inHeap fun heap => (h.inHeap heap).deeper

end Eval.Takes

/-! ### Their evaluation -/

/-- A form that is no macro call is finished at once. -/
theorem eval_of_no_macroCall {form : Value} (h : ∀ (heap : Heap) f, heap.macroCall? f form = none)
    (n : Nat) (f : FrameId) :
    eval (n + 3) form f = ((eval (n + 2)).finish (n + 1) form f).deeper := by
  have hexpand : (eval (n + 2)).expand (n + 1) form f = pure form := by
    funext s
    rw [Evaluator.expand_succ, h]
    rfl
  change ((eval (n + 2)).run (n + 2) form f).deeper = _
  rw [Evaluator.run_succ, hexpand, pure_bind]

theorem eval_literal {form : Value} (h : form.IsLiteral) (n : Nat) (f : FrameId) :
    eval (n + 3) form f = (pure form : Eval Value).deeper := by
  rw [eval_of_no_macroCall (macroCall?_literal h), Evaluator.finish_literal h]

theorem takes_literal (form : Value) (h : form.IsLiteral) (n : Nat) (f : FrameId) :
    (eval (n + 3) form f).Takes 1 form := by
  rw [eval_literal h]
  exact (Eval.Takes.pure form).deeper

mutual

theorem takes_constant (f : FrameId) : ∀ (v : Value) (n : Nat), v.IsConstant → v.height ≤ n + 1 →
    (eval (n + 3) v f).Takes v.height v.plain
  | .vector items m, n, h, hn => by
    have hitems := takes_constants f items n h (Nat.le_of_succ_le_succ hn)
    rw [eval_of_no_macroCall fun _ _ => rfl]
    exact (hitems.map Value.ofVector).deeper
  | .map entries m, n, h, hn => by
    have hentries := takes_entries f entries n h.2 (Nat.le_of_succ_le_succ hn)
    have htable := Table.ofList_of_sorted (sorted_plainEntries h.1)
    rw [eval_of_no_macroCall fun _ _ => rfl, Value.plain, ← htable]
    exact (hentries.map fun entries => Value.ofTable (Table.ofList entries)).deeper
  | .list items m, n, h, _ => takes_literal (.list items m) h n f
  | .nil, n, _, _ => takes_literal .nil trivial n f
  | .bool b, n, _, _ => takes_literal (.bool b) trivial n f
  | .int i, n, _, _ => takes_literal (.int i) trivial n f
  | .str text, n, _, _ => takes_literal (.str text) trivial n f
  | .keyword k, n, _, _ => takes_literal (.keyword k) trivial n f
  | .native fn identity m, n, _, _ => takes_literal (.native fn identity m) trivial n f
  | .closure fn body m, n, _, _ => takes_literal (.closure fn body m) trivial n f
  | .atom id, n, _, _ => takes_literal (.atom id) trivial n f

theorem takes_constants (f : FrameId) : ∀ (items : List Value) (n : Nat), AreConstants items →
    heightOfAll items ≤ n →
    (Eval.forEach (eval (n + 2) · f) items).Takes (heightOfAll items) (plainAll items)
  | [], n, _, _ => .pure []
  | v :: rest, n, h, hn => by
    obtain ⟨hfirst, hrest⟩ := Nat.max_le.mp hn
    have hpos : 0 < v.height := v.height_pos
    obtain ⟨n, rfl⟩ : ∃ n', n = n' + 1 := ⟨n - 1, by omega⟩
    have hv := takes_constant f v n h.1 hfirst
    have hvs := takes_constants f rest (n + 1) h.2 hrest
    exact hv.bind (hvs.map fun vs => v.plain :: vs)

theorem takes_entries (f : FrameId) : ∀ (entries : List (String × Value)) (n : Nat),
    AreConstantEntries entries → heightOfEntries entries ≤ n →
    (Eval.forEach (Evaluator.evalData.evalEntry (eval (n + 2)) f) entries).Takes
      (heightOfEntries entries) (plainEntries entries)
  | [], n, _, _ => .pure []
  | (key, v) :: rest, n, h, hn => by
    obtain ⟨hfirst, hrest⟩ := Nat.max_le.mp hn
    obtain ⟨hpos, hheight⟩ := Nat.max_le.mp hfirst
    obtain ⟨n, rfl⟩ : ∃ n', n = n' + 1 := ⟨n - 1, by omega⟩
    have hv := takes_constant f v n h.1 hheight
    have hvs := takes_entries f rest (n + 1) h.2 hrest
    have hentry : (Evaluator.evalData.evalEntry (eval (n + 3)) f (key, v)).Takes (max 1 v.height)
        (key, v.plain) := by
      refine (takes_literal (.ofKey key) (literal_of_key key) n f).bind ?_
      rw [Value.key?_ofKey]
      exact hv.map fun v => (key, v)
    exact hentry.bind (hvs.map fun entries => (key, v.plain) :: entries)

end

/-- Where the limit leaves room for as many levels as a constant is high, it evaluates to itself, but
for the metadata of its vectors and maps. Everywhere else it is refused for being too deep. In both
cases the state is as before; only what is known of the nesting of evaluations so far may differ, how
deep they were at most and how many were refused. -/
theorem constants_evaluate_within_limit {v : Value} (hv : v.IsConstant) {n : Nat}
    (hn : v.height + 2 ≤ n) (f : FrameId) (s : State) :
    (s.gauge.depth + v.height ≤ s.gauge.limit →
      ∃ g, s.gauge.Alike g ∧ eval n v f s = .value v.plain (s.regauge g)) ∧
    (s.gauge.limit < s.gauge.depth + v.height →
      ∃ g, s.Level (s.regauge g) ∧
        eval n v f s = .error (.fault (.tooDeep s.gauge.limit)) (s.regauge g)) := by
  have hpos : 0 < v.height := v.height_pos
  obtain ⟨n, rfl⟩ : ∃ n', n = n' + 3 := ⟨n - 3, by omega⟩
  have htakes := takes_constant f v n hv (by omega)
  refine ⟨fun hroom => htakes.given s (.inr hroom), fun hroom => htakes.refused s ?_⟩
  unfold Gauge.HasRoom
  omega

/-- A constant that is four levels high, where everything that can have metadata has it. -/
def Value.sampleConstant : Value :=
  .vector [.map [("a", .vector [.int 1] (some .nil)), ("b", .list [] (some .nil))] (some .nil),
    .native .throw 7 (some .nil)] (some .nil)

/-- A state at some depth below a limit of five. -/
def State.sampleDepth (depth : Nat) : State :=
  (State.initial 5 [] .empty 0).regauge ⟨depth, 5, depth, 0⟩

theorem constants_evaluate_within_limit_sampleConstant :
    (∃ g, (State.sampleDepth 1).gauge.Alike g ∧
      eval 6 .sampleConstant 0 (.sampleDepth 1) =
        .value (.ofVector [.ofTable [("a", .ofVector [.int 1]), ("b", .list [] (some .nil))],
          .native .throw 7 (some .nil)]) ((State.sampleDepth 1).regauge g)) ∧
    ∃ g, (State.sampleDepth 2).Level ((State.sampleDepth 2).regauge g) ∧
      eval 6 .sampleConstant 0 (.sampleDepth 2) =
        .error (.fault (.tooDeep 5)) ((State.sampleDepth 2).regauge g) := by
  have hconstant : Value.sampleConstant.IsConstant := by
    have hsorted : Table.Sorted [("a", Value.vector [.int 1] (some .nil)),
      ("b", .list [] (some .nil))] := List.pairwise_pair.mpr (by decide)
    exact ⟨⟨hsorted, ⟨trivial, trivial⟩, rfl, trivial⟩, trivial, trivial⟩
  have hheight : Value.sampleConstant.height = 4 := by decide
  have heval := constants_evaluate_within_limit hconstant (by omega : _ ≤ 6) 0
  exact ⟨(heval (.sampleDepth 1)).1 (by decide), (heval (.sampleDepth 2)).2 (by decide)⟩

end SmallLisp
