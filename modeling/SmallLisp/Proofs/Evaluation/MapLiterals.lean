import SmallLisp.Proofs.Evaluation.Constants
import SmallLisp.Proofs.Evaluation.Visits

/-!
# Map literals

A map in a program is evaluated entry by entry, in the order of the keys. Every key is turned into a
value, evaluated and turned back, which gives the same key; so the values alone decide what happens,
and the keys of the result are those of the form. The main statement is
`map_literal_keeps_keys`.
-/

namespace SmallLisp

/-! ### Keys -/

theorem evaluated_key {n : Nat} {key : String} {f : FrameId} {k : Value} {s s₁ : State}
    (h : eval n (.ofKey key) f s = .value k s₁) : k.key? = some key := by
  have hmore := (eval_extends (Nat.le_add_right n 3) (.ofKey key) f).answer h trivial
  rw [eval_literal (literal_of_key key)] at hmore
  obtain ⟨_, _, hvalue, _⟩ := Eval.deeper_eq_value_iff.mp hmore
  cases hvalue
  exact Value.key?_ofKey key

/-- A literal that is evaluated in front of an evaluation at the same depth makes no difference: the
one is refused where the other would be. -/
theorem Eval.deeper_pure_bind {α β γ : Type} {a : α} {k : α → Eval γ} {m : Eval β} {g : β → Eval γ}
    (h : k a = m.deeper >>= g) : (pure a : Eval α).deeper >>= k = m.deeper >>= g := by
  funext s
  by_cases hlt : s.gauge.depth < s.gauge.limit
  · have hkey : (pure a : Eval α).deeper s = .value a s.enter.leave := deeper_of_lt hlt
    have hdepth : s.enter.leave.gauge.depth = s.gauge.depth := Nat.add_sub_cancel ..
    have hlt' : s.enter.leave.gauge.depth < s.enter.leave.gauge.limit := hdepth.symm ▸ hlt
    have henter : s.enter.leave.enter = s.enter := by
      simp [State.enter, State.leave, Gauge.enter, Gauge.leave]
    have hsame : m.deeper s.enter.leave = m.deeper s := by
      rw [deeper_of_lt hlt', deeper_of_lt hlt, henter]
    rw [bind_value hkey, h, bind_apply, bind_apply, hsame]
  · rw [bind_error (deeper_of_not_lt hlt), bind_error (deeper_of_not_lt hlt)]

/-- What is done with an entry is to evaluate its value. -/
theorem evalEntry_eq (n : Nat) (f : FrameId) (entry : String × Value) :
    Evaluator.evalData.evalEntry (eval (n + 3)) f entry =
      eval (n + 3) entry.2 f >>= fun v => pure (entry.1, v) := by
  have hkey := eval_literal (literal_of_key entry.1) n f
  change (eval (n + 3) (.ofKey entry.1) f >>= _) = _
  rw [hkey]
  refine Eval.deeper_pure_bind ?_
  rw [Value.key?_ofKey]
  rfl

/-! ### Maps -/

theorem Eval.forEach_keyed {α β : Type} (visit : α → Eval β) (entries : List (String × α)) :
    forEach (fun entry => visit entry.2 >>= fun b => pure (entry.1, b)) entries =
      forEach visit (entries.map Prod.snd) >>= fun bs => pure ((entries.map Prod.fst).zip bs) := by
  induction entries with
  | nil => rfl
  | cons entry rest ih =>
    simp only [forEach, ih, List.map_cons, bind_assoc, pure_bind]
    rfl

theorem Eval.forEach_snd_eq_error_iff {α β : Type} {visit : α → Eval β} {entries : List (String × α)}
    {e : Error} {s s' : State} :
    forEach visit (entries.map Prod.snd) s = .error e s' ↔
      ∃ front key a back bs s₁, entries = front ++ (key, a) :: back ∧
        Visits visit (front.map Prod.snd) s bs s₁ ∧ visit a s₁ = .error e s' := by
  rw [forEach_eq_error_iff]
  constructor
  · rintro ⟨_, a, _, bs, s₁, hentries, hfront, herror⟩
    obtain ⟨front, others, rfl, rfl, hothers⟩ := List.map_eq_append_iff.mp hentries
    obtain ⟨⟨key, _⟩, back, rfl, rfl, rfl⟩ := List.map_eq_cons_iff.mp hothers
    exact ⟨front, key, _, back, bs, s₁, rfl, hfront, herror⟩
  · rintro ⟨front, key, a, back, bs, s₁, rfl, hfront, herror⟩
    rw [List.map_append, List.map_cons]
    exact ⟨_, a, _, bs, s₁, rfl, hfront, herror⟩

theorem eval_map (n : Nat) (entries : Table Value) (m : Option Value) (f : FrameId) :
    eval (n + 4) (.map entries m) f =
      (Eval.forEach (eval (n + 3) · f) (entries.map Prod.snd) >>= fun vs =>
        pure (.ofTable (Table.ofList ((entries.map Prod.fst).zip vs)))).deeper := by
  have hentries : Eval.forEach (Evaluator.evalData.evalEntry (eval (n + 3)) f) entries =
      Eval.forEach (eval (n + 3) · f) (entries.map Prod.snd) >>= fun vs =>
        pure ((entries.map Prod.fst).zip vs) := by
    rw [funext (evalEntry_eq n f)]
    exact Eval.forEach_keyed (eval (n + 3) · f) entries
  rw [eval_of_no_macroCall fun _ _ => rfl]
  refine congrArg Eval.deeper ?_
  change (Eval.forEach (Evaluator.evalData.evalEntry (eval (n + 3)) f) entries >>= _) = _
  rw [hentries, bind_assoc]
  rfl

theorem Visits.keys_eq {α β : Type} {visit : α → Eval β} {table : Table α} {bs : List β}
    {s s₁ : State} (h : Visits visit (table.map Prod.snd) s bs s₁) :
    ((table.map Prod.fst).zip bs).map Prod.fst = table.map Prod.fst := by
  refine List.map_fst_zip ?_
  rw [h.length_eq, List.length_map, List.length_map]

theorem Table.Sorted.congr {α β : Type} {table : Table α} {table' : Table β} (h : table.Sorted)
    (hkeys : table'.map Prod.fst = table.map Prod.fst) : table'.Sorted := by
  unfold Table.Sorted at h ⊢
  rw [← List.pairwise_map] at h ⊢
  rwa [hkeys]

/-- Evaluating a map evaluates the values of its entries in turn, in the order of their keys, one level
deeper. The result binds the same keys to what their values came to. If a value fails the map fails
with the same error, in the state that this value left, and the values behind it are not evaluated; at
the limit the map is refused before any of them. A key that is evaluated is found again in what it
comes to. -/
theorem map_literal_keeps_keys {entries : Table Value} (hs : entries.Sorted) (m : Option Value)
    (n : Nat) (f : FrameId) (s : State) :
    (∀ v s', eval (n + 4) (.map entries m) f s = .value v s' ↔
      s.gauge.depth < s.gauge.limit ∧ ∃ vs s₁,
        Visits (eval (n + 3) · f) (entries.map Prod.snd) s.enter vs s₁ ∧
        v = .ofTable ((entries.map Prod.fst).zip vs) ∧ s' = s₁.leave) ∧
    (∀ e s', eval (n + 4) (.map entries m) f s = .error e s' ↔
      (¬ s.gauge.depth < s.gauge.limit ∧ e = .fault (.tooDeep s.gauge.limit) ∧
        s' = { s with gauge := s.gauge.refuse }) ∨
      (s.gauge.depth < s.gauge.limit ∧ ∃ front key form back vs s₁ s₂,
        entries = front ++ (key, form) :: back ∧
        Visits (eval (n + 3) · f) (front.map Prod.snd) s.enter vs s₁ ∧
        eval (n + 3) form f s₁ = .error e s₂ ∧ s' = s₂.leave)) ∧
    (∀ v s', eval (n + 4) (.map entries m) f s = .value v s' →
      ∃ table : Table Value, v = .ofTable table ∧ table.Sorted ∧
        table.map Prod.fst = entries.map Prod.fst) ∧
    ∀ n' key k s₁ s₂, eval n' (.ofKey key) f s₁ = .value k s₂ → k.key? = some key := by
  have hvalue : ∀ v s', eval (n + 4) (.map entries m) f s = .value v s' ↔
      s.gauge.depth < s.gauge.limit ∧ ∃ vs s₁,
        Visits (eval (n + 3) · f) (entries.map Prod.snd) s.enter vs s₁ ∧
        v = .ofTable ((entries.map Prod.fst).zip vs) ∧ s' = s₁.leave := by
    intro v s'
    have htable : ∀ vs s₁, Visits (eval (n + 3) · f) (entries.map Prod.snd) s.enter vs s₁ →
        Table.ofList ((entries.map Prod.fst).zip vs) = (entries.map Prod.fst).zip vs :=
      fun vs s₁ hvs => Table.ofList_of_sorted (hs.congr hvs.keys_eq)
    rw [eval_map, Eval.deeper_eq_value_iff]
    simp only [Eval.bind_pure_eq_value_iff, Eval.forEach_eq_value_iff]
    constructor
    · rintro ⟨hlt, s₁, ⟨vs, hvs, rfl⟩, rfl⟩
      exact ⟨hlt, vs, s₁, hvs, by rw [htable vs s₁ hvs], rfl⟩
    · rintro ⟨hlt, vs, s₁, hvs, rfl, rfl⟩
      exact ⟨hlt, s₁, ⟨vs, hvs, by rw [htable vs s₁ hvs]⟩, rfl⟩
  refine ⟨hvalue, fun e s' => ?_, fun v s' h => ?_, fun _ _ _ _ _ => evaluated_key⟩
  · rw [eval_map, Eval.deeper_eq_error_iff]
    simp only [Eval.bind_pure_eq_error_iff, Eval.forEach_snd_eq_error_iff]
    refine or_congr_right (and_congr_right fun _ => ?_)
    constructor
    · rintro ⟨s₂, ⟨front, key, form, back, vs, s₁, hentries, hfront, herror⟩, rfl⟩
      exact ⟨front, key, form, back, vs, s₁, s₂, hentries, hfront, herror, rfl⟩
    · rintro ⟨front, key, form, back, vs, s₁, s₂, hentries, hfront, herror, rfl⟩
      exact ⟨s₂, ⟨front, key, form, back, vs, s₁, hentries, hfront, herror⟩, rfl⟩
  · obtain ⟨_, vs, s₁, hvs, rfl, _⟩ := (hvalue v s').mp h
    exact ⟨_, rfl, hs.congr hvs.keys_eq, hvs.keys_eq⟩

/-- The call of `reset!` that sets the only atom. -/
def Value.sampleReset (v : Value) : Value := .ofList [.native (.cell .reset) 0 none, .atom 0, v]

def Value.sampleDeref (v : Value) : Value := .ofList [.native (.cell .deref) 1 none, v]

/-- A state with one atom, where evaluations are and were nested to some depth. -/
def State.sampleAtom (content : Value) (depth peak : Nat) : State :=
  ⟨⟨#[], #[content], 0⟩, ⟨depth, 9, peak, 0⟩, ⟨[], true, "", ""⟩, .empty, 0⟩

/-- The key of a keyword. -/
def Keyword.sampleKey (name : String) : String := (Keyword.ofName name).key

/-- The entry of a keyword is behind that of a string, so its value finds what that one set. In the
second map the last value is not evaluated. -/
theorem map_literal_keeps_keys_sampleAtom :
    eval 6 (.ofTable [("a", .sampleReset (.int 1)), (Keyword.sampleKey "b", .sampleDeref (.atom 0))])
        0 (.sampleAtom .nil 0 0) =
      .value (.ofTable [("a", .int 1), (Keyword.sampleKey "b", .int 1)])
        (.sampleAtom (.int 1) 0 3) ∧
    eval 6 (.ofTable [("a", .sampleReset (.int 1)), (Keyword.sampleKey "b", .sampleDeref (.int 7)),
        (Keyword.sampleKey "c", .sampleReset (.int 2))]) 0 (.sampleAtom .nil 0 0) =
      .error (.fault (.wrongKind "deref" "atom" (.int 7))) (.sampleAtom (.int 1) 0 3) := by
  have hsorted : Table.Sorted [("a", Value.sampleReset (.int 1)),
      (Keyword.sampleKey "b", .sampleDeref (.atom 0))] := List.pairwise_pair.mpr (by decide)
  have hsorted' : Table.Sorted [("a", Value.sampleReset (.int 1)),
      (Keyword.sampleKey "b", .sampleDeref (.int 7)),
      (Keyword.sampleKey "c", .sampleReset (.int 2))] := by
    unfold Table.Sorted
    simp only [List.pairwise_cons, List.mem_cons, forall_eq_or_imp]
    decide
  have hreset : eval 5 (.sampleReset (.int 1)) 0 (.sampleAtom .nil 1 1) =
      .value (.int 1) (.sampleAtom (.int 1) 1 3) := by cbv
  have hderef : eval 5 (.sampleDeref (.atom 0)) 0 (.sampleAtom (.int 1) 1 3) =
      .value (.int 1) (.sampleAtom (.int 1) 1 3) := by cbv
  have hfails : eval 5 (.sampleDeref (.int 7)) 0 (.sampleAtom (.int 1) 1 3) =
      .error (.fault (.wrongKind "deref" "atom" (.int 7))) (.sampleAtom (.int 1) 1 3) := by cbv
  constructor
  · refine ((map_literal_keeps_keys hsorted none 2 0 (.sampleAtom .nil 0 0)).1 _ _).mpr ?_
    exact ⟨by decide, _, _, .cons hreset (.cons hderef .nil), rfl, rfl⟩
  · refine ((map_literal_keeps_keys hsorted' none 2 0 (.sampleAtom .nil 0 0)).2.1 _ _).mpr (.inr ?_)
    exact ⟨by decide, [_], _, _, [_], _, _, _, rfl, .cons hreset .nil, hfails, rfl⟩

end SmallLisp
