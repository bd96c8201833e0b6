import SmallLisp.Proofs.Evaluation.Instantiation
import SmallLisp.Proofs.Reading.Concatenation
import SmallLisp.Proofs.Session.LoadFile

/-!
# The forms of a file

A text that reads as forms is read as these forms inside the form that runs it, whatever it ends
with: the newline behind it ends a comment or a token at its end, and nothing of what the text
opens is still open there. Running its file then evaluates the forms in turn.
-/

namespace SmallLisp

open Reader
open Session (root)

/-! ### Reading -/

section

variable {text : String} {forms : List Value}

/-- The form that runs some forms. -/
def runForm (forms : List Value) : Value := .ofList (.named "do" :: (forms ++ [.nil]))

theorem readAll_nil : readAll "nil" = .ok [.nil] := by
  cbv

theorem runsAs_of_readAll (h : readAll text = .ok forms) : RunsAs text (forms ++ [.nil]) := by
  have hline := readAll_append h "nil"
  have hwhole : text ++ "\n" ++ "nil" = text ++ "\nnil" := by
    rw [String.append_assoc]
    rfl
  rw [hwhole, readAll_nil] at hline
  exact .inl hline

theorem readAll_wrapped (h : readAll text = .ok forms) :
    readAll (wrapped text) = .ok [runForm forms] := by
  obtain ⟨ts, hts, hfeed⟩ := readAll_eq_ok_iff.mp h
  refine readAll_eq_ok_iff.mpr
    ⟨.opening .round :: .symbol "do" :: (ts ++ [.nil, .closing .round]), ?_, ?_⟩
  · rw [scans_wrapped, scans_line_tokens hts, scans_behind]
    simp
  · have hnil : feed [] [Token.nil] = .ok ([.nil], []) := rfl
    have hforms : feed [] (ts ++ [.nil]) = .ok (forms ++ [.nil], []) := by
      rw [feed_append hfeed, hnil]
      rfl
    have hbracket := @feed_bracket_of_forms _ [Value.named "do"] _ hforms
    rw [List.append_assoc] at hbracket
    exact hbracket

end

/-! ### Evaluation in turn -/

section

variable {forms : List Value} {f : FrameId} {s : State} {o : Outcome Value}

/-- What running forms comes to: `nil` if all of them have values in turn, and else the error of the
first one that fails, behind which nothing is evaluated. -/
inductive RunsInTurn (forms : List Value) (f : FrameId) (s : State) : Outcome Value → Prop where
  | done {vs s₁} (h : EvaluatesAll forms f s (.value vs s₁)) :
      RunsInTurn forms f s (.value .nil s₁)
  | fails {e s₁} (h : EvaluatesAll forms f s (.error e s₁)) : RunsInTurn forms f s (.error e s₁)

theorem RunsInTurn.behind {form : Value} {v : Value} {s₁ : State}
    (h : Evaluates form f s (.value v s₁)) (hrest : RunsInTurn forms f s₁ o) :
    RunsInTurn (form :: forms) f s o := by
  cases hrest with
  | done hs => exact .done (.cons h hs)
  | fails hs => exact .fails (.restFails h hs)

theorem performs_next_iff {form : Value} {more : List Value} (hmore : more ≠ []) :
    Performs (.sequence (form :: more)) f s o ↔
      (∃ v s₁, Evaluates form f s (.value v s₁) ∧ Performs (.sequence more) f s₁ o) ∨
        ∃ e s₁, Evaluates form f s (.error e s₁) ∧ o = .error e s₁ := by
  obtain ⟨second, rest, rfl⟩ := List.exists_cons_of_ne_nil hmore
  constructor
  · intro h
    cases h with
    | next h hs => exact .inl ⟨_, _, h, hs⟩
    | nextFails h => exact .inr ⟨_, _, h, rfl⟩
  · rintro (⟨v, s₁, h, hs⟩ | ⟨e, s₁, h, rfl⟩)
    · exact .next h hs
    · exact .nextFails h

theorem performs_nil_behind_iff :
    Performs (.sequence (forms ++ [.nil])) f s o ↔ RunsInTurn forms f s o := by
  induction forms generalizing s with
  | nil =>
    constructor
    · intro h
      cases h with
      | last h =>
        have hnil : Value.nil.IsLiteral := trivial
        obtain rfl := evaluates_literal hnil h
        exact .done .nil
    · intro h
      cases h with
      | done h =>
        cases h
        exact .last (.literal trivial)
      | fails h => cases h
  | cons form forms ih =>
    have hmore : forms ++ [Value.nil] ≠ [] := List.append_ne_nil_of_right_ne_nil _ (by simp)
    rw [List.cons_append, performs_next_iff hmore]
    constructor
    · rintro (⟨v, s₁, h, hs⟩ | ⟨e, s₁, h, rfl⟩)
      · exact .behind h (ih.mp hs)
      · exact .fails (.headFails h)
    · intro h
      cases h with
      | done h =>
        cases h with
        | cons h hs => exact .inl ⟨_, _, h, ih.mpr (.done hs)⟩
      | fails h =>
        cases h with
        | headFails h => exact .inr ⟨_, _, h, rfl⟩
        | restFails h hs => exact .inl ⟨_, _, h, ih.mpr (.fails hs)⟩

theorem evaluates_runForm_iff (hdo : ¬ s.heap.IsMacro f "do") :
    Evaluates (runForm forms) f s o ↔ RunsInTurn forms f s o :=
  (evaluates_special_iff (macroCall?_named hdo _ none) rfl rfl).trans performs_nil_behind_iff

end

/-! ### Running the file -/

theorem loadFileBody_evaluates_forms {s : State} {path text : String} {bytes : List UInt8}
    {forms : List Value} (h : readAll text = .ok forms) (hl : s.heap.LoadsFiles)
    (hdo : ¬ s.heap.IsMacro root "do") (hdisk : s.disk.read? path = some (.ok bytes))
    (htext : decodeText? bytes = some text) (o : Outcome Value) :
    Evaluates loadFileBody s.heap.frames.size (s.loading path) o ↔
      RunsInTurn forms root (s.loading path) o := by
  have hform : readFirst (wrapped text) = .ok (runForm forms) :=
    readFirst_wrapped_iff.mpr ⟨_, runsAs_of_readAll h, rfl⟩
  refine (loadFileBody_evaluates_iff hl hdisk htext hform o).trans ?_
  exact evaluates_runForm_iff (not_isMacro_congr (Heap.lookup?_addFrame_of_lt hl.root_lt) hdo)

/-- A text that reads as forms reads, inside the form that runs it, as a `do` of these forms and
`nil`, with nothing left unread. Running its file evaluates the forms in turn in the root, unless
something is refused for its depth, and every outcome that they can have is reached where the limit
is large enough. -/
theorem loadFile_runs_forms {text : String} {forms : List Value} (h : readAll text = .ok forms) :
    readFirst (wrapped text) = .ok (.ofList (.named "do" :: (forms ++ [.nil]))) ∧
    readAll (wrapped text) = .ok [.ofList (.named "do" :: (forms ++ [.nil]))] ∧
    ∀ s path bytes, s.heap.LoadsFiles → ¬ s.heap.IsMacro root "do" →
      s.disk.read? path = some (.ok bytes) → decodeText? bytes = some text →
      (∀ n o, Session.loadFile n path s = o → o.Answers →
        o.state.gauge.refusals = s.gauge.refusals →
          ∀ o', RunsInTurn forms root (s.loading path) o' ↔ o' = o.regauge s.gauge) ∧
      ∀ o, RunsInTurn forms root (s.loading path) o →
        ∃ N, ∀ g, g.depth + N ≤ g.limit → ∃ g', g'.depth = g.depth ∧ g'.limit = g.limit ∧
          g'.refusals = g.refusals ∧
            ∀ n ≥ N, Session.loadFile n path (s.regauge g) = o.regauge g' := by
  refine ⟨readFirst_wrapped_iff.mpr ⟨_, runsAs_of_readAll h, rfl⟩, readAll_wrapped h, ?_⟩
  intro s path bytes hl hdo hdisk htext
  have hiff := loadFileBody_evaluates_forms h hl hdo hdisk htext
  constructor
  · intro n o hload ho hsame o'
    cases n with
    | zero =>
      subst hload
      exact absurd ho (loadFile_without_fuel hl)
    | succ n =>
      rw [loadFile_eq hl] at hload
      rw [← hiff]
      exact evaluates_iff_of_eval hload ho hsame o'
  · intro o hruns
    exact loadFile_of_body hl ((hiff o).mpr hruns)

theorem loadFile_runs_forms_sampleComment :
    readAll (wrapped "2 ;") = .ok [.ofList [.named "do", .int 2, .nil]] ∧
    ∃ N, ∀ g, g.depth + N ≤ g.limit → ∃ g', ∀ n ≥ N,
      Session.loadFile n "a" ((State.sampleLoader [50, 32, 59]).regauge g) =
        .value .nil (((State.sampleLoader [50, 32, 59]).loading "a").regauge g') := by
  have hread : readAll "2 ;" = .ok [.int 2] := by cbv
  have htext : decodeText? [50, 32, 59] = some "2 ;" := by cbv
  have hdo : ¬ (State.sampleLoader [50, 32, 59]).heap.IsMacro root "do" :=
    not_isMacro_of_unbound (by cbv)
  obtain ⟨_, hwhole, hruns⟩ := loadFile_runs_forms hread
  refine ⟨hwhole, ?_⟩
  obtain ⟨N, hN⟩ := (hruns (.sampleLoader [50, 32, 59]) "a" [50, 32, 59] loadsFiles_sampleLoader hdo
    rfl htext).2 _ (.done (.cons (.literal trivial) .nil))
  refine ⟨N, fun g hroom => ?_⟩
  obtain ⟨g', _, _, _, hload⟩ := hN g hroom
  exact ⟨g', hload⟩

end SmallLisp
