import SmallLisp.Proofs.Evaluation.Quiet
import SmallLisp.Proofs.Heap.Frames
import SmallLisp.Proofs.Reading.Wrapped
import SmallLisp.Proofs.Session.Invocation

/-!
# Running files

A file is run by a function of the prelude that puts the text of the file inside a form, reads the
form and evaluates it in the root. Until the form is evaluated nothing happens but that the call has
its frame, so what running a file does is decided by what its text reads as inside the form.
-/

namespace SmallLisp

open Session (root)

/-! ### The function of the prelude -/

/-- The form that reads the file. -/
def slurpForm : Value := .ofList [.named "slurp", .named "f"]

/-- The form that puts the text of the file inside a form. -/
def wrapForm : Value := .ofList [.named "str", .str "(do ", slurpForm, .str "\nnil)"]

/-- The form that reads the form. -/
def readForm : Value := .ofList [.named "read-string", wrapForm]

/-- The body of the function that runs files. -/
def loadFileBody : Value := .ofList [.named "eval", readForm]

/-- The native functions that running a file calls. -/
def loadFileNatives : List Native :=
  [.eval root, .exchange .readString, .wording .str, .exchange .slurp]

/-- Whether running files is bound in the root as the prelude binds it, and the native functions
that it calls are bound as in every session. -/
structure Heap.LoadsFiles (h : Heap) : Prop where
  closure : ∃ identity m, h.lookup? root ⟨"load-file"⟩ =
    some (.closure ⟨identity, ⟨[⟨"f"⟩], none⟩, root, false⟩ loadFileBody m)
  natives : ∀ fn ∈ loadFileNatives, ∃ identity m,
    h.lookup? root ⟨fn.name⟩ = some (.native fn identity m)

/-- A state with the frame of the call that runs the file of a path. -/
def State.loading (s : State) (path : String) : State :=
  s.withHeap (s.heap.addFrame (some root) [("f", .str path)]).2

theorem read_prelude_loadFile :
    prelude[1]?.map readFirst = some (.ok (.ofList [.named "define", .named "load-file",
      .ofList [.named "lambda", .ofList [.named "f"], loadFileBody]])) := by
  cbv

section

variable {s : State} {path text : String} {bytes : List UInt8}

theorem Heap.LoadsFiles.root_lt {h : Heap} (hl : h.LoadsFiles) : root < h.frames.size := by
  obtain ⟨identity, m, hclosure⟩ := hl.closure
  exact Heap.lt_size_of_lookup? hclosure

theorem loadFile_without_fuel (hl : s.heap.LoadsFiles) : ¬ (Session.loadFile 0 path s).Answers := by
  obtain ⟨identity, m, hclosure⟩ := hl.closure
  rw [Session.loadFile, Session.call_bound hclosure]
  exact Outcome.not_answers_halt _ _

theorem loadFile_eq (hl : s.heap.LoadsFiles) (n : Nat) :
    Session.loadFile (n + 1) path s =
      eval (n + 1) loadFileBody s.heap.frames.size (s.loading path) := by
  obtain ⟨identity, m, hclosure⟩ := hl.closure
  rw [Session.loadFile, Session.call_bound hclosure]
  rfl

theorem loading_path :
    (s.loading path).heap.lookup? s.heap.frames.size ⟨"f"⟩ = some (.str path) :=
  Heap.lookup?_newFrame_bound rfl

theorem loading_native (hl : s.heap.LoadsFiles) (path : String) {fn : Native}
    (hfn : fn ∈ loadFileNatives) : ∃ identity m,
      (s.loading path).heap.lookup? s.heap.frames.size ⟨fn.name⟩ =
        some (.native fn identity m) := by
  obtain ⟨identity, m, hroot⟩ := hl.natives fn hfn
  have hother : ∀ fn ∈ loadFileNatives, fn.name ≠ "f" := by decide
  refine ⟨identity, m, (Heap.lookup?_newFrame_outer hl.root_lt ?_).trans hroot⟩
  rw [Table.get?_cons, if_neg (hother fn hfn)]
  rfl

/-! ### What the native functions do -/

theorem perform_slurp (hdisk : s.disk.read? path = some (.ok bytes))
    (htext : decodeText? bytes = some text) :
    Native.perform (.exchange .slurp) [.str path] s = .value (.str text) s := by
  have hread : Exchange.readFile path s = .value text s := by
    unfold Exchange.readFile
    rw [hdisk]
    dsimp only
    rw [htext]
  exact Eval.bind_value hread

theorem perform_wrap (text : String) (s : State) :
    Native.perform (.wording .str) [.str "(do ", .str text, .str "\nnil)"] s =
      .value (.str (wrapped text)) s := by
  have hprinted : s.heap.printList false "" [.str "(do ", .str text, .str "\nnil)"] =
      wrapped text := by
    simp [Heap.printList, Value.renderList, Value.renderAll, Value.render, joinWith, wrapped]
  change Outcome.value (Value.str (s.heap.printList false "" _)) s = _
  rw [hprinted]

theorem perform_read (source : String) :
    Native.perform (.exchange .readString) [.str source] =
      match readFirst source with
      | .ok form => pure form
      | .error e => .fail (.ofReadError e) := rfl

theorem evaluates_string {f : FrameId} (text : String) :
    Evaluates (.str text) f s (.value (.str text) s) :=
  .literal trivial

/-! ### What is done before the form is evaluated -/

variable (hl : s.heap.LoadsFiles) (hdisk : s.disk.read? path = some (.ok bytes))
  (htext : decodeText? bytes = some text)

include hl hdisk htext

theorem slurp_gives (n : Nat) :
    (eval n slurpForm s.heap.frames.size).Gives (· = .str text) (s.loading path) := by
  obtain ⟨identity, m, hslurp⟩ := loading_native hl path
    (by decide : .exchange .slurp ∈ loadFileNatives)
  refine nativeCall_defers rfl hslurp
    (fun n => arguments_give_cons (bound_gives loading_path n) (arguments_give_nil n)) ?_ n
  rintro _ ⟨_, _, rfl, rfl, rfl⟩ n k g _
  have hslurped := @perform_slurp ((s.loading path).regauge g) path text bytes hdisk htext
  exact .inr ⟨pure (.str text), g, g, ⟨_, rfl, rfl⟩, hslurped⟩

theorem wrap_gives (n : Nat) :
    (eval n wrapForm s.heap.frames.size).Gives (· = .str (wrapped text)) (s.loading path) := by
  obtain ⟨identity, m, hstr⟩ := loading_native hl path
    (by decide : .wording .str ∈ loadFileNatives)
  refine nativeCall_defers rfl hstr (fun n => arguments_give_cons
    (string_gives "(do " n) (arguments_give_cons (slurp_gives hl hdisk htext n)
      (arguments_give_cons (string_gives "\nnil)" n) (arguments_give_nil n)))) ?_ n
  rintro _ ⟨_, _, rfl, ⟨_, _, rfl, ⟨_, _, rfl, rfl, rfl⟩, rfl⟩, rfl⟩ n k g _
  have hwrapped := perform_wrap text ((s.loading path).regauge g)
  exact .inr ⟨pure (.str (wrapped text)), g, g, ⟨_, rfl, rfl⟩, hwrapped⟩

theorem read_gives (n : Nat) :
    (eval n readForm s.heap.frames.size).Gives
      (fun form => readFirst (wrapped text) = .ok form) (s.loading path) := by
  obtain ⟨identity, m, hread⟩ := loading_native hl path
    (by decide : .exchange .readString ∈ loadFileNatives)
  refine nativeCall_defers rfl hread
    (fun n => arguments_give_cons (wrap_gives hl hdisk htext n) (arguments_give_nil n)) ?_ n
  rintro _ ⟨_, _, rfl, rfl, rfl⟩ n k
  change (Native.perform (.exchange .readString) [.str (wrapped text)]).Defers _ _
  rw [perform_read]
  cases hform : readFirst (wrapped text) with
  | ok form => exact Eval.gives_pure rfl
  | error e => exact Eval.defers_raise _

theorem loadFileBody_defers (n : Nat) : (eval n loadFileBody s.heap.frames.size).Defers
      (fun m => ∃ form k, readFirst (wrapped text) = .ok form ∧ m = eval k form root)
      (s.loading path) := by
  obtain ⟨identity, m, heval⟩ := loading_native hl path (by decide : .eval root ∈ loadFileNatives)
  refine nativeCall_defers rfl heval
    (fun n => arguments_give_cons (read_gives hl hdisk htext n) (arguments_give_nil n)) ?_ n
  rintro _ ⟨form, _, hform, rfl, rfl⟩ n k
  exact Eval.defers_self ⟨form, n, hform, rfl⟩

/-- Running a file fails with nothing evaluated, or evaluates the forms that the text is run as. -/
theorem loadFile_cases {n : Nat} (ho : (Session.loadFile n path s).Answers) :
    (∃ e g, Session.loadFile n path s = .error e ((s.loading path).regauge g)) ∨
      ∃ forms k g g', RunsAs text forms ∧ Session.loadFile n path s =
        (eval k (.ofList (.named "do" :: forms)) root ((s.loading path).regauge g)).regauge g' := by
  cases n with
  | zero => exact absurd ho (loadFile_without_fuel hl)
  | succ n =>
    rw [loadFile_eq hl] at ho ⊢
    have hbody := loadFileBody_defers hl hdisk htext (n + 1) s.gauge ho
    rcases hbody with ⟨e, g, he⟩ | ⟨_, g, g', ⟨form, k, hform, rfl⟩, hrun⟩
    · exact .inl ⟨e, g, he⟩
    · obtain ⟨forms, hforms, rfl⟩ := readFirst_wrapped_iff.mp hform
      exact .inr ⟨forms, k, g, g', hforms, hrun⟩

/-! ### Files that are run -/

theorem readForm_evaluates {form : Value} (hform : readFirst (wrapped text) = .ok form) :
    Evaluates readForm s.heap.frames.size (s.loading path) (.value form (s.loading path)) := by
  have hnative := fun fn => @loading_native s hl path fn
  obtain ⟨_, _, hslurp⟩ := hnative _ (by decide : .exchange .slurp ∈ loadFileNatives)
  obtain ⟨_, _, hstr⟩ := hnative _ (by decide : .wording .str ∈ loadFileNatives)
  obtain ⟨_, _, hread⟩ := hnative _ (by decide : .exchange .readString ∈ loadFileNatives)
  have hslurped : Evaluates slurpForm s.heap.frames.size (s.loading path)
      (.value (.str text) (s.loading path)) :=
    evaluates_nativeCall rfl hslurp (.cons (.bound loading_path) .nil)
      (.direct rfl (perform_slurp hdisk htext) trivial)
  have hwrapped : Evaluates wrapForm s.heap.frames.size (s.loading path)
      (.value (.str (wrapped text)) (s.loading path)) :=
    evaluates_nativeCall rfl hstr
      (.cons (evaluates_string _) (.cons hslurped (.cons (evaluates_string _) .nil)))
      (.direct rfl (perform_wrap text _) trivial)
  have hperform : Native.perform (.exchange .readString) [.str (wrapped text)] (s.loading path) =
      .value form (s.loading path) := by
    rw [perform_read, hform]
    rfl
  exact evaluates_nativeCall rfl hread (.cons hwrapped .nil) (.direct rfl hperform trivial)

theorem loadFileBody_evaluates_iff {form : Value} (hform : readFirst (wrapped text) = .ok form)
    (o : Outcome Value) : Evaluates loadFileBody s.heap.frames.size (s.loading path) o ↔
      Evaluates form root (s.loading path) o := by
  obtain ⟨_, _, heval⟩ := loading_native hl path (by decide : .eval root ∈ loadFileNatives)
  have hread := readForm_evaluates hl hdisk htext hform
  constructor
  · intro h
    rcases h.nativeCall_cases rfl heval with ⟨vs, s₁, hargs, h⟩ | ⟨e, s₁, hargs, _⟩
    · cases hargs with
      | cons hread' hrest =>
        cases hread'.unique hread
        cases hrest
        cases h with
        | direct hc => cases hc
        | callback hc h =>
          cases hc
          cases h with
          | eval h => exact h
        | misuse hc => cases hc
        | notFunction hfn => exact absurd trivial hfn
    · cases hargs with
      | headFails hread' => cases hread'.unique hread
      | restFails _ hrest => cases hrest
  · intro h
    exact evaluates_nativeCall rfl heval (.cons hread .nil) (.callback rfl (.eval h))

omit hdisk htext in
theorem loadFile_of_body {o : Outcome Value}
    (h : Evaluates loadFileBody s.heap.frames.size (s.loading path) o) :
    ∃ N, ∀ g, g.depth + N ≤ g.limit → ∃ g', g'.depth = g.depth ∧ g'.limit = g.limit ∧
      g'.refusals = g.refusals ∧ ∀ n ≥ N, Session.loadFile n path (s.regauge g) = o.regauge g' := by
  obtain ⟨N, hN⟩ := h.eval_eventually
  refine ⟨N + 1, fun g hroom => ?_⟩
  obtain ⟨g', hd, hlimit, hr, heval⟩ := hN g (by omega)
  refine ⟨g', hd, hlimit, hr, fun n hn => ?_⟩
  obtain ⟨j, rfl⟩ : ∃ j, n = j + 1 := ⟨n - 1, by omega⟩
  have hl' : (s.regauge g).heap.LoadsFiles := hl
  rw [loadFile_eq hl']
  exact heval (j + 1) (by omega)

/-- Under a limit that is large enough, running a file does what evaluating the forms does that its
text is run as. -/
theorem loadFile_eventually {forms : List Value} {o : Outcome Value} (hforms : RunsAs text forms)
    (h : Evaluates (.ofList (.named "do" :: forms)) root (s.loading path) o) :
    ∃ N, ∀ g, g.depth + N ≤ g.limit → ∃ g', ∀ n ≥ N,
      Session.loadFile n path (s.regauge g) = o.regauge g' := by
  have hform := readFirst_wrapped_iff.mpr ⟨forms, hforms, rfl⟩
  obtain ⟨N, hN⟩ := loadFile_of_body hl ((loadFileBody_evaluates_iff hl hdisk htext hform o).mpr h)
  refine ⟨N, fun g hroom => ?_⟩
  obtain ⟨g', _, _, _, hload⟩ := hN g hroom
  exact ⟨g', hload⟩

end

/-! ### Malformed files -/

/-- A malformed text is rejected inside the form that runs it unless it is run as some forms, for
which it must break off behind a mark or close a bracket that it has not opened. Running its file
fails with nothing evaluated or comes to what these forms come to, and where the limit is large
enough it does the latter. -/
theorem malformed_rejected_iff {text : String} {e : ReadError} (h : readAll text = .error e) :
    ((∃ e', readFirst (wrapped text) = .error e') ↔ ∀ forms, ¬ RunsAs text forms) ∧
    (∀ forms, RunsAs text forms →
      e.cause = .unexpectedEnd ∨ e.cause = .unexpectedClosing .round) ∧
    ∀ s path bytes, s.heap.LoadsFiles → s.disk.read? path = some (.ok bytes) →
      decodeText? bytes = some text →
      (∀ n, (Session.loadFile n path s).Answers →
        (∃ e' g, Session.loadFile n path s = .error e' ((s.loading path).regauge g)) ∨
          ∃ forms k g g', RunsAs text forms ∧ Session.loadFile n path s =
            (eval k (.ofList (.named "do" :: forms)) root ((s.loading path).regauge g)).regauge g') ∧
      ∀ forms o, RunsAs text forms →
        Evaluates (.ofList (.named "do" :: forms)) root (s.loading path) o →
        ∃ N, ∀ g, g.depth + N ≤ g.limit → ∃ g', ∀ n ≥ N,
          Session.loadFile n path (s.regauge g) = o.regauge g' := by
  refine ⟨⟨?_, ?_⟩, ?_, ?_⟩
  · intro herror forms hforms
    obtain ⟨e', he'⟩ := herror
    have hread := readFirst_wrapped_iff.mpr ⟨forms, hforms, rfl⟩
    rw [he'] at hread
    cases hread
  · intro hnone
    cases hread : readFirst (wrapped text) with
    | error e' => exact ⟨e', rfl⟩
    | ok form =>
      obtain ⟨forms, hforms, _⟩ := readFirst_wrapped_iff.mp hread
      exact absurd hforms (hnone forms)
  · exact fun forms hforms => cause_of_runsAs hforms h
  · intro s path bytes hl hdisk htext
    refine ⟨fun n ho => loadFile_cases hl hdisk htext ho, ?_⟩
    exact fun forms o hforms heval => loadFile_eventually hl hdisk htext hforms heval

/-- A heap with a root that binds no more than running files needs. -/
def Heap.sampleLoader : Heap :=
  ⟨#[⟨[("eval", .native (.eval root) 0 none),
      ("load-file", .closure ⟨4, ⟨[⟨"f"⟩], none⟩, root, false⟩ loadFileBody none),
      ("read-string", .native (.exchange .readString) 1 none),
      ("slurp", .native (.exchange .slurp) 2 none),
      ("str", .native (.wording .str) 3 none)], none⟩], #[], 5⟩

/-- A state with this heap in which every file holds some bytes. -/
def State.sampleLoader (bytes : List UInt8) : State :=
  ⟨.sampleLoader, .atRest 9, ⟨[], true, "", ""⟩, ⟨fun _ => some (.ok bytes)⟩, 0⟩

theorem loadsFiles_sampleLoader : Heap.sampleLoader.LoadsFiles where
  closure := ⟨4, none, by cbv⟩
  natives := by
    intro fn hfn
    simp only [loadFileNatives, List.mem_cons, List.not_mem_nil, or_false] at hfn
    rcases hfn with rfl | rfl | rfl | rfl
    · exact ⟨0, none, by cbv⟩
    · exact ⟨1, none, by cbv⟩
    · exact ⟨3, none, by cbv⟩
    · exact ⟨2, none, by cbv⟩

theorem readAll_strayBracket :
    readAll "1)" = .error ⟨.unexpectedClosing .round, ⟨1, 3⟩⟩ := by
  cbv

theorem decode_strayBracket : decodeText? [49, 41] = some "1)" := by
  cbv

theorem runsAs_strayBracket : RunsAs "1)" [.int 1] := by
  have hscans : scans "1)".toList = [.ok (.int 1), .ok (.closing .round)] := by cbv
  exact .inr ⟨[.int 1], [], hscans, Reader.clear_nil, rfl⟩

theorem malformed_rejected_iff_strayBracket :
    (¬ ∃ e, readFirst (wrapped "1)") = .error e) ∧
    ∃ N, ∀ g, g.depth + N ≤ g.limit → ∃ g', ∀ n ≥ N,
      Session.loadFile n "a" ((State.sampleLoader [49, 41]).regauge g) =
        .value (.int 1) (((State.sampleLoader [49, 41]).loading "a").regauge g') := by
  have hmain := malformed_rejected_iff readAll_strayBracket
  refine ⟨fun herror => hmain.1.mp herror _ runsAs_strayBracket, ?_⟩
  have hlast : Evaluates (.ofList [.named "do", .int 1]) root
      ((State.sampleLoader [49, 41]).loading "a")
      (.value (.int 1) ((State.sampleLoader [49, 41]).loading "a")) :=
    .special (by cbv) rfl rfl (.last (.literal trivial))
  exact (hmain.2.2 (.sampleLoader [49, 41]) "a" [49, 41] loadsFiles_sampleLoader rfl
    decode_strayBracket).2 _ _ runsAs_strayBracket hlast

/-- Two malformed texts that are run: in one a bracket closes the form early, and in the other a mark
at the end takes the `nil` behind it. -/
theorem malformed_texts_run :
    readAll "1)" = .error ⟨.unexpectedClosing .round, ⟨1, 3⟩⟩ ∧
    readFirst (wrapped "1)") = .ok (.ofList [.named "do", .int 1]) ∧
    Session.loadFile 20 "a" (.sampleLoader [49, 41]) =
      .value (.int 1) (((State.sampleLoader [49, 41]).loading "a").regauge ⟨0, 9, 5, 0⟩) ∧
    readAll "1 \'" = .error ⟨.unexpectedEnd, ⟨1, 4⟩⟩ ∧
    readFirst (wrapped "1 \'") =
      .ok (.ofList [.named "do", .int 1, .ofList [.named "quote", .nil]]) := by
  refine ⟨readAll_strayBracket, ?_, ?_, ?_, ?_⟩
  · cbv
  · cbv
  · cbv
  · cbv

end SmallLisp
