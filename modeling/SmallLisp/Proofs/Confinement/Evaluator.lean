import SmallLisp.Proofs.Confinement.Parts
import SmallLisp.Proofs.Confinement.Runs

/-!
# The evaluator keeps confined runs

Every native function, every special form and the loop are built by the rules for confined runs.
The main statements are `Confinement.eval_keeps` and `Confinement.call_keeps`: a form that is
admitted by the reach of the two runs, in a frame of the reach, and a function with arguments that
are admitted, have the same outcome in both.
-/

namespace SmallLisp

open Evaluator

namespace Confinement

variable {c : Confinement} {P : Reach} {f : FrameId} {v : Value} {args : List Value}

/-! ### Operations on the heap -/

theorem addFrame_keeps {bindings : Table Value} (hf : P (.scope f)) (hb : P.AdmitsEntries bindings) :
    c.Keeps P Reach.opens (Eval.onHeap fun h => h.addFrame (some f) bindings) := by
  refine .onHeap fun h h' hl hP => ⟨hl.agree.frameCount, reach_addFrame_sub _ _ _,
    hl.addFrame (hP.refs hf) (hb.mono hP), .inr ⟨hl.frameCount, ?_⟩⟩
  rw [Heap.size_frames_addFrame]
  exact Nat.lt_succ_self _

theorem childOf_keeps (hf : P (.scope f)) : c.Keeps P Reach.opens (Special.childOf f) :=
  addFrame_keeps hf nofun

theorem bindIn_keeps (hf : P.opens f) (s : Symbol) (hv : P.Admits v) :
    c.Keeps P Reach.Admits (Special.bindIn f s v) := by
  refine .onHeap fun h h' hl hP => ?_
  have hreach : c.reach (h.set f s v) = c.reach h := reach_congr Heap.size_frames_set rfl
  refine ⟨rfl, ?_, hl.set (hP.opens hf) (hv.mono hP), ?_⟩
  · rw [hreach]
    exact .refl _
  · rw [hreach]
    exact hv.mono hP

theorem addIdentity_keeps : c.Keeps P Reach.Anything (Eval.onHeap Heap.addIdentity) :=
  .onHeap fun _ _ hl _ => ⟨hl.agree.identities, .refl _, hl.addIdentity, trivial⟩

theorem addAtom_keeps (hv : P.Admits v) :
    c.Keeps P Reach.Admits (Eval.onHeap fun h => (.atom (h.addAtom v).1, (h.addAtom v).2)) := by
  refine .onHeap fun h h' hl hP => ⟨congrArg Value.atom hl.agree.atomCount, reach_addAtom_sub _ _,
    hl.addAtom (hv.mono hP), Reach.admits_atom.mpr (.inr ⟨hl.atomCount, ?_⟩)⟩
  rw [Heap.size_atoms_addAtom]
  exact Nat.lt_succ_self _

theorem content_keeps {id : AtomId} (hid : P (.atom id)) :
    c.Keeps P Reach.Admits (Cell.content id) := by
  refine .readHeap fun h h' hl hP => ?_
  have hid' : c.reach h (.atom id) := hP.refs hid
  exact ⟨congrArg Pure.pure (hl.agree.getD hid'), .pure (hl.closed.getD hid')⟩

theorem assign_keeps {id : AtomId} (hid : P (.atom id)) (hv : P.Admits v) :
    c.Keeps P Reach.Admits (Cell.assign id v) := by
  refine .onHeap fun h h' hl hP => ?_
  have hreach : c.reach (h.setAtom id v) = c.reach h := reach_congr rfl Heap.size_atoms_setAtom
  refine ⟨rfl, ?_, hl.setAtom (hP.refs hid) (hv.mono hP), ?_⟩
  · rw [hreach]
    exact .refl _
  · rw [hreach]
    exact hv.mono hP

/-! ### Native functions -/

/-- Whether the two runs of every admitted form in a frame of the reach are the same. -/
def EvalKeeps (c : Confinement) (eval : Evaluator) : Prop :=
  ∀ {P : Reach} {form : Value} {f : FrameId}, P.Admits form → P.opens f →
    c.Keeps P Reach.Admits (eval form f)

/-- Whether the two runs of every call of an admitted function with admitted arguments are the
same. -/
def CallKeeps (c : Confinement) (call : Value → List Value → Eval Value) : Prop :=
  ∀ {P : Reach} {fn : Value} {args : List Value}, P.Admits fn → P.AdmitsAll args →
    c.Keeps P Reach.Admits (call fn args)

section

variable {call : Value → List Value → Eval Value}

theorem wording_keeps (op : Wording) (hargs : P.AdmitsAll args) :
    c.Keeps P Reach.Admits (Eval.heap >>= fun h => Eval.ofExcept (op.run h args)) := by
  refine .readHeap fun h h' hl hP => ⟨?_, .ofExcept (op.run_admits h)⟩
  have hprint := fun readable separator =>
    hl.agree.printList hl.closed readable separator (hargs.mono hP)
  cases op with
  | str => simp only [Wording.run, hprint]
  | prStr => simp only [Wording.run, hprint]
  | _ => rfl

theorem printLine_keeps (readable : Bool) (hargs : P.AdmitsAll args) :
    c.Keeps P Reach.Admits (Exchange.printLine readable args) := by
  refine .readHeap fun h h' hl hP => ⟨?_, ?_⟩
  · have hprint := hl.agree.printList hl.closed readable " " (hargs.mono hP)
    simp only [hprint]
  · exact (Keeps.write _).bind fun P' _ _ _ => .pure Reach.admits_nil

theorem readFile_keeps (path : String) : c.Keeps P Reach.Anything (Exchange.readFile path) := by
  intro s s' _ hr
  unfold Exchange.readFile
  rw [hr.disk]
  cases s.disk.read? path with
  | none => exact .halt (.refl _) hr
  | some found =>
    cases found with
    | error cause => exact .error (.refl _) hr (Reach.admits_of_refs rfl)
    | ok bytes =>
      dsimp only
      cases decodeText? bytes with
      | none => exact .error (.refl _) hr (Reach.admits_of_refs rfl)
      | some text => exact .value (.refl _) hr trivial

theorem readLine_keeps : c.Keeps P Reach.Anything Exchange.readLine := by
  intro s s' _ hr
  have hknows : s'.console.knowsLine = s.console.knowsLine := by
    simp only [Console.knowsLine, hr.input, hr.isClosed]
  have hleft : ∀ left, c.Related { s with console := { s.console with input := left } }
      { s' with console := { s'.console with input := left } } := fun left =>
    ⟨hr.heap, hr.depth, hr.limit, rfl, hr.isClosed, hr.output, hr.disk, hr.clock⟩
  unfold Exchange.readLine Console.takeLine?
  rw [hknows, hr.input]
  split
  · cases s.console.input with
    | nil => exact .value (.refl _) hr trivial
    | cons b rest =>
      dsimp only
      cases decodeText? (Console.splitLine (b :: rest)).1 with
      | none => exact .error (.refl _) (hleft _) (Reach.admits_of_refs rfl)
      | some text => exact .value (.refl _) (hleft _) trivial
  · exact .halt (.refl _) hr

theorem clock_keeps : c.Keeps P Reach.Admits (fun s => .value (.int s.clock) s) := by
  intro s s' _ hr
  dsimp only
  rw [hr.clock]
  exact .value (.refl _) hr (Reach.admits_of_refs rfl)

theorem exchange_keeps (op : Exchange) (hargs : P.AdmitsAll args) :
    c.Keeps P Reach.Admits (op.run args) := by
  cases op with
  | prn => exact printLine_keeps true hargs
  | println => exact printLine_keeps false hargs
  | readString =>
    refine .checked (.anything _) fun source _ => ?_
    split
    · next form hform => exact .pure (admits_of_readFirst hform P)
    · exact .fail _
  | slurp =>
    refine .checked (.anything _) fun path _ => ?_
    exact (readFile_keeps path).bind fun _ text _ _ => .pure (Reach.admits_of_refs rfl)
  | readline =>
    refine .checked (.anything _) fun prompt _ => ?_
    refine (Keeps.write prompt).bind fun P₁ _ _ _ => ?_
    refine readLine_keeps.bind fun P₂ line _ _ => ?_
    split
    · exact .pure (Reach.admits_of_refs rfl)
    · exact .pure Reach.admits_nil
  | timeMs => exact .checked (.anything _) fun _ _ => clock_keeps

theorem metadata_keeps (op : Metadata) (hargs : P.AdmitsAll args) :
    c.Keeps P Reach.Admits (op.run args) := by
  cases op with
  | withMeta =>
    refine .checked (Native.two_admits hargs) fun pair hpair => ?_
    refine addIdentity_keeps.bind fun P₁ identity hP₁ _ => ?_
    split
    · next w hw => exact .pure ((hpair.1.mono hP₁).withMetadata (hpair.2.mono hP₁) hw)
    · exact .fail _
  | getMeta =>
    refine .checked (Native.one_admits hargs) fun v hv => .pure ?_
    cases hm : v.metadata? with
    | none => exact Reach.admits_nil
    | some m => exact hv.metadata hm

theorem cell_keeps (hcall : c.CallKeeps call) (op : Cell) (hargs : P.AdmitsAll args) :
    c.Keeps P Reach.Admits (op.run call args) := by
  cases op with
  | atom => exact .checked (Native.one_admits hargs) fun v hv => addAtom_keeps hv
  | deref =>
    refine .checked ?_ fun id hid => content_keeps hid
    exact (Native.one_admits hargs).bind fun v hv => Native.atom_admits hv
  | reset =>
    refine .checked (Native.two_admits hargs) fun pair hpair => ?_
    exact .checked (Native.atom_admits hpair.1) fun id hid => assign_keeps hid hpair.2
  | swap =>
    refine .checked (Native.twoOrMore_admits hargs) fun triple htriple => ?_
    obtain ⟨hcell, hfn, hmore⟩ := htriple
    refine .checked (Native.atom_admits hcell) fun id hid => ?_
    refine (content_keeps hid).bind fun P₁ old hP₁ hold => ?_
    have hrow := Reach.admitsAll_cons.mpr ⟨hold, hmore.mono hP₁⟩
    refine (hcall (hfn.mono hP₁) hrow).bind fun P₂ v hP₂ hv => ?_
    exact assign_keeps (hP₂.refs (hP₁.refs hid)) hv

theorem higherOrder_keeps (hcall : c.CallKeeps call) (op : HigherOrder) (hargs : P.AdmitsAll args) :
    c.Keeps P Reach.Admits (op.run call args) := by
  cases op with
  | apply =>
    refine .checked (Native.twoOrMore_admits hargs) fun triple htriple => ?_
    obtain ⟨fn, row, more⟩ := triple
    obtain ⟨hfn, hrow, hmore⟩ := htriple
    have hall : P.AdmitsAll (row :: more) := Reach.admitsAll_cons.mpr ⟨hrow, hmore⟩
    have hlast : P.Admits (more.getLastD row) := hall _ List.getLastD_mem_cons
    refine .checked (Native.itemsOrNil_admits hlast) fun spread hspread => ?_
    refine hcall hfn (Reach.admitsAll_append.mpr ⟨?_, hspread⟩)
    exact hall.of_subset fun w hw => List.dropLast_subset _ hw
  | map =>
    rw [HigherOrder.run_map]
    refine .checked (Native.twoOrMore_admits hargs) fun triple htriple => ?_
    obtain ⟨fn, row, more⟩ := triple
    obtain ⟨hfn, hrow, hmore⟩ := htriple
    refine .checked (Native.itemsOrNil_admits hrow) fun items hitems => ?_
    refine .checked (Native.mapM_itemsOrNil_admits hmore) fun rows hrows => ?_
    have hcolumns := columns_admit hitems hrows
    have heach : ∀ column ∈ columns items rows, c.Keeps P Reach.Admits (call fn column) :=
      fun column hcolumn => hcall hfn (hcolumns column hcolumn)
    exact (Keeps.forEach heach).bind fun P₁ vs _ hvs => .pure (Reach.admits_ofList.mpr hvs)

/-! ### Calls -/

theorem enter_keeps {fn : Lambda} (hscope : P (.scope fn.scope)) (hargs : P.AdmitsAll args) :
    c.Keeps P Reach.opens (enter fn args) := by
  rw [enter_eq]
  exact .checked (bindings?_admits hargs) fun _ hb => addFrame_keeps hscope hb

theorem notCallable_keeps (hv : P.Admits v) : c.Keeps P Reach.Admits (notCallable v) := by
  refine .readHeap fun h h' hl hP => ⟨?_, .fail _⟩
  rw [hl.agree.print hl.closed true (hv.mono hP)]

variable {eval : Evaluator}

theorem callNative_keeps (heval : c.EvalKeeps eval) (hcall : c.CallKeeps call) {fn : Native}
    (hfn : ∀ r ∈ fn.refs, P r) (hargs : P.AdmitsAll args) :
    c.Keeps P Reach.Admits (eval.callNative call fn args) := by
  cases fn with
  | arithmetic op => exact .ofExcept op.run_admits
  | comparison op => exact .ofExcept op.run_admits
  | predicate op => exact .ofExcept op.run_admits
  | wording op => exact wording_keeps op hargs
  | exchange op => exact exchange_keeps op hargs
  | collection op => exact .ofExcept (op.run_admits hargs)
  | sequence op => exact .ofExcept (op.run_admits hargs)
  | higherOrder op => exact higherOrder_keeps hcall op hargs
  | metadata op => exact metadata_keeps op hargs
  | cell op => exact cell_keeps hcall op hargs
  | throw => exact .checked (Native.one_admits hargs) fun v hv => .raise hv
  | eval root =>
    have hroot : P.opens root := P.opens_of_root (hfn _ (List.mem_singleton_self _))
    exact .checked (Native.one_admits hargs) fun form hform => heval hform hroot
  | gather name => exact .pure (Reach.admits_ofVector.mpr hargs)

theorem call_keeps_of (heval : c.EvalKeeps eval) (n : Nat) : c.CallKeeps (eval.call n) := by
  induction n with
  | zero => exact fun _ _ => .halt _
  | succ n ih =>
    intro P fn args hfn hargs
    cases fn with
    | closure fn body m =>
      obtain ⟨hscope, hbody, _⟩ := Reach.admits_closure.mp hfn
      exact (enter_keeps hscope hargs).bind fun P₁ frame hP₁ hframe =>
        heval (hbody.mono hP₁) hframe
    | native fn identity m =>
      exact callNative_keeps heval ih (Reach.admits_native.mp hfn).1 hargs
    | _ => exact notCallable_keeps hfn

/-! ### Expansion -/

theorem expand_keeps_of (heval : c.EvalKeeps eval) (n : Nat) {form : Value} (hform : P.Admits form)
    (hf : P (.scope f)) : c.Keeps P Reach.Admits (eval.expand n form f) := by
  induction n generalizing P form with
  | zero => exact .halt _
  | succ n ih =>
    refine .readHeap fun h h' hl hP => ?_
    have hscope : c.reach h (.scope f) := hP.refs hf
    -- Both heaps hold the same in the frames that the name is looked up in.
    have hsame : h'.macroCall? f form = h.macroCall? f form := by
      unfold Heap.macroCall?
      split
      · rw [hl.agree.lookup? hl.closed hscope]
      · rfl
    rw [hsame]
    refine ⟨rfl, ?_⟩
    cases hm : h.macroCall? f form with
    | none => exact .pure (hform.mono hP)
    | some target =>
      obtain ⟨fn, body, args⟩ := target
      obtain ⟨hfn, hbody, hargs⟩ := macroCall?_admits hl.closed hscope (hform.mono hP) hm
      refine (enter_keeps hfn hargs).bind fun P₁ frame hP₁ hframe => ?_
      refine (heval (hbody.mono hP₁) hframe).bind fun P₂ expansion hP₂ hexpansion => ?_
      exact ih hexpansion (hP₂.refs (hP₁.refs hscope))

/-! ### Special forms -/

theorem bindAll_keeps (heval : c.EvalKeeps eval) {pairs : List (Value × Value)}
    (hpairs : ∀ pair ∈ pairs, P.Admits pair.2) (hf : P.opens f) :
    c.Keeps P Reach.Anything (Special.bindAll eval f pairs) := by
  induction pairs generalizing P with
  | nil => exact .pure trivial
  | cons pair rest ih =>
    obtain ⟨hpair, hrest⟩ := List.forall_mem_cons.mp hpairs
    refine .checked (.anything _) fun s _ => ?_
    refine (heval hpair hf).bind fun P₁ v hP₁ hv => ?_
    refine (bindIn_keeps (hP₁.opens hf) s hv).bind fun P₂ _ hP₂ _ => ?_
    have hsub := hP₁.trans hP₂
    exact ih (fun other hother => (hrest other hother).mono hsub) (hsub.opens hf)

theorem sequence_keeps (heval : c.EvalKeeps eval) {forms : List Value} (hforms : P.AdmitsAll forms)
    (hf : P.opens f) : c.Keeps P Reach.AdmitsStep (Special.sequence eval f forms) := by
  induction forms generalizing P with
  | nil => exact .pure Reach.admits_nil
  | cons form rest ih =>
    obtain ⟨hform, hrest⟩ := Reach.admitsAll_cons.mp hforms
    cases rest with
    | nil => exact .pure ⟨hform, hf⟩
    | cons next rest =>
      exact (heval hform hf).bind fun P₁ _ hP₁ _ => ih (hrest.mono hP₁) (hP₁.opens hf)

/-- A `let*` form changes nothing in the frame that it stands in. -/
theorem letIn_keeps (heval : c.EvalKeeps eval) {pairs : List (Value × Value)} {body : Value}
    (hforms : P.AdmitsAll (Construct.letIn pairs body).forms) (hf : P (.scope f)) (n : Nat) :
    c.Keeps P Reach.AdmitsStep ((Construct.letIn pairs body).step eval n f) := by
  obtain ⟨hbody, hexprs⟩ := Reach.admitsAll_cons.mp hforms
  have hpairs : ∀ pair ∈ pairs, P.Admits pair.2 := fun pair hpair =>
    hexprs _ (List.mem_map_of_mem hpair)
  refine (childOf_keeps hf).bind fun P₁ frame hP₁ hframe => ?_
  refine (bindAll_keeps heval (fun pair hpair => (hpairs pair hpair).mono hP₁) hframe).bind
    fun P₂ _ hP₂ _ => .pure ?_
  exact ⟨hbody.mono (hP₁.trans hP₂), hP₂.opens hframe⟩

/-- The handler of an error changes nothing in the frame that it stands in. -/
theorem handle_keeps (heval : c.EvalKeeps eval) {s : Symbol} {handler : Value} {e : Error}
    (hhandler : P.Admits handler) (he : P.AdmitsError e) (hf : P (.scope f)) :
    c.Keeps P Reach.Admits (Special.handle eval f s handler e) := by
  refine (childOf_keeps hf).bind fun P₁ frame hP₁ hframe => ?_
  refine (bindIn_keeps hframe s (Reach.Admits.mono he hP₁)).bind fun P₂ _ hP₂ _ => ?_
  exact heval (hhandler.mono (hP₁.trans hP₂)) (hP₂.opens hframe)

theorem construct_keeps (heval : c.EvalKeeps eval) (n : Nat) (construct : Construct)
    (hforms : P.AdmitsAll construct.forms) (hf : P.opens f) :
    c.Keeps P Reach.AdmitsStep (construct.step eval n f) := by
  cases construct with
  | define s expr =>
    refine (heval (hforms _ List.mem_cons_self) hf).bind fun P₁ v hP₁ hv => ?_
    exact (bindIn_keeps (hP₁.opens hf) s hv).bind fun P₂ v _ hv => .pure hv
  | letIn pairs body => exact letIn_keeps heval hforms (P.scope_of_opens hf) n
  | quote form => exact .pure (hforms form List.mem_cons_self)
  | quasiquote template =>
    exact .pure ⟨Reach.admits_template template (hforms template List.mem_cons_self), hf⟩
  | defineMacro s expr =>
    refine (heval (hforms _ List.mem_cons_self) hf).bind fun P₁ v hP₁ hv => ?_
    cases v with
    | closure fn body m =>
      refine addIdentity_keeps.bind fun P₂ identity hP₂ _ => ?_
      have hmacro : P₂.Admits (.closure (fn.toMacro identity) body m) :=
        Reach.admits_closure.mpr (Reach.admits_closure.mp (hv.mono hP₂))
      exact (bindIn_keeps (hP₂.opens (hP₁.opens hf)) s hmacro).bind fun P₃ v _ hv => .pure hv
    | _ => exact .fail _
  | macroExpand form =>
    exact (expand_keeps_of heval n (hforms form List.mem_cons_self) (P.scope_of_opens hf)).bind
      fun P₁ v _ hv => .pure hv
  | attempt form handler =>
    obtain ⟨hform, hhandler⟩ := Reach.admitsAll_cons.mp hforms
    refine (heval hform hf).attempt.bind fun P₁ result hP₁ hresult => ?_
    cases result with
    | ok v => exact .pure hresult
    | error e =>
      cases handler with
      | none => exact .raise hresult
      | some clause =>
        have hclause : P₁.Admits clause.2 := (hhandler _ List.mem_cons_self).mono hP₁
        exact (handle_keeps heval hclause hresult (P₁.scope_of_opens (hP₁.opens hf))).bind
          fun P₂ v _ hv => .pure hv
  | sequence forms => exact sequence_keeps heval hforms hf
  | branch condition yes no =>
    obtain ⟨hcondition, hbranches⟩ := Reach.admitsAll_cons.mp hforms
    obtain ⟨hyes, hno⟩ := Reach.admitsAll_cons.mp hbranches
    refine (heval hcondition hf).bind fun P₁ v hP₁ _ => ?_
    split
    · exact .pure ⟨hyes.mono hP₁, hP₁.opens hf⟩
    · next no _ => exact .pure ⟨(hno no (by simp)).mono hP₁, hP₁.opens hf⟩
    · exact .pure Reach.admits_nil
  | abstraction params body =>
    refine addIdentity_keeps.bind fun P₁ identity hP₁ _ => .pure ?_
    have hbody : P₁.Admits body := (hforms body List.mem_cons_self).mono hP₁
    exact Reach.admits_closure.mpr ⟨P₁.scope_of_opens (hP₁.opens hf), hbody, nofun⟩

/-! ### The loop -/

theorem evalData_keeps (heval : c.EvalKeeps eval) {form : Value} (hform : P.Admits form)
    (hf : P.opens f) : c.Keeps P Reach.Admits (eval.evalData form f) := by
  cases form with
  | symbol s =>
    refine .readHeap fun h h' hl hP => ?_
    have hscope : c.reach h (.scope f) := hP.refs (P.scope_of_opens hf)
    rw [hl.agree.lookup? hl.closed hscope]
    refine ⟨rfl, ?_⟩
    split
    · next v hv => exact .pure (hl.closed.lookup? hscope hv)
    · exact .fail _
  | vector items m =>
    have hitems := (Reach.admits_vector.mp hform).1
    exact (Keeps.forEach fun item hitem => heval (hitems item hitem) hf).bind fun P₁ vs _ hvs =>
      .pure (Reach.admits_ofVector.mpr hvs)
  | map entries m =>
    have hentries := (Reach.admits_map.mp hform).1
    have hentry : ∀ entry ∈ entries, c.Keeps P (fun P entry => P.Admits entry.2)
        (evalData.evalEntry eval f entry) := by
      intro entry hmem
      refine (heval Reach.admits_ofKey hf).bind fun P₁ k hP₁ _ => ?_
      split
      · exact (heval ((hentries entry hmem).mono hP₁) (hP₁.opens hf)).bind fun P₂ v _ hv => .pure hv
      · exact .fail _
    exact (Keeps.forEach hentry).bind fun P₁ table _ htable =>
      .pure (Reach.admits_ofTable.mpr (Reach.AdmitsEntries.ofList htable))
  | _ => exact .pure hform

theorem stepApply_keeps (heval : c.EvalKeeps eval) (n : Nat) {fn : Value} (hfn : P.Admits fn)
    (hargs : P.AdmitsAll args) : c.Keeps P Reach.AdmitsStep (eval.stepApply n fn args) := by
  cases fn with
  | closure fn body m =>
    obtain ⟨hscope, hbody, _⟩ := Reach.admits_closure.mp hfn
    exact (enter_keeps hscope hargs).bind fun P₁ frame hP₁ hframe =>
      .pure ⟨hbody.mono hP₁, hframe⟩
  | _ => exact (call_keeps_of heval n hfn hargs).bind fun P₁ v _ hv => .pure hv

theorem stepList_keeps (heval : c.EvalKeeps eval) (n : Nat) {head : Value} (hhead : P.Admits head)
    (hargs : P.AdmitsAll args) (hf : P.opens f) :
    c.Keeps P Reach.AdmitsStep (eval.stepList n head args f) := by
  cases hop : Special.ofHead? head with
  | some op =>
    rw [stepList_special hop, step_eq]
    exact .checked (op.parse_admits hargs) fun construct hforms =>
      construct_keeps heval n construct hforms hf
  | none =>
    rw [stepList_call hop]
    refine (heval hhead hf).bind fun P₁ fn hP₁ hfn => ?_
    have heach : ∀ arg ∈ args, c.Keeps P₁ Reach.Admits (eval arg f) :=
      fun arg harg => heval ((hargs arg harg).mono hP₁) (hP₁.opens hf)
    exact (Keeps.forEach heach).bind fun P₂ vs hP₂ hvs =>
      stepApply_keeps heval n (hfn.mono hP₂) hvs

theorem turn_keeps {next : Evaluator} (heval : c.EvalKeeps eval) (hnext : c.EvalKeeps next)
    (n : Nat) : c.EvalKeeps (eval.turn n next) := by
  intro P form f hform hf
  refine (expand_keeps_of heval n hform (P.scope_of_opens hf)).bind fun P₁ form hP₁ hform => ?_
  have hf₁ : P₁.opens f := hP₁.opens hf
  split
  · obtain ⟨hhead, hargs⟩ := Reach.admitsAll_cons.mp (Reach.admits_list.mp hform).1
    refine (stepList_keeps heval n hhead hargs hf₁).bind fun P₂ step _ hstep => ?_
    cases step with
    | done v => exact .pure hstep
    | goOn form g => exact hnext hstep.1 hstep.2
  · exact evalData_keeps heval hform hf₁

theorem run_keeps (heval : c.EvalKeeps eval) (n : Nat) : c.EvalKeeps (eval.run n) := by
  induction n with
  | zero => exact fun _ _ => .halt _
  | succ n ih =>
    rw [run_turn]
    exact turn_keeps heval ih n

theorem follow_keeps (heval : c.EvalKeeps eval) (n : Nat) {step : Step} (hstep : P.AdmitsStep step) :
    c.Keeps P Reach.Admits (eval.follow n step) := by
  cases step with
  | done v => exact .pure hstep
  | goOn next g => exact run_keeps heval n hstep.1 hstep.2

/-- What becomes of an ordinary call is nothing to the frame that it stands in. -/
theorem applied_keeps (heval : c.EvalKeeps eval) (n : Nat) {fn : Value} (hfn : P.Admits fn)
    (hargs : P.AdmitsAll args) :
    c.Keeps P Reach.Admits (eval.stepApply n fn args >>= eval.follow n) :=
  (stepApply_keeps heval n hfn hargs).bind fun _ _ _ hstep => follow_keeps heval n hstep

/-- A `let*` form is evaluated without a change to the frame that it stands in. -/
theorem let_keeps (heval : c.EvalKeeps eval) (n : Nat) {head : Value} {m : Option Value}
    (hop : Special.ofHead? head = some .letForm) (hargs : P.AdmitsAll args) (hf : P (.scope f)) :
    c.Keeps P Reach.Admits (eval.finish n (.list (head :: args) m) f) := by
  have hparse : Returns (fun construct => P.AdmitsAll construct.forms ∧
      ∃ pairs body, construct = .letIn pairs body) (Special.letForm.parse args) := by
    intro construct hconstruct
    refine ⟨Special.letForm.parse_admits hargs construct hconstruct, ?_⟩
    unfold Special.parse at hconstruct
    cases hparts : Special.bindings args with
    | error fault =>
      rw [hparts] at hconstruct
      cases hconstruct
    | ok parts =>
      rw [hparts] at hconstruct
      cases hconstruct
      exact ⟨parts.1, parts.2, rfl⟩
  change c.Keeps P Reach.Admits (eval.stepList n head args f >>= eval.follow n)
  rw [stepList_special hop, step_eq, bind_assoc]
  refine .checked hparse ?_
  rintro _ ⟨hforms, pairs, body, rfl⟩
  exact (letIn_keeps heval hforms hf n).bind fun P₁ step _ hstep => follow_keeps heval n hstep

end

/-- The two runs of a form that the reach admits, in a frame of the reach, are the same. -/
theorem eval_keeps (c : Confinement) (n : Nat) : c.EvalKeeps (eval n) := by
  induction n with
  | zero => exact fun _ _ => .halt _
  | succ n ih => exact fun hform hf => (run_keeps ih n hform hf).deeper

/-- The two runs of a call are the same, if the reach admits the function and the arguments. -/
theorem call_keeps (c : Confinement) (n k : Nat) : c.CallKeeps ((eval n).call k) :=
  call_keeps_of (c.eval_keeps n) k

end Confinement

end SmallLisp
