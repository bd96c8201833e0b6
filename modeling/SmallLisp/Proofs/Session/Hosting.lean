import SmallLisp.Proofs.Confinement.Presence
import SmallLisp.Session.Basic

/-!
# Sessions as hosts

What a session does, a host can do that knows the root frame and nothing else. `Eval.Hosted` says
so of an evaluation. Starting a session, evaluating texts in it and calling its functions lead from
one host to another, so that everything that holds for hosts holds for sessions.
The main statement is `sessions_are_hosted`.
-/

namespace SmallLisp

open Session

/-! ### What a host can do in the root frame -/

/-- Whether a host that knows the root frame can do what an evaluation does. -/
def Eval.Hosted {α : Type} (m : Eval α) : Prop := ∀ host : Host, .scope root ∈ host.known →
  ∃ known, .scope root ∈ known ∧ host.Leads ⟨(m host.state).state, known⟩

namespace Eval.Hosted

variable {α β : Type} {m : Eval α} {k : α → Eval β} {fuel : Nat} {name : String} {form v : Value}

theorem of_unchanged (h : ∀ s, (m s).state = s) : m.Hosted := by
  intro host hroot
  refine ⟨host.known, hroot, ?_⟩
  rw [h]
  exact .refl

theorem pure (a : α) : Hosted (pure a) := of_unchanged fun _ => rfl

theorem fail (fault : Fault) : (Eval.fail fault : Eval α).Hosted := of_unchanged fun _ => rfl

theorem heap : Hosted Eval.heap := of_unchanged fun _ => rfl

theorem bind (hm : m.Hosted) (hk : ∀ a, (k a).Hosted) : (m >>= k).Hosted := by
  intro host hroot
  obtain ⟨known, hroot', hleads⟩ := hm host hroot
  rw [bind_apply]
  cases hrun : m host.state with
  | value a s =>
    rw [hrun] at hleads
    obtain ⟨known', hroot'', hleads'⟩ := hk a ⟨s, known⟩ hroot'
    exact ⟨known', hroot'', hleads.trans hleads'⟩
  | _ =>
    rw [hrun] at hleads
    exact ⟨known, hroot', hleads⟩

theorem forEach {visit : α → Eval β} {as : List α} (h : ∀ a ∈ as, (visit a).Hosted) :
    (Eval.forEach visit as).Hosted := by
  induction as with
  | nil => exact .pure []
  | cons a rest ih =>
    refine (h a List.mem_cons_self).bind fun b => ?_
    exact (ih fun a' ha' => h a' (List.mem_cons_of_mem a ha')).bind fun bs => .pure (b :: bs)

theorem eval (hform : ∀ P : Reach, P.Admits form) : (eval fuel form root).Hosted := by
  intro host hroot
  exact ⟨_, List.mem_append_right _ hroot, .single (.evaluation fuel (hform _) (.inl hroot))⟩

theorem define (hv : v.refs = []) : (define name v).Hosted := by
  intro host hroot
  refine ⟨host.known, hroot, ?_⟩
  exact .single (.operation (.set root ⟨name⟩ v) ⟨.inl hroot, Reach.admits_of_refs hv⟩)

/-! ### Texts and calls -/

theorem evalEach {outcomes : List (Except ReadError Value)}
    (h : ∀ form, .ok form ∈ outcomes → ∀ P : Reach, P.Admits form) (last : Value) :
    (evalEach fuel root last outcomes).Hosted := by
  induction outcomes generalizing last with
  | nil => exact .pure last
  | cons outcome rest ih =>
    cases outcome with
    | error e => exact .fail _
    | ok form =>
      refine (eval (h form List.mem_cons_self)).bind fun v => ?_
      exact ih (fun form' hform' => h form' (List.mem_cons_of_mem _ hform')) v

theorem evalString (fuel : Nat) (text : String) : (evalString fuel text).Hosted :=
  .evalEach (fun _ hform => admits_of_mem_readEach hform) .nil

theorem rep (fuel : Nat) (text : String) : (rep fuel text).Hosted :=
  (evalString fuel text).bind fun _ => heap.bind fun _ => .pure _

theorem call_apply (fuel : Nat) (name : String) (args : List Value) (s : State) :
    call fuel name args s = (match s.heap.lookup? root ⟨name⟩ with
      | some fn => (SmallLisp.eval fuel).call fuel fn args
      | none => Eval.fail (.undefinedSymbol ⟨name⟩)) s := rfl

/-- A host that calls a function by its name looks it up first. -/
theorem call {args : List Value} (hargs : ∀ P : Reach, P.AdmitsAll args) (fuel : Nat)
    (name : String) : (call fuel name args).Hosted := by
  intro host hroot
  rw [call_apply]
  unfold Heap.lookup?
  cases hx : host.state.heap.resolve? root ⟨name⟩ with
  | none => exact ⟨host.known, hroot, .refl⟩
  | some found =>
    obtain ⟨g, fn⟩ := found
    -- The frame and the value that are found are known from then on.
    let informed : Host := ⟨host.state, .scope g :: fn.refs ++ host.known⟩
    have hlookup : host.Advances informed := .lookup (.inl hroot) hx
    have hfn : informed.reach.Admits fn := by
      intro r hr
      have hknown : r ∈ informed.known :=
        List.mem_cons_of_mem _ (List.mem_append_left host.known hr)
      cases r with
      | scope f => exact .inl hknown
      | root f => exact .inr hknown
      | atom id => exact hknown
    have hcall : informed.Advances (informed.after _) := .call fuel fuel hfn (hargs _)
    have hroot' : .scope root ∈ informed.known := List.mem_append_right _ hroot
    exact ⟨_, List.mem_append_right _ hroot', .tail (.single hlookup) hcall⟩

end Eval.Hosted

/-! ### Starting -/

section

variable {s : State} {known : List Ref}

/-- A function that refers to the root frame at most is bound there. -/
theorem leads_define (hroot : .scope root ∈ known) {fn : Native} (hfn : fn.refs ⊆ [.root root]) :
    Host.Leads ⟨s, known⟩ ⟨s.withHeap (s.heap.define root fn), known⟩ := by
  let numbered : State := s.withHeap s.heap.addIdentity.2
  have hidentity : Host.Advances ⟨s, known⟩ ⟨numbered, known⟩ := .elsewhere rfl rfl
  have hadmits : (Reach.ofRefs known).Admits (.native fn s.heap.identities none) := by
    refine Reach.admits_native.mpr ⟨fun r hr => ?_, nofun⟩
    obtain rfl := List.mem_singleton.mp (hfn hr)
    exact .inl hroot
  have hset : Host.Advances ⟨numbered, known⟩ ⟨s.withHeap (s.heap.define root fn), known⟩ :=
    .operation (.set root ⟨fn.name⟩ (.native fn s.heap.identities none)) ⟨.inl hroot, hadmits⟩
  exact .tail (.single hidentity) hset

theorem leads_defineAll (hroot : .scope root ∈ known) {fns : List Native}
    (hfns : ∀ fn ∈ fns, fn.refs = []) :
    Host.Leads ⟨s, known⟩ ⟨s.withHeap (fns.foldl (fun h fn => h.define root fn) s.heap), known⟩ := by
  induction fns generalizing s with
  | nil => exact .refl
  | cons fn rest ih =>
    obtain ⟨hfn, hrest⟩ := List.forall_mem_cons.mp hfns
    have hone : Host.Leads ⟨s, known⟩ ⟨s.withHeap (s.heap.define root fn), known⟩ :=
      leads_define hroot (by simp [hfn])
    exact hone.trans (ih hrest)

theorem leads_defineCatalogue (hroot : .scope root ∈ known) :
    Host.Leads ⟨s, known⟩ ⟨s.withHeap (s.heap.defineCatalogue root), known⟩ := by
  refine leads_defineAll hroot fun fn hfn => ?_
  have hnone : Native.catalogue.flatMap Native.refs = [] := by cbv
  exact List.flatMap_eq_nil_iff.mp hnone fn hfn

end

/-- What a session does when it starts, behind the bindings of the native functions. -/
def Session.prepare (fuel : Nat) (config : Config) : Eval Unit := do
  setArgs []
  define "*host-language*" (.str config.hostLanguage)
  let _ ← Eval.forEach (evalString fuel) prelude
  return ()

theorem hosted_prepare (fuel : Nat) (config : Config) : (prepare fuel config).Hosted :=
  (Eval.Hosted.define rfl).bind fun _ => (Eval.Hosted.define rfl).bind fun _ =>
    (Eval.Hosted.forEach fun text _ => .evalString fuel text).bind fun _ => .pure ()

theorem leads_start (fuel : Nat) (config : Config) {s : State} (hs : s.heap = .empty) :
    ∃ known, .scope root ∈ known ∧ Host.Leads ⟨s, []⟩ ⟨(start fuel config s).state, known⟩ := by
  obtain ⟨heap, gauge, console, disk, clock⟩ := s
  obtain rfl : heap = .empty := hs
  let limited : State := ⟨.empty, { gauge with limit := config.maxDepth }, console, disk, clock⟩
  let rooted : State := limited.withHeap (limited.heap.addFrame none []).2
  let listed : State := rooted.withHeap (rooted.heap.defineCatalogue root)
  let furnished : State := listed.withHeap (listed.heap.define root (.eval root))
  have hroot : .scope root ∈ [Ref.scope root] := List.mem_singleton_self _
  have hlimited : Host.Advances ⟨⟨.empty, gauge, console, disk, clock⟩, []⟩ ⟨limited, []⟩ :=
    .elsewhere rfl rfl
  have hrooted : Host.Advances ⟨limited, []⟩ ⟨rooted, [.scope root]⟩ := .operation .root trivial
  have hlisted : Host.Leads ⟨rooted, [.scope root]⟩ ⟨listed, [.scope root]⟩ :=
    leads_defineCatalogue hroot
  have hfurnished : Host.Leads ⟨listed, [.scope root]⟩ ⟨furnished, [.scope root]⟩ :=
    leads_define hroot (List.Subset.refl _)
  obtain ⟨known, hknown, hprepared⟩ := hosted_prepare fuel config ⟨furnished, _⟩ hroot
  refine ⟨known, hknown, ?_⟩
  have hlimit : setLimit config.maxDepth ⟨.empty, gauge, console, disk, clock⟩ =
      .value gauge.limit limited := rfl
  have hstart : start fuel config ⟨.empty, gauge, console, disk, clock⟩ =
      prepare fuel config furnished := by
    unfold start
    rw [Eval.bind_value hlimit]
    exact Eval.bind_value rfl
  rw [hstart]
  exact .head hlimited (.head hrooted (hlisted.trans (hfurnished.trans hprepared)))

/-- Starting a session on an empty heap makes a host that knows the root frame. Such a host can
evaluate texts there and call what is bound there by its name, with data as arguments. -/
theorem sessions_are_hosted :
    (∀ fuel config s, s.heap = .empty →
      ∃ known, .scope root ∈ known ∧ Host.Leads ⟨s, []⟩ ⟨(start fuel config s).state, known⟩) ∧
    (∀ fuel text, (evalString fuel text).Hosted) ∧ (∀ fuel text, (rep fuel text).Hosted) ∧
    (∀ fuel path, (loadFile fuel path).Hosted) ∧
    ∀ fuel name args, refsOfAll args = [] → (call fuel name args).Hosted := by
  refine ⟨fun fuel config s => leads_start fuel config, .evalString, .rep, fun fuel path => ?_,
    fun fuel name args hargs => ?_⟩
  · exact .call (fun P => by simp [Reach.AdmitsAll, Reach.Admits, Value.refs]) fuel "load-file"
  · refine .call (fun P => Reach.forall_refsOfAll.mp fun r hr => ?_) fuel name
    rw [hargs] at hr
    exact absurd hr List.not_mem_nil

end SmallLisp
