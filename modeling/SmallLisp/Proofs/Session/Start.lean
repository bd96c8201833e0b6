import Mathlib
import SmallLisp.Proofs.Evaluation.Limit
import SmallLisp.Proofs.Session.LoadFile
import SmallLisp.Proofs.Table.Order

/-!
# Sessions that have started

Setting up a session binds the native functions in the root and evaluates the forms of the prelude,
which nest three levels deep. Under a lower limit no session starts; under every other one all
sessions start alike, with the bindings `Heap.started`. The main statement is `start_iff`.
-/

namespace SmallLisp

open Session (root)

/-! ### The forms of the prelude -/

namespace Prelude

def define (name : String) (expr : Value) : Value := .ofList [.named "define", .named name, expr]

def defineMacro (name : String) (expr : Value) : Value :=
  .ofList [.named "defmacro!", .named name, expr]

def lambda (params : List String) (body : Value) : Value :=
  .ofList [.named "lambda", .ofList (params.map .named), body]

def call (name : String) (args : List Value) : Value := .ofList (.named name :: args)

def quote (form : Value) : Value := call "quote" [form]

def notBody : Value := call "if" [.named "a", .bool false, .bool true]

/-- The body of `cond`, which expands to an `if` of the first clause and a `cond` of the others. -/
def condBody : Value :=
  call "if" [call ">" [call "count" [.named "xs"], .int 0],
    call "list" [quote (.named "if"), call "first" [.named "xs"],
      call "if" [call ">" [call "count" [.named "xs"], .int 1],
        call "nth" [.named "xs", .int 1],
        call "throw" [.str "odd number of forms to cond"]],
      call "cons" [quote (.named "cond"), call "rest" [call "rest" [.named "xs"]]]]]

/-- The function that counts a number up. -/
def increment : Value := lambda ["x"] (call "+" [.int 1, .named "x"])

/-- The form that counts the fresh symbols up. -/
def countUp : Value := call "swap!" [.named "*gensym-counter*", increment]

/-- The body of the function that gives fresh symbols. -/
def gensymBody : Value := call "symbol" [call "str" [.str "G__", countUp]]

def unquote (form : Value) : Value := call "unquote" [form]

/-- The template of what `or` expands to for several forms. -/
def orTemplate : Value :=
  call "let*" [.ofList [unquote (.named "condvar"), unquote (call "first" [.named "xs"])],
    call "if" [unquote (.named "condvar"), unquote (.named "condvar"),
      call "or" [call "splice-unquote" [call "rest" [.named "xs"]]]]]

/-- What `or` does with several forms: it fills the template with a fresh symbol. -/
def orSeveral : Value :=
  call "let*" [.ofList [.named "condvar", call "gensym" []], call "quasiquote" [orTemplate]]

def orSingle : Value := call "first" [.named "xs"]

/-- What `or` does with one form or more. -/
def orSome : Value :=
  call "if" [call "=" [.int 1, call "count" [.named "xs"]], orSingle, orSeveral]

/-- The body of `or`. -/
def orBody : Value := call "if" [call "empty?" [.named "xs"], .nil, orSome]

/-- The forms of the prelude in order. -/
def forms : List Value :=
  [define "not" (lambda ["a"] notBody),
    define "load-file" (lambda ["f"] loadFileBody),
    defineMacro "cond" (lambda ["&", "xs"] condBody),
    define "*gensym-counter*" (call "atom" [.int 0]),
    define "gensym" (lambda [] gensymBody),
    defineMacro "or" (lambda ["&", "xs"] orBody)]

end Prelude

theorem readEach_ofList (cs : List Char) : readEach (String.ofList cs) =
    Reader.outcomes (Position.start.after cs) [] .start (Lexeme.listFrom .start cs) := by
  unfold readEach Lexeme.list
  rw [String.toList_ofList]

theorem readEach_prelude :
    prelude.map readEach = Prelude.forms.map fun form => [.ok form] := by
  simp only [prelude, List.map_cons, List.map_nil]
  -- The characters of each text are taken from its literal here, and not decoded from its bytes.
  rw [readEach_ofList, readEach_ofList, readEach_ofList, readEach_ofList, readEach_ofList,
    readEach_ofList]
  cbv

/-! ### Starting -/

/-- The heap in which a session evaluates the prelude. -/
def Heap.furnished (language : String) : Heap :=
  ((((Heap.empty.addFrame none []).2.defineCatalogue root).define root (.eval root)).set root
    ⟨"*ARGV*"⟩ (.ofList [])).set root ⟨"*host-language*"⟩ (.str language)

/-- The native functions by their names, which have taken the first identities. -/
def Native.bound : List (String × Value) :=
  (Native.catalogue.concat (.eval root)).zipIdx.map fun (fn, identity) =>
    (fn.name, .native fn identity none)

/-- What else a session binds. A macro has another identity than the function it is made of. -/
def Prelude.bound (language : String) : List (String × Value) :=
  [("*ARGV*", .ofList []),
    ("*host-language*", .str language),
    ("not", .closure ⟨61, ⟨[⟨"a"⟩], none⟩, root, false⟩ notBody none),
    ("load-file", .closure ⟨62, ⟨[⟨"f"⟩], none⟩, root, false⟩ loadFileBody none),
    ("cond", .closure ⟨64, ⟨[], some ⟨"xs"⟩⟩, root, true⟩ condBody none),
    ("*gensym-counter*", .atom 0),
    ("gensym", .closure ⟨65, ⟨[], none⟩, root, false⟩ gensymBody none),
    ("or", .closure ⟨67, ⟨[], some ⟨"xs"⟩⟩, root, true⟩ orBody none)]

/-- The bindings of the root behind the prelude. -/
def Table.started (language : String) : Table Value :=
  .ofList (Native.bound ++ Prelude.bound language)

/-- The heap of a session that has started. -/
def Heap.started (language : String) : Heap := ⟨#[⟨.started language, none⟩], #[.int 0], 68⟩

section

variable (config : Config) (input : List UInt8) (disk : Disk) (clock : Int64)

/-- The state in which a session evaluates the prelude. -/
def State.furnished : State :=
  ⟨.furnished config.hostLanguage, .atRest config.maxDepth, ⟨input, true, "", ""⟩, disk, clock⟩

/-- The state of a session that has started. -/
def State.started : State :=
  ⟨.started config.hostLanguage, ⟨0, config.maxDepth, 3, 0⟩, ⟨input, true, "", ""⟩, disk, clock⟩

/-- The evaluation of the forms of the prelude. -/
def Prelude.evaluate (n : Nat) : Eval Unit :=
  Eval.forEach (eval n · root) Prelude.forms >>= fun _ => pure ()

theorem start_eq (n limit : Nat) : Session.start n config (.initial limit input disk clock) =
    Prelude.evaluate n (.furnished config input disk clock) := by
  have htext : Session.evalString n = fun text => evalEach n root .nil (readEach text) := rfl
  have hform : ∀ form, evalEach n root .nil [.ok form] = eval n form root :=
    fun form => bind_pure (eval n form root)
  have hprelude : Eval.forEach (Session.evalString n) prelude =
      Eval.forEach (eval n · root) Prelude.forms := by
    rw [htext, ← Eval.forEach_map, readEach_prelude, Eval.forEach_map]
    simp only [hform]
  unfold Prelude.evaluate
  rw [← hprelude]
  rfl

/-! ### Other limits and other fuel -/

theorem Prelude.evaluate_extends {n n' : Nat} (h : n ≤ n') :
    (Prelude.evaluate n).Extends (Prelude.evaluate n') := by
  have heval : ∀ form, (eval n form root).Extends (eval n' form root) :=
    fun form => eval_extends h form root
  exact Eval.extends_congruence.bind (Eval.extends_congruence.forEach heval Prelude.forms)
    fun _ => Eval.extends_congruence.pure ()

theorem Prelude.evaluate_carries (k n : Nat) :
    (Prelude.evaluate n).Carries (Gauge.raise k) (Prelude.evaluate n) := by
  have hraise := Eval.carries_congruence (Gauge.raise k)
  have heval : ∀ form, (eval n form root).Carries (Gauge.raise k) (eval n form root) :=
    fun form => eval_carries k n form root
  exact hraise.bind (hraise.forEach heval Prelude.forms) fun _ => hraise.pure ()

theorem Prelude.evaluate_unique {n n' : Nat} {s : State} {o o' : Outcome Unit}
    (h : Prelude.evaluate n s = o) (ho : o.Answers) (h' : Prelude.evaluate n' s = o')
    (ho' : o'.Answers) : o = o' := by
  have hleft := Settles.of_extends Prelude.evaluate_extends h ho
  have hright := Settles.of_extends Prelude.evaluate_extends h' ho'
  exact hleft.unique hright

theorem Prelude.evaluate_lowest (language : String) :
    Prelude.evaluate 6 (.furnished ⟨3, language⟩ input disk clock) =
      .value () (.started ⟨3, language⟩ input disk clock) := by
  cbv

theorem Prelude.evaluate_of_le (h : 3 ≤ config.maxDepth) :
    Prelude.evaluate 6 (.furnished config input disk clock) =
      .value () (.started config input disk clock) := by
  obtain ⟨limit, language⟩ := config
  have hlowest := Prelude.evaluate_lowest input disk clock language
  have hraised : 3 + (limit - 3) = limit := Nat.add_sub_cancel' h
  have hcarried :=
    Prelude.evaluate_carries (limit - 3) 6 (.furnished ⟨3, language⟩ input disk clock)
  rw [hlowest] at hcarried
  have hsame := (hcarried trivial).2 rfl
  have hgauge : (State.furnished ⟨3, language⟩ input disk clock).regauge
      (Gauge.raise (limit - 3) (.atRest 3)) = .furnished ⟨limit, language⟩ input disk clock := by
    simp only [Gauge.raise, Gauge.atRest, hraised]
    rfl
  have hstarted : (State.started ⟨3, language⟩ input disk clock).regauge
      (Gauge.raise (limit - 3) ⟨0, 3, 3, 0⟩) = .started ⟨limit, language⟩ input disk clock := by
    simp only [Gauge.raise, hraised]
    rfl
  rw [← hgauge, ← hstarted]
  exact hsame

/-- Under a limit below three the prelude is refused one of its forms. -/
theorem Prelude.evaluate_of_lt (h : config.maxDepth < 3) :
    ∃ e s, Prelude.evaluate 6 (.furnished config input disk clock) = .error e s := by
  obtain ⟨limit, language⟩ := config
  obtain rfl | rfl | rfl : limit = 0 ∨ limit = 1 ∨ limit = 2 := by
    change limit < 3 at h
    omega
  · exact ⟨_, _, by cbv⟩
  · exact ⟨_, _, by cbv⟩
  · exact ⟨_, _, by cbv⟩

end

/-- A session starts under the limits that let the prelude nest three levels deep, and then with the
one state that the settings and the surroundings give. -/
theorem start_iff (config : Config) (limit : Nat) (input : List UInt8) (disk : Disk)
    (clock : Int64) (s : State) :
    (∃ n, Session.start n config (.initial limit input disk clock) = .value () s) ↔
      3 ≤ config.maxDepth ∧ s = .started config input disk clock := by
  simp only [start_eq]
  constructor
  · rintro ⟨n, hn⟩
    by_cases hdepth : 3 ≤ config.maxDepth
    · have hstarted := Prelude.evaluate_of_le config input disk clock hdepth
      cases Prelude.evaluate_unique hn trivial hstarted trivial
      exact ⟨hdepth, rfl⟩
    · obtain ⟨e, t, he⟩ := Prelude.evaluate_of_lt config input disk clock (Nat.lt_of_not_le hdepth)
      cases Prelude.evaluate_unique hn trivial he trivial
  · rintro ⟨hdepth, rfl⟩
    exact ⟨6, Prelude.evaluate_of_le config input disk clock hdepth⟩

theorem start_sample : Session.start 6 {} (.initial 0 [] .empty 0) =
    .value () (.started {} [] .empty 0) := by
  rw [start_eq]
  exact Prelude.evaluate_of_le {} [] .empty 0 (by decide)

/-! ### What a started session binds -/

/-- The names that a started session binds. -/
def Session.names : List String :=
  (Native.catalogue.concat (.eval root)).map Native.name ++
    ["*ARGV*", "*host-language*", "not", "load-file", "cond", "*gensym-counter*", "gensym", "or"]

theorem names_bound (language : String) :
    (Native.bound ++ Prelude.bound language).map Prod.fst = Session.names := rfl

theorem nodup_names : Session.names.Nodup := by decide +kernel

theorem lookup?_started_root (language : String) (x : Symbol) :
    (Heap.started language).lookup? root x = (Table.started language).get? x.name := by
  have hroot : (Heap.started language).frames[root]? = some ⟨.started language, none⟩ := rfl
  cases hx : (Table.started language).get? x.name with
  | some v => exact Heap.lookup?_of_bound hroot hx
  | none =>
    unfold Heap.lookup? Heap.resolve?
    rw [hroot]
    dsimp only
    rw [hx]
    rfl

theorem lookup?_started {language name : String} {v : Value}
    (h : (name, v) ∈ Native.bound ++ Prelude.bound language) :
    (Heap.started language).lookup? root ⟨name⟩ = some v := by
  have hnodup : ((Native.bound ++ Prelude.bound language).map Prod.fst).Nodup := by
    rw [names_bound]
    exact nodup_names
  rw [lookup?_started_root]
  exact Table.get?_insertAll_of_mem hnodup h

theorem lookup?_started_eq_none (language : String) {name : String} (h : name ∉ Session.names) :
    (Heap.started language).lookup? root ⟨name⟩ = none := by
  have hkeys : name ∉ (Native.bound ++ Prelude.bound language).map Prod.fst := by
    rwa [names_bound]
  rw [lookup?_started_root]
  exact Table.get?_insertAll_of_not_mem hkeys

/-- No name of a special form is bound. -/
theorem specials_started {name : String} (h : (Special.ofName? name).isSome = true) :
    (Heap.started "rust").lookup? root ⟨name⟩ = none := by
  refine lookup?_started_eq_none "rust" ?_
  unfold Special.ofName? at h
  split at h
  case h_12 => cases h
  all_goals decide +kernel

theorem not_isMacro_started {names : List String}
    (h : ∀ name ∈ names, (Special.ofName? name).isSome = true) :
    ∀ name ∈ names, ¬ (Heap.started "rust").IsMacro root name :=
  fun name hname => not_isMacro_of_unbound (specials_started (h name hname))

theorem lookup?_started_prelude {language name : String} {v : Value}
    (h : (name, v) ∈ Prelude.bound language) :
    (Heap.started language).lookup? root ⟨name⟩ = some v :=
  lookup?_started (List.mem_append_right _ h)

theorem lookup?_started_native (language : String) {fn : Native}
    (h : fn ∈ Native.catalogue.concat (.eval root)) : ∃ identity,
      (Heap.started language).lookup? root ⟨fn.name⟩ = some (.native fn identity none) := by
  obtain ⟨identity, hidentity, hfn⟩ := List.getElem_of_mem h
  have hentry : (fn, identity) ∈ (Native.catalogue.concat (.eval root)).zipIdx := by
    rw [List.mk_mem_zipIdx_iff_getElem?, ← hfn]
    exact List.getElem?_eq_getElem hidentity
  have hbound : (fn.name, Value.native fn identity none) ∈ Native.bound :=
    List.mem_map.mpr ⟨_, hentry, rfl⟩
  exact ⟨identity, lookup?_started (List.mem_append_left _ hbound)⟩

theorem loadsFiles_started (language : String) : (Heap.started language).LoadsFiles where
  closure := ⟨62, none, lookup?_started_prelude (by simp [Prelude.bound])⟩
  natives := by
    have hlisted : ∀ fn ∈ loadFileNatives, fn ∈ Native.catalogue.concat (.eval root) := by decide
    intro fn hfn
    obtain ⟨identity, hbound⟩ := lookup?_started_native language (hlisted fn hfn)
    exact ⟨identity, none, hbound⟩

end SmallLisp
