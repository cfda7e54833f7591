import Lisp.Proofs.Indexed
import Lisp.Session

/-!
# Nothing faults

Every operation ends, if it ends, with a value or an error. A run that
has neither ran out of its budget, or asked for a file that nobody has
supplied (`Halt.Excused`); it has never entered a primitive with a number
of arguments that it is not made for. Actions of this kind also leave
the supply of files alone, so that they can be put together
(`Action.Faultless`): each part of a turn is one, hence a turn, a loop of
turns, and by induction on the depth an evaluation
(`faultless_evaluate`).

The evaluation that accesses everything by its index is the same
function (`Indexed.evaluate_eq`), and so are the operations of a session
and those on single scopes, one after the other. None of their accesses
is out of range, for any texts, in any world
(`Indexed.operations_in_range`).
-/

namespace Lisp

/-- Why there may be no answer. -/
def Halt.Excused (files : Files) : Halt → Prop
  | .depth | .steps => True
  | .unreadFile path => files path = none
  | .fault => False

/-- An outcome that keeps the files, or has an excuse for being none. -/
def Outcome.Faultless {α : Type} (files : Files) : Outcome α → Prop
  | .value _ w | .failure _ w => w.files = files
  | .halted why => why.Excused files

namespace Action

variable {α β : Type}

def Faultless (x : Action α) : Prop := ∀ w, (x w).Faultless w.files

/-! ## Actions without fault -/

theorem faultless_pure (a : α) : Faultless (pure a) := fun _ => rfl

theorem faultless_fail (cause : Cause) : Faultless (fail cause : Action α) := fun _ => rfl

theorem Faultless.bind {x : Action α} {f : α → Action β} (h : x.Faultless)
    (h' : ∀ a, (f a).Faultless) : (x >>= f).Faultless := by
  intro w
  have hx := h w
  rw [bind_apply]
  cases houtcome : x w with
  | value a w₁ =>
    rw [houtcome] at hx
    have hfiles : w₁.files = w.files := hx
    rw [← hfiles]
    exact h' a w₁
  | failure e w₁ =>
    rw [houtcome] at hx
    exact hx
  | halted why =>
    rw [houtcome] at hx
    exact hx

/-- What is done with the value afterwards cannot fault. -/
theorem Faultless.map {x : Action α} (h : x.Faultless) (f : α → β) :
    (x >>= fun a => pure (f a)).Faultless := h.bind fun _ => faultless_pure _

theorem faultless_ofExcept (x : Except Cause α) : Faultless (ofExcept x) := by
  cases x with
  | ok a => exact faultless_pure a
  | error cause => exact faultless_fail cause

theorem faultless_ask (f : World → α) : Faultless (ask f) := fun _ => rfl

theorem faultless_enter (parent : Option ScopeId) (bindings : List (String × Value)) :
    Faultless (enter parent bindings) := fun _ => rfl

theorem faultless_define (id : ScopeId) (name : String) (v : Value) :
    Faultless (define id name v) := fun _ => rfl

theorem faultless_lookup (id : ScopeId) (name : String) : Faultless (lookup id name) := by
  intro w
  rw [lookup]
  split <;> rfl

theorem faultless_freshObject : Faultless freshObject := fun _ => rfl

theorem faultless_newCell (v : Value) : Faultless (newCell v) := fun _ => rfl

theorem faultless_store (id : CellId) (v : Value) : Faultless (store id v) := fun _ => rfl

theorem faultless_writeLine (text : String) : Faultless (writeLine text) := fun _ => rfl

/-- The one action that may ask for a file. -/
theorem faultless_readFile (path : String) : Faultless (readFile path) := by
  intro w
  rw [readFile]
  split
  · rfl
  · rfl
  · next hfile => exact hfile

theorem faultless_enterCall (parent : ScopeId) (params : List String) (args : List Value) :
    Faultless (enterCall parent params args) :=
  (faultless_ofExcept _).bind fun _ => faultless_enter _ _

end Action

open Lisp.Action

/-! ## Primitives -/

namespace Primitive

variable {evaluate : Evaluator} {scope : ScopeId}

theorem faultless_readForm (source : String) : (readForm source).Faultless := by
  intro w
  rw [readForm]
  split <;> rfl

theorem faultless_uncallable {α : Type} (v : Value) : (uncallable v : Action α).Faultless :=
  (faultless_ask _).bind fun _ => faultless_fail _

theorem faultless_computed (result : Except Cause Number) : (computed result).Faultless := by
  refine (faultless_ofExcept result).bind fun number => ?_
  match number with
  | .whole n => exact faultless_pure _
  | .float (some x) => exact faultless_pure _
  | .float none => exact faultless_freshObject.map _

theorem faultless_variadic {p : Primitive} (h : p.arity = none) (hp : p ≠ .swap)
    (args : List Value) : (basic evaluate scope p args).Faultless := by
  cases p with
  | add | sub | mul | div => exact faultless_computed _
  | list | vector => exact faultless_pure _
  | hashMap => exact faultless_ofExcept _
  | concat => exact (faultless_ofExcept _).map _
  | printed | text => exact (faultless_ask _).map _
  | showLine | sayLine => exact (faultless_ask _).bind fun _ => (faultless_writeLine _).map _
  | swap => exact absurd rfl hp
  | _ => cases h

theorem faultless_unary (hevaluate : ∀ form scope, (evaluate form scope).Faultless)
    {p : Primitive} (h : p.arity = some 1) (v : Value) :
    (basic evaluate scope p [v]).Faultless := by
  cases p with
  | isEmpty | count | symbol => exact (faultless_ofExcept _).map _
  | vec | first | rest | keyword => exact faultless_ofExcept _
  | readText => exact (faultless_ofExcept _).bind faultless_readForm
  | slurp => exact (faultless_ofExcept _).bind fun _ => (faultless_readFile _).map _
  | newAtom => exact (faultless_newCell _).map _
  | deref => exact (faultless_ofExcept _).bind fun _ => faultless_ask _
  | eval => exact (faultless_ask _).bind fun root => hevaluate v root
  | raise => exact (faultless_ask _).bind fun _ => faultless_fail _
  | isList | isVector | isMap | isNil | isTrue | isFalse | isSymbol | isKeyword | isString
  | isNumber | isFunction | isMacro | isAtom => exact faultless_pure _
  | _ => cases h

theorem faultless_binary {p : Primitive} (h : p.arity = some 2) (a b : Value) :
    (basic evaluate scope p [a, b]).Faultless := by
  cases p with
  | equal => exact faultless_pure _
  | less | greater | atMost | atLeast => exact (faultless_ofExcept _).map _
  | cons | nth => exact faultless_ofExcept _
  | reset => exact (faultless_ofExcept _).bind fun _ => (faultless_store _ _).map _
  | _ => cases h

/-- A primitive that is entered with as many arguments as the table says
has a case for them. -/
theorem faultless_basic (hevaluate : ∀ form scope, (evaluate form scope).Faultless) {p : Primitive}
    {args : List Value} (hp : p ≠ .swap) (harity : ∀ n, p.arity = some n → args.length = n) :
    (basic evaluate scope p args).Faultless := by
  rcases p.arity_cases with h | h | h
  · exact faultless_variadic h hp args
  · obtain ⟨v, rfl⟩ := List.length_eq_one_iff.mp (harity 1 h)
    exact faultless_unary hevaluate h v
  · obtain ⟨a, b, rfl⟩ := List.length_eq_two.mp (harity 2 h)
    exact faultless_binary h a b

theorem faultless_checked (hevaluate : ∀ form scope, (evaluate form scope).Faultless)
    {p : Primitive} (hp : p ≠ .swap) (args : List Value) :
    (p.checked evaluate scope args).Faultless := by
  rw [checked]
  split
  · next n harity =>
    split
    · next hlength =>
      exact faultless_basic hevaluate hp fun n' h' =>
        hlength.trans (Option.some.inj (harity.symm.trans h'))
    · exact faultless_fail _
  · next harity => exact faultless_basic hevaluate hp (by simp [harity])

end Primitive

/-! ## Application -/

section

variable {nested expandAll : Evaluator} {scope : ScopeId}
  (hnested : ∀ form scope, (nested form scope).Faultless)

include hnested

/-- `swap!` takes one argument off and applies, so the induction is on
the number of arguments. -/
theorem faultless_apply (f : Value) (args : List Value) :
    (apply nested scope f args).Faultless := by
  induction hlength : args.length using Nat.strongRecOn generalizing f args with
  | ind n ih =>
    cases f with
    | closure object expander params body captured =>
      rw [apply_closure]
      exact (faultless_enterCall _ _ _).bind fun inner => hnested body inner
    | builtin p =>
      by_cases hp : p = .swap
      · subst hp
        rcases args with _ | ⟨target, _ | ⟨f, more⟩⟩
        · exact faultless_fail _
        · rw [apply_swap_tooFew (Nat.lt_succ_self _)]
          exact faultless_fail _
        · rw [apply_swap]
          refine (faultless_ofExcept _).bind fun cell => (faultless_ask _).bind fun v => ?_
          have hlt : (v :: more).length < n := by
            rw [← hlength, List.length_cons, List.length_cons, List.length_cons]
            omega
          exact (ih _ hlt f (v :: more) rfl).bind fun _ => (faultless_store _ _).map _
      · rw [apply_builtin hp]
        exact Primitive.faultless_checked hnested hp args
    | _ =>
      rw [apply_uncallable id]
      exact Primitive.faultless_uncallable _

/-! ## Turns -/

theorem faultless_expandTurn (form : Value) (scope : ScopeId) :
    (expandTurn nested form scope).Faultless := by
  refine (faultless_ask _).bind fun call? => ?_
  match call? with
  | some (params, body, captured, args) =>
    exact (faultless_enterCall _ _ _).bind fun inner => (hnested body inner).map _
  | none => exact faultless_pure _

theorem faultless_evaluateEach (scope : ScopeId) (forms : List Value) :
    (evaluateEach nested scope forms).Faultless := by
  induction forms with
  | nil => exact faultless_pure _
  | cons form rest ih => exact (hnested form scope).bind fun _ => ih.map _

theorem faultless_evaluateData (form : Value) : (evaluateData nested scope form).Faultless := by
  cases form with
  | symbol name => exact faultless_lookup scope name
  | vector items => exact (faultless_evaluateEach hnested scope items).map _
  | map entries =>
    exact (faultless_evaluateEach hnested scope _).bind fun _ => faultless_ofExcept _
  | _ => exact faultless_pure _

theorem faultless_bindEach (scope : ScopeId) :
    ∀ items, (bindEach nested scope items).Faultless
  | _ :: form :: rest =>
    (faultless_ofExcept _).bind fun _ => (hnested form scope).bind fun _ =>
      (faultless_define _ _ _).bind fun _ => faultless_bindEach scope rest
  | [] | [_] => faultless_pure _

theorem faultless_runSequence (scope : ScopeId) (forms : List Value) :
    (runSequence nested scope forms).Faultless := by
  induction forms with
  | nil => exact faultless_pure _
  | cons form rest ih =>
    cases rest with
    | nil => exact faultless_pure _
    | cons following rest =>
      rw [runSequence_cons]
      exact (hnested form scope).bind fun _ => ih

omit hnested in
theorem faultless_asMacro (v : Value) : (asMacro v).Faultless := by
  cases v with
  | closure object expander params body captured => exact faultless_freshObject.map _
  | _ => exact faultless_fail _

theorem faultless_specialTurn (hexpand : ∀ form scope, (expandAll form scope).Faultless)
    (special : SpecialForm) (operands : List Value) :
    (specialTurn nested expandAll scope special operands).Faultless := by
  fun_cases specialTurn nested expandAll scope special operands with
  | case1 name form =>
    exact (faultless_ofExcept _).bind fun name => (hnested form scope).bind fun v =>
      (faultless_define scope name v).map _
  | case2 bindings body items =>
    exact (faultless_enter _ _).bind fun inner => (faultless_bindEach hnested inner items).map _
  | case3 | case4 | case6 | case14 => exact faultless_fail _
  | case5 condition yes no => exact (hnested condition scope).map _
  | case7 => exact faultless_runSequence hnested scope operands
  | case8 => exact (faultless_ofExcept _).bind fun _ => faultless_freshObject.map _
  | case9 => exact faultless_pure _
  | case10 | case11 => exact (faultless_ofExcept _).map _
  | case12 name form =>
    exact (faultless_ofExcept _).bind fun name => (hnested form scope).bind fun v =>
      (faultless_asMacro v).bind fun v => (faultless_define scope name v).map _
  | case13 form => exact (hexpand form scope).map _

theorem faultless_callTurn (operator : Value) (operands : List Value) :
    (callTurn nested scope operator operands).Faultless := by
  refine (hnested operator scope).bind fun callee =>
    (faultless_evaluateEach hnested scope operands).bind fun args => ?_
  cases callee with
  | closure object expander params body captured => exact (faultless_enterCall _ _ _).map _
  | builtin p => exact (faultless_apply hnested _ args).map _
  | _ => exact Primitive.faultless_uncallable _

theorem faultless_turn (hexpand : ∀ form scope, (expandAll form scope).Faultless) (form : Value)
    (scope : ScopeId) : (turn nested expandAll form scope).Faultless := by
  refine (faultless_expandTurn hnested form scope).bind fun next => ?_
  match next with
  | .next expansion scope => exact faultless_pure _
  | .done (.list []) => exact faultless_pure _
  | .done (.list (operator :: operands)) =>
    change (plainTurn nested expandAll (.list (operator :: operands)) scope).Faultless
    rw [plainTurn_list]
    split
    · exact faultless_specialTurn hnested hexpand _ operands
    · exact faultless_callTurn hnested operator operands
  | .done (.vector _) | .done (.map _) | .done (.symbol _) | .done .nil | .done (.bool _)
  | .done (.int _) | .done (.float _) | .done (.nan _) | .done (.string _) | .done (.keyword _)
  | .done (.closure ..) | .done (.builtin _) | .done (.atom _) =>
    exact (faultless_evaluateData hnested _).map _

omit hnested in
theorem faultless_loop {turn : Value → ScopeId → Action Turn}
    (h : ∀ form scope, (turn form scope).Faultless) (steps : Nat) :
    ∀ form scope, (loop turn steps form scope).Faultless := by
  induction steps with
  | zero => exact fun _ _ _ => trivial
  | succ steps ih =>
    intro form scope
    rw [loop_succ]
    refine (h form scope).bind fun next => ?_
    cases next with
    | done v => exact faultless_pure v
    | next form scope => exact ih form scope

end

theorem faultless_evaluate (steps depth : Nat) :
    ∀ form scope, (evaluate steps depth form scope).Faultless := by
  induction depth with
  | zero => exact fun _ _ _ => trivial
  | succ depth ih =>
    have hexpand := faultless_loop (faultless_expandTurn ih) steps
    exact faultless_loop (faultless_turn ih hexpand) steps

/-! ## Operations -/

/-- What can be asked of a session, of single scopes, and of the reader
alone. -/
inductive Operation where
  | tokenize (text : String)
  /-- Reads the first form of a text. -/
  | read (text : String)
  /-- The call that a template stands for. -/
  | template (text : String)
  /-- Evaluates a source in the root scope. -/
  | source (text : String)
  /-- The same, with the result written readably. -/
  | reply (text : String)
  | load (path : String)
  /-- A scope inside no other. -/
  | newScope
  | child (scope : ScopeId)
  /-- Enters a scope as a call does. The arguments are the first forms of
  some texts. -/
  | bind (scope : ScopeId) (params : List String) (texts : List String)
  | define (scope : ScopeId) (name : String) (text : String)
  | get (scope : ScopeId) (name : String)
  | find (scope : ScopeId) (name : String)
  /-- Evaluates a source in a scope. -/
  | eval (scope : ScopeId) (text : String)
  | apply (scope : ScopeId) (f : Value) (args : List Value)
  | root (scope : ScopeId)

inductive Answer where
  | tokens (stream : TokenStream)
  | value (v : Value)
  | text (text : String)
  | scope (id : ScopeId)
  | found (v : Option Value)
  | done

def Operation.run (b : Budget) : Operation → Action Answer
  | .tokenize text => return .tokens (Lisp.tokenize text)
  | .read text => return .value (← Primitive.readForm text)
  | .template text => do
    return .value (← ofExcept (Quasiquote.expand (← Primitive.readForm text)))
  | .source text => return .value (← Session.eval b text)
  | .reply text => return .text (← Session.reply b text)
  | .load path => return .value (← Session.load b path)
  | .newScope => return .scope (← Action.enter none [])
  | .child scope => return .scope (← Action.enter (some scope) [])
  | .bind scope params texts => do
    return .scope (← enterCall scope params (← texts.mapM Primitive.readForm))
  | .define scope name text => do
    Action.define scope name (← Primitive.readForm text)
    return .done
  | .get scope name => return .value (← lookup scope name)
  | .find scope name => return .found (← ask (·.find? scope name))
  | .eval scope text => do
    return .value (← evaluate b.steps b.depth (← Primitive.readForm text) scope)
  | .apply scope f args => return .value (← Lisp.apply (evaluate b.steps b.depth) scope f args)
  | .root scope => return .scope (← ask (·.root scope))

/-- The outcomes of operations, each in the world that the one before
has left. After one without an answer there are no more. -/
def outcomes (run : Operation → Action Answer) : List Operation → World → List (Outcome Answer)
  | [], _ => []
  | operation :: rest, w =>
    run operation w :: match run operation w with
      | .value _ w | .failure _ w => outcomes run rest w
      | .halted _ => []

theorem Session.faultless_eval (b : Budget) (text : String) : (Session.eval b text).Faultless :=
  (Primitive.faultless_readForm text).bind fun form =>
    faultless_evaluate b.steps b.depth form Session.rootScope

theorem faultless_mapM {α β : Type} {f : α → Action β} (h : ∀ a, (f a).Faultless) (as : List α) :
    (as.mapM f).Faultless := by
  induction as with
  | nil => exact faultless_pure _
  | cons a as ih =>
    rw [List.mapM_cons]
    exact (h a).bind fun b => ih.map _

theorem Operation.faultless_run (b : Budget) (operation : Operation) :
    (operation.run b).Faultless := by
  have hread := Primitive.faultless_readForm
  have hevaluate := faultless_evaluate b.steps b.depth
  cases operation with
  | tokenize text => exact faultless_pure _
  | read text => exact (hread text).map _
  | template text => exact (hread text).bind fun form => (faultless_ofExcept _).map _
  | source text => exact (Session.faultless_eval b text).map _
  | reply text =>
    have hreply : (Session.reply b text).Faultless :=
      (Session.faultless_eval b text).bind fun _ => faultless_ask _
    exact hreply.map _
  | load path => exact (hevaluate _ _).map _
  | newScope | child scope => exact (faultless_enter _ _).map _
  | bind scope params texts =>
    exact (faultless_mapM hread texts).bind fun args => (faultless_enterCall _ _ _).map _
  | define scope name text => exact (hread text).bind fun v => (faultless_define _ _ _).map _
  | get scope name => exact (faultless_lookup scope name).map _
  | find scope name | root scope => exact (faultless_ask _).map _
  | eval scope text => exact (hread text).bind fun form => (hevaluate form scope).map _
  | apply scope f args => exact (faultless_apply hevaluate f args).map _

/-- Faults can only come from an operation, and files are as they were at
the start. -/
theorem faultless_outcomes {run : Operation → Action Answer} (h : ∀ operation, (run operation).Faultless)
    (operations : List Operation) (w : World) :
    ∀ outcome ∈ outcomes run operations w, outcome.Faultless w.files := by
  induction operations generalizing w with
  | nil => exact fun _ hmem => nomatch hmem
  | cons operation rest ih =>
    have hfirst := h operation w
    rw [outcomes]
    intro outcome hmem
    rcases List.mem_cons.mp hmem with rfl | hmem
    · exact hfirst
    · cases hrun : run operation w with
      | value answer w₁ | failure e w₁ =>
        rw [hrun] at hfirst hmem
        have hfiles : w₁.files = w.files := hfirst
        rw [← hfiles]
        exact ih w₁ outcome hmem
      | halted why =>
        rw [hrun] at hmem
        cases hmem

/-! ## Operations by index -/

namespace Indexed

def evalForm (b : Budget) (form : Value) : Action Value :=
  evaluate b.steps b.depth form Session.rootScope

def eval (b : Budget) (text : String) : Action Value := do evalForm b (← readForm text)

def run (b : Budget) : Operation → Action Answer
  | .tokenize text => return .tokens (← inRange (tokenize text))
  | .read text => return .value (← readForm text)
  | .template text => do
    return .value (← computation (Quasiquote.expand (← readForm text)))
  | .source text => return .value (← eval b text)
  | .reply text => do
    let v ← eval b text
    return .text (← ask (·.text true v))
  | .load path => return .value (← evalForm b (.list [.symbol "load-file", .string path]))
  | .newScope => return .scope (← Action.enter none [])
  | .child scope => return .scope (← Action.enter (some scope) [])
  | .bind scope params texts => do
    return .scope (← enterCall scope params (← texts.mapM readForm))
  | .define scope name text => do
    Action.define scope name (← readForm text)
    return .done
  | .get scope name => return .value (← lookup scope name)
  | .find scope name => return .found (← ask (·.find? scope name))
  | .eval scope text => do
    return .value (← evaluate b.steps b.depth (← readForm text) scope)
  | .apply scope f args => return .value (← apply (evaluate b.steps b.depth) scope f args)
  | .root scope => return .scope (← ask (·.root scope))

theorem eval_eq (b : Budget) (text : String) : eval b text = Session.eval b text := by
  simp only [eval, evalForm, Session.eval, Session.evalForm, readForm_eq, evaluate_eq]

theorem run_eq (b : Budget) : run b = Operation.run b := by
  funext operation
  cases operation with
  | tokenize text =>
    rw [run, tokenize_eq]
    rfl
  | reply text =>
    rw [run, eval_eq, Operation.run, Session.reply, bind_assoc]
  | _ =>
    simp only [run, Operation.run, Session.load, Session.evalForm, evalForm, readForm_eq, eval_eq,
      enterCall_eq, computation_expand, evaluate_eq, apply_eq]

/-- Operations that access everything by its index do the same as the
ones that take everything apart by its shape, whatever the texts, the
names and the world. So none of their accesses is out of range, and each
operation ends, if it ends, with an answer or an error. The sources of
the prelude are operations as well, in the world that has the primitives
only. -/
theorem operations_in_range (b : Budget) (operations : List Operation) (w : World) :
    outcomes (run b) operations w = outcomes (Operation.run b) operations w ∧
      ∀ outcome ∈ outcomes (run b) operations w, outcome.Faultless w.files := by
  rw [run_eq]
  exact ⟨rfl, faultless_outcomes (Operation.faultless_run b) operations w⟩

end Indexed

end Lisp
