import Lisp.Proofs.Evolution
import Lisp.Proofs.Semantics
import Mathlib.Logic.Relation

/-!
# What happens during an evaluation

The rules say how an evaluation ends; this module says what it comes to
on the way. A moment is something that is about to be done, in a scope
and in a world, and `Part` relates it to the moments right inside it, in
the worlds that what comes before them leaves. Whatever happens during
an evaluation happens at a moment that is reached from it by `Part`, and
it does so no matter whether the evaluation ever ends.

Two things matter here: the definitions that `def!` and `defmacro!` make
in a scope (`Moment.Makes`), and the root scopes that `eval` evaluates
in (`Moment.EvalsIn`).
-/

namespace Lisp

/-- What can be about to be done: one task for each judgement of the
rules. -/
inductive Task where
  | evaluate (form : Value)
  | expand (form : Value)
  | plain (form : Value)
  | special (form : SpecialForm) (operands : List Value)
  | each (forms : List Value)
  | bind (items : List Value)
  | sequence (forms : List Value)
  | apply (f : Value) (args : List Value)

/-- The values that a task is about. -/
def Task.values : Task → List Value
  | evaluate form | expand form | plain form => [form]
  | special _ values | each values | bind values | sequence values => values
  | apply f args => f :: args

structure Moment where
  task : Task
  scope : ScopeId
  world : World

/-- The second moment is right inside the first: what comes before it
has been done, and now it is done as a part. -/
inductive Part : Moment → Moment → Prop
  | expansion {form : Value} {scope : ScopeId} {w : World} :
      Part ⟨.evaluate form, scope, w⟩ ⟨.expand form, scope, w⟩
  | expanded {form expansion : Value} {scope : ScopeId} {w w₁ : World}
      (h : Expands form scope w (.ok expansion) w₁) :
      Part ⟨.evaluate form, scope, w⟩ ⟨.plain expansion, scope, w₁⟩
  | macroBody {form body : Value} {scope captured : ScopeId} {w : World} {params : List String}
      {args : List Value} {bindings : List (String × Value)}
      (h : w.macroCall? scope form = some (params, body, captured, args))
      (hargs : Call.bindings params args = .ok bindings) :
      Part ⟨.expand form, scope, w⟩ ⟨.evaluate body, w.scopes.size, w.enter captured bindings⟩
  | macroRest {form body expansion : Value} {scope captured : ScopeId} {w w₁ : World}
      {params : List String} {args : List Value} {bindings : List (String × Value)}
      (h : w.macroCall? scope form = some (params, body, captured, args))
      (hargs : Call.bindings params args = .ok bindings)
      (hbody : Evaluates body w.scopes.size (w.enter captured bindings) (.ok expansion) w₁) :
      Part ⟨.expand form, scope, w⟩ ⟨.expand expansion, scope, w₁⟩
  | elements {items : List Value} {scope : ScopeId} {w : World} :
      Part ⟨.plain (.vector items), scope, w⟩ ⟨.each items, scope, w⟩
  | entries {entries : List (Value × Value)} {scope : ScopeId} {w : World} :
      Part ⟨.plain (.map entries), scope, w⟩ ⟨.each (Value.alternating entries), scope, w⟩
  | special {operator : Value} {operands : List Value} {form : SpecialForm} {scope : ScopeId}
      {w : World} (h : operator.special? = some form) :
      Part ⟨.plain (.list (operator :: operands)), scope, w⟩ ⟨.special form operands, scope, w⟩
  | operator {operator : Value} {operands : List Value} {scope : ScopeId} {w : World}
      (h : operator.special? = none) :
      Part ⟨.plain (.list (operator :: operands)), scope, w⟩ ⟨.evaluate operator, scope, w⟩
  | operands {operator callee : Value} {operands : List Value} {scope : ScopeId} {w w₁ : World}
      (h : operator.special? = none) (hoperator : Evaluates operator scope w (.ok callee) w₁) :
      Part ⟨.plain (.list (operator :: operands)), scope, w⟩ ⟨.each operands, scope, w₁⟩
  | call {operator callee : Value} {operands args : List Value} {scope : ScopeId}
      {w w₁ w₂ : World} (h : operator.special? = none)
      (hoperator : Evaluates operator scope w (.ok callee) w₁)
      (hoperands : EvaluatesEach operands scope w₁ (.ok args) w₂) :
      Part ⟨.plain (.list (operator :: operands)), scope, w⟩ ⟨.apply callee args, scope, w₂⟩
  | define {target form : Value} {name : String} {scope : ScopeId} {w : World}
      (h : SpecialForm.define.nameOf target = .ok name) :
      Part ⟨.special .define [target, form], scope, w⟩ ⟨.evaluate form, scope, w⟩
  | defineMacro {target form : Value} {name : String} {scope : ScopeId} {w : World}
      (h : SpecialForm.defineMacro.nameOf target = .ok name) :
      Part ⟨.special .defineMacro [target, form], scope, w⟩ ⟨.evaluate form, scope, w⟩
  | letBindings {bindings body : Value} {items : List Value} {scope : ScopeId} {w : World}
      (h : bindings.letPairs? = some items) :
      Part ⟨.special .letIn [bindings, body], scope, w⟩
        ⟨.bind items, w.scopes.size, w.enter scope []⟩
  | letBody {bindings body : Value} {items : List Value} {scope : ScopeId} {w w₁ : World}
      (h : bindings.letPairs? = some items)
      (hbindings : Binds items w.scopes.size (w.enter scope []) (.ok ()) w₁) :
      Part ⟨.special .letIn [bindings, body], scope, w⟩ ⟨.evaluate body, w.scopes.size, w₁⟩
  | condition {condition yes : Value} {no : List Value} {scope : ScopeId} {w : World}
      (h : no.length ≤ 1) :
      Part ⟨.special .branch (condition :: yes :: no), scope, w⟩ ⟨.evaluate condition, scope, w⟩
  | yes {condition yes v : Value} {no : List Value} {scope : ScopeId} {w w₁ : World}
      (h : no.length ≤ 1) (hcondition : Evaluates condition scope w (.ok v) w₁)
      (hv : v.isTruthy = true) :
      Part ⟨.special .branch (condition :: yes :: no), scope, w⟩ ⟨.evaluate yes, scope, w₁⟩
  | no {condition yes no v : Value} {scope : ScopeId} {w w₁ : World}
      (hcondition : Evaluates condition scope w (.ok v) w₁) (hv : v.isTruthy = false) :
      Part ⟨.special .branch [condition, yes, no], scope, w⟩ ⟨.evaluate no, scope, w₁⟩
  | sequence {forms : List Value} {scope : ScopeId} {w : World} :
      Part ⟨.special .sequence forms, scope, w⟩ ⟨.sequence forms, scope, w⟩
  | quasiquote {template form : Value} {scope : ScopeId} {w : World}
      (h : Quasiquote.expand template = .ok form) :
      Part ⟨.special .quasiquote [template], scope, w⟩ ⟨.evaluate form, scope, w⟩
  | expandMacros {form : Value} {scope : ScopeId} {w : World} :
      Part ⟨.special .expandMacros [form], scope, w⟩ ⟨.expand form, scope, w⟩
  | eachFirst {form : Value} {rest : List Value} {scope : ScopeId} {w : World} :
      Part ⟨.each (form :: rest), scope, w⟩ ⟨.evaluate form, scope, w⟩
  | eachRest {form v : Value} {rest : List Value} {scope : ScopeId} {w w₁ : World}
      (h : Evaluates form scope w (.ok v) w₁) :
      Part ⟨.each (form :: rest), scope, w⟩ ⟨.each rest, scope, w₁⟩
  | bindFirst {target form : Value} {rest : List Value} {name : String} {scope : ScopeId}
      {w : World} (h : SpecialForm.letIn.nameOf target = .ok name) :
      Part ⟨.bind (target :: form :: rest), scope, w⟩ ⟨.evaluate form, scope, w⟩
  | bindRest {target form v : Value} {rest : List Value} {name : String} {scope : ScopeId}
      {w w₁ : World} (h : SpecialForm.letIn.nameOf target = .ok name)
      (hform : Evaluates form scope w (.ok v) w₁) :
      Part ⟨.bind (target :: form :: rest), scope, w⟩ ⟨.bind rest, scope, w₁.define scope name v⟩
  | sequenceFirst {form : Value} {rest : List Value} {scope : ScopeId} {w : World} :
      Part ⟨.sequence (form :: rest), scope, w⟩ ⟨.evaluate form, scope, w⟩
  | sequenceRest {form v : Value} {rest : List Value} {scope : ScopeId} {w w₁ : World}
      (h : Evaluates form scope w (.ok v) w₁) :
      Part ⟨.sequence (form :: rest), scope, w⟩ ⟨.sequence rest, scope, w₁⟩
  | closureBody {object : ObjectId} {expander : Bool} {params : List String} {body : Value}
      {args : List Value} {bindings : List (String × Value)} {scope captured : ScopeId}
      {w : World} (h : Call.bindings params args = .ok bindings) :
      Part ⟨.apply (.closure object expander params body captured) args, scope, w⟩
        ⟨.evaluate body, w.scopes.size, w.enter captured bindings⟩
  /-- The form is evaluated in the root of the scope of the call. -/
  | eval {form : Value} {scope : ScopeId} {w : World} :
      Part ⟨.apply (.builtin .eval) [form], scope, w⟩ ⟨.evaluate form, w.root scope, w⟩
  | swap {f : Value} {more : List Value} {cell : CellId} {scope : ScopeId} {w : World} :
      Part ⟨.apply (.builtin .swap) (.atom cell :: f :: more), scope, w⟩
        ⟨.apply f (w.contents cell :: more), scope, w⟩

namespace Moment

/-- The moment is that of a `def!` or a `defmacro!`, and this is what it
defines. -/
inductive Defines : Moment → String → Value → Prop
  | define {target form v : Value} {name : String} {scope : ScopeId} {w w₁ : World}
      (h : SpecialForm.define.nameOf target = .ok name)
      (hform : Evaluates form scope w (.ok v) w₁) :
      Defines ⟨.special .define [target, form], scope, w⟩ name v
  | defineMacro {target form body : Value} {name : String} {object : ObjectId}
      {expander : Bool} {params : List String} {scope captured : ScopeId} {w w₁ : World}
      (h : SpecialForm.defineMacro.nameOf target = .ok name)
      (hform : Evaluates form scope w (.ok (.closure object expander params body captured)) w₁) :
      Defines ⟨.special .defineMacro [target, form], scope, w⟩ name
        (.closure w₁.objects true params body captured)

/-- A moment that is reached from another one. -/
def Reaches (m m' : Moment) : Prop := Relation.ReflTransGen Part m m'

/-- During the moment, a `def!` or a `defmacro!` that is evaluated
directly in the scope defines the name. -/
def Makes (m : Moment) (s : ScopeId) (name : String) (v : Value) : Prop :=
  ∃ m', m.Reaches m' ∧ m'.scope = s ∧ m'.Defines name v

/-- During the moment, `eval` is applied to a form where the scope is
the root. -/
def EvalsIn (m : Moment) (s : ScopeId) : Prop :=
  ∃ m' form, m.Reaches m' ∧ m'.task = .apply (.builtin .eval) [form] ∧ m'.world.root m'.scope = s

/-- A root scope that was there before and that `eval` gets at. -/
structure OpenToEval (m : Moment) (s : ScopeId) : Prop where
  parentless : m.world.Parentless s
  evaluated : m.EvalsIn s

/-! ## Parts of moments -/

variable {m m₁ : Moment} {s : ScopeId} {name : String} {v : Value}

theorem Makes.part (hpart : Part m m₁) (h : m₁.Makes s name v) : m.Makes s name v := by
  obtain ⟨m', hreaches, hscope, hdefines⟩ := h
  exact ⟨m', .head hpart hreaches, hscope, hdefines⟩

theorem EvalsIn.part (hpart : Part m m₁) (h : m₁.EvalsIn s) : m.EvalsIn s := by
  obtain ⟨m', form, hreaches, htask, hroot⟩ := h
  exact ⟨m', form, .head hpart hreaches, htask, hroot⟩

theorem OpenToEval.part (hpart : Part m m₁)
    (hparentless : m₁.world.Parentless s → m.world.Parentless s) (h : m₁.OpenToEval s) :
    m.OpenToEval s :=
  ⟨hparentless h.parentless, h.evaluated.part hpart⟩

/-! ## Readiness -/

/-- The world of the moment is well formed and has its scope, and what
the task is about captures only scopes of the world. -/
structure Ready (m : Moment) : Prop where
  wellFormed : m.world.WellFormed
  scope : m.scope < m.world.scopes.size
  holds : ∀ v ∈ m.task.values, m.world.Holds v

theorem Ready.same (h : m.Ready) {task : Task}
    (hvalues : ∀ v ∈ task.values, m.world.Holds v) : Ready ⟨task, m.scope, m.world⟩ :=
  ⟨h.wellFormed, h.scope, hvalues⟩

theorem Ready.later {D : ScopeId → String → Value → Prop} {w₁ : World} (h : m.Ready)
    (hevolves : World.Evolves D m.world w₁) {task : Task}
    (hvalues : ∀ v ∈ task.values, w₁.Holds v) : Ready ⟨task, m.scope, w₁⟩ :=
  ⟨hevolves.wellFormed, Nat.lt_of_lt_of_le h.scope hevolves.size_le, hvalues⟩

/-- A value that the task is about can be evaluated next. -/
theorem Ready.form (h : m.Ready) {form : Value} (hform : form ∈ m.task.values) :
    Ready ⟨.evaluate form, m.scope, m.world⟩ :=
  h.same (List.forall_mem_singleton.mpr (h.holds form hform))

theorem Ready.formLater {D : ScopeId → String → Value → Prop} {w₁ : World} (h : m.Ready)
    (hevolves : World.Evolves D m.world w₁) {form : Value} (hform : form ∈ m.task.values) :
    Ready ⟨.evaluate form, m.scope, w₁⟩ :=
  h.later hevolves (List.forall_mem_singleton.mpr (hevolves.holds (h.holds form hform)))

end Moment

end Lisp
