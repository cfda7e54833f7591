import Lisp.Evaluation
import Lisp.Proofs.Actions
import Lisp.Proofs.Parts

/-!
# What evaluation means

The meaning of forms, as a relation between a form, a scope and a world
on one side and a result and a world on the other. There is a rule for
each case, and a premise for each evaluation that is part of another
one. Nothing here loops and nothing is bounded: the body of a `let*` or
of a closure is evaluated like any other form.

Errors are results. A rule named `...Fails` says that an error of a
part is the result of the whole, in the world that the part left.
-/

namespace Lisp

/-- The numbers of operands that a special form takes. -/
def SpecialForm.takes : SpecialForm → Nat → Bool
  | .define, n | .letIn, n | .function, n | .defineMacro, n => n = 2
  | .branch, n => n = 2 ∨ n = 3
  | .sequence, _ => true
  | .quote, n | .quasiquoteExpand, n | .quasiquote, n | .expandMacros, n => n = 1

namespace Value

/-- Neither a name nor something with forms inside. -/
def SelfEvaluating : Value → Prop
  | symbol _ | list _ | vector _ | map _ => False
  | _ => True

/-- Can be applied to arguments. -/
def Callable : Value → Prop
  | closure .. | builtin _ => True
  | _ => False

/-- The elements of the bindings of a `let*`, names and forms in turn. -/
def letPairs? (v : Value) : Option (List Value) := v.items?.filter fun items => items.length % 2 = 0

theorem even_of_letPairs? {v : Value} {items : List Value} (h : v.letPairs? = some items) :
    items.length % 2 = 0 :=
  of_decide_eq_true (Option.filter_eq_some_iff.mp h).2

/-- The special form that an operator names. -/
def special? : Value → Option SpecialForm
  | symbol name => SpecialForm.ofName? name
  | _ => none

end Value

mutual

/-- Macros are expanded first, and what is left is evaluated. -/
inductive Evaluates : Value → ScopeId → World → Except Error Value → World → Prop
  | expansionFails {form : Value} {scope : ScopeId} {w w₁ : World} {e : Error}
      (h : Expands form scope w (.error e) w₁) : Evaluates form scope w (.error e) w₁
  | expanded {form expansion : Value} {scope : ScopeId} {w w₁ w₂ : World}
      {r : Except Error Value} (h : Expands form scope w (.ok expansion) w₁)
      (h' : EvaluatesPlain expansion scope w₁ r w₂) : Evaluates form scope w r w₂

/-- A call of a macro is replaced by what the body of the macro gives,
until the form is no such call. The operands are not evaluated. -/
inductive Expands : Value → ScopeId → World → Except Error Value → World → Prop
  | plain {form : Value} {scope : ScopeId} {w : World} (h : w.macroCall? scope form = none) :
      Expands form scope w (.ok form) w
  | misfit {form body : Value} {scope captured : ScopeId} {w : World} {params : List String}
      {args : List Value} {cause : Cause}
      (h : w.macroCall? scope form = some (params, body, captured, args))
      (hargs : Call.bindings params args = .error cause) :
      Expands form scope w (.error (.raised cause)) w
  | bodyFails {form body : Value} {scope captured : ScopeId} {w w₁ : World}
      {params : List String} {args : List Value} {bindings : List (String × Value)} {e : Error}
      (h : w.macroCall? scope form = some (params, body, captured, args))
      (hargs : Call.bindings params args = .ok bindings)
      (hbody : Evaluates body w.scopes.size (w.enter captured bindings) (.error e) w₁) :
      Expands form scope w (.error e) w₁
  | step {form body expansion : Value} {scope captured : ScopeId} {w w₁ w₂ : World}
      {params : List String} {args : List Value} {bindings : List (String × Value)}
      {r : Except Error Value}
      (h : w.macroCall? scope form = some (params, body, captured, args))
      (hargs : Call.bindings params args = .ok bindings)
      (hbody : Evaluates body w.scopes.size (w.enter captured bindings) (.ok expansion) w₁)
      (hrest : Expands expansion scope w₁ r w₂) : Expands form scope w r w₂

/-- A form that calls no macro. -/
inductive EvaluatesPlain : Value → ScopeId → World → Except Error Value → World → Prop
  | bound {name : String} {v : Value} {scope : ScopeId} {w : World}
      (h : w.find? scope name = some v) : EvaluatesPlain (.symbol name) scope w (.ok v) w
  | unbound {name : String} {scope : ScopeId} {w : World} (h : w.find? scope name = none) :
      EvaluatesPlain (.symbol name) scope w (.error (.raised (.unbound name))) w
  | vector {items : List Value} {scope : ScopeId} {w w₁ : World}
      {vs : Except Error (List Value)} (h : EvaluatesEach items scope w vs w₁) :
      EvaluatesPlain (.vector items) scope w (vs.map .vector) w₁
  /-- The key and the value of each entry in turn; then the map is
  built again, since keys may have become equal. -/
  | map {entries : List (Value × Value)} {scope : ScopeId} {w w₁ : World}
      {vs : Except Error (List Value)}
      (h : EvaluatesEach (Value.alternating entries) scope w vs w₁) :
      EvaluatesPlain (.map entries) scope w
        (vs.map fun vs => .map (Entries.ofPairs (Entries.pairs vs))) w₁
  | self {v : Value} {scope : ScopeId} {w : World} (h : v.SelfEvaluating) :
      EvaluatesPlain v scope w (.ok v) w
  | emptyList {scope : ScopeId} {w : World} :
      EvaluatesPlain (.list []) scope w (.ok (.list [])) w
  | special {operator : Value} {operands : List Value} {form : SpecialForm} {scope : ScopeId}
      {w w₁ : World} {r : Except Error Value} (h : operator.special? = some form)
      (h' : EvaluatesSpecial form operands scope w r w₁) :
      EvaluatesPlain (.list (operator :: operands)) scope w r w₁
  | operatorFails {operator : Value} {operands : List Value} {scope : ScopeId} {w w₁ : World}
      {e : Error} (h : operator.special? = none)
      (hoperator : Evaluates operator scope w (.error e) w₁) :
      EvaluatesPlain (.list (operator :: operands)) scope w (.error e) w₁
  | operandFails {operator callee : Value} {operands : List Value} {scope : ScopeId}
      {w w₁ w₂ : World} {e : Error} (h : operator.special? = none)
      (hoperator : Evaluates operator scope w (.ok callee) w₁)
      (hoperands : EvaluatesEach operands scope w₁ (.error e) w₂) :
      EvaluatesPlain (.list (operator :: operands)) scope w (.error e) w₂
  | call {operator callee : Value} {operands args : List Value} {scope : ScopeId}
      {w w₁ w₂ w₃ : World} {r : Except Error Value} (h : operator.special? = none)
      (hoperator : Evaluates operator scope w (.ok callee) w₁)
      (hoperands : EvaluatesEach operands scope w₁ (.ok args) w₂)
      (hcall : Applies callee args scope w₂ r w₃) :
      EvaluatesPlain (.list (operator :: operands)) scope w r w₃

/-- Special forms. -/
inductive EvaluatesSpecial :
    SpecialForm → List Value → ScopeId → World → Except Error Value → World → Prop
  | arity {form : SpecialForm} {operands : List Value} {scope : ScopeId} {w : World}
      (h : form.takes operands.length = false) :
      EvaluatesSpecial form operands scope w
        (.error (.raised (.formArity form.name form.expected operands.length))) w
  | defineMisnamed {target form : Value} {scope : ScopeId} {w : World} {cause : Cause}
      (h : SpecialForm.define.nameOf target = .error cause) :
      EvaluatesSpecial .define [target, form] scope w (.error (.raised cause)) w
  | defineFails {target form : Value} {name : String} {scope : ScopeId} {w w₁ : World}
      {e : Error} (h : SpecialForm.define.nameOf target = .ok name)
      (hform : Evaluates form scope w (.error e) w₁) :
      EvaluatesSpecial .define [target, form] scope w (.error e) w₁
  | define {target form v : Value} {name : String} {scope : ScopeId} {w w₁ : World}
      (h : SpecialForm.define.nameOf target = .ok name)
      (hform : Evaluates form scope w (.ok v) w₁) :
      EvaluatesSpecial .define [target, form] scope w (.ok v) (w₁.define scope name v)
  | letMisshapen {bindings body : Value} {scope : ScopeId} {w : World}
      (h : bindings.letPairs? = none) :
      EvaluatesSpecial .letIn [bindings, body] scope w (.error (.raised .letBindings)) w
  | letFails {bindings body : Value} {items : List Value} {scope : ScopeId} {w w₁ : World}
      {e : Error} (h : bindings.letPairs? = some items)
      (hbindings : Binds items w.scopes.size (w.enter scope []) (.error e) w₁) :
      EvaluatesSpecial .letIn [bindings, body] scope w (.error e) w₁
  | letIn {bindings body : Value} {items : List Value} {scope : ScopeId} {w w₁ w₂ : World}
      {r : Except Error Value} (h : bindings.letPairs? = some items)
      (hbindings : Binds items w.scopes.size (w.enter scope []) (.ok ()) w₁)
      (hbody : Evaluates body w.scopes.size w₁ r w₂) :
      EvaluatesSpecial .letIn [bindings, body] scope w r w₂
  | conditionFails {condition yes : Value} {no : List Value} {scope : ScopeId} {w w₁ : World}
      {e : Error} (h : no.length ≤ 1) (hcondition : Evaluates condition scope w (.error e) w₁) :
      EvaluatesSpecial .branch (condition :: yes :: no) scope w (.error e) w₁
  | yes {condition yes v : Value} {no : List Value} {scope : ScopeId} {w w₁ w₂ : World}
      {r : Except Error Value} (h : no.length ≤ 1)
      (hcondition : Evaluates condition scope w (.ok v) w₁) (hv : v.isTruthy = true)
      (hyes : Evaluates yes scope w₁ r w₂) :
      EvaluatesSpecial .branch (condition :: yes :: no) scope w r w₂
  | no {condition yes no v : Value} {scope : ScopeId} {w w₁ w₂ : World}
      {r : Except Error Value} (hcondition : Evaluates condition scope w (.ok v) w₁)
      (hv : v.isTruthy = false) (hno : Evaluates no scope w₁ r w₂) :
      EvaluatesSpecial .branch [condition, yes, no] scope w r w₂
  | noElse {condition yes v : Value} {scope : ScopeId} {w w₁ : World}
      (hcondition : Evaluates condition scope w (.ok v) w₁) (hv : v.isTruthy = false) :
      EvaluatesSpecial .branch [condition, yes] scope w (.ok .nil) w₁
  | sequence {forms : List Value} {scope : ScopeId} {w w₁ : World} {r : Except Error Value}
      (h : EvaluatesSequence forms scope w r w₁) :
      EvaluatesSpecial .sequence forms scope w r w₁
  | functionMisshapen {params body : Value} {scope : ScopeId} {w : World} {cause : Cause}
      (h : parameterNames params = .error cause) :
      EvaluatesSpecial .function [params, body] scope w (.error (.raised cause)) w
  | function {params body : Value} {names : List String} {scope : ScopeId} {w : World}
      (h : parameterNames params = .ok names) :
      EvaluatesSpecial .function [params, body] scope w
        (.ok (.closure w.objects false names body scope)) w.count
  | quote {v : Value} {scope : ScopeId} {w : World} :
      EvaluatesSpecial .quote [v] scope w (.ok v) w
  | quasiquoteExpand {template : Value} {scope : ScopeId} {w : World} :
      EvaluatesSpecial .quasiquoteExpand [template] scope w
        ((Quasiquote.expand template).mapError .raised) w
  | quasiquoteMisshapen {template : Value} {scope : ScopeId} {w : World} {cause : Cause}
      (h : Quasiquote.expand template = .error cause) :
      EvaluatesSpecial .quasiquote [template] scope w (.error (.raised cause)) w
  | quasiquote {template form : Value} {scope : ScopeId} {w w₁ : World}
      {r : Except Error Value} (h : Quasiquote.expand template = .ok form)
      (hform : Evaluates form scope w r w₁) :
      EvaluatesSpecial .quasiquote [template] scope w r w₁
  | macroMisnamed {target form : Value} {scope : ScopeId} {w : World} {cause : Cause}
      (h : SpecialForm.defineMacro.nameOf target = .error cause) :
      EvaluatesSpecial .defineMacro [target, form] scope w (.error (.raised cause)) w
  | macroFails {target form : Value} {name : String} {scope : ScopeId} {w w₁ : World}
      {e : Error} (h : SpecialForm.defineMacro.nameOf target = .ok name)
      (hform : Evaluates form scope w (.error e) w₁) :
      EvaluatesSpecial .defineMacro [target, form] scope w (.error e) w₁
  | macroNoFunction {target form v : Value} {name : String} {scope : ScopeId} {w w₁ : World}
      (h : SpecialForm.defineMacro.nameOf target = .ok name)
      (hform : Evaluates form scope w (.ok v) w₁)
      (hv : ∀ object expander params body captured,
        v ≠ .closure object expander params body captured) :
      EvaluatesSpecial .defineMacro [target, form] scope w
        (.error (.raised (.notFunction v.tag))) w₁
  | defineMacro {target form body : Value} {name : String} {object : ObjectId}
      {expander : Bool} {params : List String} {scope captured : ScopeId} {w w₁ : World}
      (h : SpecialForm.defineMacro.nameOf target = .ok name)
      (hform : Evaluates form scope w (.ok (.closure object expander params body captured)) w₁) :
      EvaluatesSpecial .defineMacro [target, form] scope w
        (.ok (.closure w₁.objects true params body captured))
        (w₁.count.define scope name (.closure w₁.objects true params body captured))
  | expandMacros {form : Value} {scope : ScopeId} {w w₁ : World} {r : Except Error Value}
      (h : Expands form scope w r w₁) :
      EvaluatesSpecial .expandMacros [form] scope w r w₁

/-- Forms from left to right, for their values. -/
inductive EvaluatesEach :
    List Value → ScopeId → World → Except Error (List Value) → World → Prop
  | nil {scope : ScopeId} {w : World} : EvaluatesEach [] scope w (.ok []) w
  | headFails {form : Value} {rest : List Value} {scope : ScopeId} {w w₁ : World} {e : Error}
      (h : Evaluates form scope w (.error e) w₁) :
      EvaluatesEach (form :: rest) scope w (.error e) w₁
  | cons {form v : Value} {rest : List Value} {scope : ScopeId} {w w₁ w₂ : World}
      {vs : Except Error (List Value)} (h : Evaluates form scope w (.ok v) w₁)
      (hrest : EvaluatesEach rest scope w₁ vs w₂) :
      EvaluatesEach (form :: rest) scope w (vs.map (v :: ·)) w₂

/-- The bindings of a `let*`, in the scope it makes. -/
inductive Binds : List Value → ScopeId → World → Except Error Unit → World → Prop
  | nil {scope : ScopeId} {w : World} : Binds [] scope w (.ok ()) w
  | misnamed {target form : Value} {rest : List Value} {scope : ScopeId} {w : World}
      {cause : Cause} (h : SpecialForm.letIn.nameOf target = .error cause) :
      Binds (target :: form :: rest) scope w (.error (.raised cause)) w
  | formFails {target form : Value} {rest : List Value} {name : String} {scope : ScopeId}
      {w w₁ : World} {e : Error} (h : SpecialForm.letIn.nameOf target = .ok name)
      (hform : Evaluates form scope w (.error e) w₁) :
      Binds (target :: form :: rest) scope w (.error e) w₁
  | cons {target form v : Value} {rest : List Value} {name : String} {scope : ScopeId}
      {w w₁ w₂ : World} {r : Except Error Unit}
      (h : SpecialForm.letIn.nameOf target = .ok name)
      (hform : Evaluates form scope w (.ok v) w₁)
      (hrest : Binds rest scope (w₁.define scope name v) r w₂) :
      Binds (target :: form :: rest) scope w r w₂

/-- The forms of a `do`. -/
inductive EvaluatesSequence : List Value → ScopeId → World → Except Error Value → World → Prop
  | nil {scope : ScopeId} {w : World} : EvaluatesSequence [] scope w (.ok .nil) w
  | last {form : Value} {scope : ScopeId} {w w₁ : World} {r : Except Error Value}
      (h : Evaluates form scope w r w₁) : EvaluatesSequence [form] scope w r w₁
  | formFails {form next : Value} {rest : List Value} {scope : ScopeId} {w w₁ : World}
      {e : Error} (h : Evaluates form scope w (.error e) w₁) :
      EvaluatesSequence (form :: next :: rest) scope w (.error e) w₁
  | cons {form next v : Value} {rest : List Value} {scope : ScopeId} {w w₁ w₂ : World}
      {r : Except Error Value} (h : Evaluates form scope w (.ok v) w₁)
      (hrest : EvaluatesSequence (next :: rest) scope w₁ r w₂) :
      EvaluatesSequence (form :: next :: rest) scope w r w₂

/-- A function applied to arguments. The scope is that of the call. -/
inductive Applies : Value → List Value → ScopeId → World → Except Error Value → World → Prop
  | misfit {object : ObjectId} {expander : Bool} {params : List String} {body : Value}
      {args : List Value} {scope captured : ScopeId} {w : World} {cause : Cause}
      (h : Call.bindings params args = .error cause) :
      Applies (.closure object expander params body captured) args scope w
        (.error (.raised cause)) w
  | closure {object : ObjectId} {expander : Bool} {params : List String} {body : Value}
      {args : List Value} {bindings : List (String × Value)} {scope captured : ScopeId}
      {w w₁ : World} {r : Except Error Value} (h : Call.bindings params args = .ok bindings)
      (hbody : Evaluates body w.scopes.size (w.enter captured bindings) r w₁) :
      Applies (.closure object expander params body captured) args scope w r w₁
  | eval {form : Value} {scope : ScopeId} {w w₁ : World} {r : Except Error Value}
      (h : Evaluates form (w.root scope) w r w₁) :
      Applies (.builtin .eval) [form] scope w r w₁
  | swapTooFew {args : List Value} {scope : ScopeId} {w : World} (h : args.length < 2) :
      Applies (.builtin .swap) args scope w
        (.error (.raised (.tooFew .swap 2 args.length))) w
  | swapNoAtom {target f : Value} {more : List Value} {scope : ScopeId} {w : World}
      {cause : Cause} (h : Primitive.cellOf .swap target = .error cause) :
      Applies (.builtin .swap) (target :: f :: more) scope w (.error (.raised cause)) w
  | swapFails {f : Value} {more : List Value} {cell : CellId} {scope : ScopeId}
      {w w₁ : World} {e : Error}
      (h : Applies f (w.contents cell :: more) scope w (.error e) w₁) :
      Applies (.builtin .swap) (.atom cell :: f :: more) scope w (.error e) w₁
  | swap {f v : Value} {more : List Value} {cell : CellId} {scope : ScopeId} {w w₁ : World}
      (h : Applies f (w.contents cell :: more) scope w (.ok v) w₁) :
      Applies (.builtin .swap) (.atom cell :: f :: more) scope w (.ok v) (w₁.store cell v)
  /-- All other primitives evaluate nothing, so what they do does not
  depend on an evaluator. -/
  | primitive {p : Primitive} {args : List Value} {scope : ScopeId} {w w₁ : World}
      {r : Except Error Value}
      (h : ∀ evaluate, (p.checked evaluate scope args).Ends w r w₁) :
      Applies (.builtin p) args scope w r w₁
  | uncallable {v : Value} {args : List Value} {scope : ScopeId} {w : World}
      (h : ¬v.Callable) :
      Applies v args scope w (.error (.raised (.uncallable v.tag (w.text true v)))) w

end

/-- Nothing happens to `nil`, which stands for an alternative that is
left out. -/
theorem evaluates_nil {scope : ScopeId} {w w' : World} {r : Except Error Value}
    (h : Evaluates .nil scope w r w') : r = .ok .nil ∧ w' = w := by
  rcases h with h | ⟨h, hplain⟩
  · rcases h with - | ⟨hcall, -⟩ | ⟨hcall, -, -⟩ | ⟨hcall, -, -, -⟩ <;> cases hcall
  · rcases h with - | - | - | ⟨hcall, -, -, -⟩
    · cases hplain with
      | self _ => exact ⟨rfl, rfl⟩
    · cases hcall

end Lisp
