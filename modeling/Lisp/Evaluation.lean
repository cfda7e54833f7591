import Lisp.Form.Quasiquote
import Lisp.Primitive.Run

/-!
# Evaluation

An evaluation takes turns. In one turn (`turn`) a form is either
evaluated for good or replaced: by its expansion if it is a call of a
macro, and otherwise by the part of it that stands in tail position,
possibly in another scope. Replacing is no nesting, so a loop written
as a tail call runs as a loop (`loop`).

What a turn evaluates on the way, such as the condition of an `if` or
the arguments of a call, is a nested evaluation. Both are bounded: the
number of turns of one evaluation, and the depth of the nesting
(`evaluate`). A larger bound never changes an answer; it can only turn
up one where there was none.
-/

namespace Lisp

/-! ## Special forms -/

inductive SpecialForm where
  | define | letIn | branch | sequence | function | quote
  | quasiquoteExpand | quasiquote | defineMacro | expandMacros
  deriving DecidableEq

namespace SpecialForm

def name : SpecialForm → String
  | define => "def!"
  | letIn => "let*"
  | branch => "if"
  | sequence => "do"
  | function => "fn*"
  | quote => "quote"
  | quasiquoteExpand => "quasiquoteexpand"
  | quasiquote => "quasiquote"
  | defineMacro => "defmacro!"
  | expandMacros => "macroexpand"

def all : List SpecialForm :=
  [define, letIn, branch, sequence, function, quote, quasiquoteExpand, quasiquote, defineMacro,
    expandMacros]

def ofName? (name : String) : Option SpecialForm := all.find? (·.name == name)

@[simp] theorem ofName?_name (form : SpecialForm) : ofName? form.name = some form := by
  cases form <;> rfl

/-- How many operands the form takes, in words. -/
def expected : SpecialForm → String
  | define | letIn | function | defineMacro => "2"
  | branch => "2 or 3"
  | sequence => "any number of"
  | quote | quasiquoteExpand | quasiquote | expandMacros => "1"

/-- The name that an operand has to be. -/
def nameOf (form : SpecialForm) : Value → Except Cause String
  | .symbol name => .ok name
  | v => .error (.notSymbol form.name v.tag)

end SpecialForm

/-- The parameter names of a function. After `&` there must be one name
and no more. -/
def parameterNames (v : Value) : Except Cause (List String) :=
  match v.items? with
  | none => .error (.notParameters v.tag)
  | some items => do
    let names ← items.mapM (SpecialForm.function.nameOf ·)
    match names.drop (Call.positional names).length with
    | [] => return names
    | [_, rest] => if rest = Call.restMark then .error .restMisplaced else return names
    | _ => .error .restMisplaced

/-! ## Turns -/

inductive Turn where
  | done (v : Value)
  /-- Go on with another form, in another scope perhaps. -/
  | next (form : Value) (scope : ScopeId)

/-- The parameters, body and scope of the macro that a form calls, and
the arguments. -/
def World.macroCall? (w : World) (scope : ScopeId) :
    Value → Option (List String × Value × ScopeId × List Value)
  | .list (.symbol name :: args) =>
    match w.find? scope name with
    | some (.closure _ true params body captured) => some (params, body, captured, args)
    | _ => none
  | _ => none

section

variable (nested : Evaluator)

/-- Replaces a call of a macro by its expansion; other forms are done. -/
def expandTurn (form : Value) (scope : ScopeId) : Action Turn := do
  match ← Action.ask (·.macroCall? scope form) with
  | some (params, body, captured, args) =>
    let expansion ← nested body (← Action.enterCall captured params args)
    return .next expansion scope
  | none => return .done form

/-- Evaluates forms from left to right. -/
def evaluateEach (scope : ScopeId) : List Value → Action (List Value)
  | [] => return []
  | form :: rest => do
    let v ← nested form scope
    return v :: (← evaluateEach scope rest)

/-- Evaluates a form that is no list. -/
def evaluateData (scope : ScopeId) : Value → Action Value
  | .symbol name => Action.lookup scope name
  | .vector items => return .vector (← evaluateEach nested scope items)
  | .map entries => do
    let items ← evaluateEach nested scope (entries.flatMap fun entry => [entry.1, entry.2])
    Action.ofExcept (Value.mapOf items)
  | v => return v

/-- Evaluates the values of `let*` in the scope it makes, each one
seeing the names before it. -/
def bindEach (scope : ScopeId) : List Value → Action Unit
  | name :: form :: rest => do
    let name ← Action.ofExcept (SpecialForm.letIn.nameOf name)
    let v ← nested form scope
    Action.define scope name v
    bindEach scope rest
  | _ => return ()

/-- Evaluates all forms but the last, which is in tail position. -/
def runSequence (scope : ScopeId) : List Value → Action Turn
  | [] => return .done .nil
  | [last] => return .next last scope
  | form :: rest => do
    let _ ← nested form scope
    runSequence scope rest

/-- The macro made from a function, a value of its own. -/
def asMacro : Value → Action Value
  | .closure _ _ params body captured => do
    return .closure (← Action.freshObject) true params body captured
  | v => Action.fail (.notFunction v.tag)

/-- One turn of a special form. The expansion of macros without
evaluation is a loop of its own, given as `expandAll`. -/
def specialTurn (expandAll : Evaluator) (scope : ScopeId) :
    SpecialForm → List Value → Action Turn
  | .define, [name, form] => do
    let name ← Action.ofExcept (SpecialForm.define.nameOf name)
    let v ← nested form scope
    Action.define scope name v
    return .done v
  | .letIn, [bindings, body] =>
    match bindings.items? with
    | some items =>
      if items.length % 2 = 0 then do
        let inner ← Action.enter (some scope) []
        bindEach nested inner items
        return .next body inner
      else Action.fail .letBindings
    | none => Action.fail .letBindings
  | .branch, condition :: yes :: no => do
    if no.length ≤ 1 then
      let v ← nested condition scope
      return .next (if v.isTruthy then yes else no.head?.getD .nil) scope
    else Action.fail (.formArity SpecialForm.branch.name SpecialForm.branch.expected (no.length + 2))
  | .sequence, forms => runSequence nested scope forms
  | .function, [params, body] => do
    let names ← Action.ofExcept (parameterNames params)
    return .done (.closure (← Action.freshObject) false names body scope)
  | .quote, [v] => return .done v
  | .quasiquoteExpand, [template] =>
    return .done (← Action.ofExcept (Quasiquote.expand template))
  | .quasiquote, [template] =>
    return .next (← Action.ofExcept (Quasiquote.expand template)) scope
  | .defineMacro, [name, form] => do
    let name ← Action.ofExcept (SpecialForm.defineMacro.nameOf name)
    let v ← asMacro (← nested form scope)
    Action.define scope name v
    return .done v
  | .expandMacros, [form] => return .done (← expandAll form scope)
  | form, operands => Action.fail (.formArity form.name form.expected operands.length)

/-- One turn of a call: operator and operands are evaluated, and the
body of a closure is in tail position. -/
def callTurn (scope : ScopeId) (operator : Value) (operands : List Value) : Action Turn := do
  let callee ← nested operator scope
  let args ← evaluateEach nested scope operands
  match callee with
  | .closure _ _ params body captured =>
    return .next body (← Action.enterCall captured params args)
  | .builtin _ => return .done (← apply nested scope callee args)
  | v => Primitive.uncallable v

/-- One turn of a form that calls no macro. -/
def plainTurn (expandAll : Evaluator) (form : Value) (scope : ScopeId) : Action Turn :=
  match form with
  | .list [] => return .done form
  | .list (operator :: operands) =>
    let special? := match operator with
      | .symbol name => SpecialForm.ofName? name
      | _ => none
    match special? with
    | some special => specialTurn nested expandAll scope special operands
    | none => callTurn nested scope operator operands
  | _ => return .done (← evaluateData nested scope form)

/-- One turn of evaluation. -/
def turn (expandAll : Evaluator) (form : Value) (scope : ScopeId) : Action Turn := do
  match ← expandTurn nested form scope with
  | .next expansion scope => return .next expansion scope
  | .done form => plainTurn nested expandAll form scope

end

/-! ## Bounded evaluation -/

/-- Takes turns until one is the last, at most `steps` of them. -/
def loop (turn : Value → ScopeId → Action Turn) : (steps : Nat) → Evaluator
  | 0, _, _ => Action.halt .steps
  | steps + 1, form, scope => fun w =>
    match turn form scope w with
    | .value (.done v) w => .value v w
    | .value (.next form scope) w => loop turn steps form scope w
    | .failure e w => .failure e w
    | .halted why => .halted why

/-- Expands calls of macros until the form is none. -/
def expandMacros (nested : Evaluator) (steps : Nat) : Evaluator := loop (expandTurn nested) steps

/-- Evaluation with at most `depth` evaluations inside one another, of
at most `steps` turns each. -/
def evaluate (steps : Nat) : (depth : Nat) → Evaluator
  | 0 => fun _ _ => Action.halt .depth
  | depth + 1 =>
    let nested := evaluate steps depth
    loop (turn nested (expandMacros nested steps)) steps

end Lisp
