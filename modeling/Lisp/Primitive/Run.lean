import Lisp.Call
import Lisp.Form.Parse
import Lisp.Primitive.Number
import Lisp.Primitive.Sequence

/-!
# Running primitives

What each primitive does, and how functions are applied. Calls of
closures and evaluation need the evaluator, which is not defined yet:
it is the parameter `evaluate`, and stands for an evaluation nested
inside the current one.

A primitive is entered through `Primitive.checked`, which checks the
number of arguments. `Primitive.basic` has a case for every number that
passes the check, and no other (`Halt.fault`).
-/

namespace Lisp

/-- The evaluation of a form in a scope. -/
abbrev Evaluator := Value → ScopeId → Action Value

namespace Primitive

/-! ## Values without effects -/

/-- The value of a computed number. A NaN is a new one. -/
def numberValue : Number → Action Value
  | .whole n => pure (.int n)
  | .float (some x) => pure (.float x)
  | .float none => return .nan (← Action.freshObject)

def computed (result : Except Cause Number) : Action Value := do
  numberValue (← Action.ofExcept result)

def decided (result : Except Cause Bool) : Action Value := do
  return .bool (← Action.ofExcept result)

def stringOf (p : Primitive) : Value → Except Cause String
  | .string s => .ok s
  | v => .error (.operand p "String" v.tag)

def keywordOf : Value → Except Cause Value
  | .keyword name => .ok (.keyword name)
  | v => do return .keyword (← stringOf .keyword v)

/-- The primitives that ask for the kind of a value. -/
def test? (v : Value) : Primitive → Option Bool
  | isList => some (v.tag = .list)
  | isVector => some (v.tag = .vector)
  | isMap => some (v.tag = .map)
  | isNil => some (v.tag = .nil)
  | isTrue => some (v.tag = .bool && v.isTruthy)
  | isFalse => some (v.tag = .bool && !v.isTruthy)
  | isSymbol => some (v.tag = .symbol)
  | isKeyword => some (v.tag = .keyword)
  | isString => some (v.tag = .string)
  | isNumber => some (v.tag = .int || v.tag = .float)
  | isFunction => some (v.tag = .function || v.tag = .builtin)
  | isMacro => some (v.tag = .expander)
  | isAtom => some (v.tag = .atom)
  | _ => none

/-! ## Effects -/

/-- Reads the first form of a text. -/
def readForm (source : String) : Action Value := fun w =>
  match read source with
  | .ok form => .value form w
  | .error d => .failure (.diagnostic d) w

/-- The cell of an atom. -/
def cellOf (p : Primitive) : Value → Except Cause CellId
  | .atom cell => .ok cell
  | v => .error (.operand p "Atom" v.tag)

/-- The error of a call of something that is no function. -/
def uncallable {α : Type} (v : Value) : Action α := do
  Action.fail (.uncallable v.tag (← Action.ask (·.text true v)))

/-- Every primitive but `swap!`, for a number of arguments that it
takes. -/
def basic (evaluate : Evaluator) (scope : ScopeId) : Primitive → List Value → Action Value
  | add, args => computed (Number.sum args)
  | sub, args => computed (Number.difference args)
  | mul, args => computed (Number.product args)
  | div, args => computed (Number.quotient args)
  | equal, [a, b] => return .bool (a == b)
  | less, [a, b] => decided (Number.compares less Ordering.isLT a b)
  | greater, [a, b] => decided (Number.compares greater Ordering.isGT a b)
  | atMost, [a, b] => decided (Number.compares atMost Ordering.isLE a b)
  | atLeast, [a, b] => decided (Number.compares atLeast Ordering.isGE a b)
  | list, args => return .list args
  | vector, args => return .vector args
  | hashMap, args => Action.ofExcept (Value.mapOf args)
  | isEmpty, [v] => decided ((Sequence.count isEmpty v).map (· == 0))
  | count, [v] => return .int (Int64.ofNat (← Action.ofExcept (Sequence.count count v)))
  | cons, [head, tail] => Action.ofExcept (Sequence.cons head tail)
  | concat, args => return .list (← Action.ofExcept (Sequence.concat args))
  | vec, [v] => Action.ofExcept (Sequence.vec v)
  | nth, [v, index] => Action.ofExcept (Sequence.nth v index)
  | first, [v] => Action.ofExcept (Sequence.first v)
  | rest, [v] => Action.ofExcept (Sequence.rest v)
  | symbol, [v] => return .symbol (← Action.ofExcept (stringOf symbol v))
  | keyword, [v] => Action.ofExcept (keywordOf v)
  | printed, args => return .string (← Action.ask (·.texts true " " args))
  | text, args => return .string (← Action.ask (·.texts false "" args))
  | showLine, args => do
    Action.writeLine (← Action.ask (·.texts true " " args))
    return .nil
  | sayLine, args => do
    Action.writeLine (← Action.ask (·.texts false " " args))
    return .nil
  | readText, [v] => do readForm (← Action.ofExcept (stringOf readText v))
  | slurp, [v] => do
    let path ← Action.ofExcept (stringOf slurp v)
    return .string (← Action.readFile path)
  | newAtom, [v] => return .atom (← Action.newCell v)
  | deref, [v] => do Action.contents (← Action.ofExcept (cellOf deref v))
  | reset, [a, v] => do
    Action.store (← Action.ofExcept (cellOf reset a)) v
    return v
  | eval, [form] => do evaluate form (← Action.ask (·.root scope))
  | raise, [v] => do Action.fail (.thrown (← Action.ask (·.text false v)))
  | p, [v] => match p.test? v with
    | some b => return .bool b
    | none => Action.halt .fault
  | _, _ => Action.halt .fault

/-- Checks the number of arguments of a primitive that takes a fixed
number. -/
def checked (evaluate : Evaluator) (scope : ScopeId) (p : Primitive) (args : List Value) :
    Action Value :=
  match p.arity with
  | some n =>
    if args.length = n then basic evaluate scope p args
    else Action.fail (.primitiveArity p n args.length)
  | none => basic evaluate scope p args

end Primitive

/-! ## Application

The body of a closure is a nested evaluation. -/

section

variable (evaluate : Evaluator) (scope : ScopeId)

/-- Applies a function to one argument or more. `swap!` applies its
second argument to what the first one, an atom, holds and to the others,
and stores the result; the atom is free to be used meanwhile. -/
def applyTo : Value → Value → List Value → Action Value
  | .closure _ _ params body captured, first, more => do
    evaluate body (← Action.enterCall captured params (first :: more))
  | .builtin .swap, _, [] => Action.fail (.tooFew .swap 2 1)
  | .builtin .swap, target, f :: more => do
    let cell ← Action.ofExcept (Primitive.cellOf .swap target)
    let updated ← applyTo f (← Action.contents cell) more
    Action.store cell updated
    return updated
  | .builtin p, first, more => p.checked evaluate scope (first :: more)
  | v, _, _ => Primitive.uncallable v

/-- Applies a function to arguments. -/
def apply (f : Value) : List Value → Action Value
  | first :: more => applyTo evaluate scope f first more
  | [] => match f with
    | .closure _ _ params body captured => do
      evaluate body (← Action.enterCall captured params [])
    | .builtin .swap => Action.fail (.tooFew .swap 2 0)
    | .builtin p => p.checked evaluate scope []
    | v => Primitive.uncallable v

end

end Lisp
