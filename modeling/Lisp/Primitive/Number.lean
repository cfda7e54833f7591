import Lisp.Form.Literal

/-!
# Arithmetic

Arithmetic folds its operands from left to right. Whole numbers stay
whole and exact, and fail where the result does not fit into a word;
from the first floating point operand on all is floating point.
-/

namespace Lisp

/-- An operand. NaN has no identity during a computation: it is
`none`. -/
inductive Number where
  | whole (n : Int64)
  | float (x : Option Binary64)

namespace Number

def ofValue (p : Primitive) : Value → Except Cause Number
  | .int n => .ok (.whole n)
  | .float x => .ok (.float (some x))
  | .nan _ => .ok (.float none)
  | v => .error (.operand p "a number" v.tag)

def toFloat : Number → Option Binary64
  | .whole n => some (.ofInt n.toInt)
  | .float x => x

/-! ## The four operations -/

/-- An operation: what it does to whole numbers, if it is defined on
them, and what it does to floating point numbers. -/
structure Operation where
  primitive : Primitive
  whole : Int → Int → Option Int
  float : Float → Float → Float

def addition : Operation := ⟨.add, fun a b => some (a + b), (· + ·)⟩

def subtraction : Operation := ⟨.sub, fun a b => some (a - b), (· - ·)⟩

def multiplication : Operation := ⟨.mul, fun a b => some (a * b), (· * ·)⟩

/-- Division of whole numbers cuts off toward zero. -/
def division : Operation :=
  ⟨.div, fun a b => if b = 0 then none else some (a.tdiv b), (· / ·)⟩

namespace Operation

def apply (op : Operation) : Number → Number → Except Cause Number
  | .whole a, .whole b =>
    match op.whole a.toInt b.toInt with
    | none => .error .divisionByZero
    | some n => match int64? n with
      | some n => .ok (.whole n)
      | none => .error (.overflow op.primitive)
  | a, b => .ok (.float (Binary64.compute op.float a.toFloat b.toFloat))

/-- Applies the operation to what is computed so far and each operand
in turn. -/
def foldFrom (op : Operation) : Number → List Value → Except Cause Number
  | acc, [] => .ok acc
  | acc, v :: rest => do
    let operand ← ofValue op.primitive v
    let acc ← op.apply acc operand
    op.foldFrom acc rest

/-- The fold over at least `least` operands. -/
def fold (op : Operation) (least : Nat) (args : List Value) : Except Cause Number :=
  match args with
  | [] => .error (.tooFew op.primitive least 0)
  | first :: rest =>
    if args.length < least then .error (.tooFew op.primitive least args.length)
    else do op.foldFrom (← ofValue op.primitive first) rest

end Operation

/-- The sum; nothing sums up to zero. -/
def sum : List Value → Except Cause Number
  | [] => .ok (.whole 0)
  | args => addition.fold 1 args

/-- The difference; one operand is subtracted from zero. -/
def difference : List Value → Except Cause Number
  | [v] => subtraction.foldFrom (.whole 0) [v]
  | args => subtraction.fold 1 args

def product : List Value → Except Cause Number
  | [] => .ok (.whole 1)
  | args => multiplication.fold 1 args

def quotient (args : List Value) : Except Cause Number := division.fold 2 args

/-! ## Order -/

/-- The numbers on a common scale; nothing compares with a NaN. -/
def ordering : Number → Number → Option Ordering
  | .whole a, .whole b => some (compare a.toInt b.toInt)
  | a, b => match a.toFloat, b.toFloat with
    | some x, some y => some (compare x.ordinal y.ordinal)
    | _, _ => none

/-- Do the operands compare as `test` asks? -/
def compares (p : Primitive) (test : Ordering → Bool) (a b : Value) : Except Cause Bool := do
  let a ← ofValue p a
  let b ← ofValue p b
  return (ordering a b).any test

end Number

end Lisp
