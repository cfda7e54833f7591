import Lisp.Value.Entries

/-!
# Sequences

Functions on lists and vectors. Where a sequence is expected, `nil` is
the empty one.
-/

namespace Lisp

namespace Sequence

/-- The elements of a sequence. -/
def items (p : Primitive) : Value → Except Cause (List Value)
  | .list items | .vector items => .ok items
  | .nil => .ok []
  | v => .error (.operand p "List or Vector" v.tag)

/-- The number of elements, or of entries. -/
def count (p : Primitive) : Value → Except Cause Nat
  | .map entries => .ok entries.length
  | v => (items p v).map List.length

def cons (head tail : Value) : Except Cause Value := do
  return .list (head :: (← items .cons tail))

def concat : List Value → Except Cause (List Value)
  | [] => .ok []
  | v :: rest => do
    let front ← items .concat v
    return front ++ (← concat rest)

def vec : Value → Except Cause Value
  | .vector items => .ok (.vector items)
  | v => do return .vector (← items .vec v)

/-- The element at an index, counted from zero. -/
def nth (v index : Value) : Except Cause Value := do
  let elements ← items .nth v
  match index with
  | .int n =>
    match if n.toInt < 0 then none else elements[n.toInt.toNat]? with
    | some element => return element
    | none => .error (.indexOutOfRange n elements.length)
  | other => .error (.operand .nth "Int" other.tag)

/-- The first element, `nil` if there is none. -/
def first (v : Value) : Except Cause Value := do
  return (← items .first v).head?.getD .nil

def rest (v : Value) : Except Cause Value := do
  return .list ((← items .rest v).drop 1)

end Sequence

end Lisp
