import Lisp.Error

/-!
# Quasiquotation

A template is rewritten into calls that build what it describes: lists
are consed up element by element, spliced elements are concatenated in,
and a vector is built as a list first. What a template leaves alone is
quoted, unless it evaluates to itself anyway.

Elements are rewritten from the last one to the first, so of two faulty
elements the last is reported.
-/

namespace Lisp

namespace Quasiquote

def call (name : String) (args : List Value) : Value := .list (.symbol name :: args)

/-- The one argument of a form headed by `name`. -/
def argument (name : String) : List Value → Except Cause Value
  | [_, arg] => .ok arg
  | items => .error (.formArity name "1" (items.length - 1))

mutual

/-- The form that builds what a template describes. -/
def expand : Value → Except Cause Value
  | .list items =>
    if (Value.list items).isForm "unquote" then argument "unquote" items else expandItems items
  | .vector items => do
    let built ← expandItems items
    return call "vec" [built]
  | .map entries => .ok (call "quote" [.map entries])
  | .symbol name => .ok (call "quote" [.symbol name])
  | v => .ok v

/-- The form that builds the list of what the elements describe. -/
def expandItems : List Value → Except Cause Value
  | [] => .ok (.list [])
  | item :: rest => do
    let tail ← expandItems rest
    if item.isForm "splice-unquote" then
      let spliced ← argument "splice-unquote" (item.items?.getD [])
      return call "concat" [spliced, tail]
    else
      let head ← expand item
      return call "cons" [head, tail]

end

end Quasiquote

end Lisp
