/-!
# Primitive functions

The vocabulary of the functions that every session starts with: their
names, and how many arguments the checked ones take. What they do is in
`Lisp.Primitive.Run`.
-/

namespace Lisp

inductive Primitive where
  | add | sub | mul | div
  | equal | less | greater | atMost | atLeast
  | list | isList | vector | isVector | hashMap | isMap
  | isEmpty | count | cons | concat | vec | nth | first | rest
  | isNil | isTrue | isFalse | isSymbol | isKeyword | isString | isNumber
  | isFunction | isMacro
  | symbol | keyword | printed | text | showLine | sayLine
  | readText | slurp
  | newAtom | isAtom | deref | reset | swap
  | eval | raise
  deriving DecidableEq

namespace Primitive

def name : Primitive → String
  | add => "+"
  | sub => "-"
  | mul => "*"
  | div => "/"
  | equal => "="
  | less => "<"
  | greater => ">"
  | atMost => "<="
  | atLeast => ">="
  | list => "list"
  | isList => "list?"
  | vector => "vector"
  | isVector => "vector?"
  | hashMap => "hash-map"
  | isMap => "map?"
  | isEmpty => "empty?"
  | count => "count"
  | cons => "cons"
  | concat => "concat"
  | vec => "vec"
  | nth => "nth"
  | first => "first"
  | rest => "rest"
  | isNil => "nil?"
  | isTrue => "true?"
  | isFalse => "false?"
  | isSymbol => "symbol?"
  | isKeyword => "keyword?"
  | isString => "string?"
  | isNumber => "number?"
  | isFunction => "fn?"
  | isMacro => "macro?"
  | symbol => "symbol"
  | keyword => "keyword"
  | printed => "pr-str"
  | text => "str"
  | showLine => "prn"
  | sayLine => "println"
  | readText => "read-string"
  | slurp => "slurp"
  | newAtom => "atom"
  | isAtom => "atom?"
  | deref => "deref"
  | reset => "reset!"
  | swap => "swap!"
  | eval => "eval"
  | raise => "throw"

/-- The number of arguments, for the functions that take a fixed
number. The others check theirs themselves. -/
def arity : Primitive → Option Nat
  | add | sub | mul | div => none
  | list | vector | hashMap | concat => none
  | printed | text | showLine | sayLine => none
  | swap => none
  | equal | less | greater | atMost | atLeast => some 2
  | cons | nth | reset => some 2
  | isList | isVector | isMap | isEmpty | count | vec | first | rest => some 1
  | isNil | isTrue | isFalse | isSymbol | isKeyword | isString | isNumber => some 1
  | isFunction | isMacro | isAtom => some 1
  | symbol | keyword | readText | slurp | newAtom | deref | eval | raise => some 1

/-- All primitives, in the order in which a session binds them. -/
def all : List Primitive :=
  [add, sub, mul, div, equal, less, greater, atMost, atLeast,
    list, isList, vector, isVector, hashMap, isMap,
    isEmpty, count, cons, concat, vec, nth, first, rest,
    isNil, isTrue, isFalse, isSymbol, isKeyword, isString, isNumber,
    isFunction, isMacro, symbol, keyword, printed, text, showLine, sayLine,
    readText, slurp, newAtom, isAtom, deref, reset, swap, eval, raise]

theorem mem_all (p : Primitive) : p ∈ all := by
  cases p <;> decide

end Primitive

end Lisp
