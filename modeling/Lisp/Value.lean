import Lisp.Binary64
import Lisp.Primitive

/-!
# Values

Programs and data are the same type: reading a text gives a value, and
evaluating a value gives a value.

Most values are known by what they hold. Four kinds are not, and carry
what tells one from another: a NaN, which equals only itself, and a
closure carry the number they got when they were made, an atom the
place of its contents in the store, and a primitive is its name. So
there are no hidden identities, and copying a value changes nothing.
-/

namespace Lisp

/-- The place of an atom's contents in the store. -/
abbrev CellId := Nat

/-- The place of a scope in the store. -/
abbrev ScopeId := Nat

/-- The number of a NaN or a closure. No two made in one session have
the same. -/
abbrev ObjectId := Nat

inductive Value where
  | nil
  | bool (b : Bool)
  | int (n : Int64)
  | float (x : Binary64)
  | nan (object : ObjectId)
  | string (text : String)
  | keyword (name : String)
  | symbol (name : String)
  | list (items : List Value)
  | vector (items : List Value)
  /-- Keys and their values, in the order in which the keys came. -/
  | map (entries : List (Value × Value))
  /-- A function of the language, or a macro. The name after `&` among
  the parameters takes the arguments that are left. -/
  | closure (object : ObjectId) (isMacro : Bool) (params : List String) (body : Value)
      (scope : ScopeId)
  | builtin (p : Primitive)
  | atom (cell : CellId)

/-- The kinds of values that a program can tell apart. -/
inductive Tag where
  | nil | bool | int | float | string | keyword | symbol
  | list | vector | map | expander | function | builtin | atom
  deriving DecidableEq

def Tag.name : Tag → String
  | .nil => "Nil"
  | .bool => "Bool"
  | .int => "Int"
  | .float => "Float"
  | .string => "String"
  | .keyword => "Keyword"
  | .symbol => "Symbol"
  | .list => "List"
  | .vector => "Vector"
  | .map => "HashMap"
  | .expander => "Macro"
  | .function => "Function"
  | .builtin => "Builtin"
  | .atom => "Atom"

namespace Value

instance : Inhabited Value := ⟨.nil⟩

def tag : Value → Tag
  | nil => .nil
  | bool _ => .bool
  | int _ => .int
  | float _ | nan _ => .float
  | string _ => .string
  | keyword _ => .keyword
  | symbol _ => .symbol
  | list _ => .list
  | vector _ => .vector
  | map _ => .map
  | closure _ true _ _ _ => .expander
  | closure _ false _ _ _ => .function
  | builtin _ => .builtin
  | atom _ => .atom

/-- Only `nil` and `false` count as false. -/
def isTruthy : Value → Bool
  | nil | bool false => false
  | _ => true

/-- The elements of a list or a vector. -/
def items? : Value → Option (List Value)
  | list items | vector items => some items
  | _ => none

/-- Is this a list that starts with the symbol `name`? -/
def isForm (name : String) : Value → Bool
  | list (symbol head :: _) => head == name
  | _ => false

end Value

end Lisp
