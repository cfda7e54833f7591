import Lisp.Binary64.Decimal
import Lisp.Text.Numeral
import Lisp.Text.Quoted
import Lisp.Value

/-!
# Text of values

A value is written *readably*, so that reading the text gives the value
back, or plainly, with strings as they are. Functions, macros and atoms
have a text too, which is for people only.

What an atom holds is not part of the value, so its text is a parameter
here: `contents` writes the contents of a cell.
-/

namespace Lisp

namespace Value

mutual

def textWith (contents : CellId → String) (readably : Bool) : Value → String
  | nil => "nil"
  | bool b => if b then "true" else "false"
  | int n => wholeText n.toInt
  | float x => x.text
  | nan _ => "NaN"
  | string s => if readably then Quoted.write s else s
  | keyword name => ":" ++ name
  | symbol name => name
  | list items => "(" ++ " ".intercalate (itemTexts contents readably items) ++ ")"
  | vector items => "[" ++ " ".intercalate (itemTexts contents readably items) ++ "]"
  | map entries => "\x7b" ++ " ".intercalate (entryTexts contents readably entries) ++ "\x7d"
  | closure _ true _ _ _ => "#<macro>"
  | closure _ false _ _ _ => "#<function>"
  | builtin p => "#<builtin " ++ p.name ++ ">"
  | atom cell => "(atom " ++ contents cell ++ ")"

def itemTexts (contents : CellId → String) (readably : Bool) : List Value → List String
  | [] => []
  | item :: rest => textWith contents readably item :: itemTexts contents readably rest

/-- The texts of the keys and the values, in turn. -/
def entryTexts (contents : CellId → String) (readably : Bool) :
    List (Value × Value) → List String
  | [] => []
  | (key, value) :: rest =>
    textWith contents readably key :: textWith contents readably value ::
      entryTexts contents readably rest

end

/-- The text of a value when the atoms hold `cells`. An atom's contents
are written with one atom less to go: a chain of atoms that is longer
than the store has come back to itself. -/
def textIn (cells : Array Value) (readably : Bool) : Nat → Value → String
  | 0 => textWith (fun _ => "") readably
  | depth + 1 => textWith (fun cell => match cells[cell]? with
      | some value => textIn cells readably depth value
      | none => "") readably

/-- The text of a value without atoms. -/
def text (readably : Bool) (v : Value) : String := textWith (fun _ => "") readably v

/-- The texts of several values, with `separator` between them. -/
def texts (readably : Bool) (separator : String) (vs : List Value) : String :=
  separator.intercalate (vs.map (text readably))

end Value

end Lisp
