import Lisp.Error
import Lisp.Text.Numeral
import Lisp.Text.Quoted

/-!
# Literals

What a single token stands for: an atom is a number, a constant, a
keyword or a symbol, decided by its text alone.
-/

namespace Lisp

/-- Does a number fit into a signed 64-bit word? -/
def fitsInt64 (n : Int) : Bool := Int64.minValue.toInt ≤ n && n ≤ Int64.maxValue.toInt

/-- The signed word for a number that fits into one. -/
def int64? (n : Int) : Option Int64 := if fitsInt64 n then some (Int64.ofInt n) else none

namespace Literal

/-- The value of a numeral: whole numbers are exact or out of range,
decimals are rounded to the nearest floating point number. -/
def ofNumeral? : Numeral → Option Value
  | .whole negative digits =>
    let n : Int := Numeral.count digits
    (int64? (if negative then -n else n)).map .int
  | .decimal negative digits fraction =>
    some (.float (Binary64.ofDecimal negative (Numeral.count (digits ++ fraction)) fraction.length))

/-- The value of an atom that is no numeral. -/
def ofName (lexeme : String) : Value :=
  if lexeme = "nil" then .nil
  else if lexeme = "true" then .bool true
  else if lexeme = "false" then .bool false
  else match lexeme.toList with
    | ':' :: name => .keyword (String.ofList name)
    | _ => .symbol lexeme

def ofAtom (lexeme : String) : Except Cause Value :=
  match Numeral.ofChars? lexeme.toList with
  | some numeral => match ofNumeral? numeral with
    | some v => .ok v
    | none => .error (.wholeOutOfRange lexeme)
  | none => .ok (ofName lexeme)

end Literal

end Lisp
