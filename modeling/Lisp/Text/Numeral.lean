/-!
# Numerals

A numeral is an optional sign and either one group of digits or two
groups with a point between them. Digits are the ten ASCII digits.
Whole numbers are written without a plus sign and without leading
zeros.
-/

namespace Lisp

inductive Numeral where
  | whole (negative : Bool) (digits : List Char)
  | decimal (negative : Bool) (digits fraction : List Char)
  deriving DecidableEq

namespace Numeral

/-- Whether there is a minus sign, and what follows the sign. -/
def splitSign : List Char → Bool × List Char
  | '+' :: rest => (false, rest)
  | '-' :: rest => (true, rest)
  | text => (false, text)

def isDigits (text : List Char) : Bool := !text.isEmpty && text.all Char.isDigit

/-- The numeral that a text spells, if it spells one. -/
def ofChars? (text : List Char) : Option Numeral :=
  let (negative, body) := splitSign text
  if isDigits body then some (.whole negative body)
  else match body.span (· != '.') with
    | (digits, '.' :: fraction) =>
      if isDigits digits && isDigits fraction then some (.decimal negative digits fraction)
      else none
    | _ => none

/-- The number that a group of digits counts. -/
def count (digits : List Char) : Nat := Nat.ofDigitChars 10 digits 0

end Numeral

/-- A whole number in decimal. -/
def wholeText (n : Int) : String :=
  let digits := Nat.toDigits 10 n.natAbs
  String.ofList (if n < 0 then '-' :: digits else digits)

end Lisp
