import Lisp.Binary64

/-!
# Decimal text of floating point numbers

Numbers are written in positional notation, never with an exponent. A
whole number is written exactly, with one zero after the point. Any
other finite number gets the fewest places after the point that still
read back as the same number (`shortest`), and of two such texts with
that many places the nearer one, of two equally near the larger one.

Reading back is asked of `Binary64.nearestRank` itself, so what is
written is correct by construction. The search ends because every
magnitude is a multiple of `2 ^ -1074` and so of `10 ^ -1074`.
-/

namespace Lisp

namespace Binary64

/-- A decimal `digits / 10 ^ places`. -/
structure Decimal where
  digits : Nat
  places : Nat
  deriving DecidableEq

/-- The digits, with the point before the last `places` of them. -/
def Decimal.text (d : Decimal) : String :=
  let scale := Nat.pow 10 d.places
  let fraction := Nat.toDigits 10 (d.digits % scale)
  let zeros := List.replicate (d.places - fraction.length) '0'
  String.ofList (Nat.toDigits 10 (d.digits / scale) ++ '.' :: (zeros ++ fraction))

/-- The number of units in one, `2 ^ 1074`. -/
def unitsInOne : Nat := 1 <<< 1074

/-- The decimal with the given number of places that reads back as
`rank`; the nearer neighbour is tried first. -/
def decimalWith (rank places : Nat) : Option Decimal :=
  let scale := Nat.pow 10 places
  let low := units rank * scale / unitsInOne
  let remainder := units rank * scale % unitsInOne
  let neighbours := if 2 * remainder < unitsInOne then [low, low + 1] else [low + 1, low]
  (neighbours.find? fun digits => nearestRank digits scale == rank).map (⟨·, places⟩)

/-- A whole number with one place; otherwise the first decimal that
reads back, with one, two, … places; the exact one in the end. -/
def shortest (rank : Nat) : Decimal :=
  if units rank % unitsInOne = 0 then ⟨units rank / unitsInOne * 10, 1⟩
  else ((List.range' 1 1073).findSome? (decimalWith rank)).getD
    ⟨units rank * Nat.pow 5 1074, 1074⟩

def text (x : Binary64) : String :=
  let magnitude := if x.isInfinite then "inf" else (shortest x.rank).text
  if x.negative then "-" ++ magnitude else magnitude

end Binary64

end Lisp
