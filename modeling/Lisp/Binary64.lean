/-!
# Floating point numbers

A `Binary64` is a sign and a *rank*: the finite magnitudes of the
64-bit binary format, counted upwards from zero, and one more for
infinity. Counting makes the format's two ranges (evenly spaced below
`2 ^ -1022`, doubling steps above it) one sequence: the successor of a
magnitude is the successor of its rank, and rounding up out of a range
needs no case of its own.

There is no NaN here. Whoever computes with these numbers meets it as
`none`, and whoever stores one has to say which one it is.

Every magnitude is a whole number of *units* of `2 ^ -1074`
(`Binary64.units`), so rounding a quotient to the nearest number
(`Binary64.ofRatio`) is integer arithmetic.
-/

namespace Lisp

namespace Binary64

/-- The number of magnitudes from one power of two to the next,
`2 ^ 52`. -/
def rangeSize : Nat := 4503599627370496

/-- The rank of infinity, one past the largest finite magnitude. -/
def infinityRank : Nat := 2047 * rangeSize

end Binary64

structure Binary64 where
  negative : Bool
  rank : Nat
  rank_le : rank ≤ Binary64.infinityRank
  deriving DecidableEq

namespace Binary64

/-- Ranks above infinity's are brought down to it. -/
def ofRank (negative : Bool) (rank : Nat) : Binary64 :=
  ⟨negative, min rank infinityRank, Nat.min_le_right _ _⟩

def isInfinite (x : Binary64) : Bool := x.rank == infinityRank

/-- The magnitude of a finite rank in units of `2 ^ -1074`. The first
two ranges are one unit apart, and the step doubles from each range to
the next. -/
def units (rank : Nat) : Nat :=
  if rank < rangeSize then rank
  else (rangeSize + rank % rangeSize) <<< (rank / rangeSize - 1)

/-! ## Rounding -/

/-- The whole number nearest to `n / d`; of two equally near, the even
one. -/
def roundHalfEven (n d : Nat) : Nat :=
  let q := n / d
  let r := n % d
  if 2 * r < d then q
  else if d < 2 * r then q + 1
  else if q % 2 = 0 then q else q + 1

/-- The rank nearest to `num / den`. The quotient is cut to 53 leading
bits, or to whole units if it has fewer; the number `k` of bits below
the cut is also the number of completed ranges. -/
def nearestRank (num den : Nat) : Nat :=
  let scaled := num <<< 1074
  let k := (scaled / den).log2 - 52
  k * rangeSize + roundHalfEven scaled (den <<< k)

/-- The number nearest to `± num / den`, infinity if that is too
large. -/
def ofRatio (negative : Bool) (num den : Nat) : Binary64 :=
  ofRank negative (nearestRank num den)

/-- The number nearest to `± digits / 10 ^ places`. -/
def ofDecimal (negative : Bool) (digits places : Nat) : Binary64 :=
  ofRatio negative digits (Nat.pow 10 places)

def ofInt (n : Int) : Binary64 := ofRatio (n < 0) n.natAbs 1

/-! ## Order

Ranks ascend with the magnitude, and both zeros have rank zero, so the
signed rank orders the numbers. -/

def ordinal (x : Binary64) : Int :=
  if x.negative then -(x.rank : Int) else x.rank

/-- Numerical equality: the zeros are equal. -/
def same (x y : Binary64) : Bool := x.ordinal == y.ordinal

/-! ## Words and arithmetic -/

/-- The weight of the sign in a word, `2 ^ 63`. -/
def signWeight : Nat := 9223372036854775808

def toBits (x : Binary64) : UInt64 :=
  UInt64.ofNat ((if x.negative then signWeight else 0) + x.rank)

/-- The number that a 64-bit word stands for, if it is one. -/
def ofBits? (bits : UInt64) : Option Binary64 :=
  if h : bits.toNat % signWeight ≤ infinityRank then
    some ⟨signWeight ≤ bits.toNat, bits.toNat % signWeight, h⟩
  else none

def toFloat (x : Option Binary64) : Float :=
  Float.ofBits (match x with
    | some x => x.toBits
    | none => 0x7FF8000000000000)

def ofFloat (x : Float) : Option Binary64 := ofBits? x.toBits

/-- The machine's operation `op` on numbers, with `none` for NaN. -/
def compute (op : Float → Float → Float) (x y : Option Binary64) : Option Binary64 :=
  ofFloat (op (toFloat x) (toFloat y))

end Binary64

end Lisp
