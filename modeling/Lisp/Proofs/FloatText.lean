import Lisp.Binary64.Decimal
import Lisp.Proofs.Numerals
import Mathlib.Tactic.Ring

/-!
# Floating point numbers are read back from their text

Reading rounds a decimal to the nearest number. A decimal that is
exactly the number stays what it is (`nearestRank_of_exact`), which
settles whole numbers and the last resort of `shortest`; all other
decimals that `shortest` gives were tried by rounding before. The rest
is digits: what `Decimal.text` writes around the point counts up to the
digits of the decimal again.
-/

namespace Lisp

namespace Binary64

/-! ## Exact quotients are not rounded -/

theorem roundHalfEven_mul (q : Nat) {d : Nat} (hd : 0 < d) : roundHalfEven (q * d) d = q := by
  simp [roundHalfEven, Nat.mul_div_cancel q hd, hd]

theorem log2_mantissa {m k : Nat} (hlow : rangeSize ≤ m) (hhigh : m < 2 * rangeSize) :
    (m <<< k).log2 = 52 + k := by
  have hne : m <<< k ≠ 0 := by
    have : 0 < m := Nat.lt_of_lt_of_le (by decide) hlow
    rw [Nat.shiftLeft_eq]
    exact Nat.ne_of_gt (Nat.mul_pos this (Nat.two_pow_pos k))
  have hlow' : 2 ^ 52 ≤ m := hlow
  have hhigh' : m < 2 ^ 53 := hhigh
  rw [Nat.log2_eq_iff hne, Nat.shiftLeft_eq]
  constructor
  · rw [Nat.pow_add]
    exact Nat.mul_le_mul_right _ hlow'
  · rw [show 52 + k + 1 = 53 + k by omega, Nat.pow_add]
    exact Nat.mul_lt_mul_of_pos_right hhigh' (Nat.two_pow_pos k)

theorem shift_eq_mul_shift_one (n k : Nat) : n <<< k = n * 1 <<< k := by
  rw [Nat.shiftLeft_eq, Nat.shiftLeft_eq, Nat.one_mul]

theorem nearestRank_of_exact {rank num den : Nat} (hden : 0 < den)
    (h : num * unitsInOne = units rank * den) : nearestRank num den = rank := by
  have hscaled : num <<< 1074 = units rank * den :=
    (shift_eq_mul_shift_one num 1074).trans h
  simp only [nearestRank, hscaled, Nat.mul_div_cancel _ hden]
  by_cases hrange : rank < rangeSize
  · have hunits : units rank = rank := if_pos hrange
    have hlog : rank.log2 - 52 = 0 := by
      by_cases hzero : rank = 0
      · subst hzero; rfl
      · have : rank.log2 < 52 := (Nat.log2_lt hzero).mpr hrange
        omega
    rw [hunits, hlog, Nat.shiftLeft_zero, roundHalfEven_mul rank hden]
    omega
  · -- the rank is `e` full ranges and a rest, and the magnitude a mantissa shifted `e - 1` times
    have hunits : units rank =
        (rangeSize + rank % rangeSize) <<< (rank / rangeSize - 1) := if_neg hrange
    have hrest : rank % rangeSize < rangeSize := Nat.mod_lt _ (by decide)
    have hranges : 1 ≤ rank / rangeSize := (Nat.one_le_div_iff (by decide)).mpr (by omega)
    have hlog := log2_mantissa (k := rank / rangeSize - 1)
      (Nat.le_add_right rangeSize (rank % rangeSize)) (by omega)
    have hquotient : units rank * den =
        (rangeSize + rank % rangeSize) * (den <<< (rank / rangeSize - 1)) := by
      rw [hunits, Nat.shiftLeft_eq, Nat.shiftLeft_eq]
      ring
    have hpos : 0 < den <<< (rank / rangeSize - 1) := by
      rw [Nat.shiftLeft_eq]
      exact Nat.mul_pos hden (Nat.two_pow_pos _)
    rw [hquotient, hunits, hlog, Nat.add_sub_cancel_left, roundHalfEven_mul _ hpos]
    have hdiv := Nat.div_add_mod rank rangeSize
    obtain ⟨e, he⟩ : ∃ e, rank / rangeSize = e + 1 := ⟨rank / rangeSize - 1, by omega⟩
    rw [he] at hdiv ⊢
    rw [Nat.add_sub_cancel]
    rw [Nat.mul_add, Nat.mul_comm] at hdiv
    omega

/-! ## The shortest decimal reads back -/

theorem decimalWith_spec {rank places : Nat} {d : Decimal} (h : decimalWith rank places = some d) :
    d.places = places ∧ nearestRank d.digits (Nat.pow 10 d.places) = rank := by
  obtain ⟨digits, hfind, rfl⟩ := Option.map_eq_some_iff.mp h
  exact ⟨rfl, by simpa using List.find?_some hfind⟩

theorem pow_ten_pos (k : Nat) : 0 < Nat.pow 10 k := Nat.pow_pos (by decide)

/-- With as many places as the units have bits, every number is a
decimal. -/
theorem nearestRank_all_places (rank : Nat) {k : Nat} (hk : unitsInOne = 1 <<< k) :
    nearestRank (units rank * Nat.pow 5 k) (Nat.pow 10 k) = rank := by
  refine nearestRank_of_exact (pow_ten_pos k) ?_
  rw [hk, Nat.shiftLeft_eq, Nat.one_mul, Nat.mul_assoc]
  exact congrArg (units rank * ·) (Nat.mul_pow 5 2 k).symm

theorem unitsInOne_eq : unitsInOne = 1 <<< 1074 := by
  rw [unitsInOne]

theorem shortest_spec (rank : Nat) :
    0 < (shortest rank).places ∧
      nearestRank (shortest rank).digits (Nat.pow 10 (shortest rank).places) = rank := by
  unfold shortest
  split
  · next hwhole =>
    refine ⟨Nat.one_pos, nearestRank_of_exact (pow_ten_pos 1) ?_⟩
    have hcancel := Nat.div_mul_cancel (Nat.dvd_of_mod_eq_zero hwhole)
    calc units rank / unitsInOne * 10 * unitsInOne
        = units rank / unitsInOne * unitsInOne * 10 := Nat.mul_right_comm ..
      _ = units rank * Nat.pow 10 1 := by rw [hcancel]
  · cases hfind : (List.range' 1 1073).findSome? (decimalWith rank) with
    | some d =>
      obtain ⟨places, hmem, hd⟩ := List.exists_of_findSome?_eq_some hfind
      obtain ⟨hplaces, hround⟩ := decimalWith_spec hd
      rw [List.mem_range'_1] at hmem
      exact ⟨by simp only [Option.getD_some]; omega, hround⟩
    | none =>
      generalize hk : 1074 = k
      exact ⟨hk ▸ Nat.succ_pos 1073, nearestRank_all_places rank (hk ▸ unitsInOne_eq)⟩

/-! ## The digits of a decimal -/

namespace Decimal

/-- What is written after the point. -/
def fractionText (d : Decimal) : List Char :=
  let fraction := Nat.toDigits 10 (d.digits % Nat.pow 10 d.places)
  List.replicate (d.places - fraction.length) '0' ++ fraction

theorem toList_text (d : Decimal) :
    d.text.toList =
      Nat.toDigits 10 (d.digits / Nat.pow 10 d.places) ++ '.' :: d.fractionText := by
  simp [text, fractionText]

theorem digits_fractionText (d : Decimal) : Numeral.Digits d.fractionText := by
  refine ⟨by simp [fractionText, Nat.toDigits_ne_nil], fun c hc => ?_⟩
  rcases List.mem_append.mp hc with hc | hc
  · rw [List.eq_of_mem_replicate hc]
    rfl
  · exact (Numeral.digits_toDigits _).2 c hc

theorem length_fractionText {d : Decimal} (hplaces : 0 < d.places) :
    d.fractionText.length = d.places := by
  have hlength : (Nat.toDigits 10 (d.digits % Nat.pow 10 d.places)).length ≤ d.places :=
    (Nat.length_toDigits_le_iff (by decide) hplaces).mpr (Nat.mod_lt _ (pow_ten_pos _))
  rw [fractionText, List.length_append, List.length_replicate]
  omega

theorem count_text {d : Decimal} (hplaces : 0 < d.places) :
    Numeral.count (Nat.toDigits 10 (d.digits / Nat.pow 10 d.places) ++ d.fractionText) =
      d.digits := by
  have hlength := length_fractionText hplaces
  have hfraction : Numeral.count d.fractionText = d.digits % Nat.pow 10 d.places := by
    rw [Numeral.count, fractionText, Nat.ofDigitChars_append, Nat.ofDigitChars_replicate_zero,
      Nat.mul_zero, Nat.ofDigitChars_ten_toDigits]
  rw [Numeral.count, Nat.ofDigitChars_append, Nat.ofDigitChars_ten_toDigits,
    Nat.ofDigitChars_eq_ofDigitChars_zero, hlength]
  exact (congrArg _ hfraction).trans (Nat.div_add_mod d.digits (Nat.pow 10 d.places))

end Decimal

/-! ## The text of a number -/

theorem ofRank_rank (x : Binary64) : ofRank x.negative x.rank = x := by
  obtain ⟨negative, rank, hle⟩ := x
  simp [ofRank, Nat.min_eq_left hle]

theorem toList_text_of_finite {x : Binary64} (h : x.isInfinite = false) :
    x.text.toList = signText x.negative ++
      (Nat.toDigits 10 ((shortest x.rank).digits / Nat.pow 10 (shortest x.rank).places) ++
        '.' :: (shortest x.rank).fractionText) := by
  rw [← Decimal.toList_text]
  cases hsign : x.negative <;> simp [text, h, hsign, signText]

end Binary64

/-- A finite floating point number is read back from its text, sign of
zero and all. -/
theorem Literal.ofAtom_text {x : Binary64} (h : x.isInfinite = false) :
    Literal.ofAtom x.text = .ok (.float x) := by
  obtain ⟨hplaces, hround⟩ := Binary64.shortest_spec x.rank
  rw [ofAtom, Binary64.toList_text_of_finite h,
    Numeral.ofChars?_decimal (optionalSign_signText _) (Numeral.digits_toDigits _)
      (Binary64.Decimal.digits_fractionText _)]
  simp only [ofNumeral?, signText_eq_minus, Binary64.ofDecimal, Binary64.ofRatio,
    Binary64.Decimal.count_text hplaces, Binary64.Decimal.length_fractionText hplaces, hround,
    Binary64.ofRank_rank]

end Lisp
