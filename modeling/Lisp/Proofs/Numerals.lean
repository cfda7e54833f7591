import Lisp.Form.Literal
import Mathlib.Data.List.TakeDrop

/-!
# What is a numeral

The shape of a numeral is said here as a grammar (`NumeralShape`), and
`Numeral.ofChars?` is shown to find exactly that shape and the parts it
is made of. Whole numbers are read back from their text: the text has a
sign only if the number is negative, and its digits count its magnitude.
-/

namespace Lisp

namespace Numeral

/-! ## The grammar -/

/-- A group of digits, not empty. -/
def Digits (text : List Char) : Prop := text ≠ [] ∧ ∀ c ∈ text, c.isDigit = true

/-- A sign, or none. -/
def OptionalSign (text : List Char) : Prop := text = [] ∨ text = ['+'] ∨ text = ['-']

inductive NumeralShape : List Char → Prop
  | whole {sign digits : List Char} (hsign : OptionalSign sign) (hdigits : Digits digits) :
      NumeralShape (sign ++ digits)
  | decimal {sign digits fraction : List Char} (hsign : OptionalSign sign)
      (hdigits : Digits digits) (hfraction : Digits fraction) :
      NumeralShape (sign ++ (digits ++ '.' :: fraction))

theorem isDigits_iff {text : List Char} : isDigits text = true ↔ Digits text := by
  simp [isDigits, Digits]

theorem ne_point_of_isDigit {c : Char} (h : c.isDigit = true) : c ≠ '.' := by
  rintro rfl
  cases h

/-! ## Finding the parts -/

/-- What is no sign stays when the sign is split off. -/
theorem splitSign_append {sign body : List Char} (hsign : OptionalSign sign)
    (hbody : ∀ c, body.head? = some c → c ≠ '+' ∧ c ≠ '-') :
    splitSign (sign ++ body) = (decide (sign = ['-']), body) := by
  rcases hsign with rfl | rfl | rfl
  · cases body with
    | nil => rfl
    | cons c rest =>
      obtain ⟨hplus, hminus⟩ := hbody c rfl
      simp [splitSign, hplus, hminus]
  · rfl
  · rfl

theorem splitSign_spec (text : List Char) :
    ∃ sign, OptionalSign sign ∧ text = sign ++ (splitSign text).2 := by
  unfold splitSign
  split
  · exact ⟨['+'], Or.inr (Or.inl rfl), rfl⟩
  · exact ⟨['-'], Or.inr (Or.inr rfl), rfl⟩
  · exact ⟨[], Or.inl rfl, rfl⟩

theorem Digits.head_ne_sign {digits : List Char} (h : Digits digits) (rest : List Char) :
    ∀ c, (digits ++ rest).head? = some c → c ≠ '+' ∧ c ≠ '-' := by
  obtain ⟨d, digits, rfl⟩ := List.exists_cons_of_ne_nil h.1
  intro c hc
  obtain rfl : d = c := by simpa using hc
  have hd := h.2 d (List.mem_cons_self ..)
  constructor <;> rintro rfl <;> cases hd

theorem span_point {digits fraction : List Char} (h : Digits digits) :
    (digits ++ '.' :: fraction).span (· != '.') = (digits, '.' :: fraction) := by
  have hall : ∀ c ∈ digits, (c != '.') = true := by
    intro c hc
    exact bne_iff_ne.mpr (ne_point_of_isDigit (h.2 c hc))
  rw [List.span_eq_takeWhile_dropWhile, List.takeWhile_append_of_pos hall,
    List.dropWhile_append_of_pos hall]
  simp

theorem ofChars?_whole {sign digits : List Char} (hsign : OptionalSign sign)
    (hdigits : Digits digits) :
    ofChars? (sign ++ digits) = some (.whole (decide (sign = ['-'])) digits) := by
  have hhead := hdigits.head_ne_sign []
  rw [List.append_nil] at hhead
  simp [ofChars?, splitSign_append hsign hhead, isDigits_iff.mpr hdigits]

theorem ofChars?_decimal {sign digits fraction : List Char} (hsign : OptionalSign sign)
    (hdigits : Digits digits) (hfraction : Digits fraction) :
    ofChars? (sign ++ (digits ++ '.' :: fraction)) =
      some (.decimal (decide (sign = ['-'])) digits fraction) := by
  have hpoint : isDigits (digits ++ '.' :: fraction) = false := by
    rw [Bool.eq_false_iff, Ne, isDigits_iff]
    intro h
    exact ne_point_of_isDigit (h.2 '.' (by simp)) rfl
  rw [ofChars?, splitSign_append hsign (hdigits.head_ne_sign _)]
  simp only [hpoint, span_point hdigits, isDigits_iff.mpr hdigits, isDigits_iff.mpr hfraction,
    Bool.false_eq_true, Bool.and_self, if_true, if_false]

theorem shape_of_ofChars? {text : List Char} {n : Numeral} (h : ofChars? text = some n) :
    NumeralShape text := by
  obtain ⟨sign, hsign, htext⟩ := splitSign_spec text
  rw [ofChars?] at h
  generalize splitSign text = split at h htext
  obtain ⟨negative, body⟩ := split
  simp only at h htext
  split at h
  · next hdigits => exact htext ▸ .whole hsign (isDigits_iff.mp hdigits)
  · split at h
    · next digits fraction hspan =>
      split at h
      · next hboth =>
        rw [Bool.and_eq_true, isDigits_iff, isDigits_iff] at hboth
        have hbody : body = digits ++ '.' :: fraction := by
          rw [List.span_eq_takeWhile_dropWhile] at hspan
          rw [← List.takeWhile_append_dropWhile (p := (· != '.')) (l := body)]
          rw [(Prod.mk.inj hspan).1, (Prod.mk.inj hspan).2]
        rw [htext, hbody]
        exact .decimal hsign hboth.1 hboth.2
      · cases h
    · cases h

/-- The numerals are the texts of the shape, and no others. -/
theorem ofChars?_isSome_iff {text : List Char} :
    (ofChars? text).isSome = true ↔ NumeralShape text := by
  constructor
  · intro h
    obtain ⟨n, hn⟩ := Option.isSome_iff_exists.mp h
    exact shape_of_ofChars? hn
  · rintro (⟨hsign, hdigits⟩ | ⟨hsign, hdigits, hfraction⟩)
    · rw [ofChars?_whole hsign hdigits]; rfl
    · rw [ofChars?_decimal hsign hdigits hfraction]; rfl

theorem ofChars?_eq_none_iff {text : List Char} :
    ofChars? text = none ↔ ¬NumeralShape text := by
  rw [← ofChars?_isSome_iff]
  simp

/-! ## Whole numbers -/

theorem digits_toDigits (n : Nat) : Digits (Nat.toDigits 10 n) :=
  ⟨Nat.toDigits_ne_nil, fun _ hc => Nat.isDigit_of_mem_toDigits (by decide) (by decide) hc⟩

@[simp] theorem count_toDigits (n : Nat) : count (Nat.toDigits 10 n) = n :=
  Nat.ofDigitChars_ten_toDigits

end Numeral

/-- The sign of a number as it is written. -/
def signText (negative : Bool) : List Char := if negative then ['-'] else []

theorem optionalSign_signText (negative : Bool) : Numeral.OptionalSign (signText negative) := by
  cases negative
  · exact Or.inl rfl
  · exact Or.inr (Or.inr rfl)

@[simp] theorem signText_eq_minus (negative : Bool) :
    decide (signText negative = ['-']) = negative := by
  cases negative <;> rfl

theorem toList_wholeText (n : Int) :
    (wholeText n).toList = signText (decide (n < 0)) ++ Nat.toDigits 10 n.natAbs := by
  by_cases h : n < 0 <;> simp [wholeText, signText, h]

theorem fitsInt64_toInt (n : Int64) : fitsInt64 n.toInt = true := by
  have hlow := Int64.minValue_le_toInt n
  have hhigh := Int64.toInt_le n
  simp only [fitsInt64, Bool.and_eq_true, decide_eq_true_eq]
  exact ⟨hlow, hhigh⟩

theorem int64?_toInt (n : Int64) : int64? n.toInt = some n := by
  rw [int64?, if_pos (fitsInt64_toInt n), Int64.ofInt_toInt]

/-- A whole number is read back from its text. -/
theorem Literal.ofAtom_wholeText (n : Int64) :
    Literal.ofAtom (wholeText n.toInt) = .ok (.int n) := by
  have hcount : (if decide (n.toInt < 0) = true then -(n.toInt.natAbs : Int)
      else (n.toInt.natAbs : Int)) = n.toInt := by
    by_cases h : n.toInt < 0
    · rw [if_pos (decide_eq_true h)]
      omega
    · rw [if_neg (by simpa using h)]
      omega
  rw [ofAtom, toList_wholeText, Numeral.ofChars?_whole (optionalSign_signText _)
    (Numeral.digits_toDigits _)]
  simp only [ofNumeral?, signText_eq_minus, Numeral.count_toDigits, hcount, int64?_toInt,
    Option.map_some]

end Lisp
