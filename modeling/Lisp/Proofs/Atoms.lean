import Lisp.Proofs.Arithmetic
import Lisp.Proofs.Steps
import Mathlib.Data.Nat.Digits.Defs

/-!
# Atoms

An atom is a number, a constant, a keyword or a symbol, by its text
alone. The classes are told apart here without the order in which they
are tried (`AtomClass.Holds`), and every text is in exactly one of them
(`AtomClass.existsUnique`). Numbers are told from names by what is out
of place in a text: a character that is no digit, a sign that is not in
front, a point without digits on both sides or after another point
(`Numeral.wellPlaced_iff`).

A whole number is the sum of its digits, each ten times as much as the
one behind it (`Numeral.count_eq_placeValue`), if this fits into a word.
-/

namespace Lisp

namespace Numeral

/-! ## Digits by their places -/

/-- What digits are worth by their places. -/
def placeValue (digits : List Char) : Nat :=
  Nat.ofDigits 10 (digits.reverse.map fun c => c.toNat - '0'.toNat)

theorem count_snoc (digits : List Char) (c : Char) :
    count (digits ++ [c]) = 10 * count digits + (c.toNat - '0'.toNat) := by
  rw [count, Nat.ofDigitChars_append, Nat.ofDigitChars_cons, Nat.ofDigitChars_nil, count]

theorem count_eq_placeValue (digits : List Char) : count digits = placeValue digits := by
  induction digits using List.reverseRecOn with
  | nil => rfl
  | append_singleton digits c ih =>
    rw [count_snoc, ih, placeValue, placeValue, List.reverse_append, List.reverse_singleton,
      List.singleton_append, List.map_cons, Nat.ofDigits_cons, Nat.add_comm]

/-! ## What is out of place -/

/-- Nothing is out of place for a number: there are digits of ASCII,
signs and points only, a sign is the first character, a point has a digit
on either side and is the only one, and the last character is a digit. -/
structure WellPlaced (text : List Char) : Prop where
  characters : ∀ c ∈ text, ('0' ≤ c ∧ c ≤ '9') ∨ c = '+' ∨ c = '-' ∨ c = '.'
  signs : ∀ before c after, text = before ++ c :: after → c = '+' ∨ c = '-' → before = []
  points : ∀ before after, text = before ++ '.' :: after →
    '.' ∉ before ∧ '.' ∉ after ∧ (∃ c, before.getLast? = some c ∧ c.isDigit = true) ∧
      ∃ c, after.head? = some c ∧ c.isDigit = true
  ends : ∃ c, text.getLast? = some c ∧ c.isDigit = true

theorem isDigit_iff_between {c : Char} : c.isDigit = true ↔ '0' ≤ c ∧ c ≤ '9' := by
  rw [Char.isDigit_iff_toNat, Char.le_def, Char.le_def, UInt32.le_iff_toNat_le,
    UInt32.le_iff_toNat_le]
  exact Iff.rfl

section

variable {sign digits : List Char} {c : Char}

theorem OptionalSign.mem (h : OptionalSign sign) (hc : c ∈ sign) : c = '+' ∨ c = '-' := by
  rcases h with rfl | rfl | rfl
  · cases hc
  · exact Or.inl (List.mem_singleton.mp hc)
  · exact Or.inr (List.mem_singleton.mp hc)

theorem not_isDigit_of_sign (h : c = '+' ∨ c = '-') : c.isDigit = false := by
  rcases h with rfl | rfl <;> rfl

theorem Digits.not_mem_point (h : Digits digits) : '.' ∉ digits := fun hmem =>
  ne_point_of_isDigit (h.2 _ hmem) rfl

theorem Digits.exists_getLast? (h : Digits digits) (front : List Char) :
    ∃ c, (front ++ digits).getLast? = some c ∧ c.isDigit = true := by
  refine ⟨digits.getLast h.1, ?_, h.2 _ (List.getLast_mem h.1)⟩
  rw [List.getLast?_append, List.getLast?_eq_some_getLast h.1, Option.some_or]

theorem Digits.exists_head? (h : Digits digits) : ∃ c, digits.head? = some c ∧ c.isDigit = true := by
  obtain ⟨c, rest, rfl⟩ := List.exists_cons_of_ne_nil h.1
  exact ⟨c, rfl, h.2 c (List.mem_cons_self ..)⟩

/-- Behind the first character there is nothing of the sign. -/
theorem OptionalSign.mem_body (h : OptionalSign sign) {body before after : List Char} {first : Char}
    (heq : sign ++ body = first :: before ++ c :: after) : c ∈ body := by
  rcases h with rfl | rfl | rfl
  · rw [List.nil_append] at heq
    rw [heq]
    simp
  all_goals
    rw [List.singleton_append, List.cons_append, List.cons.injEq] at heq
    rw [heq.2]
    simp

end

/-- A text without a point or with digits around it. -/
theorem wellPlaced_of_shape {text : List Char} (h : NumeralShape text) : WellPlaced text := by
  -- the text is a sign and a body without signs, and its points are known
  have hplaced : ∀ sign body, OptionalSign sign →
      (∀ c ∈ body, c.isDigit = true ∨ c = '.') →
      (∀ before after, sign ++ body = before ++ '.' :: after →
        ∃ digits, before = sign ++ digits ∧ Digits digits ∧ Digits after) →
      (∃ c, (sign ++ body).getLast? = some c ∧ c.isDigit = true) → WellPlaced (sign ++ body) := by
    intro sign body hsign hbody hpoints hends
    refine ⟨fun c hc => ?_, fun before c after heq hc => ?_, fun before after heq => ?_, hends⟩
    · rcases List.mem_append.mp hc with hc | hc
      · exact Or.inr ((hsign.mem hc).imp_right Or.inl)
      · rcases hbody c hc with hc | hc
        · exact Or.inl (isDigit_iff_between.mp hc)
        · exact Or.inr (Or.inr (Or.inr hc))
    · cases before with
      | nil => rfl
      | cons first before =>
        rcases hbody c (hsign.mem_body heq) with hdigit | rfl
        · rw [not_isDigit_of_sign hc] at hdigit
          cases hdigit
        · rcases hc with hc | hc <;> cases hc
    · obtain ⟨digits, rfl, hdigits, hafter⟩ := hpoints before after heq
      refine ⟨fun hmem => ?_, hafter.not_mem_point, hdigits.exists_getLast? sign,
        hafter.exists_head?⟩
      rcases List.mem_append.mp hmem with hmem | hmem
      · rcases hsign.mem hmem with h | h <;> cases h
      · exact hdigits.not_mem_point hmem
  have hnone : ∀ sign, OptionalSign sign → '.' ∉ sign := by
    intro sign hsign hmem
    rcases hsign.mem hmem with h | h <;> cases h
  cases h with
  | @whole sign digits hsign hdigits =>
    refine hplaced sign digits hsign (fun c hc => Or.inl (hdigits.2 c hc)) ?_
      (hdigits.exists_getLast? sign)
    intro before after heq
    have hmem : '.' ∈ sign ++ digits := by
      rw [heq]
      simp
    rcases List.mem_append.mp hmem with hmem | hmem
    · exact absurd hmem (hnone sign hsign)
    · exact absurd hmem hdigits.not_mem_point
  | @decimal sign digits fraction hsign hdigits hfraction =>
    refine hplaced sign _ hsign (fun c hc => ?_) (fun before after heq => ?_) ?_
    · rcases List.mem_append.mp hc with hc | hc
      · exact Or.inl (hdigits.2 c hc)
      · rcases List.mem_cons.mp hc with hc | hc
        · exact Or.inr hc
        · exact Or.inl (hfraction.2 c hc)
    · have hfront : '.' ∉ sign ++ digits := by
        rw [List.mem_append, not_or]
        exact ⟨hnone sign hsign, hdigits.not_mem_point⟩
      rw [← List.append_assoc, List.append_cons_inj_of_notMem hfront hfraction.not_mem_point] at heq
      obtain ⟨rfl, -, rfl⟩ := heq
      exact ⟨digits, rfl, hdigits, hfraction⟩
    · have hlast := hfraction.exists_getLast? (sign ++ (digits ++ ['.']))
      rwa [List.append_assoc, List.append_assoc, List.singleton_append] at hlast

/-- A sign in front is split off, and there is none left. -/
theorem WellPlaced.exists_sign {text : List Char} (h : WellPlaced text) :
    ∃ sign body, text = sign ++ body ∧ OptionalSign sign ∧
      ∀ c ∈ body, c.isDigit = true ∨ c = '.' := by
  have hbody : ∀ c ∈ text, ¬(c = '+' ∨ c = '-') → c.isDigit = true ∨ c = '.' := by
    intro c hc hnone
    rcases h.characters c hc with hdigit | hplus | hminus | hpoint
    · exact Or.inl (isDigit_iff_between.mpr hdigit)
    · exact absurd (Or.inl hplus) hnone
    · exact absurd (Or.inr hminus) hnone
    · exact Or.inr hpoint
  cases text with
  | nil => exact ⟨[], [], rfl, Or.inl rfl, List.forall_mem_nil _⟩
  | cons first rest =>
    have hrest : ∀ c ∈ rest, ¬(c = '+' ∨ c = '-') := by
      intro c hc hsign
      obtain ⟨before, after, rfl⟩ := List.append_of_mem hc
      cases h.signs (first :: before) c after rfl hsign
    by_cases hfirst : first = '+' ∨ first = '-'
    · refine ⟨[first], rest, rfl, ?_, fun c hc => hbody c (List.mem_cons_of_mem _ hc) (hrest c hc)⟩
      rcases hfirst with rfl | rfl
      · exact Or.inr (Or.inl rfl)
      · exact Or.inr (Or.inr rfl)
    · refine ⟨[], first :: rest, rfl, Or.inl rfl, fun c hc => hbody c hc ?_⟩
      rcases List.mem_cons.mp hc with rfl | hc
      · exact hfirst
      · exact hrest c hc

theorem WellPlaced.shape {text : List Char} (h : WellPlaced text) : NumeralShape text := by
  obtain ⟨sign, body, rfl, hsign, hbody⟩ := h.exists_sign
  have hdigits : ∀ group : List Char, (∀ c ∈ group, c ∈ body) → '.' ∉ group →
      (∃ c, (sign ++ group).getLast? = some c ∧ c.isDigit = true) → Digits group := by
    rintro group hgroup hpoint ⟨last, hlast, hdigit⟩
    refine ⟨?_, fun c hc => ?_⟩
    · rintro rfl
      rw [List.append_nil] at hlast
      rw [not_isDigit_of_sign (hsign.mem (List.mem_of_getLast? hlast))] at hdigit
      cases hdigit
    · rcases hbody c (hgroup c hc) with hc' | rfl
      · exact hc'
      · exact absurd hc hpoint
  by_cases hpoint : '.' ∈ body
  · obtain ⟨digits, fraction, rfl⟩ := List.append_of_mem hpoint
    obtain ⟨hbefore, hafter, hlast, c, hhead, -⟩ :=
      h.points (sign ++ digits) fraction (List.append_assoc ..).symm
    have hfront : '.' ∉ digits := fun hmem => hbefore (List.mem_append_right _ hmem)
    refine .decimal hsign (hdigits digits (by simp +contextual) hfront hlast) ⟨?_, fun c hc => ?_⟩
    · rintro rfl
      cases hhead
    · rcases hbody c (by simp [hc]) with hc' | rfl
      · exact hc'
      · exact absurd hc hafter
  · exact .whole hsign (hdigits body (fun _ hc => hc) hpoint h.ends)

/-- The numerals are the texts in which nothing is out of place. -/
theorem wellPlaced_iff {text : List Char} : WellPlaced text ↔ NumeralShape text :=
  ⟨WellPlaced.shape, wellPlaced_of_shape⟩

end Numeral

/-! ## The classes of atoms -/

inductive AtomClass where
  | whole | decimal | constant | keyword | symbol
  deriving DecidableEq

namespace AtomClass

open Numeral (OptionalSign Digits NumeralShape)

/-- The text is one of the class. -/
def Holds (text : List Char) : AtomClass → Prop
  | whole => ∃ sign digits, OptionalSign sign ∧ Digits digits ∧ text = sign ++ digits
  | decimal => ∃ sign digits fraction, OptionalSign sign ∧ Digits digits ∧ Digits fraction ∧
      text = sign ++ (digits ++ '.' :: fraction)
  | constant => text ∈ Literal.constants
  | keyword => text.head? = some ':'
  | symbol => ¬NumeralShape text ∧ text ∉ Literal.constants ∧ text.head? ≠ some ':'

/-- The class that is found by trying one after the other. -/
def ofText (text : List Char) : AtomClass :=
  match Numeral.ofChars? text with
  | some (.whole _ _) => whole
  | some (.decimal _ _ _) => decimal
  | none =>
    if text ∈ Literal.constants then constant
    else if text.head? = some ':' then keyword
    else symbol

theorem numeral_iff {text : List Char} :
    (whole.Holds text ∨ decimal.Holds text) ↔ NumeralShape text := by
  constructor
  · rintro (⟨sign, digits, hsign, hdigits, rfl⟩ | ⟨sign, digits, fraction, hsign, hdigits, hfraction, rfl⟩)
    · exact .whole hsign hdigits
    · exact .decimal hsign hdigits hfraction
  · rintro (⟨hsign, hdigits⟩ | ⟨hsign, hdigits, hfraction⟩)
    · exact Or.inl ⟨_, _, hsign, hdigits, rfl⟩
    · exact Or.inr ⟨_, _, _, hsign, hdigits, hfraction, rfl⟩

/-- A text that begins like a name is no numeral. -/
theorem ofText_of_notNumeral {text : List Char} (h : ¬NumeralShape text) :
    ofText text = if text ∈ Literal.constants then constant
      else if text.head? = some ':' then keyword else symbol := by
  rw [ofText, Numeral.ofChars?_eq_none_iff.mpr h]

theorem eq_ofText_of_holds {text : List Char} {c : AtomClass} (h : c.Holds text) :
    c = ofText text := by
  cases c with
  | whole =>
    obtain ⟨sign, digits, hsign, hdigits, rfl⟩ := h
    rw [ofText, Numeral.ofChars?_whole hsign hdigits]
  | decimal =>
    obtain ⟨sign, digits, fraction, hsign, hdigits, hfraction, rfl⟩ := h
    rw [ofText, Numeral.ofChars?_decimal hsign hdigits hfraction]
  | constant =>
    have hconstants : ∀ text ∈ Literal.constants, ofText text = constant := by decide
    exact (hconstants text h).symm
  | keyword =>
    have hnumeral := Literal.notNumeral_of_head h (by decide) (by decide)
    have hconstant : text ∉ Literal.constants := by
      have hheads : ∀ text ∈ Literal.constants, text.head? ≠ some ':' := by decide
      exact fun hmem => hheads text hmem h
    have hhead : text.head? = some ':' := h
    rw [ofText_of_notNumeral hnumeral, if_neg hconstant, if_pos hhead]
  | symbol =>
    obtain ⟨hnumeral, hconstant, hkeyword⟩ := h
    rw [ofText_of_notNumeral hnumeral, if_neg hconstant, if_neg hkeyword]

theorem exists_holds (text : List Char) : ∃ c : AtomClass, c.Holds text := by
  by_cases hnumeral : NumeralShape text
  · rcases numeral_iff.mpr hnumeral with h | h
    · exact ⟨whole, h⟩
    · exact ⟨decimal, h⟩
  by_cases hconstant : text ∈ Literal.constants
  · exact ⟨constant, hconstant⟩
  by_cases hkeyword : text.head? = some ':'
  · exact ⟨keyword, hkeyword⟩
  · exact ⟨symbol, hnumeral, hconstant, hkeyword⟩

/-- Every text is in one class and in no other. -/
theorem existsUnique (text : List Char) : ∃! c : AtomClass, c.Holds text := by
  obtain ⟨c, hc⟩ := exists_holds text
  exact ⟨c, hc, fun c' hc' => (eq_ofText_of_holds hc').trans (eq_ofText_of_holds hc).symm⟩

end AtomClass

/-! ## Reading an atom -/

/-- The number that a sign and digits stand for, digit by digit. -/
def Numeral.decimalValue (sign digits : List Char) : Int :=
  if sign = ['-'] then -(placeValue digits : Int) else placeValue digits

theorem signed_eq_decimalValue (sign digits : List Char) :
    Literal.signed sign digits = Numeral.decimalValue sign digits := by
  rw [Literal.signed, Numeral.decimalValue, Numeral.count_eq_placeValue]

/-- Only numerals mean numbers. -/
theorem Literal.AtomMeans.shape {text : List Char} {v : Value} (h : Literal.AtomMeans text v)
    (hv : v.tag = .int ∨ v.tag = .float) : Numeral.NumeralShape text := by
  cases h with
  | whole hsign hdigits _ => exact .whole hsign hdigits
  | decimal hsign hdigits hfraction => exact .decimal hsign hdigits hfraction
  | nil | true | false | keyword | symbol _ _ _ => rcases hv with hv | hv <;> cases hv

section

variable {source text : String} {start : Nat} {sign digits : List Char}
  (h : (tokenize source).tokens = [⟨.atom, text, start⟩])

include h

/-- An atom that is all of the source stands for the whole of it. -/
theorem read_of_atom :
    read source = (Literal.ofAtom text).mapError
      fun cause => ⟨cause, some ⟨start, start + text.utf8ByteSize⟩⟩ := by
  have htoken : Form.ofToken ⟨.atom, text, start⟩ = Literal.ofAtom text := rfl
  rw [Form.read_of_ne_nil (by simp [h]), h]
  cases hatom : Literal.ofAtom text with
  | ok v =>
    rw [hatom] at htoken
    rw [Form.parseWith_literal htoken]
    rfl
  | error cause =>
    rw [hatom] at htoken
    rw [Form.parseWith_fault htoken nofun nofun nofun]
    rfl

theorem read_of_atom_iff {v : Value} :
    read source = .ok v ↔ Literal.AtomMeans text.toList v := by
  rw [read_of_atom h, ← Literal.ofAtom_eq_ok_iff]
  cases Literal.ofAtom text <;> simp [Except.mapError]

theorem read_whole (hsign : Numeral.OptionalSign sign) (hdigits : Numeral.Digits digits)
    (htext : text.toList = sign ++ digits) (hword : Number.InWord (Numeral.decimalValue sign digits)) :
    ∃ n : Int64, n.toInt = Numeral.decimalValue sign digits ∧ read source = .ok (.int n) := by
  rw [← signed_eq_decimalValue] at hword ⊢
  obtain ⟨n, hn⟩ := Number.Arithmetic.inWord_iff.mp hword
  have hvalue := Literal.toInt_of_int64? hn
  refine ⟨n, hvalue, (read_of_atom_iff h).mpr ?_⟩
  rw [htext]
  exact .whole hsign hdigits hvalue

theorem read_whole_outOfRange (hsign : Numeral.OptionalSign sign) (hdigits : Numeral.Digits digits)
    (htext : text.toList = sign ++ digits)
    (hword : ¬Number.InWord (Numeral.decimalValue sign digits)) :
    read source =
      .error ⟨.wholeOutOfRange text, some ⟨start, start + text.utf8ByteSize⟩⟩ := by
  rw [← signed_eq_decimalValue] at hword
  rw [read_of_atom h, Literal.ofAtom_of_outOfRange ⟨sign, digits, hsign, hdigits, htext, hword⟩]
  rfl

theorem read_decimal {fraction : List Char} (hsign : Numeral.OptionalSign sign)
    (hdigits : Numeral.Digits digits) (hfraction : Numeral.Digits fraction)
    (htext : text.toList = sign ++ (digits ++ '.' :: fraction)) :
    read source = .ok (.float (Binary64.ofDecimal (decide (sign = ['-']))
      (Numeral.placeValue (digits ++ fraction)) fraction.length)) := by
  rw [read_of_atom_iff h, htext, ← Numeral.count_eq_placeValue]
  exact .decimal hsign hdigits hfraction

theorem read_keyword {name : String} (htext : text = ":" ++ name) :
    read source = .ok (.keyword name) := by
  rw [read_of_atom h, htext, Literal.ofAtom_keyword]
  rfl

theorem read_symbol (htext : AtomClass.symbol.Holds text.toList) :
    read source = .ok (.symbol text) := by
  obtain ⟨hnumeral, hconstant, hkeyword⟩ := htext
  have hmeans := Literal.AtomMeans.symbol hnumeral hconstant hkeyword
  rw [String.ofList_toList] at hmeans
  exact (read_of_atom_iff h).mpr hmeans

end

open Number (InWord) in
open Numeral (OptionalSign Digits placeValue decimalValue WellPlaced) in
/-- What is read where a source is a single atom. The text of the atom is
in exactly one class. A whole number is read as the number that its
digits stand for, if that fits into a word, and otherwise its place is
named in an error of syntax. A decimal is read as a floating point
number, a constant as what it names, a text after a colon as a keyword,
and any other text as the symbol it is. The texts of numbers are those
in which no character is out of place, and nothing else is read as a
number. -/
theorem read_atom_by_class {source text : String} {start : Nat}
    (h : (tokenize source).tokens = [⟨.atom, text, start⟩]) :
    (∃! c : AtomClass, c.Holds text.toList) ∧
    (∀ sign digits, OptionalSign sign → Digits digits → text.toList = sign ++ digits →
      (InWord (decimalValue sign digits) →
        ∃ n : Int64, n.toInt = decimalValue sign digits ∧ read source = .ok (.int n)) ∧
      (¬InWord (decimalValue sign digits) →
        ∃ d, read source = .error d ∧ d.cause = .wholeOutOfRange text ∧
          d.cause.kind = .malformed ∧ d.span = some ⟨start, start + text.utf8ByteSize⟩)) ∧
    (∀ sign digits fraction, OptionalSign sign → Digits digits → Digits fraction →
      text.toList = sign ++ (digits ++ '.' :: fraction) →
      read source = .ok (.float (Binary64.ofDecimal (decide (sign = ['-']))
        (placeValue (digits ++ fraction)) fraction.length))) ∧
    (text = "nil" → read source = .ok .nil) ∧
    (text = "true" → read source = .ok (.bool true)) ∧
    (text = "false" → read source = .ok (.bool false)) ∧
    (∀ name, text = ":" ++ name → read source = .ok (.keyword name)) ∧
    (AtomClass.symbol.Holds text.toList → read source = .ok (.symbol text)) ∧
    (AtomClass.whole.Holds text.toList ∨ AtomClass.decimal.Holds text.toList ↔
      WellPlaced text.toList) ∧
    ∀ v, read source = .ok v → v.tag = .int ∨ v.tag = .float → WellPlaced text.toList := by
  have hconstant : ∀ {v}, Literal.AtomMeans text.toList v → read source = .ok v :=
    (read_of_atom_iff h).mpr
  refine ⟨AtomClass.existsUnique _, fun sign digits hsign hdigits htext => ⟨?_, fun hword => ?_⟩,
    fun sign digits fraction => read_decimal h, ?_, ?_, ?_, fun name => read_keyword h,
    read_symbol h, ?_, fun v hread hv => ?_⟩
  · exact read_whole h hsign hdigits htext
  · exact ⟨_, read_whole_outOfRange h hsign hdigits htext hword, rfl, rfl, rfl⟩
  · rintro rfl
    exact hconstant .nil
  · rintro rfl
    exact hconstant .true
  · rintro rfl
    exact hconstant .false
  · rw [AtomClass.numeral_iff, Numeral.wellPlaced_iff]
  · exact Numeral.wellPlaced_of_shape (((read_of_atom_iff h).mp hread).shape hv)

/-- The least number that fits into a word, and the one below it. -/
theorem read_atom_leastWord :
    (tokenize " -9223372036854775808").tokens = [⟨.atom, "-9223372036854775808", 1⟩] ∧
    (∃ n : Int64, n.toInt = -9223372036854775808 ∧ read " -9223372036854775808" = .ok (.int n)) ∧
    (tokenize " -9223372036854775809").tokens = [⟨.atom, "-9223372036854775809", 1⟩] ∧
    ∃ d, read " -9223372036854775809" = .error d ∧ d.cause.kind = .malformed ∧
      d.span = some ⟨1, 21⟩ := by
  have hleast : (tokenize " -9223372036854775808").tokens =
      [⟨.atom, "-9223372036854775808", 1⟩] := by decide
  have hbelow : (tokenize " -9223372036854775809").tokens =
      [⟨.atom, "-9223372036854775809", 1⟩] := by decide
  have hminus : Numeral.OptionalSign ['-'] := Or.inr (Or.inr rfl)
  obtain ⟨-, hwhole, -⟩ := read_atom_by_class hleast
  obtain ⟨-, hwhole', -⟩ := read_atom_by_class hbelow
  obtain ⟨hfits, -⟩ := hwhole ['-'] "9223372036854775808".toList hminus
    (Numeral.isDigits_iff.mp rfl) rfl
  obtain ⟨-, hexceeds⟩ := hwhole' ['-'] "9223372036854775809".toList hminus
    (Numeral.isDigits_iff.mp rfl) rfl
  obtain ⟨n, hn, hread⟩ := hfits ⟨by decide, by decide⟩
  obtain ⟨d, hfails, -, hkind, hspan⟩ := hexceeds fun hword => absurd hword.1 (by decide)
  exact ⟨hleast, ⟨n, hn, hread⟩, hbelow, d, hfails, hkind, hspan⟩

end Lisp
