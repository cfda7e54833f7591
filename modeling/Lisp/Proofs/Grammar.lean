import Lisp.Proofs.Lexing
import Lisp.Proofs.RoundTrip

/-!
# The grammar of forms

Which tokens denote which form is said here by derivations, without the
machine and its stack: `Denotes` takes a form off the front of a list of
tokens, and `DenoteEach` a sequence of forms. What an atom means is said
by its text alone (`AtomMeans`).

The machine reads every form that the tokens denote, whatever its stack
(`Denotes.spelled`). The other way around, a run that ends well leaves a
derivation for what is still open on its stack: a mark waits for a form,
and a bracket for more forms and its closer (`Awaits`). With nothing on
the stack, this is a derivation of the whole form.
-/

namespace Lisp

/-! ## What atoms mean -/

namespace Literal

/-- The number that a sign and digits stand for. -/
def signed (sign digits : List Char) : Int :=
  if sign = ['-'] then -(Numeral.count digits : Int) else Numeral.count digits

/-- The texts of the constants. -/
def constants : List (List Char) := ["nil".toList, "true".toList, "false".toList]

/-- The value that the text of an atom means. A whole number out of the
range of words means nothing. -/
inductive AtomMeans : List Char → Value → Prop
  | whole {sign digits : List Char} {n : Int64} (hsign : Numeral.OptionalSign sign)
      (hdigits : Numeral.Digits digits) (hn : n.toInt = signed sign digits) :
      AtomMeans (sign ++ digits) (.int n)
  | decimal {sign digits fraction : List Char} (hsign : Numeral.OptionalSign sign)
      (hdigits : Numeral.Digits digits) (hfraction : Numeral.Digits fraction) :
      AtomMeans (sign ++ (digits ++ '.' :: fraction))
        (.float (Binary64.ofDecimal (decide (sign = ['-']))
          (Numeral.count (digits ++ fraction)) fraction.length))
  | nil : AtomMeans "nil".toList .nil
  | true : AtomMeans "true".toList (.bool true)
  | false : AtomMeans "false".toList (.bool false)
  | keyword {name : List Char} : AtomMeans (':' :: name) (.keyword (String.ofList name))
  | symbol {name : List Char} (hnumeral : ¬Numeral.NumeralShape name)
      (hconstant : name ∉ constants) (hkeyword : name.head? ≠ some ':') :
      AtomMeans name (.symbol (String.ofList name))

/-- The text is that of a whole number that fits into no word. -/
def OutOfRange (lexeme : String) : Prop :=
  ∃ sign digits, Numeral.OptionalSign sign ∧ Numeral.Digits digits ∧
    lexeme.toList = sign ++ digits ∧
    ¬(Int64.minValue.toInt ≤ signed sign digits ∧ signed sign digits ≤ Int64.maxValue.toInt)

theorem int64?_eq_none_iff {n : Int} :
    int64? n = none ↔ ¬(Int64.minValue.toInt ≤ n ∧ n ≤ Int64.maxValue.toInt) := by
  simp [int64?, fitsInt64]

theorem toInt_of_int64? {n : Int} {word : Int64} (h : int64? n = some word) :
    word.toInt = n := by
  rw [int64?] at h
  split at h
  · next hfits =>
    rw [fitsInt64, Bool.and_eq_true, decide_eq_true_eq, decide_eq_true_eq] at hfits
    rw [← Option.some.inj h]
    exact Int64.toInt_ofInt_of_le (by simpa using hfits.1) (by
      have hmax : Int64.maxValue.toInt = 2 ^ 63 - 1 := rfl
      omega)
  · cases h

theorem ofNumeral?_whole (sign digits : List Char) :
    ofNumeral? (.whole (decide (sign = ['-'])) digits) = (int64? (signed sign digits)).map .int := by
  by_cases h : sign = ['-'] <;> simp [ofNumeral?, signed, h]

theorem ofName_symbol {lexeme : String} (hconstant : lexeme.toList ∉ constants)
    (hkeyword : lexeme.toList.head? ≠ some ':') : ofName lexeme = .symbol lexeme := by
  have hne : ∀ constant : String, constant.toList ∈ constants → lexeme ≠ constant := by
    rintro constant hmem rfl
    exact hconstant hmem
  rw [ofName, if_neg (hne "nil" (by simp [constants])), if_neg (hne "true" (by simp [constants])),
    if_neg (hne "false" (by simp [constants]))]
  split
  · next heq =>
    rw [heq] at hkeyword
    exact absurd rfl hkeyword
  · rfl

theorem ofAtom_of_means {lexeme : String} {v : Value} (h : AtomMeans lexeme.toList v) :
    ofAtom lexeme = .ok v := by
  generalize htext : lexeme.toList = text at h
  cases h with
  | @whole sign digits n hsign hdigits hn =>
    have hword : int64? (signed sign digits) = some n := by rw [← hn, int64?_toInt]
    rw [ofAtom, htext, Numeral.ofChars?_whole hsign hdigits]
    simp only [ofNumeral?_whole, hword, Option.map_some]
  | decimal hsign hdigits hfraction =>
    rw [ofAtom, htext, Numeral.ofChars?_decimal hsign hdigits hfraction]
    rfl
  | nil | true | false =>
    obtain rfl := String.toList_inj.mp htext
    rfl
  | @keyword name =>
    have hlexeme : lexeme = ":" ++ String.ofList name := by
      rw [← String.toList_inj, htext]
      simp
    rw [hlexeme, ofAtom_keyword]
  | symbol hnumeral hconstant hkeyword =>
    subst htext
    rw [ofAtom_of_notNumeral hnumeral, ofName_symbol hconstant hkeyword, String.ofList_toList]

/-- An atom that is no numeral always means something. -/
theorem means_ofName {lexeme : String} (h : ¬Numeral.NumeralShape lexeme.toList) :
    AtomMeans lexeme.toList (ofName lexeme) := by
  by_cases hconstant : lexeme.toList ∈ constants
  · simp only [constants, List.mem_cons, List.not_mem_nil, or_false, String.toList_inj]
      at hconstant
    rcases hconstant with rfl | rfl | rfl
    · exact .nil
    · exact .true
    · exact .false
  · by_cases hkeyword : lexeme.toList.head? = some ':'
    · obtain ⟨name, hname⟩ := List.head?_eq_some_iff.mp hkeyword
      have hlexeme : lexeme = ":" ++ String.ofList name := by
        rw [← String.toList_inj, hname]
        simp
      have hvalue : ofName lexeme = .keyword (String.ofList name) := by
        have hatom := ofAtom_keyword (String.ofList name)
        rw [← hlexeme, ofAtom_of_notNumeral h] at hatom
        exact Except.ok.inj hatom
      rw [hvalue, hname]
      exact .keyword
    · rw [ofName_symbol hconstant hkeyword, ← String.ofList_toList (s := lexeme)]
      rw [String.toList_ofList]
      exact .symbol h hconstant hkeyword

theorem ofAtom_of_outOfRange {lexeme : String} (h : OutOfRange lexeme) :
    ofAtom lexeme = .error (.wholeOutOfRange lexeme) := by
  obtain ⟨sign, digits, hsign, hdigits, htext, hrange⟩ := h
  rw [ofAtom, htext, Numeral.ofChars?_whole hsign hdigits]
  simp only [ofNumeral?_whole, int64?_eq_none_iff.mpr hrange, Option.map_none]

/-- An atom means something, unless it is a number out of range. -/
theorem means_or_outOfRange (lexeme : String) :
    (∃ v, AtomMeans lexeme.toList v) ∨ OutOfRange lexeme := by
  by_cases hshape : Numeral.NumeralShape lexeme.toList
  · generalize htext : lexeme.toList = text at hshape
    cases hshape with
    | @whole sign digits hsign hdigits =>
      cases hword : int64? (signed sign digits) with
      | some n => exact Or.inl ⟨_, .whole hsign hdigits (toInt_of_int64? hword)⟩
      | none => exact Or.inr ⟨sign, digits, hsign, hdigits, htext, int64?_eq_none_iff.mp hword⟩
    | decimal hsign hdigits hfraction => exact Or.inl ⟨_, .decimal hsign hdigits hfraction⟩
  · exact Or.inl ⟨_, means_ofName hshape⟩

theorem ofAtom_eq_ok_iff {lexeme : String} {v : Value} :
    ofAtom lexeme = .ok v ↔ AtomMeans lexeme.toList v := by
  refine ⟨fun h => ?_, ofAtom_of_means⟩
  rcases means_or_outOfRange lexeme with ⟨v', hmeans⟩ | hrange
  · rw [ofAtom_of_means hmeans] at h
    rwa [← Except.ok.inj h]
  · rw [ofAtom_of_outOfRange hrange] at h
    cases h

theorem ofAtom_eq_error_iff {lexeme : String} {cause : Cause} :
    ofAtom lexeme = .error cause ↔ OutOfRange lexeme ∧ cause = .wholeOutOfRange lexeme := by
  constructor
  · intro h
    rcases means_or_outOfRange lexeme with ⟨v, hmeans⟩ | hrange
    · rw [ofAtom_of_means hmeans] at h
      cases h
    · rw [ofAtom_of_outOfRange hrange] at h
      exact ⟨hrange, (Except.error.inj h).symm⟩
  · rintro ⟨hrange, rfl⟩
    exact ofAtom_of_outOfRange hrange

end Literal

/-! ## What tokens denote -/

namespace Form

mutual

/-- A form at the front of a list of tokens, and the tokens after it. -/
inductive Denotes : List Token → Value → List Token → Prop
  | atom {t : Token} {v : Value} {rest : List Token} (hkind : t.kind = .atom)
      (h : Literal.AtomMeans t.lexeme.toList v) : Denotes (t :: rest) v rest
  | string {t : Token} {raw : List Char} {rest : List Token} (hkind : t.kind = .string)
      (h : t.lexeme.toList = '\x22' :: (raw ++ ['\x22'])) :
      Denotes (t :: rest) (.string (String.ofList (Quoted.decode raw))) rest
  | caret {t : Token} {rest : List Token} (hkind : t.kind = .caret) (h : t.lexeme = "^") :
      Denotes (t :: rest) (.symbol "^") rest
  | mark {t : Token} {m : Mark} {tokens rest : List Token} {form : Value}
      (hkind : t.kind = .mark m) (h : Denotes tokens form rest) :
      Denotes (t :: tokens) (.list [.symbol m.symbol, form]) rest
  | list {opener closer : Token} {tokens rest : List Token} {forms : List Value}
      (hopener : opener.kind = .opening .round) (h : DenoteEach tokens forms (closer :: rest))
      (hcloser : closer.kind = .closing .round) : Denotes (opener :: tokens) (.list forms) rest
  | vector {opener closer : Token} {tokens rest : List Token} {forms : List Value}
      (hopener : opener.kind = .opening .square) (h : DenoteEach tokens forms (closer :: rest))
      (hcloser : closer.kind = .closing .square) : Denotes (opener :: tokens) (.vector forms) rest
  /-- The forms are keys and values in turn. -/
  | map {opener closer : Token} {tokens rest : List Token} {pairs : List (Value × Value)}
      (hopener : opener.kind = .opening .curly)
      (h : DenoteEach tokens (Value.alternating pairs) (closer :: rest))
      (hcloser : closer.kind = .closing .curly) :
      Denotes (opener :: tokens) (.map (Entries.ofPairs pairs)) rest

/-- Forms at the front of a list of tokens, one after the other. -/
inductive DenoteEach : List Token → List Value → List Token → Prop
  | nil {rest : List Token} : DenoteEach rest [] rest
  | cons {tokens middle rest : List Token} {form : Value} {forms : List Value}
      (h : Denotes tokens form middle) (hrest : DenoteEach middle forms rest) :
      DenoteEach tokens (form :: forms) rest

end

/-! ## What tokens denote is read -/

theorem read_quoted {lexeme : String} {raw : List Char}
    (h : lexeme.toList = '\x22' :: (raw ++ ['\x22'])) :
    Quoted.read lexeme = String.ofList (Quoted.decode raw) := by
  rw [Quoted.read, h, List.drop_one, List.tail_cons, List.dropLast_concat]

theorem spell_mark {t : Token} {m : Mark} {tokens : List Token} {form : Value}
    (hkind : t.kind = .mark m) (h : Spell tokens form) : Spell (t :: tokens) (marked m form) := by
  intro stop stack rest
  rw [List.cons_append, parseWith.eq_def]
  simp only [hkind]
  rw [h stop (.mark m :: stack) rest, resume, resume, deliver]

theorem spelled_enclosed {b : Bracket} {opener closer : Token} {tokens rest : List Token}
    {forms : List Value} {form : Value} (hopener : opener.kind = .opening b)
    (hcloser : closer.kind = .closing b) (hform : enclosed b forms = .ok form)
    (h : ∃ used, tokens = used ++ closer :: rest ∧ SpellEach used forms) :
    ∃ used, opener :: tokens = used ++ rest ∧ Spell used form := by
  obtain ⟨used, rfl, hspell⟩ := h
  refine ⟨opener :: used ++ [closer], ?_, hspell.enclose hopener hcloser hform⟩
  rw [List.append_assoc, List.cons_append, List.singleton_append]

mutual

theorem Denotes.spelled {tokens rest : List Token} {form : Value} :
    Denotes tokens form rest → ∃ used, tokens = used ++ rest ∧ Spell used form
  | @Denotes.atom t v rest hkind h => by
    refine ⟨[t], rfl, spell_literal ?_⟩
    rw [ofToken, hkind]
    exact Literal.ofAtom_of_means h
  | @Denotes.string t raw rest hkind h => by
    refine ⟨[t], rfl, spell_literal ?_⟩
    rw [ofToken, hkind, ← read_quoted h]
  | @Denotes.caret t rest hkind h => by
    refine ⟨[t], rfl, spell_literal ?_⟩
    rw [ofToken, hkind, h]
  | @Denotes.mark t m _ _ _ hkind h => by
    obtain ⟨used, rfl, hspell⟩ := h.spelled
    exact ⟨t :: used, rfl, spell_mark hkind hspell⟩
  | .list hopener h hcloser => spelled_enclosed hopener hcloser rfl h.spelled
  | .vector hopener h hcloser => spelled_enclosed hopener hcloser rfl h.spelled
  | .map hopener h hcloser =>
    spelled_enclosed hopener hcloser (Value.mapOf_alternating_pairs _) h.spelled

theorem DenoteEach.spelled {tokens rest : List Token} {forms : List Value} :
    DenoteEach tokens forms rest → ∃ used, tokens = used ++ rest ∧ SpellEach used forms
  | @DenoteEach.nil rest => ⟨[], rfl, spellEach_nil⟩
  | @DenoteEach.cons _ _ rest _ _ h hrest => by
    obtain ⟨used, rfl, hspell⟩ := h.spelled
    obtain ⟨later, rfl, hspells⟩ := hrest.spelled
    exact ⟨used ++ later, (List.append_assoc ..).symm, .cons hspell hspells⟩

end

/-- The machine reads what the tokens denote, and hands it to its
stack. -/
theorem Denotes.parseWith {tokens rest : List Token} {form : Value} (h : Denotes tokens form rest)
    (stop : Nat) (stack : List Frame) :
    parseWith stop stack tokens = resume stop form stack rest := by
  obtain ⟨used, rfl, hspell⟩ := h.spelled
  exact hspell stop stack rest

/-- Inside a bracket it reads the forms one after the other. -/
theorem DenoteEach.parseWith {tokens rest : List Token} {forms : List Value}
    (h : DenoteEach tokens forms rest) (stop : Nat) (b : Bracket) (opener : Token)
    (before : List Value) (below : List Frame) :
    parseWith stop (.bracket b opener before :: below) tokens =
      parseWith stop (.bracket b opener (forms.reverse ++ before) :: below) rest := by
  obtain ⟨used, rfl, hspell⟩ := h.spelled
  exact hspell stop b opener before below rest

/-- Tokens denote one form at most, and use up the same tokens for
it. -/
theorem Denotes.unique {tokens rest rest' : List Token} {form form' : Value}
    (h : Denotes tokens form rest) (h' : Denotes tokens form' rest') :
    form = form' ∧ rest = rest' := by
  have hread := h.parseWith 0 []
  rw [h'.parseWith 0 []] at hread
  obtain ⟨hform, hrest⟩ := Prod.mk.inj (Except.ok.inj hread)
  exact ⟨hform.symm, hrest.symm⟩

/-! ## What is read is denoted -/

/-- The lexeme of a string is in quotation marks, and that of a caret
is one. -/
structure Delimited (t : Token) : Prop where
  string : t.kind = .string → ∃ raw, t.lexeme.toList = '\x22' :: (raw ++ ['\x22'])
  caret : t.kind = .caret → t.lexeme = "^"

theorem denotes_of_ofToken {t : Token} {form : Value} (ht : Delimited t)
    (h : ofToken t = .ok form) (rest : List Token) : Denotes (t :: rest) form rest := by
  rw [ofToken] at h
  split at h
  · next hkind =>
    have hlexeme := ht.caret hkind
    obtain rfl := Except.ok.inj h
    rw [hlexeme]
    exact .caret hkind hlexeme
  · next hkind =>
    obtain ⟨raw, hraw⟩ := ht.string hkind
    obtain rfl := Except.ok.inj h
    rw [read_quoted hraw]
    exact .string hkind hraw
  · cases h
  · next hkind => exact .atom hkind (Literal.ofAtom_eq_ok_iff.mp h)
  · cases h
  · cases h
  · cases h

theorem denotes_of_enclosed {b : Bracket} {opener closer : Token} {tokens rest : List Token}
    {forms : List Value} {form : Value} (hopener : opener.kind = .opening b)
    (h : DenoteEach tokens forms (closer :: rest)) (hcloser : closer.kind = .closing b)
    (hform : enclosed b forms = .ok form) : Denotes (opener :: tokens) form rest := by
  cases b with
  | round =>
    obtain rfl := Except.ok.inj hform
    exact .list hopener h hcloser
  | square =>
    obtain rfl := Except.ok.inj hform
    exact .vector hopener h hcloser
  | curly =>
    obtain ⟨pairs, rfl, rfl⟩ := Value.pairs_of_mapOf hform
    exact .map hopener h hcloser

/-- The tokens go on with forms and the closer of a bracket, and `After`
holds of the whole between the brackets and the tokens after it. -/
def Closes (b : Bracket) (before : List Value) (After : Value → List Token → Prop)
    (tokens : List Token) : Prop :=
  ∃ forms closer later form, DenoteEach tokens forms (closer :: later) ∧
    closer.kind = .closing b ∧ enclosed b (before.reverse ++ forms) = .ok form ∧ After form later

/-- From a complete form on, what is open on the stack has a derivation
that ends with `whole` and `rest`. -/
def Delivered (whole : Value) (rest : List Token) : List Frame → Value → List Token → Prop
  | [], form, tokens => form = whole ∧ tokens = rest
  | .mark m :: below, form, tokens => Delivered whole rest below (marked m form) tokens
  | .bracket b _ before :: below, form, tokens =>
    Closes b (form :: before) (Delivered whole rest below) tokens

/-- The same, when the next form has not begun. A bracket on top may
also be closed instead. -/
def Awaits (whole : Value) (rest : List Token) : List Frame → List Token → Prop
  | .bracket b _ before :: below, tokens => Closes b before (Delivered whole rest below) tokens
  | stack, tokens => ∃ form later, Denotes tokens form later ∧ Delivered whole rest stack form later

section Stack

variable {whole form : Value} {rest tokens later : List Token} {stack stack' : List Frame}

theorem awaits_of_denotes (h : Denotes tokens form later)
    (hdelivered : Delivered whole rest stack form later) : Awaits whole rest stack tokens := by
  match stack, hdelivered with
  | [], hdelivered => exact ⟨form, later, h, hdelivered⟩
  | .mark m :: below, hdelivered => exact ⟨form, later, h, hdelivered⟩
  | .bracket b opener before :: below, hdelivered =>
    obtain ⟨forms, closer, after, inner, hforms, hcloser, hinner, hafter⟩ := hdelivered
    rw [List.reverse_cons, List.append_assoc, List.singleton_append] at hinner
    exact ⟨form :: forms, closer, after, inner, .cons h hforms, hcloser, hinner, hafter⟩

theorem delivered_of_deliver_inl (h : deliver form stack = .inl whole) :
    Delivered whole rest stack form rest := by
  induction stack generalizing form with
  | nil => exact ⟨Sum.inl.inj h, rfl⟩
  | cons frame below ih =>
    cases frame with
    | mark m => exact ih h
    | bracket b opener before => cases h

theorem delivered_of_deliver_inr (h : deliver form stack = .inr stack')
    (hawaits : Awaits whole rest stack' later) : Delivered whole rest stack form later := by
  induction stack generalizing form with
  | nil => cases h
  | cons frame below ih =>
    cases frame with
    | mark m => exact ih h
    | bracket b opener before =>
      rw [← Sum.inr.inj h] at hawaits
      exact hawaits

/-- A run that ends well has a derivation for all that was open. -/
theorem awaits_of_parseWith {stop : Nat} (htokens : ∀ t ∈ tokens, Delimited t)
    (h : parseWith stop stack tokens = .ok (whole, rest)) : Awaits whole rest stack tokens := by
  -- the cases of the machine: a text that ends, the two openers, a closer
  -- below its bracket, and a literal; the faults deliver nothing
  fun_induction parseWith stop stack tokens with
  | case1 | case4 | case7 | case8 => cases h
  | case2 t tokens b stack hkind ih =>
    have hrest := (List.forall_mem_cons.mp htokens).2
    obtain ⟨forms, closer, later, form, hforms, hcloser, hform, hafter⟩ := ih hrest h
    exact awaits_of_denotes (denotes_of_enclosed hkind hforms hcloser hform) hafter
  | case3 t tokens m stack hkind ih =>
    have hrest := (List.forall_mem_cons.mp htokens).2
    obtain ⟨form, later, hform, hafter⟩ := ih hrest h
    exact awaits_of_denotes (.mark hkind hform) hafter
  | case5 t tokens b opener forms below inner whole' hdeliver hkind hinner =>
    obtain ⟨rfl, rfl⟩ := Prod.mk.inj (Except.ok.inj h)
    rw [← List.append_nil forms.reverse] at hinner
    exact ⟨[], t, tokens, inner, .nil, hkind, hinner, delivered_of_deliver_inl hdeliver⟩
  | case6 t tokens b opener forms below inner stack' hdeliver hkind hinner ih =>
    have hrest := (List.forall_mem_cons.mp htokens).2
    have hdelivered := delivered_of_deliver_inr hdeliver (ih hrest h)
    rw [← List.append_nil forms.reverse] at hinner
    exact ⟨[], t, tokens, inner, .nil, hkind, hinner, hdelivered⟩
  | case9 t tokens stack inner hinner whole' hdeliver =>
    have ht := htokens t (List.mem_cons_self ..)
    obtain ⟨rfl, rfl⟩ := Prod.mk.inj (Except.ok.inj h)
    exact awaits_of_denotes (denotes_of_ofToken ht hinner tokens) (delivered_of_deliver_inl hdeliver)
  | case10 t tokens stack inner hinner stack' hdeliver _ _ _ ih =>
    obtain ⟨ht, hrest⟩ := List.forall_mem_cons.mp htokens
    have hdelivered := delivered_of_deliver_inr hdeliver (ih hrest h)
    exact awaits_of_denotes (denotes_of_ofToken ht hinner tokens) hdelivered

end Stack

/-! ## Reading -/

theorem parseWith_eq_ok_iff {stop : Nat} {tokens rest : List Token} {form : Value}
    (htokens : ∀ t ∈ tokens, Delimited t) :
    parseWith stop [] tokens = .ok (form, rest) ↔ Denotes tokens form rest := by
  constructor
  · intro h
    obtain ⟨_, _, hdenotes, rfl, rfl⟩ := awaits_of_parseWith htokens h
    exact hdenotes
  · intro h
    exact h.parseWith stop []

theorem ofTokens_eq_ok_iff {stream : TokenStream} {rest : List Token} {form : Value}
    (htokens : ∀ t ∈ stream.tokens, Delimited t) :
    ofTokens stream = .ok (form, rest) ↔ Denotes stream.tokens form rest := by
  unfold ofTokens
  split
  · next hnil =>
    rw [hnil]
    constructor <;> intro h <;> cases h
  · exact parseWith_eq_ok_iff htokens

theorem delimited_of_shape {t : Token} {following : List Char}
    (h : LexemeOf t.kind t.lexeme.toList following) : Delimited t := by
  constructor
  · intro hkind
    rw [hkind] at h
    generalize t.lexeme.toList = lexeme at h
    cases h with
    | @string body _ _ => exact ⟨body, rfl⟩
  · intro hkind
    rw [hkind] at h
    rw [← String.toList_inj]
    generalize t.lexeme.toList = lexeme at h
    cases h with
    | caret => rfl

theorem delimited_of_tokenize (source : String) :
    ∀ t ∈ (tokenize source).tokens, Delimited t := by
  intro t ht
  have hsource : source.toList = [] ++ source.toList := rfl
  exact delimited_of_shape ((tokenize_lexed source).tokenAt hsource rfl t ht).shape

theorem read_of_denotes {source : String} {form : Value} {rest : List Token}
    (h : Denotes (tokenize source).tokens form rest) : read source = .ok form :=
  read_eq_ok_iff.mpr ⟨rest, (ofTokens_eq_ok_iff (delimited_of_tokenize source)).mpr h⟩

end Form

/-- A text is read as a value just if its tokens begin with a form that
denotes it, and no tokens denote two values, or one with different
tokens after it. -/
theorem read_eq_ok_iff_denotes :
    (∀ (source : String) (v : Value),
      read source = .ok v ↔ ∃ rest, Form.Denotes (tokenize source).tokens v rest) ∧
    ∀ (tokens : List Token) (v v' : Value) (rest rest' : List Token),
      Form.Denotes tokens v rest → Form.Denotes tokens v' rest' → v = v' ∧ rest = rest' := by
  refine ⟨fun source v => ?_, fun _ _ _ _ _ h h' => h.unique h'⟩
  rw [read_eq_ok_iff]
  exact exists_congr fun rest => Form.ofTokens_eq_ok_iff (Form.delimited_of_tokenize source)

/-- A mark, a list, and a form that is left. -/
theorem read_markedList :
    read "\x27(:k ^) x" = .ok (.list [.symbol "quote", .list [.keyword "k", .symbol "^"]]) ∧
    ∀ (v : Value) (rest : List Token), Form.Denotes (tokenize "\x27(:k ^) x").tokens v rest →
      v = .list [.symbol "quote", .list [.keyword "k", .symbol "^"]] ∧
        rest = [⟨.atom, "x", 8⟩] := by
  have htokens : (tokenize "\x27(:k ^) x").tokens =
      [⟨.mark .quote, "\x27", 0⟩, ⟨.opening .round, "(", 1⟩, ⟨.atom, ":k", 2⟩, ⟨.caret, "^", 5⟩,
        ⟨.closing .round, ")", 6⟩, ⟨.atom, "x", 8⟩] := by
    decide
  have hkeyword : Literal.AtomMeans ":k".toList (.keyword "k") := .keyword
  have hdenotes : Form.Denotes (tokenize "\x27(:k ^) x").tokens
      (.list [.symbol "quote", .list [.keyword "k", .symbol "^"]]) [⟨.atom, "x", 8⟩] := by
    have hforms : Form.DenoteEach [⟨.atom, ":k", 2⟩, ⟨.caret, "^", 5⟩, ⟨.closing .round, ")", 6⟩,
        ⟨.atom, "x", 8⟩] [.keyword "k", .symbol "^"]
        [⟨.closing .round, ")", 6⟩, ⟨.atom, "x", 8⟩] :=
      .cons (.atom rfl hkeyword) (.cons (.caret rfl rfl) .nil)
    rw [htokens]
    exact @Form.Denotes.mark _ .quote _ _ _ rfl (.list rfl hforms rfl)
  exact ⟨(read_eq_ok_iff_denotes.1 _ _).mpr ⟨_, hdenotes⟩,
    fun _ _ h => read_eq_ok_iff_denotes.2 _ _ _ _ _ h hdenotes⟩

end Lisp
