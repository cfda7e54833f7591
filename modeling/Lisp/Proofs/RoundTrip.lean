import Lisp.Proofs.FloatText
import Lisp.Proofs.Maps
import Lisp.Proofs.Parsing
import Lisp.Proofs.Splitting
import Lisp.World

/-!
# Printing and reading are inverse

Which values have a text that is read back is said without the reader
(`Readable`): the names of keywords and symbols must not run into what
is around them or look like something else, the keys of maps must be
distinct, and there must be nothing that has no notation. Then the text
scans as tokens that spell the value (`scans_textWith`).

What is read is readable, except for one thing: a decimal that is too
large is read as an infinite number, which is written like a symbol.
-/

namespace Lisp

namespace Value

/-! ## The readable values -/

/-- A name that is read as the symbol it names. -/
structure BareName (name : String) : Prop where
  bare : Bare name.toList
  notKeyword : name.toList.head? ≠ some ':'
  notConstant : name ≠ "nil" ∧ name ≠ "true" ∧ name ≠ "false"
  notNumeral : ¬Numeral.NumeralShape name.toList

/-- What is asked of a value apart from what is inside. -/
def Plain : Value → Prop
  | nil | bool _ | int _ | string _ | list _ | vector _ => True
  | float x => x.isInfinite = false
  | keyword name => ∀ c ∈ name.toList, Scan.endsAtom c = false
  | symbol name => name = "^" ∨ BareName name
  | map entries => KeysDistinct entries
  | nan _ | closure .. | builtin _ | atom _ => False

def Readable : Value → Prop := Every Plain

/-- An infinite number. -/
def Infinite : Value → Prop
  | float x => x.isInfinite = true
  | _ => False

/-- No infinite number is in a value. -/
def NoInfinity : Value → Prop := Every fun v => ¬Infinite v

end Value

open Value

/-! ## Atoms -/

namespace Literal

theorem ofAtom_of_notNumeral {lexeme : String}
    (h : ¬Numeral.NumeralShape lexeme.toList) : ofAtom lexeme = .ok (ofName lexeme) := by
  rw [ofAtom, Numeral.ofChars?_eq_none_iff.mpr h]

theorem notNumeral_of_head {text : List Char} {c : Char} (h : text.head? = some c)
    (hsign : c ≠ '+' ∧ c ≠ '-') (hdigit : c.isDigit = false) : ¬Numeral.NumeralShape text := by
  have hhead : ∀ sign digits rest : List Char, Numeral.OptionalSign sign →
      Numeral.Digits digits → (sign ++ (digits ++ rest)).head? ≠ some c := by
    rintro sign digits rest (rfl | rfl | rfl) hdigits heq
    · obtain ⟨d, digits, rfl⟩ := List.exists_cons_of_ne_nil hdigits.1
      obtain rfl : d = c := by simpa using heq
      rw [hdigits.2 d (List.mem_cons_self ..)] at hdigit
      cases hdigit
    · exact hsign.1 (Option.some.inj heq).symm
    · exact hsign.2 (Option.some.inj heq).symm
  rintro (⟨hs, hd⟩ | ⟨hs, hd, -⟩)
  · exact hhead _ _ [] hs hd (by rwa [List.append_nil])
  · exact hhead _ _ _ hs hd h

theorem ofAtom_keyword (name : String) : ofAtom (":" ++ name) = .ok (.keyword name) := by
  have htext : (":" ++ name).toList = ':' :: name.toList := by simp
  rw [ofAtom_of_notNumeral (notNumeral_of_head (c := ':') (by simp) (by decide) (by decide))]
  have hne : ∀ constant : String, constant.toList.head? ≠ some ':' → ":" ++ name ≠ constant := by
    rintro _ hhead rfl
    simp at hhead
  rw [ofName, if_neg (hne _ (by decide)), if_neg (hne _ (by decide)), if_neg (hne _ (by decide)),
    htext]
  simp

theorem ofAtom_symbol {name : String} (h : BareName name) :
    ofAtom name = .ok (.symbol name) := by
  rw [ofAtom_of_notNumeral h.notNumeral, ofName, if_neg h.notConstant.1, if_neg h.notConstant.2.1,
    if_neg h.notConstant.2.2]
  split
  · next heq =>
    exact absurd (by rw [heq]; rfl) h.notKeyword
  · rfl

end Literal

/-! ## Texts of single tokens -/

theorem Scan.endsAtom_of_isDigit {c : Char} (h : c.isDigit = true) : endsAtom c = false := by
  have hrange : 48 ≤ c.toNat ∧ c.toNat ≤ 57 := Char.isDigit_iff_toNat.mp h
  have hwhite : isWhite c = false := by
    simp only [isWhite, Bool.or_eq_false_iff, Bool.and_eq_false_iff, decide_eq_false_iff_not,
      beq_eq_false_iff_ne]
    omega
  have hne : ∀ d : Char, d.isDigit = false → c ≠ d := by
    rintro d hd rfl
    rw [h] at hd
    cases hd
  simp [endsAtom, isBlank, hwhite, hne]

/-- A numeral is one atom. -/
theorem Numeral.NumeralShape.bare {text : List Char} (h : NumeralShape text) : Bare text := by
  have hchars : text ≠ [] ∧ ∀ c ∈ text, c.isDigit = true ∨ c = '+' ∨ c = '-' ∨ c = '.' := by
    have hsign : ∀ sign, OptionalSign sign → ∀ c ∈ sign, c = '+' ∨ c = '-' := by
      rintro sign (rfl | rfl | rfl) c hc
      · cases hc
      · exact Or.inl (List.mem_singleton.mp hc)
      · exact Or.inr (List.mem_singleton.mp hc)
    rcases h with ⟨hs, hd⟩ | ⟨hs, hd, hf⟩
    · refine ⟨by simp [hd.1], fun c hc => ?_⟩
      rcases List.mem_append.mp hc with hc | hc
      · exact Or.inr ((hsign _ hs c hc).imp_right Or.inl)
      · exact Or.inl (hd.2 c hc)
    · refine ⟨by simp [hd.1], fun c hc => ?_⟩
      rcases List.mem_append.mp hc with hc | hc
      · exact Or.inr ((hsign _ hs c hc).imp_right Or.inl)
      rcases List.mem_append.mp hc with hc | hc
      · exact Or.inl (hd.2 c hc)
      rcases List.mem_cons.mp hc with hc | hc
      · exact Or.inr (Or.inr (Or.inr hc))
      · exact Or.inl (hf.2 c hc)
  refine ⟨hchars.1, fun c hc => ?_, fun c hc => ?_⟩
  · rcases hchars.2 c hc with hc | rfl | rfl | rfl
    · exact Scan.endsAtom_of_isDigit hc
    all_goals rfl
  · have hmem : c ∈ text := List.mem_of_mem_head? hc
    refine ⟨?_, ?_, ?_⟩ <;> rintro rfl <;> simpa using hchars.2 _ hmem

theorem shape_wholeText (n : Int) : Numeral.NumeralShape (wholeText n).toList := by
  rw [toList_wholeText]
  exact .whole (optionalSign_signText _) (Numeral.digits_toDigits _)

theorem Binary64.shape_text {x : Binary64} (h : x.isInfinite = false) :
    Numeral.NumeralShape x.text.toList := by
  rw [toList_text_of_finite h]
  exact .decimal (optionalSign_signText _) (Numeral.digits_toDigits _)
    (Decimal.digits_fractionText _)

theorem bare_constants :
    Bare "nil".toList ∧ Bare "true".toList ∧ Bare "false".toList :=
  ⟨bare_of_all rfl (by decide), bare_of_all rfl (by decide),
    bare_of_all rfl (by decide)⟩

theorem bare_keyword {name : String} (h : ∀ c ∈ name.toList, Scan.endsAtom c = false) :
    Bare (":" ++ name).toList := by
  have htext : (":" ++ name).toList = ':' :: name.toList := by simp
  rw [htext]
  refine bare_cons (fun c hc => ?_) (by decide)
  rcases List.mem_cons.mp hc with rfl | hc
  · rfl
  · exact h c hc

/-! ## Texts of forms -/

/-- Between delimiters, the text scans as tokens of the given kind. The
last one may still wait for the delimiter. -/
def Scans (text : List Char) (P : List Token → Prop) : Prop :=
  ∀ s : Scan, s.pending = .gap → (text.foldl Scan.feed s).Settled ∧
    ∃ tokens, P tokens ∧ (text.foldl Scan.feed s).finish.tokens = tokens.reverse ++ s.tokens

theorem scans_atom {lexeme : String} (hbare : Bare lexeme.toList) {form : Value}
    (h : Literal.ofAtom lexeme = .ok form) : Scans lexeme.toList (Form.Spell · form) := by
  intro s hs
  obtain ⟨hsettled, htokens⟩ := Scan.foldl_feed_bare hs hbare
  rw [String.ofList_toList] at htokens
  exact ⟨hsettled, [⟨.atom, lexeme, s.position⟩], Form.spell_literal h, htokens⟩

/-- What a string is written as between its quotation marks ends at no
quotation mark. -/
theorem stringBody_encode (content : List Char) : StringBody (Quoted.encode content) := by
  fun_induction Quoted.encode content with
  | case1 => exact .nil
  | case2 rest ih => exact .escape ih
  | case3 c rest _ _ ih => exact .escape ih
  | case4 c rest _ hc ih => exact .plain (by simpa using hc) ih

theorem scans_string (content : String) :
    Scans (Quoted.write content).toList (Form.Spell · (.string content)) := by
  intro s hs
  obtain ⟨hgap, htokens⟩ := Scan.foldl_feed_string (stringBody_encode content.toList) hs
  rw [Quoted.write, String.toList_ofList]
  refine ⟨Scan.settled_of_gap hgap, [⟨.string, Quoted.write content, s.position⟩], ?_, ?_⟩
  · refine Form.spell_literal ?_
    simp [Form.ofToken, Quoted.read, Quoted.write, Quoted.decode_encode]
  · rw [Scan.finish_of_gap hgap, htokens]
    rfl

theorem scans_caret : Scans "^".toList (Form.Spell · (.symbol "^")) := by
  intro s hs
  obtain ⟨hgap, htokens⟩ := Scan.feed_single hs (c := '^') rfl
  refine ⟨Scan.settled_of_gap hgap, [⟨.caret, "^", s.position⟩], Form.spell_literal rfl, ?_⟩
  exact (congrArg Scan.tokens (Scan.finish_of_gap hgap)).trans htokens

/-- A blank after a text completes its tokens. -/
theorem feed_space {s : Scan} (h : s.Settled) :
    (s.feed ' ').pending = .gap ∧ (s.feed ' ').tokens = s.finish.tokens := by
  have hends : s.Ends [' '] := h.ends (comesTo_cons rfl)
  rw [Scan.feed_finish hends, Scan.feed_gap (Scan.pending_finish s)]
  exact ⟨rfl, rfl⟩

/-- Texts of forms with blanks between them. -/
theorem scans_intercalate {texts : List (List Char)} {forms : List Value}
    (h : List.Forall₂ (fun text form => Scans text (Form.Spell · form)) texts forms) :
    Scans (List.intercalate [' '] texts) (Form.SpellEach · forms) := by
  induction h with
  | nil =>
    intro s hs
    refine ⟨Scan.settled_of_gap hs, [], Form.spellEach_nil, ?_⟩
    exact congrArg Scan.tokens (Scan.finish_of_gap hs)
  | @cons text form texts forms hhead htail ih =>
    intro s hs
    obtain ⟨hsettled, tokens, hspell, htokens⟩ := hhead s hs
    cases htail with
    | nil =>
      rw [List.intercalate_singleton]
      exact ⟨hsettled, tokens ++ [], Form.SpellEach.cons hspell Form.spellEach_nil, by simpa using htokens⟩
    | cons _ _ =>
      obtain ⟨hgap, hspace⟩ := feed_space hsettled
      obtain ⟨hsettled', tokens', hspell', htokens'⟩ := ih _ hgap
      rw [List.intercalate_cons_cons, List.foldl_append, List.foldl_append]
      refine ⟨hsettled', tokens ++ tokens', Form.SpellEach.cons hspell hspell', ?_⟩
      rw [List.foldl_cons, List.foldl_nil, htokens', hspace, htokens]
      simp

/-- Texts of forms in brackets. -/
theorem scans_enclosed {text : List Char} {forms : List Value} {form : Value} {b : Bracket}
    (opener closer : Char) (h : Scans text (Form.SpellEach · forms))
    (hopener : Scan.single? opener = some (.opening b))
    (hcloser : Scan.single? closer = some (.closing b)) (hends : Scan.endsAtom closer = true)
    (hform : Form.enclosed b forms = .ok form) :
    Scans (opener :: text ++ [closer]) (Form.Spell · form) := by
  intro s hs
  obtain ⟨hgap, hfirst⟩ := Scan.feed_single hs hopener
  obtain ⟨hsettled, tokens, hspell, htokens⟩ := h _ hgap
  obtain ⟨hgap', hlast⟩ := Scan.feed_single (Scan.pending_finish _) hcloser
  have hclosing : (text.foldl Scan.feed (s.feed opener)).Ends [closer] :=
    hsettled.ends (comesTo_cons hends)
  rw [List.foldl_append, List.foldl_cons, List.foldl_cons, List.foldl_nil,
    Scan.feed_finish hclosing]
  let first : Token := ⟨.opening b, String.ofList [opener], s.position⟩
  let last : Token := ⟨.closing b, String.ofList [closer],
    (text.foldl Scan.feed (s.feed opener)).finish.position⟩
  refine ⟨Scan.settled_of_gap hgap', first :: tokens ++ [last],
    Form.SpellEach.enclose hspell rfl rfl hform, ?_⟩
  rw [Scan.finish_of_gap hgap', hlast, htokens, hfirst]
  simp [first, last]

theorem read_of_scans {source : String} {form : Value}
    (h : Scans source.toList (Form.Spell · form)) : read source = .ok form := by
  obtain ⟨-, tokens, hspell, htokens⟩ := h Scan.initial rfl
  have hstream : (tokenize source).tokens = tokens := by
    rw [tokenize, Scan.stream, htokens]
    simp [Scan.initial]
  rw [read, (show Form.Spell (tokenize source).tokens form by rwa [hstream]).ofTokens]
  rfl

/-! ## Texts of values -/

namespace Value

theorem itemTexts_eq_map (contents : CellId → String) (readably : Bool) (items : List Value) :
    itemTexts contents readably items = items.map (textWith contents readably) := by
  induction items with
  | nil => rfl
  | cons item rest ih => simp [itemTexts, ih]

theorem entryTexts_eq_map (contents : CellId → String) (readably : Bool)
    (entries : List (Value × Value)) :
    entryTexts contents readably entries =
      (alternating entries).map (textWith contents readably) := by
  induction entries with
  | nil => rfl
  | cons entry rest ih => simp [entryTexts, ih]

theorem scans_children {contents : CellId → String} (vs : List Value)
    (h : ∀ v ∈ vs, Scans (textWith contents true v).toList (Form.Spell · v)) :
    Scans (List.intercalate [' '] ((vs.map (textWith contents true)).map String.toList))
      (Form.SpellEach · vs) := by
  refine scans_intercalate ?_
  rw [List.map_map, List.forall₂_map_left_iff]
  exact List.forall₂_same.mpr h

/-- The text of a readable value scans as a spelling of it. -/
theorem scans_textWith (contents : CellId → String) {v : Value} (h : v.Readable) :
    Scans (textWith contents true v).toList (Form.Spell · v) := by
  induction v using byChildren with
  | step v ih =>
    have hplain := h.here
    have inside : ∀ child ∈ v.children, Scans (textWith contents true child).toList
        (Form.Spell · child) := fun child hc => ih child hc (h.child hc)
    cases v with
    | nil => exact scans_atom bare_constants.1 rfl
    | bool b =>
      cases b
      · exact scans_atom bare_constants.2.2 rfl
      · exact scans_atom bare_constants.2.1 rfl
    | int n => exact scans_atom (shape_wholeText n.toInt).bare (Literal.ofAtom_wholeText n)
    | float x => exact scans_atom (Binary64.shape_text hplain).bare (Literal.ofAtom_text hplain)
    | string s => exact scans_string s
    | keyword name => exact scans_atom (bare_keyword hplain) (Literal.ofAtom_keyword name)
    | symbol name =>
      rcases hplain with rfl | hname
      · exact scans_caret
      · exact scans_atom hname.bare (Literal.ofAtom_symbol hname)
    | list items =>
      have hitems := scans_children items fun x hx => inside x (element_mem_children hx)
      simpa [textWith, itemTexts_eq_map] using
        scans_enclosed '(' ')' hitems rfl rfl rfl rfl
    | vector items =>
      have hitems := scans_children items fun x hx => inside x (element_mem_children hx)
      simpa [textWith, itemTexts_eq_map] using
        scans_enclosed '[' ']' hitems rfl rfl rfl rfl
    | map entries =>
      have hitems := scans_children (alternating entries) fun x hx =>
        inside x (by simpa [children] using hx)
      simpa [textWith, entryTexts_eq_map] using
        scans_enclosed '\x7b' '\x7d' hitems rfl rfl rfl
          (mapOf_alternating hplain)
    | nan _ | closure _ _ _ _ _ | builtin _ | atom _ => exact hplain.elim

/-! ## What is read -/

/-- What every form that is read satisfies at every node. -/
def Legible (v : Value) : Prop := Plain v ∨ Infinite v

theorem Legible.keysDistinct {v : Value} (h : v.Legible) : KeysDistinct v.entries := by
  cases v with
  | map entries => exact h.resolve_right id
  | _ => exact .nil

theorem legible_ofName {lexeme : String} (hbare : Bare lexeme.toList)
    (hshape : ¬Numeral.NumeralShape lexeme.toList) : Every Legible (Literal.ofName lexeme) := by
  unfold Literal.ofName
  split
  · exact .leaf (Or.inl trivial) rfl
  split
  · exact .leaf (Or.inl trivial) rfl
  split
  · exact .leaf (Or.inl trivial) rfl
  next hnil htrue hfalse =>
  split
  · next name htext =>
    refine .leaf (Or.inl fun c hc => hbare.ordinary c ?_) rfl
    rw [String.toList_ofList] at hc
    rw [htext]
    exact List.mem_cons_of_mem _ hc
  · next hkeyword =>
    refine .leaf (Or.inl (Or.inr ⟨hbare, fun hhead => ?_, ⟨hnil, htrue, hfalse⟩, hshape⟩)) rfl
    obtain ⟨rest, htext⟩ := List.head?_eq_some_iff.mp hhead
    exact hkeyword rest htext

theorem legible_ofNumeral {n : Numeral} {v : Value} (h : Literal.ofNumeral? n = some v) :
    Every Legible v := by
  cases n with
  | whole negative digits =>
    obtain ⟨n, -, rfl⟩ := Option.map_eq_some_iff.mp h
    exact .leaf (Or.inl trivial) rfl
  | decimal negative digits fraction =>
    cases h
    refine .leaf ?_ rfl
    rw [Legible, Plain, Infinite]
    cases Binary64.isInfinite _
    · exact Or.inl rfl
    · exact Or.inr rfl

theorem legible_ofToken {t : Token} (ht : t.WellFormed) {form : Value}
    (h : Form.ofToken t = .ok form) : Every Legible form := by
  obtain ⟨kind, lexeme, start⟩ := t
  cases kind with
  | opening _ | closing _ | mark _ | openString => cases h
  | caret =>
    cases h
    exact .leaf (Or.inl (Or.inl ht)) rfl
  | string =>
    cases h
    exact .leaf (Or.inl trivial) rfl
  | atom =>
    have h : Literal.ofAtom lexeme = .ok form := h
    unfold Literal.ofAtom at h
    split at h
    · split at h
      · next v hv =>
        cases h
        exact legible_ofNumeral hv
      · cases h
    · next hshape =>
      cases h
      exact legible_ofName ht (Numeral.ofChars?_eq_none_iff.mp hshape)

/-- The symbol a mark is short for is one that is read. -/
theorem bareName_markSymbol (m : Mark) : BareName m.symbol := by
  cases m <;> exact ⟨bare_of_all rfl (by decide), by decide, by decide,
    Numeral.ofChars?_eq_none_iff.mp rfl⟩

theorem preserved_legible : Form.Preserved (Every Legible) where
  mark m form hform := by
    refine .node (Or.inl trivial) fun child hc => ?_
    have hc : child = .symbol m.symbol ∨ child = form := by
      simpa [children, Form.marked] using hc
    rcases hc with rfl | rfl
    · exact .leaf (Or.inl (Or.inr (bareName_markSymbol m))) rfl
    · exact hform
  bracket b forms form hforms h := by
    cases b with
    | round | square =>
      cases h
      exact .node (Or.inl trivial) fun child hc => hforms child (by simpa [children] using hc)
    | curly =>
      simp only [Form.enclosed, mapOf] at h
      split at h
      · cases h
        refine .node (Or.inl (Entries.keysDistinct_ofPairs fun e he => ?_)) fun child hc => ?_
        · have hkey := Entries.mem_of_mem_alternating_pairs
            (mem_alternating.mpr ⟨e, he, Or.inl rfl⟩)
          exact (hforms e.1 hkey).mono fun v hv => hv.keysDistinct
        · exact hforms child (Entries.mem_of_mem_alternating_ofPairs
            (by simpa [children] using hc))
      · cases h

theorem legible_of_read {source : String} {v : Value} (h : read source = .ok v) :
    Every Legible v := by
  have hwell := tokenize_wellFormed source
  exact read_preserves preserved_legible (fun t ht form => legible_ofToken (hwell t ht)) h

theorem readable_of_read {source : String} {v : Value} (h : read source = .ok v)
    (hfinite : v.NoInfinity) : v.Readable :=
  (legible_of_read h).imp₂ (fun _ hv hne => hv.resolve_right hne) hfinite

/-! ## The round trips -/

/-- A readable value has no atoms in it, so its text does not depend on
what the atoms hold. -/
theorem read_text (w : World) {v : Value} (h : v.Readable) : read (w.text true v) = .ok v := by
  unfold World.text
  cases w.cells.size with
  | zero => exact read_of_scans (scans_textWith _ h)
  | succ _ => exact read_of_scans (scans_textWith _ h)

/-- Reading the text of a readable value gives this value back, and what
is read is readable unless it has an infinite number in it. So reading
and printing again changes a text once at most, and two readable values
with one text are the same. -/
theorem read_text_inverse :
    (∀ (w : World) (v : Value), v.Readable →
      read (w.text true v) = .ok v ∧ (v == v) = true) ∧
    (∀ (source : String) (v : Value), read source = .ok v → v.NoInfinity → v.Readable) ∧
    (∀ (w : World) (source : String) (v : Value), read source = .ok v → v.NoInfinity →
      (read (w.text true v)).map (w.text true) = .ok (w.text true v)) ∧
    ∀ (w w' : World) (v v' : Value), v.Readable → v'.Readable →
      w.text true v = w'.text true v' → v = v' := by
  refine ⟨fun w v h => ⟨read_text w h, beq_self v⟩, fun _ _ => readable_of_read, ?_, ?_⟩
  · intro w source v h hfinite
    rw [read_text w (readable_of_read h hfinite)]
    rfl
  · intro w w' v v' h h' heq
    have hread := read_text w h
    rw [heq, read_text w' h'] at hread
    exact (Except.ok.inj hread).symm

/-- A list as a key, names that are nearly something else, and a
negative zero. -/
def mixedData : Value :=
  .map [(.list [.symbol "^", .symbol "-", .keyword ""], .vector [.int (-7), .nil]),
    (.string "a\n\"\\", .float ⟨true, 0, Nat.zero_le _⟩)]

theorem readable_mixedData : mixedData.Readable := by
  refine .node (.cons ?_ (.cons (fun _ h => absurd h List.not_mem_nil) .nil)) fun child hc => ?_
  · intro e he
    obtain rfl := List.mem_singleton.mp he
    exact ⟨rfl, rfl⟩
  · obtain rfl | rfl | rfl | rfl : child = .list [.symbol "^", .symbol "-", .keyword ""] ∨
        child = .vector [.int (-7), .nil] ∨ child = .string "a\n\"\\" ∨
        child = .float ⟨true, 0, Nat.zero_le _⟩ := by
      simpa [mixedData, children] using hc
    · refine .node trivial fun child hc => ?_
      obtain rfl | rfl | rfl : child = .symbol "^" ∨ child = .symbol "-" ∨
          child = .keyword "" := by
        simpa [children] using hc
      · exact .leaf (Or.inl rfl) rfl
      · exact .leaf (Or.inr ⟨bare_of_all rfl (by decide), by decide, by decide,
          Numeral.ofChars?_eq_none_iff.mp rfl⟩) rfl
      · exact .leaf (fun _ hc => absurd hc List.not_mem_nil) rfl
    · refine .node trivial fun child hc => ?_
      obtain rfl | rfl : child = .int (-7) ∨ child = .nil := by
        simpa [children] using hc
      all_goals exact .leaf trivial rfl
    · exact .leaf trivial rfl
    · exact .leaf rfl rfl

theorem noInfinity_of_readable {v : Value} (h : v.Readable) : v.NoInfinity := by
  refine Every.mono (fun v hv hinfinite => ?_) h
  cases v with
  | float x => cases hv.symm.trans hinfinite
  | _ => exact hinfinite

theorem read_text_mixedData :
    let w := World.empty fun _ => none
    mixedData.Readable ∧ read (w.text true mixedData) = .ok mixedData ∧
      mixedData.NoInfinity ∧
      (read (w.text true mixedData)).map (w.text true) = .ok (w.text true mixedData) := by
  obtain ⟨hread, hreadable, hnormal, hinj⟩ := read_text_inverse
  have h := readable_mixedData
  have hw := (hread (World.empty fun _ => none) mixedData h).1
  have hfinite := noInfinity_of_readable h
  have h' := hreadable _ _ hw hfinite
  cases hinj (World.empty fun _ => none) (World.empty fun _ => none) _ _ h h' rfl
  exact ⟨h', hw, hfinite, hnormal _ _ _ hw hfinite⟩

end Value

end Lisp
