import Lisp.Proofs.Lexing

/-!
# Accesses that have to be in range

A program that works with positions takes elements, parts of sequences
and parts of texts by their offsets, and an offset that is out of range
is the end of it. Such an access is an option here, and `none` is the
fault. A text may only be cut between characters.

The scanner cuts every lexeme out of the source, between the place where
the token started and the place reached (`Indexed.tokenize`). All these
cuts fit, and what they cut out are the characters that the automaton
has kept of the token (`Indexed.tokenize_eq`). The reader cuts the
quotation marks off a string. They are there (`Indexed.readString_eq`).
-/

namespace Lisp

open String (utf8Len)

instance (span : Span) (source : String) : Decidable (span.Fits source) :=
  decidable_of_iff
    (String.Pos.Raw.IsValid source ⟨span.start⟩ ∧ String.Pos.Raw.IsValid source ⟨span.stop⟩ ∧
      span.start ≤ span.stop)
    ⟨fun h => ⟨h.1, h.2.1, h.2.2⟩, fun h => ⟨h.start, h.stop, h.ordered⟩⟩

namespace Indexed

/-! ## Parts by their offsets -/

section

variable {α : Type}

/-- The first `n` elements, if there are as many. -/
def front? (xs : List α) (n : Nat) : Option (List α) :=
  if n ≤ xs.length then some (xs.take n) else none

/-- The elements after the first `n`, if there are as many. -/
def after? (xs : List α) (n : Nat) : Option (List α) :=
  if n ≤ xs.length then some (xs.drop n) else none

theorem front?_of_le {xs : List α} {n : Nat} (h : n ≤ xs.length) :
    front? xs n = some (xs.take n) := if_pos h

theorem after?_of_le {xs : List α} {n : Nat} (h : n ≤ xs.length) :
    after? xs n = some (xs.drop n) := if_pos h

end

/-- What one size is more than another, if it is not less. -/
def minus? (n m : Nat) : Option Nat := if m ≤ n then some (n - m) else none

theorem minus?_of_le {n m : Nat} (h : m ≤ n) : minus? n m = some (n - m) := if_pos h

/-- The text under a span, if the span lies between characters. -/
def slice? (source : String) (span : Span) : Option String :=
  if span.Fits source then some (span.textOf source) else none

theorem slice?_of_append {source : String} {before text following : List Char}
    (h : source.toList = before ++ (text ++ following)) :
    slice? source ⟨utf8Len before, utf8Len before + utf8Len text⟩ = some (String.ofList text) := by
  rw [slice?, if_pos (fits_of_append h), textOf_of_append h]

/-! ## The scanner

The automaton with lexemes that are cut out of the source. What is
pending still has its characters, but no lexeme is made of them. -/

section

variable (source : String)

/-- Completes the token between its start and the position. -/
def emit (s : Scan) (kind : TokenKind) (start : Nat) : Option Scan := do
  let lexeme ← slice? source ⟨start, s.position⟩
  return { s with
    pending := .gap
    tokens := ⟨kind, lexeme, start⟩ :: s.tokens }

def enter (s : Scan) (c : Char) : Option Scan :=
  let read := { s with position := s.position + c.utf8Size }
  if Scan.isBlank c then some (read.wait .gap)
  else if c == ';' then some (read.wait .comment)
  else if c == '~' then some (read.wait (.tilde s.position))
  else if c == '\x22' then some (read.wait (.string s.position [c]))
  else match Scan.single? c with
    | some kind => emit source read kind s.position
    | none => some (read.wait (.atom s.position [c]))

def feed (s : Scan) (c : Char) : Option Scan :=
  let read := { s with position := s.position + c.utf8Size }
  match s.pending with
  | .gap => enter source s c
  | .comment => if c == '\n' then enter source s c else some read
  | .tilde origin =>
    if c == '@' then emit source read (.mark .spliceUnquote) origin
    else do enter source (← emit source s (.mark .unquote) origin) c
  | .atom origin text =>
    if Scan.endsAtom c then do enter source (← emit source s .atom origin) c
    else some (read.wait (.atom origin (c :: text)))
  | .string origin text =>
    if c == '\x22' then emit source read .string origin
    else if c == '\\' then some (read.wait (.escape origin (c :: text)))
    else some (read.wait (.string origin (c :: text)))
  | .escape origin text => some (read.wait (.string origin (c :: text)))

def finish (s : Scan) : Option Scan :=
  match s.pending with
  | .gap => some s
  | .comment => some (s.wait .gap)
  | .tilde origin => emit source s (.mark .unquote) origin
  | .atom origin _ => emit source s .atom origin
  | .string origin _ | .escape origin _ => emit source s .openString origin

/-- The tokens of a text, cut out of it. -/
def tokenize : Option TokenStream := do
  let s ← source.toList.foldlM (feed source) Scan.initial
  return (← finish source s).stream

end

/-! ## Every cut fits -/

/-- The start of the token that is pending, and its characters so far,
newest first. -/
def begun? : Pending → Option (Nat × List Char)
  | .gap | .comment => none
  | .tilde start => some (start, ['~'])
  | .atom start text | .string start text | .escape start text => some (start, text)

/-- The scanner has read the source up to `rest`, and the last that it
has read is what is pending. -/
def InPlace (source : String) (s : Scan) (rest : List Char) : Prop :=
  ∃ read, source.toList = read ++ rest ∧ s.position = utf8Len read ∧
    ∀ start text, begun? s.pending = some (start, text) →
      ∃ before, read = before ++ text.reverse ∧ start = utf8Len before

variable {source : String} {s : Scan} {rest : List Char}

theorem emit_of_append {before text : List Char} (kind : TokenKind)
    (hsource : source.toList = before ++ (text.reverse ++ rest))
    (hposition : s.position = utf8Len before + utf8Len text.reverse) :
    emit source s kind (utf8Len before) = some (s.emit kind (utf8Len before) text) := by
  have hslice := slice?_of_append hsource
  rw [← hposition] at hslice
  rw [emit, hslice]
  rfl

/-- What is pending can be completed where it is. -/
theorem emit_eq {start : Nat} {text : List Char} (h : InPlace source s rest)
    (hbegun : begun? s.pending = some (start, text)) (kind : TokenKind) :
    emit source s kind start = some (s.emit kind start text) := by
  obtain ⟨read, hsource, hposition, hpending⟩ := h
  obtain ⟨before, rfl, rfl⟩ := hpending start text hbegun
  rw [String.utf8Len_append] at hposition
  exact emit_of_append kind (by rwa [List.append_assoc] at hsource) hposition

/-- Nothing is pending, so only the position counts. -/
theorem inPlace_of_gap (h : InPlace source s rest) {s' : Scan} (hposition : s'.position = s.position)
    (hpending : begun? s'.pending = none) : InPlace source s' rest := by
  obtain ⟨read, hsource, hread, -⟩ := h
  exact ⟨read, hsource, hposition.trans hread, fun _ _ hbegun => nomatch hpending.symm.trans hbegun⟩

theorem position_snoc {read : List Char} (c : Char) (h : s.position = utf8Len read) :
    s.position + c.utf8Size = utf8Len (read ++ [c]) := by
  rw [h, String.utf8Len_append, String.utf8Len_cons, String.utf8Len_nil, Nat.zero_add]

/-- One more character of what is pending. -/
theorem inPlace_wait {c : Char} {start : Nat} {text : List Char} {pending : Pending}
    (h : InPlace source s (c :: rest)) (hbegun : begun? s.pending = some (start, text))
    (hpending : begun? pending = some (start, c :: text)) :
    InPlace source ({ s with position := s.position + c.utf8Size }.wait pending) rest := by
  obtain ⟨read, hsource, hposition, hread⟩ := h
  obtain ⟨before, rfl, rfl⟩ := hread start text hbegun
  refine ⟨before ++ text.reverse ++ [c], by simp [hsource], position_snoc c hposition, ?_⟩
  intro start' text' hbegun'
  cases hpending.symm.trans hbegun'
  exact ⟨before, by simp, rfl⟩

/-- A character that is read without being kept. -/
theorem inPlace_skip {c : Char} {pending : Pending} (h : InPlace source s (c :: rest))
    (hpending : begun? pending = none) :
    InPlace source ({ s with position := s.position + c.utf8Size }.wait pending) rest := by
  obtain ⟨read, hsource, hposition, -⟩ := h
  refine ⟨read ++ [c], by simp [hsource], position_snoc c hposition, ?_⟩
  exact fun _ _ hbegun => nomatch hpending.symm.trans hbegun

/-- The first character of a token. -/
theorem inPlace_begin {c : Char} {pending : Pending} (h : InPlace source s (c :: rest))
    (hpending : begun? pending = some (s.position, [c])) :
    InPlace source ({ s with position := s.position + c.utf8Size }.wait pending) rest := by
  obtain ⟨read, hsource, hposition, -⟩ := h
  refine ⟨read ++ [c], by simp [hsource], position_snoc c hposition, ?_⟩
  intro start text hbegun
  cases hpending.symm.trans hbegun
  exact ⟨read, rfl, hposition⟩

/-- The character completes what is pending. -/
theorem emit_closing {c : Char} {start : Nat} {text : List Char}
    (h : InPlace source s (c :: rest)) (hbegun : begun? s.pending = some (start, text))
    (kind : TokenKind) :
    let read := { s with position := s.position + c.utf8Size }
    emit source read kind start = some (read.emit kind start (c :: text)) ∧
      InPlace source (read.emit kind start (c :: text)) rest := by
  obtain ⟨read, hsource, hposition, hread⟩ := h
  obtain ⟨before, rfl, rfl⟩ := hread start text hbegun
  have hcut : source.toList = before ++ ((c :: text).reverse ++ rest) := by simp [hsource]
  have hend : s.position + c.utf8Size = utf8Len (before ++ (c :: text).reverse) := by
    rw [position_snoc c hposition, List.reverse_cons, List.append_assoc]
  refine ⟨emit_of_append kind hcut (by rwa [String.utf8Len_append] at hend), ?_⟩
  exact ⟨before ++ (c :: text).reverse, by rwa [List.append_assoc], hend, nofun⟩

theorem enter_eq {c : Char} (h : InPlace source s (c :: rest)) :
    enter source s c = some (s.enter c) ∧ InPlace source (s.enter c) rest := by
  unfold enter Scan.enter
  dsimp only
  split
  · exact ⟨rfl, inPlace_skip h rfl⟩
  split
  · exact ⟨rfl, inPlace_skip h rfl⟩
  split
  · next htilde =>
    obtain rfl := eq_of_beq htilde
    exact ⟨rfl, inPlace_begin h rfl⟩
  split
  · exact ⟨rfl, inPlace_begin h rfl⟩
  cases Scan.single? c with
  | none => exact ⟨rfl, inPlace_begin h rfl⟩
  | some kind =>
    obtain ⟨read, hsource, hposition, -⟩ := h
    have hend := position_snoc c hposition
    refine ⟨?_, read ++ [c], by simp [hsource], hend, nofun⟩
    rw [String.utf8Len_append] at hend
    rw [hposition] at hend ⊢
    exact emit_of_append kind hsource hend

/-- A token ends before the character, which is read with nothing
pending. -/
theorem emit_enter_eq {c : Char} {start : Nat} {text : List Char}
    (h : InPlace source s (c :: rest)) (hbegun : begun? s.pending = some (start, text))
    (kind : TokenKind) :
    (do enter source (← emit source s kind start) c : Option Scan) =
        some ((s.emit kind start text).enter c) ∧
      InPlace source ((s.emit kind start text).enter c) rest := by
  rw [emit_eq h hbegun]
  exact enter_eq (inPlace_of_gap h rfl rfl)

theorem feed_eq {c : Char} (h : InPlace source s (c :: rest)) :
    feed source s c = some (s.feed c) ∧ InPlace source (s.feed c) rest := by
  obtain ⟨position, pending, tokens⟩ := s
  cases pending with
  | gap => exact enter_eq h
  | comment =>
    simp only [feed, Scan.feed]
    split
    · exact enter_eq h
    · exact ⟨rfl, inPlace_skip h rfl⟩
  | tilde origin =>
    simp only [feed, Scan.feed]
    split
    · next hat =>
      obtain rfl := eq_of_beq hat
      exact emit_closing h rfl (.mark .spliceUnquote)
    · exact emit_enter_eq h rfl (.mark .unquote)
  | atom origin text =>
    simp only [feed, Scan.feed]
    split
    · exact emit_enter_eq h rfl .atom
    · exact ⟨rfl, inPlace_wait h rfl rfl⟩
  | string origin text =>
    simp only [feed, Scan.feed]
    split
    · exact emit_closing h rfl .string
    split
    · exact ⟨rfl, inPlace_wait h rfl rfl⟩
    · exact ⟨rfl, inPlace_wait h rfl rfl⟩
  | escape origin text => exact ⟨rfl, inPlace_wait h rfl rfl⟩

theorem foldlM_feed_eq (text : List Char) (h : InPlace source s (text ++ rest)) :
    text.foldlM (feed source) s = some (text.foldl Scan.feed s) ∧
      InPlace source (text.foldl Scan.feed s) rest := by
  induction text generalizing s with
  | nil => exact ⟨rfl, h⟩
  | cons c text ih =>
    obtain ⟨hfeed, hplace⟩ := feed_eq h
    rw [List.foldlM_cons, hfeed]
    exact ih hplace

theorem finish_eq (h : InPlace source s rest) : finish source s = some s.finish := by
  obtain ⟨position, pending, tokens⟩ := s
  cases pending with
  | gap | comment => rfl
  | tilde origin => exact emit_eq h rfl (.mark .unquote)
  | atom origin text => exact emit_eq h rfl .atom
  | string origin text | escape origin text => exact emit_eq h rfl .openString

/-- Every lexeme can be cut out of the source, and is what the automaton
has kept. -/
theorem tokenize_eq (source : String) : tokenize source = some (Lisp.tokenize source) := by
  have hinitial : InPlace source Scan.initial (source.toList ++ []) :=
    ⟨[], by simp, rfl, nofun⟩
  obtain ⟨hfold, hplace⟩ := foldlM_feed_eq source.toList hinitial
  rw [tokenize, hfold]
  simp only [Option.bind_eq_bind, Option.bind_some, finish_eq hplace]
  rfl

/-! ## The inside of a string -/

/-- The string that a token stands for: one byte is cut off at either
end. -/
def readString (t : Token) : Option String := do
  let stop ← minus? t.lexeme.utf8ByteSize 1
  let raw ← slice? t.lexeme ⟨1, stop⟩
  return String.ofList (Quoted.decode raw.toList)

/-- The bytes at the ends of a string are quotation marks. -/
theorem readString_eq {t : Token} {following : List Char} (hkind : t.kind = .string)
    (h : LexemeOf t.kind t.lexeme.toList following) :
    readString t = some (Quoted.read t.lexeme) := by
  rw [hkind] at h
  generalize hchars : t.lexeme.toList = chars at h
  cases h with
  | @string body _ _ =>
    have hlexeme : t.lexeme.toList = ['\x22'] ++ (body ++ ['\x22']) := hchars
    have hsize : t.lexeme.utf8ByteSize = 1 + utf8Len body + 1 := by
      rw [utf8ByteSize_eq, hlexeme, String.utf8Len_append, String.utf8Len_append, ← Nat.add_assoc]
      rfl
    have hstop : minus? t.lexeme.utf8ByteSize 1 = some (1 + utf8Len body) := by
      rw [minus?_of_le (by omega), hsize, Nat.add_sub_cancel]
    have hslice : slice? t.lexeme ⟨1, 1 + utf8Len body⟩ = some (String.ofList body) :=
      slice?_of_append hlexeme
    rw [readString, hstop, Option.bind_eq_bind, Option.bind_some, hslice, Quoted.read, hchars]
    simp

end Indexed

end Lisp
