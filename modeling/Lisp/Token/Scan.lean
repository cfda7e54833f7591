import Lisp.Text.Blank
import Lisp.Token

/-!
# From text to tokens

Text is read one character at a time by an automaton. Its state says
what the characters read last may still become (`Pending`), so no
character is looked at twice and no lookahead is needed: a lone tilde
is decided by the character after it, an atom ends where a delimiter
arrives, and a comment where the line does.

Reading a text is a fold (`Scan.feed`), so the state after two texts in
a row is the state after the second, started where the first ended.
-/

namespace Lisp

/-- What has been read since the last complete token. Characters are
kept newest first. -/
inductive Pending where
  /-- Blanks only, if anything. -/
  | gap
  | comment
  /-- A tilde, which an at sign would extend. -/
  | tilde (start : Nat)
  | atom (start : Nat) (text : List Char)
  | string (start : Nat) (text : List Char)
  /-- A string whose last character is a backslash that takes the next
  one with it. -/
  | escape (start : Nat) (text : List Char)

structure Scan where
  /-- The number of bytes read. -/
  position : Nat
  pending : Pending
  /-- The complete tokens, newest first. -/
  tokens : List Token

namespace Scan

def initial : Scan := ⟨0, .gap, []⟩

/-! ## Character classes -/

/-- A character that separates tokens and belongs to none. -/
def isBlank (c : Char) : Bool := isWhite c || c == ','

/-- A character that ends an atom. The marks `~`, `@` and `^` do not:
inside an atom they are ordinary. -/
def endsAtom (c : Char) : Bool :=
  isBlank c || ['(', ')', '[', ']', '{', '}', '\x27', '\x22', '\x60', ';'].contains c

/-- The token that a character makes on its own. -/
def single? : Char → Option TokenKind
  | '(' => some (.opening .round)
  | ')' => some (.closing .round)
  | '[' => some (.opening .square)
  | ']' => some (.closing .square)
  | '{' => some (.opening .curly)
  | '}' => some (.closing .curly)
  | '\x27' => some (.mark .quote)
  | '\x60' => some (.mark .quasiquote)
  | '@' => some (.mark .deref)
  | '^' => some .caret
  | _ => none

/-! ## The automaton -/

def wait (s : Scan) (pending : Pending) : Scan := { s with pending }

/-- Completes the token with the given characters, newest first. -/
def emit (s : Scan) (kind : TokenKind) (start : Nat) (text : List Char) : Scan :=
  { s with
    pending := .gap
    tokens := ⟨kind, String.ofList text.reverse, start⟩ :: s.tokens }

/-- Reads a character that no pending token claims. -/
def enter (s : Scan) (c : Char) : Scan :=
  let read := { s with position := s.position + c.utf8Size }
  if isBlank c then read.wait .gap
  else if c == ';' then read.wait .comment
  else if c == '~' then read.wait (.tilde s.position)
  else if c == '\x22' then read.wait (.string s.position [c])
  else match single? c with
    | some kind => read.emit kind s.position [c]
    | none => read.wait (.atom s.position [c])

/-- Reads the next character. -/
def feed (s : Scan) (c : Char) : Scan :=
  let read := { s with position := s.position + c.utf8Size }
  match s.pending with
  | .gap => s.enter c
  | .comment => if c == '\n' then s.enter c else read
  | .tilde origin =>
    if c == '@' then read.emit (.mark .spliceUnquote) origin ['@', '~']
    else (s.emit (.mark .unquote) origin ['~']).enter c
  | .atom origin text =>
    if endsAtom c then (s.emit .atom origin text).enter c
    else read.wait (.atom origin (c :: text))
  | .string origin text =>
    if c == '\x22' then read.emit .string origin (c :: text)
    else if c == '\\' then read.wait (.escape origin (c :: text))
    else read.wait (.string origin (c :: text))
  | .escape origin text => read.wait (.string origin (c :: text))

/-- Completes what is pending at the end of the text. -/
def finish (s : Scan) : Scan :=
  match s.pending with
  | .gap => s
  | .comment => s.wait .gap
  | .tilde origin => s.emit (.mark .unquote) origin ['~']
  | .atom origin text => s.emit .atom origin text
  | .string origin text => s.emit .openString origin text
  | .escape origin text => s.emit .openString origin text

def stream (s : Scan) : TokenStream := ⟨s.tokens.reverse, s.position⟩

end Scan

/-- Splits a text into its tokens. -/
def tokenize (source : String) : TokenStream :=
  (source.toList.foldl Scan.feed Scan.initial).finish.stream

end Lisp
