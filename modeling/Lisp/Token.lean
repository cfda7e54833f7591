/-!
# Tokens

The vocabulary of the notation: three kinds of brackets, five marks
that wrap the form after them, the caret, strings and bare atoms. A
token carries its lexeme and the byte offset at which it starts; the
offset at which it ends follows.
-/

namespace Lisp

inductive Bracket where
  | round | square | curly
  deriving DecidableEq

def Bracket.opener : Bracket → String
  | .round => "("
  | .square => "["
  | .curly => "\x7b"

def Bracket.closer : Bracket → String
  | .round => ")"
  | .square => "]"
  | .curly => "\x7d"

/-- A mark in front of a form, short for a call of the symbol it
names. -/
inductive Mark where
  | quote | quasiquote | unquote | spliceUnquote | deref
  deriving DecidableEq

def Mark.symbol : Mark → String
  | .quote => "quote"
  | .quasiquote => "quasiquote"
  | .unquote => "unquote"
  | .spliceUnquote => "splice-unquote"
  | .deref => "deref"

inductive TokenKind where
  | opening (b : Bracket)
  | closing (b : Bracket)
  | mark (m : Mark)
  | caret
  | string
  /-- A string that the text ends in. -/
  | openString
  /-- A number, a symbol, a keyword or a constant. -/
  | atom
  deriving DecidableEq

/-- A range of byte offsets. -/
structure Span where
  start : Nat
  stop : Nat
  deriving DecidableEq

structure Token where
  kind : TokenKind
  lexeme : String
  start : Nat
  deriving DecidableEq

def Token.stop (t : Token) : Nat := t.start + t.lexeme.utf8ByteSize

def Token.span (t : Token) : Span := ⟨t.start, t.stop⟩

/-- The tokens of a text, and the number of its bytes: the end is a
place that errors can name, and no token. -/
structure TokenStream where
  tokens : List Token
  stop : Nat
  deriving DecidableEq

/-- The empty span at the end of the text. -/
def TokenStream.endSpan (s : TokenStream) : Span := ⟨s.stop, s.stop⟩

end Lisp
