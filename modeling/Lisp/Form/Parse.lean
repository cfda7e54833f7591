import Lisp.Form.Literal
import Lisp.Token.Scan
import Lisp.Value.Entries

/-!
# From tokens to forms

Forms are built by a machine with a stack: brackets that are still open
with the forms read inside them so far, and marks that wait for their
form. Each token either opens something, or completes a form and
delivers it to what is on top (`deliver`), or is at fault. The stack
holds all that the rest of the text has to make up for, so errors need
nothing else: the innermost frame says what was expected.

The machine stops at the end of the first form. It takes one token at a
time and never looks back, so it ends on every list of tokens.
-/

namespace Lisp

inductive Frame where
  /-- An open bracket, its token, and the forms inside, last first. -/
  | bracket (b : Bracket) (opener : Token) (forms : List Value)
  | mark (m : Mark)

namespace Form

/-- The form that a mark and the form after it make. -/
def marked (m : Mark) (form : Value) : Value := .list [.symbol m.symbol, form]

/-- The form between two brackets. -/
def enclosed : Bracket → List Value → Except Cause Value
  | .round, forms => .ok (.list forms)
  | .square, forms => .ok (.vector forms)
  | .curly, forms => Value.mapOf forms

/-- Hands a complete form to the stack: marks on top wrap it, and the
bracket below takes it. If there is none, this is the form looked
for. -/
def deliver (form : Value) : List Frame → Value ⊕ List Frame
  | [] => .inl form
  | .mark m :: below => deliver (marked m form) below
  | .bracket b opener forms :: below => .inr (.bracket b opener (form :: forms) :: below)

/-- What a token of its own says: a literal, or an error. -/
def ofToken (t : Token) : Except Cause Value :=
  match t.kind with
  | .caret => .ok (.symbol t.lexeme)
  | .string => .ok (.string (Quoted.read t.lexeme))
  | .openString => .error .openString
  | .atom => Literal.ofAtom t.lexeme
  | .opening _ | .closing _ | .mark _ => .error .unexpectedCloser

/-- The error of a text that ends below the given stack. -/
def atEnd (stop : Nat) : List Frame → Diagnostic
  | .bracket b opener _ :: _ => ⟨.unclosed b, some opener.span⟩
  | _ => ⟨.missingForm, some ⟨stop, stop⟩⟩

/-- Runs the machine until the first form is complete, and returns it
with the tokens after it. -/
def parseWith (stop : Nat) : List Frame → List Token → Except Diagnostic (Value × List Token)
  | stack, [] => .error (atEnd stop stack)
  | stack, t :: rest =>
    match t.kind, stack with
    | .opening b, stack => parseWith stop (.bracket b t [] :: stack) rest
    | .mark m, stack => parseWith stop (.mark m :: stack) rest
    | .closing b, .bracket b' opener forms :: below =>
      if b = b' then
        match enclosed b forms.reverse with
        | .error cause => .error ⟨cause, some opener.span⟩
        | .ok form => match deliver form below with
          | .inl form => .ok (form, rest)
          | .inr stack => parseWith stop stack rest
      else .error ⟨.mismatched b b', some t.span⟩
    | _, stack =>
      match ofToken t with
      | .error cause => .error ⟨cause, some t.span⟩
      | .ok form => match deliver form stack with
        | .inl form => .ok (form, rest)
        | .inr stack => parseWith stop stack rest

/-- The first form of a token stream, and the tokens after it. -/
def ofTokens (stream : TokenStream) : Except Diagnostic (Value × List Token) :=
  match stream.tokens with
  | [] => .error ⟨.noForm, none⟩
  | tokens => parseWith stream.stop [] tokens

end Form

/-- Reads the first form of a text. What follows it is not looked
at. -/
def read (source : String) : Except Diagnostic Value :=
  (Form.ofTokens (tokenize source)).map Prod.fst

end Lisp
