import Lisp.Text.Numeral
import Lisp.Token
import Lisp.Value

/-!
# Errors

An error of the language is its cause; kind, message and notes are
functions of it. Errors found in a text also name the place. Files fail
in their own way.
-/

namespace Lisp

inductive Cause.Kind where
  | emptyInput | malformed | unbalancedCollection | unbalancedString
  | oddHashMap | unexpectedToken | unboundSymbol | notCallable
  | arity | type | arithmetic | thrown
  deriving DecidableEq

def Cause.Kind.name : Cause.Kind → String
  | .emptyInput => "EmptyInput"
  | .malformed => "Syntax"
  | .unbalancedCollection => "UnbalancedCollection"
  | .unbalancedString => "UnbalancedString"
  | .oddHashMap => "OddHashMap"
  | .unexpectedToken => "UnexpectedToken"
  | .unboundSymbol => "UnboundSymbol"
  | .notCallable => "NotCallable"
  | .arity => "Arity"
  | .type => "Type"
  | .arithmetic => "Arithmetic"
  | .thrown => "Thrown"

/-! ## Causes -/

inductive Cause where
  /-- The text holds no form. -/
  | noForm
  /-- The text ends after a mark. -/
  | missingForm
  /-- A closing bracket with nothing to close. -/
  | unexpectedCloser
  | openString
  /-- The text ends inside a bracket. -/
  | unclosed (b : Bracket)
  /-- A closing bracket that does not fit the open one. -/
  | mismatched (found opened : Bracket)
  /-- A map with a key that has no value. -/
  | oddItems (count : Nat)
  | wholeOutOfRange (lexeme : String)
  | unbound (name : String)
  /-- A call of something that is no function. -/
  | uncallable (found : Tag) (shown : String)
  /-- A parameter list that ends in `&`. -/
  | restMissing
  /-- A parameter list with anything but one name after `&`. -/
  | restMisplaced
  | letBindings
  | notParameters (found : Tag)
  | notSymbol (form : String) (found : Tag)
  /-- A macro definition whose value is no function. -/
  | notFunction (found : Tag)
  | formArity (form expected : String) (received : Nat)
  | callArity (orMore : Bool) (expected received : Nat)
  | primitiveArity (p : Primitive) (expected received : Nat)
  | tooFew (p : Primitive) (least received : Nat)
  | operand (p : Primitive) (expected : String) (found : Tag)
  | indexOutOfRange (index : Int64) (count : Nat)
  | divisionByZero
  | overflow (p : Primitive)
  | thrown (text : String)
  deriving DecidableEq

namespace Cause

def kind : Cause → Kind
  | noForm => .emptyInput
  | missingForm | wholeOutOfRange _ => .malformed
  | restMissing | restMisplaced | letBindings | notParameters _ => .malformed
  | unexpectedCloser => .unexpectedToken
  | openString => .unbalancedString
  | unclosed _ | mismatched _ _ => .unbalancedCollection
  | oddItems _ => .oddHashMap
  | unbound _ => .unboundSymbol
  | uncallable _ _ => .notCallable
  | formArity _ _ _ | callArity _ _ _ | primitiveArity _ _ _ | tooFew _ _ _ => .arity
  | notSymbol _ _ | notFunction _ | operand _ _ _ | indexOutOfRange _ _ => .type
  | divisionByZero | overflow _ => .arithmetic
  | thrown _ => .thrown

/-- A name or a piece of notation inside a message. -/
private def code (s : String) : String := "`" ++ s ++ "`"

private def arguments (expected : String) (received : Nat) : String :=
  " expected " ++ expected ++ " arguments but received " ++ wholeText received

def message : Cause → String
  | noForm => "no form to read"
  | missingForm => "expected a form but reached end of input"
  | unexpectedCloser => "unexpected"
  | openString => "unbalanced string literal"
  | unclosed b => "unbalanced " ++ code b.opener ++ ": expected " ++ code b.closer
  | mismatched found opened =>
    "mismatched " ++ code found.closer ++ ": expected " ++ code opened.closer ++
      " to close " ++ code opened.opener
  | oddItems count => "hash map needs an even number of forms, found " ++ wholeText count
  | wholeOutOfRange lexeme => "integer literal " ++ code lexeme ++ " is out of range"
  | unbound name => "'" ++ name ++ "' not found"
  | uncallable found shown => found.name ++ " is not callable: " ++ shown
  | restMissing => "`&` must be followed by a parameter name"
  | restMisplaced => "`&` must be followed by exactly one parameter name"
  | letBindings => "`let*` expects a list or vector of name/value pairs"
  | notParameters found => "`fn*` expects a parameter list, found " ++ found.name
  | notSymbol form found => code form ++ " expects a symbol, found " ++ found.name
  | notFunction found => "`defmacro!` expects a function, found " ++ found.name
  | formArity form expected received => code form ++ arguments expected received
  | callArity orMore expected received =>
    "function" ++ arguments ((if orMore then "at least " else "") ++ wholeText expected) received
  | primitiveArity p expected received =>
    "function " ++ code p.name ++ arguments (wholeText expected) received
  | tooFew p least received => code p.name ++ arguments ("at least " ++ wholeText least) received
  | operand p expected found =>
    code p.name ++ " expected " ++ expected ++ " but found " ++ found.name
  | indexOutOfRange index count =>
    "`nth` index " ++ wholeText index.toInt ++ " out of range for " ++ wholeText count ++ " items"
  | divisionByZero => "division by zero"
  | overflow p => "integer overflow in " ++ code p.name
  | thrown text => text

def notes : Cause → List String
  | unclosed _ => ["reached end of input"]
  | _ => []

end Cause

/-! ## Reports -/

/-- A cause, and the place in the text if it was found in one. -/
structure Diagnostic where
  cause : Cause
  span : Option Span
  deriving DecidableEq

namespace Diagnostic

/-- Kind and message. -/
def summary (d : Diagnostic) : String := d.cause.kind.name ++ ": " ++ d.cause.message

/-- The summary, the place, and a line for each note. -/
def report (d : Diagnostic) : String :=
  let place := match d.span with
    | some s => " (" ++ wholeText s.start ++ ".." ++ wholeText s.stop ++ ")"
    | none => ""
  d.summary ++ place ++ String.join (d.cause.notes.map ("\n  note: " ++ ·))

end Diagnostic

inductive FileError where
  | notFound | isDirectory | notDirectory
  /-- The bytes are no UTF-8 text. -/
  | notText
  deriving DecidableEq

def FileError.message : FileError → String
  | .notFound => "No such file or directory"
  | .isDirectory => "Is a directory"
  | .notDirectory => "Not a directory"
  | .notText => "stream did not contain valid UTF-8"

/-- The number of the error, for those that the system reports. -/
def FileError.code? : FileError → Option Nat
  | .notFound => some 2
  | .isDirectory => some 21
  | .notDirectory => some 20
  | .notText => none

def FileError.report (e : FileError) : String :=
  "I/O error: " ++ e.message ++ match e.code? with
    | some code => " (os error " ++ wholeText code ++ ")"
    | none => ""

inductive Error where
  | diagnostic (d : Diagnostic)
  | file (e : FileError)
  deriving DecidableEq

def Error.report : Error → String
  | .diagnostic d => d.report
  | .file e => e.report

end Lisp
