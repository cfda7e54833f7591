import Lisp.Conversation
import Lisp.Text.Escaped

/-!
# The command line

The program evaluates one source, runs a script, or holds a
conversation. What a call of the program does is a function of its
arguments, its input and the files it reads: an exit code and the text
on the two streams.

An argument that starts with a dash is an option, and there is none but
those that ask for help; `--` lifts that for the arguments after it. The
arguments of a script are its own business and are passed on as they
are, unless the first of them asks for help with a topic, which is not
to be had.
-/

namespace Lisp

inductive Command where
  | eval (source : String)
  | run (script : String) (argv : List String)
  | converse
  deriving DecidableEq

namespace Command

/-- Does an argument look like an option? A dash alone does not. -/
def isOption (arg : String) : Bool :=
  match arg.toList with
  | '-' :: _ :: _ => true
  | _ => false

/-- The operands among arguments that may be options. -/
def operands : List String → Option (List String)
  | [] => some []
  | arg :: rest =>
    if arg = "--" then some rest
    else if isOption arg then none
    else (operands rest).map (arg :: ·)

/-- Does an argument ask for help with a topic? -/
def asksForTopic (arg : String) : Bool := "--help=".toList.isPrefixOf arg.toList

/-- A script and its arguments. The name of the script is not empty. -/
def script? (script : String) (argv : List String) : Option Command :=
  if script = "" then none else some (.run script argv)

/-- The command that the arguments give, if they give one. -/
def ofArgs? : List String → Option Command
  | [] | ["--"] => some .converse
  | "eval" :: args => match operands args with
    | some [source] => some (.eval source)
    | _ => none
  | "repl" :: args => if operands args = some [] then some .converse else none
  | "run" :: "--" :: script :: argv => script? script argv
  | "run" :: script :: argv =>
    if isOption script then none
    else match argv with
      | "--" :: argv => script? script argv
      | argv => if argv.head?.any asksForTopic then none else script? script argv
  | _ => none

end Command

/-! ## Details of errors

An error that ends the program is written with all that is known about
it. -/

namespace Error

/-- The name of a file error among the kinds of errors that the system
knows. -/
def fileKind : FileError → String
  | .notFound => "NotFound"
  | .isDirectory => "IsADirectory"
  | .notDirectory => "NotADirectory"
  | .notText => "InvalidData"

private def fields (name : String) (fields : List (String × String)) : String :=
  name ++ " \x7b " ++ ", ".intercalate (fields.map fun (label, text) => label ++ ": " ++ text) ++
    " \x7d"

private def variant (name content : String) : String := name ++ "(" ++ content ++ ")"

def details : Error → String
  | .diagnostic d =>
    let span := match d.span with
      | some s => variant "Some"
        (fields "SourceSpan" [("start", wholeText s.start), ("end", wholeText s.stop)])
      | none => "None"
    variant "Diagnostic" (fields "Diagnostic" [
      ("kind", d.cause.kind.name),
      ("message", Escaped.write d.cause.message),
      ("span", span),
      ("notes", "[" ++ ", ".intercalate (d.cause.notes.map Escaped.write) ++ "]")])
  | .file e =>
    let message := ("message", Escaped.write e.message)
    let kind := ("kind", fileKind e)
    variant "Io" (match e.code? with
      | some code => fields "Os" [("code", wholeText code), kind, message]
      | none => fields "Error" [kind, message])

end Error

/-! ## Runs of the program -/

/-- How a run ends. -/
structure Exit where
  code : Nat
  stdout : String
  stderr : String

namespace Command

/-- The exit of a command that does one thing and writes `text` about
its result. -/
def exitOf {α : Type} (text : α → String) : Outcome α → Except Halt Exit
  | .value a w => .ok ⟨0, w.output ++ text a, ""⟩
  | .failure e w => .ok ⟨1, w.output, "Error: " ++ e.details ++ "\n"⟩
  | .halted why => .error why

/-- Runs a command on an input and files. -/
def execute (b : Budget) (files : Files) (stdin : String) : Command → Except Halt Exit
  | .eval source => exitOf (· ++ "\n") (Session.reply b source (Session.start files []))
  | .run script argv => exitOf (fun _ => "") (Session.load b script (Session.start files argv))
  | .converse => do
    let c ← (Conversation.start files).run b (Conversation.lines stdin)
    return ⟨0, c.stdout, c.stderr⟩

end Command

/-- The exit code of a call that gives no command. -/
def rejectionCode : Nat := 2

end Lisp
