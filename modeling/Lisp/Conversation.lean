import Lisp.Session
import Lisp.Text.Blank
import Lisp.Text.Typed

/-!
# Conversations

An interactive session takes lines. Each line is read, evaluated and
answered with its value, or with a complaint that goes to a stream of
its own; then the next line's turn comes, whatever happened. Lines with
nothing to read are passed over, and two words end the conversation.
-/

namespace Lisp

/-- The state after some lines: what was written to the two
streams. -/
structure Conversation where
  world : World
  stdout : String
  stderr : String

namespace Conversation

def start (files : Files) : Conversation := ⟨Session.start files [], "", ""⟩

/-- Does a line end the conversation? -/
def isFarewell (line : String) : Bool := line == ":quit" || line == ":exit"

/-- What is said about an error. That there is nothing to read is not
worth a word. -/
def complaint : Error → String
  | .diagnostic d => if d.cause = .noForm then "" else d.summary ++ "\n"
  | .file e => "error: " ++ e.report ++ "\n"

/-- Adds what a line had written, and what is said to it in the end. -/
def record (c : Conversation) (w : World) (answer complaint : String) : Conversation :=
  let (written, w) := w.takeOutput
  ⟨w, c.stdout ++ written ++ answer, c.stderr ++ complaint⟩

/-- Answers one line. -/
def answer (b : Budget) (c : Conversation) (line : String) : Except Halt Conversation :=
  let text := trimWhite line
  if text = "" then .ok c
  else match Session.reply b text c.world with
    | .value shown w => .ok (c.record w (shown ++ "\n") "")
    | .failure e w => .ok (c.record w "" (complaint e))
    | .halted why => .error why

/-- Answers lines up to the first farewell. -/
def run (b : Budget) (c : Conversation) : List String → Except Halt Conversation
  | [] => .ok c
  | line :: rest =>
    if isFarewell (trimWhite line) then .ok c
    else match c.answer b line with
      | .ok c => run b c rest
      | .error why => .error why

/-- The lines that are meant by a typed text. After the last line break
there is another line only if there is text. -/
def lines (text : String) : List String :=
  let pieces := text.toList.splitOn '\n'
  let pieces := if pieces.getLast? = some [] then pieces.dropLast else pieces
  pieces.map fun line => Typed.meant (String.ofList line)

end Conversation

end Lisp
