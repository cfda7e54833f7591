import Lisp.CommandLine

/-!
# The program

The outer layer: arguments and streams are read, the files that an
evaluation asks for are supplied, and what it wrote is written. An
evaluation that asks for a file not yet supplied has no answer and no
effect, so it is run again with the file.
-/

namespace Lisp.Main

/-- The files supplied so far. -/
abbrev Supply := List (String × Except FileError String)

def Supply.files (s : Supply) : Files := fun path => s.lookup path

def fileError : IO.Error → FileError
  | .noFileOrDirectory .. => .notFound
  | .inappropriateType _ code _ => if code = 21 then .isDirectory else .notDirectory
  | _ => .notFound

def fetch (path : String) : IO (Except FileError String) := do
  if path = "" then return .error .notFound
  try
    match String.fromUTF8? (← IO.FS.readBinFile path) with
    | some text => return .ok text
    | none => return .error .notText
  catch e => return .error (fileError e)

/-- Runs `f` until it asks for no more files. -/
partial def supplying {α : Type} (s : Supply) (f : Files → Except Halt α) :
    IO (Except Halt α × Supply) := do
  match f s.files with
  | .error (.unreadFile path) => supplying ((path, ← fetch path) :: s) f
  | result => return (result, s)

def exit (result : Except Halt Exit) : IO UInt32 := do
  match result with
  | .ok e =>
    IO.print e.stdout
    IO.eprint e.stderr
    return e.code.toUInt32
  | .error _ => return 1

/-- Answers one line after the other, writing each answer at once. -/
partial def converse (c : Conversation) : IO Unit := do
  let line ← (← IO.getStdin).getLine
  let meant := Typed.meant line
  unless line.isEmpty || Conversation.isFarewell (trimWhite meant) do
    let answer (files : Files) :=
      { c with world := { c.world with files } }.answer .ample meant
    match (← supplying [] answer).1 with
    | .ok c =>
      IO.print c.stdout
      IO.eprint c.stderr
      (← IO.getStdout).flush
      converse { c with stdout := "", stderr := "" }
    | .error _ => converse c

end Lisp.Main

def main (args : List String) : IO UInt32 := do
  match Lisp.Command.ofArgs? args with
  | none =>
    IO.eprintln "error: expected `eval SOURCE`, `run SCRIPT [ARGS...]` or `repl`"
    return Lisp.rejectionCode.toUInt32
  | some .converse =>
    Lisp.Main.converse (.start fun _ => none)
    return 0
  | some command =>
    Lisp.Main.exit (← Lisp.Main.supplying [] fun files => command.execute .ample files "").1
