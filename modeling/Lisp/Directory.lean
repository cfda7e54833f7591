import Lisp.World

/-!
# Directories

A directory as a value: the files below it, each with the names on the
way to it. Paths are resolved name by name, and only a directory can be
walked through or stayed in: a trailing slash or dot after a file is an
error, and so is a step out of a directory that does not exist. Nothing
is known about the directories above.
-/

namespace Lisp

inductive Node where
  | file (bytes : ByteArray)
  | directory

structure Directory where
  nodes : List (List String × Node)

namespace Directory

/-- The names of a path, empty ones included. -/
def names (path : String) : List String := (path.toList.splitOn '/').map String.ofList

/-- The directory with the given paths in it. -/
def ofPaths (nodes : List (String × Node)) : Directory :=
  ⟨nodes.map fun (path, node) => (names path, node)⟩

/-- What is at a place, which a file below it makes a directory. -/
def node? (d : Directory) (place : List String) : Option Node :=
  if place.isEmpty then some .directory
  else match d.nodes.lookup place with
    | some node => some node
    | none =>
      if d.nodes.any fun (below, _) => place.isPrefixOf below then some .directory else none

/-- One step from a place, which is `none` above this directory. -/
def step (d : Directory) (place : Option (List String)) (name : String) :
    Except FileError (Option (List String)) :=
  match place with
  | none => if name = "" ∨ name = "." ∨ name = ".." then .ok none else .error .notFound
  | some place =>
    match d.node? place with
    | none => .error .notFound
    | some (.file _) => .error .notDirectory
    | some .directory =>
      if name = "" ∨ name = "." then .ok (some place)
      else if name = ".." then .ok (if place.isEmpty then none else some place.dropLast)
      else
        let inner := place ++ [name]
        if (d.node? inner).isSome then .ok (some inner) else .error .notFound

/-- The text of the file at a path. -/
def read (d : Directory) (path : String) : Except FileError String :=
  if path = "" then .error .notFound
  else do
    match ← (names path).foldlM d.step (some []) with
    | none => .error .isDirectory
    | some place =>
      match d.node? place with
      | none => .error .notFound
      | some .directory => .error .isDirectory
      | some (.file bytes) => match String.fromUTF8? bytes with
        | some text => .ok text
        | none => .error .notText

/-- The files of a directory, all of them known. -/
def files (d : Directory) : Files := fun path => some (d.read path)

end Directory

end Lisp
