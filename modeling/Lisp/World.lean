import Lisp.Value.Text
import Lisp.Error

/-!
# The state of a session

All that evaluation reads and changes is one value: the scopes, the
contents of the atoms, the text written so far, and the next free
number for things with an identity. Scopes and cells are named by their
place and only ever added.

An `Action` runs in a world and ends in one of three ways. A failure
keeps the world, since what was done before it stays done. The third
way is no answer of the program: a budget ran out, or a file is asked
for that nobody has supplied.
-/

namespace Lisp

/-! ## Scopes -/

structure Scope where
  parent : Option ScopeId
  bindings : List (String × Value)

namespace Scope

def find? (s : Scope) (name : String) : Option Value := s.bindings.lookup name

/-- The bindings with `name` bound to `v`, in its old place if it had
one. -/
def bind (name : String) (v : Value) : List (String × Value) → List (String × Value)
  | [] => [(name, v)]
  | binding :: rest =>
    if binding.1 = name then (name, v) :: rest else binding :: bind name v rest

theorem lookup_bind_self (name : String) (v : Value) (bindings : List (String × Value)) :
    (bind name v bindings).lookup name = some v := by
  induction bindings with
  | nil => simp [bind]
  | cons binding rest ih =>
    obtain ⟨bound, old⟩ := binding
    rw [bind]
    split
    · simp
    · next h => simpa [List.lookup_cons, beq_eq_false_iff_ne.mpr (Ne.symm h)] using ih

theorem lookup_bind_of_ne {name other : String} (h : other ≠ name) (v : Value)
    (bindings : List (String × Value)) :
    (bind name v bindings).lookup other = bindings.lookup other := by
  induction bindings with
  | nil => simp [bind, List.lookup_cons, beq_eq_false_iff_ne.mpr h]
  | cons binding rest ih =>
    obtain ⟨bound, old⟩ := binding
    rw [bind]
    split
    · next hb =>
      have hb : bound = name := hb
      subst hb
      simp [List.lookup_cons, beq_eq_false_iff_ne.mpr h]
    · simp [List.lookup_cons, ih]

def define (s : Scope) (name : String) (v : Value) : Scope :=
  { s with bindings := bind name v s.bindings }

end Scope

/-! ## Worlds -/

/-- What is known about the files: `none` for a path that nobody has
looked up yet. -/
abbrev Files := String → Option (Except FileError String)

structure World where
  scopes : Array Scope
  /-- The contents of the atoms. -/
  cells : Array Value
  /-- The next free number. -/
  objects : ObjectId
  /-- The text written and not yet taken. -/
  output : String
  files : Files

namespace World

def empty (files : Files) : World := ⟨#[], #[], 0, "", files⟩

/-- The value of a name in a scope, or in the nearest scope around it
that binds the name. A scope is newer than the one around it, so
`fuel` need not exceed the scope's number. -/
def findFrom (w : World) (name : String) : (fuel : Nat) → ScopeId → Option Value
  | 0, _ => none
  | fuel + 1, id =>
    match w.scopes[id]? with
    | none => none
    | some scope => match scope.find? name with
      | some v => some v
      | none => match scope.parent with
        | some parent => findFrom w name fuel parent
        | none => none

def find? (w : World) (id : ScopeId) (name : String) : Option Value :=
  w.findFrom name (id + 1) id

/-- The outermost scope around a scope. -/
def rootFrom (w : World) : (fuel : Nat) → ScopeId → ScopeId
  | 0, id => id
  | fuel + 1, id =>
    match w.scopes[id]?.bind Scope.parent with
    | some parent => rootFrom w fuel parent
    | none => id

def root (w : World) (id : ScopeId) : ScopeId := w.rootFrom (id + 1) id

/-- The text of a value, with what the atoms in it hold now. -/
def text (w : World) (readably : Bool) (v : Value) : String :=
  v.textIn w.cells readably w.cells.size

/-- A string is its own text, unless it is to be read again. -/
theorem text_string (w : World) (s : String) : w.text false (.string s) = s := by
  rw [text]
  cases w.cells.size <;> rfl

def texts (w : World) (readably : Bool) (separator : String) (vs : List Value) : String :=
  separator.intercalate (vs.map (w.text readably))

/-- Takes the text written since this was done last. -/
def takeOutput (w : World) : String × World := (w.output, { w with output := "" })

end World

/-! ## Actions -/

/-- Why there is no answer. -/
inductive Halt where
  /-- Evaluations are nested too deeply. -/
  | depth
  /-- An evaluation took too many turns. -/
  | steps
  | unreadFile (path : String)
  /-- A primitive was entered with a number of arguments that it is not
  made for. -/
  | fault
  deriving DecidableEq

inductive Outcome (α : Type) where
  | value (a : α) (w : World)
  | failure (e : Error) (w : World)
  | halted (why : Halt)

def Action (α : Type) : Type := World → Outcome α

namespace Action

variable {α β : Type}

@[inline] protected def pure (a : α) : Action α := fun w => .value a w

@[inline] protected def bind (x : Action α) (f : α → Action β) : Action β := fun w =>
  match x w with
  | .value a w => f a w
  | .failure e w => .failure e w
  | .halted why => .halted why

@[always_inline] instance : Monad Action where
  pure := Action.pure
  bind := Action.bind

theorem bind_apply (x : Action α) (f : α → Action β) (w : World) :
    (x >>= f) w = match x w with
      | .value a w => f a w
      | .failure e w => .failure e w
      | .halted why => .halted why := rfl

@[simp] theorem pure_apply (a : α) (w : World) : (pure a : Action α) w = .value a w := rfl

def fail (cause : Cause) : Action α := fun w => .failure (.diagnostic ⟨cause, none⟩) w

def halt (why : Halt) : Action α := fun _ => .halted why

@[inline] def ofExcept : Except Cause α → Action α
  | .ok a => pure a
  | .error cause => fail cause

/-- Looks at the world. -/
@[inline] def ask (f : World → α) : Action α := fun w => .value (f w) w

/-! ### Changes of the world -/

/-- Adds a scope. -/
def enter (parent : Option ScopeId) (bindings : List (String × Value)) : Action ScopeId := fun w =>
  let id := w.scopes.size
  .value id { w with scopes := w.scopes.push ⟨parent, bindings⟩ }

/-- Binds a name in a scope, and in no other. -/
def define (id : ScopeId) (name : String) (v : Value) : Action Unit := fun w =>
  .value () { w with scopes := w.scopes.modify id (·.define name v) }

/-- The value of a name in a scope or around it. -/
def lookup (id : ScopeId) (name : String) : Action Value := fun w =>
  match w.find? id name with
  | some v => .value v w
  | none => .failure (.diagnostic ⟨.unbound name, none⟩) w

/-- A number that nothing has yet. -/
def freshObject : Action ObjectId := fun w => .value w.objects { w with objects := w.objects + 1 }

def newCell (v : Value) : Action CellId := fun w =>
  let id := w.cells.size
  .value id { w with cells := w.cells.push v }

def store (id : CellId) (v : Value) : Action Unit := fun w =>
  .value () { w with cells := w.cells.setIfInBounds id v }

def contents (id : CellId) : Action Value := ask fun w => w.cells[id]?.getD .nil

def writeLine (text : String) : Action Unit := fun w =>
  .value () { w with output := w.output ++ text ++ "\n" }

/-- The text of a file. -/
def readFile (path : String) : Action String := fun w =>
  match w.files path with
  | some (.ok text) => .value text w
  | some (.error e) => .failure (.file e) w
  | none => .halted (.unreadFile path)

end Action

end Lisp
