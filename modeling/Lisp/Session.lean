import Lisp.Evaluation

/-!
# Sessions

A session is a world whose first scope binds the primitives, the
program's arguments and a few definitions written in the language
itself. Sources are read and evaluated in that scope, one after the
other, and what one has defined the next one sees.
-/

namespace Lisp

/-- The bounds of an evaluation. -/
structure Budget where
  depth : Nat
  steps : Nat

/-- More than any machine can use up. -/
def Budget.ample : Budget := ⟨1000000000000000000, 1000000000000000000⟩

namespace Session

/-- The scope in which sources are evaluated. -/
def rootScope : ScopeId := 0

/-! ## The three ways to run something -/

/-- Evaluates a form in the root scope. -/
def evalForm (b : Budget) (form : Value) : Action Value :=
  evaluate b.steps b.depth form rootScope

/-- Reads the first form of a source and evaluates it. -/
def eval (b : Budget) (source : String) : Action Value := do
  evalForm b (← Primitive.readForm source)

/-- Reads, evaluates and writes the result readably. -/
def reply (b : Budget) (source : String) : Action String := do
  let v ← eval b source
  Action.ask (·.text true v)

/-- Evaluates every form of a file, by the definition of `load-file`
that the session has. -/
def load (b : Budget) (path : String) : Action Value :=
  evalForm b (.list [.symbol "load-file", .string path])

/-! ## The start of a session -/

/-- The definitions in the language itself: negation, loading a file,
and a conditional with any number of clauses. -/
def prelude : List String :=
  ["(def! not (fn* (a) (if a false true)))",
    "(def! load-file (fn* (f) (eval (read-string (str \"(do \" (slurp f) \"\\nnil)\")))))",
    "(defmacro! cond (fn* (& xs) (if (> (count xs) 0) (list 'if (first xs) " ++
      "(if (> (count xs) 1) (nth xs 1) (throw \"odd number of forms to cond\")) " ++
      "(cons 'cond (rest (rest xs)))))))"]

/-- The bindings of the root scope before the prelude. -/
def primitiveBindings (argv : List String) : List (String × Value) :=
  Primitive.all.map (fun p => (p.name, .builtin p)) ++ [("*ARGV*", .list (argv.map .string))]

/-- The world with the root scope only. -/
def bare (files : Files) (argv : List String) : World :=
  { World.empty files with scopes := #[⟨none, primitiveBindings argv⟩] }

/-- Runs the definitions of the prelude. -/
def installPrelude : Action Unit :=
  prelude.forM fun source => do
    let _ ← eval .ample source
    return ()

/-- The world of a new session. -/
def start (files : Files) (argv : List String) : World :=
  match installPrelude (bare files argv) with
  | .value _ w => w
  | _ => bare files argv

end Session

end Lisp
