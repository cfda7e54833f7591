import Lisp.Proofs.Behavior
import Lisp.Proofs.Turns
import Lisp.Session

/-!
# The world of a new session

Before anything is read from a user, a session runs the sources of its
prelude, each of which defines a function or a macro in the root scope.
What such a source does is said for all of them (`eval_define`,
`eval_defineMacro`), within the bounds that a session starts with. So a
new session is the bare world with three more names (`start_eq`).
-/

namespace Lisp

open World Lisp.Action

section

variable {steps depth : Nat} {scope : ScopeId} {w : World} {params body : Value}
  {names : List String} {name : String}

/-! ## Definitions of functions -/

/-- A form that makes a function. -/
def functionForm (params body : Value) : Value := .list [.symbol "fn*", params, body]

theorem evaluate_functionForm (hfree : ¬w.BindsMacro scope "fn*")
    (hnames : parameterNames params = .ok names) :
    evaluate (steps + 1) (depth + 1) (functionForm params body) scope w =
      .value (.closure w.objects false names body scope) w.count := by
  have hspecial : (Value.symbol "fn*").special? = some .function := rfl
  rw [evaluate, loop_succ, bind_apply, functionForm,
    turn_plain (World.macroCall?_of_not_bindsMacro hfree _), plainTurn_list]
  simp only [hspecial, specialTurn, hnames, ofExcept_ok, pure_bind]
  rfl

theorem evaluate_define (hdefine : ¬w.BindsMacro scope "def!")
    (hfunction : ¬w.BindsMacro scope "fn*") (hnames : parameterNames params = .ok names) :
    evaluate (steps + 1) (depth + 2)
        (.list [.symbol "def!", .symbol name, functionForm params body]) scope w =
      .value (.closure w.objects false names body scope)
        (w.count.define scope name (.closure w.objects false names body scope)) := by
  have hspecial : (Value.symbol "def!").special? = some .define := rfl
  rw [evaluate, loop_succ, bind_apply,
    turn_plain (World.macroCall?_of_not_bindsMacro hdefine _), plainTurn_list]
  simp only [hspecial, specialTurn, SpecialForm.nameOf, ofExcept_ok, pure_bind]
  rw [bind_apply, evaluate_functionForm hfunction hnames]
  rfl

theorem evaluate_defineMacro (hdefine : ¬w.BindsMacro scope "defmacro!")
    (hfunction : ¬w.BindsMacro scope "fn*") (hnames : parameterNames params = .ok names) :
    evaluate (steps + 1) (depth + 2)
        (.list [.symbol "defmacro!", .symbol name, functionForm params body]) scope w =
      .value (.closure (w.objects + 1) true names body scope)
        (w.count.count.define scope name (.closure (w.objects + 1) true names body scope)) := by
  have hspecial : (Value.symbol "defmacro!").special? = some .defineMacro := rfl
  rw [evaluate, loop_succ, bind_apply,
    turn_plain (World.macroCall?_of_not_bindsMacro hdefine _), plainTurn_list]
  simp only [hspecial, specialTurn, SpecialForm.nameOf, ofExcept_ok, pure_bind]
  rw [bind_apply, evaluate_functionForm hfunction hnames]
  rfl

end

theorem World.not_bindsMacro_of_unbound {w : World} {scope : ScopeId} {name : String}
    (h : w.find? scope name = none) : ¬w.BindsMacro scope name := by
  rintro ⟨_, _, _, _, hfind⟩
  rw [h] at hfind
  cases hfind

theorem ends_readForm {source : String} {w w' : World} {r : Except Error Value} :
    (Primitive.readForm source).Ends w r w' ↔ r = (read source).mapError .diagnostic ∧ w' = w := by
  rw [Action.Ends, Primitive.readForm]
  cases read source <;> cases r <;> simp [Outcome.ended, Except.mapError, eq_comm]

namespace Session

section

variable {source name : String} {params body : Value} {names : List String} {w : World}

theorem eval_of_read {b : Budget} {form : Value} (h : read source = .ok form) :
    eval b source w = evalForm b form w := by
  rw [eval, bind_apply, Primitive.readForm, h]

/-- A text is read and then evaluated, or its fault is the error. -/
theorem ends_eval {b : Budget} {w' : World} {r : Except Error Value} :
    (eval b source).Ends w r w' ↔
      (∃ form, read source = .ok form ∧ (evalForm b form).Ends w r w') ∨
        ∃ d, read source = .error d ∧ r = .error (.diagnostic d) ∧ w' = w := by
  rw [eval, Action.ends_bind]
  simp only [ends_readForm]
  cases read source with
  | ok form => simp [Except.mapError]
  | error d => simp [Except.mapError, and_comm]

/-- Bounds that a definition of a function does not exceed. -/
def Budget.Defines (b : Budget) : Prop := 2 ≤ b.depth ∧ 1 ≤ b.steps

theorem Budget.Defines.eq {b : Budget} (h : Budget.Defines b) :
    ∃ depth steps, b = ⟨depth + 2, steps + 1⟩ := by
  obtain ⟨depth, steps⟩ := b
  obtain ⟨hdepth, hsteps⟩ : 2 ≤ depth ∧ 1 ≤ steps := h
  obtain ⟨depth, rfl⟩ := Nat.exists_eq_add_of_le' hdepth
  obtain ⟨steps, rfl⟩ := Nat.exists_eq_add_of_le' hsteps
  exact ⟨depth, steps, rfl⟩

theorem ample_defines : Budget.Defines .ample := by
  constructor <;> decide

variable {b : Budget} (hb : Budget.Defines b)

include hb

theorem eval_define
    (h : read source = .ok (.list [.symbol "def!", .symbol name, functionForm params body]))
    (hnames : parameterNames params = .ok names)
    (hdefine : w.find? rootScope "def!" = none) (hfunction : w.find? rootScope "fn*" = none) :
    eval b source w =
      .value (.closure w.objects false names body rootScope)
        (w.count.define rootScope name (.closure w.objects false names body rootScope)) := by
  obtain ⟨depth, steps, rfl⟩ := hb.eq
  exact (eval_of_read h).trans (evaluate_define (World.not_bindsMacro_of_unbound hdefine)
    (World.not_bindsMacro_of_unbound hfunction) hnames)

theorem eval_defineMacro
    (h : read source = .ok (.list [.symbol "defmacro!", .symbol name, functionForm params body]))
    (hnames : parameterNames params = .ok names)
    (hdefine : w.find? rootScope "defmacro!" = none)
    (hfunction : w.find? rootScope "fn*" = none) :
    eval b source w =
      .value (.closure (w.objects + 1) true names body rootScope)
        (w.count.count.define rootScope name
          (.closure (w.objects + 1) true names body rootScope)) := by
  obtain ⟨depth, steps, rfl⟩ := hb.eq
  exact (eval_of_read h).trans (evaluate_defineMacro (World.not_bindsMacro_of_unbound hdefine)
    (World.not_bindsMacro_of_unbound hfunction) hnames)

end

/-! ## The three definitions -/

def notBody : Value := .list [.symbol "if", .symbol "a", .bool false, .bool true]

/-- What the body of `load-file` reads. -/
def loadSource : Value :=
  .list [.symbol "str", .string "(do ", .list [.symbol "slurp", .symbol "f"], .string "\nnil)"]

def loadBody : Value :=
  .list [.symbol "eval", .list [.symbol "read-string", loadSource]]

/-- The form in the body of `cond` that asks for more than `n` forms. -/
def moreThan (n : Int64) : Value := .list [.symbol ">", .list [.symbol "count", .symbol "xs"], .int n]

/-- The second form, if there is one. -/
def condChoice : Value :=
  .list [.symbol "if", moreThan 1, .list [.symbol "nth", .symbol "xs", .int 1],
    .list [.symbol "throw", .string "odd number of forms to cond"]]

/-- The call of `cond` with the forms from the third one on. -/
def condRest : Value :=
  .list [.symbol "cons", .list [.symbol "quote", .symbol "cond"],
    .list [.symbol "rest", .list [.symbol "rest", .symbol "xs"]]]

def condBody : Value :=
  .list [.symbol "if", moreThan 0,
    .list [.symbol "list", .list [.symbol "quote", .symbol "if"],
      .list [.symbol "first", .symbol "xs"], condChoice, condRest]]

/-- The world of a new session, given the bodies of the first and the
last definition. -/
def withPrelude (w : World) (negated expanded : Value) : World :=
  let w := w.count.define rootScope "not" (.closure w.objects false ["a"] negated rootScope)
  let w := w.count.define rootScope "load-file"
    (.closure w.objects false ["f"] loadBody rootScope)
  w.count.count.define rootScope "cond"
    (.closure (w.objects + 1) true ["&", "xs"] expanded rootScope)

set_option maxRecDepth 4000 in
/-- What is read from the prelude. -/
theorem read_prelude :
    prelude.map read = [
      .ok (.list [.symbol "def!", .symbol "not", functionForm (.list [.symbol "a"]) notBody]),
      .ok (.list [.symbol "def!", .symbol "load-file",
        functionForm (.list [.symbol "f"]) loadBody]),
      .ok (.list [.symbol "defmacro!", .symbol "cond",
        functionForm (.list [.symbol "&", .symbol "xs"]) condBody])] := (rfl)

set_option maxRecDepth 10000 in
theorem installPrelude_eq (files : Files) (argv : List String) :
    installPrelude (bare files argv) =
      .value () (withPrelude (bare files argv) notBody condBody) := by
  have hread := read_prelude
  obtain ⟨first, second, third, hprelude⟩ :
      ∃ first second third, prelude = [first, second, third] := by
    unfold prelude
    exact ⟨_, _, _, rfl⟩
  rw [hprelude] at hread
  obtain ⟨hfirst, hread⟩ := List.cons.inj hread
  obtain ⟨hsecond, hread⟩ := List.cons.inj hread
  have hthird := (List.cons.inj hread).1
  have hnot := eval_define (w := bare files argv) ample_defines hfirst rfl rfl rfl
  set w₁ := (bare files argv).count.define rootScope "not" _
  have hload := eval_define (w := w₁) ample_defines hsecond rfl rfl rfl
  set w₂ := w₁.count.define rootScope "load-file" _
  have hcond := eval_defineMacro (w := w₂) ample_defines hthird rfl rfl rfl
  rw [installPrelude, hprelude, List.forM_eq_forM, List.forM_cons, List.forM_cons,
    List.forM_cons, List.forM_nil]
  simp only [bind_apply, hnot, hload, hcond, pure_apply]
  rfl

theorem start_of_install {files : Files} {argv : List String} {w : World}
    (h : installPrelude (bare files argv) = .value () w) : start files argv = w := by
  unfold start
  generalize installPrelude (bare files argv) = outcome at h ⊢
  rw [h]

section

variable {P : World → Prop}
  (heval : ∀ {source : String} {w w' : World} {r : Except Error Value}, P w →
    (eval .ample source).Ends w r w' → P w')

include heval

theorem installEach_preserves {sources : List String} :
    ∀ {w w' : World} {r : Except Error Unit}, P w →
      Action.Ends (sources.forM fun source => eval .ample source >>= fun _ => pure ()) w r w' →
      P w' := by
  induction sources with
  | nil =>
    intro w w' r hw h
    obtain ⟨-, rfl⟩ := Action.ends_pure.mp h
    exact hw
  | cons source rest ih =>
    intro w w' r hw h
    rw [show (source :: rest).forM _ = _ >>= fun _ => rest.forM _ from rfl, bind_assoc] at h
    obtain ⟨v, w₁, hsource, h⟩ | ⟨e, hsource, -⟩ := Action.ends_bind.mp h
    · rw [pure_bind] at h
      exact ih (heval hw hsource) h
    · exact heval hw hsource

end

/-- A session starts with the bare world and what the prelude
defines. -/
theorem start_eq (files : Files) (argv : List String) :
    start files argv = withPrelude (bare files argv) notBody condBody :=
  start_of_install (installPrelude_eq files argv)

/-- What sources preserve is true at the start, if it is true of the
primitives. -/
theorem start_preserves {P : World → Prop} {files : Files} {argv : List String}
    (hbare : P (bare files argv))
    (heval : ∀ {source : String} {w w' : World} {r : Except Error Value}, P w →
      (eval .ample source).Ends w r w' → P w') : P (start files argv) := by
  have hends : installPrelude.Ends (bare files argv) (.ok ()) _ := installPrelude_eq files argv
  rw [start_eq]
  exact installEach_preserves heval hbare hends

/-- The same where the bodies are of no concern. -/
theorem start_eq_prelude (files : Files) (argv : List String) :
    ∃ negated expanded, start files argv = withPrelude (bare files argv) negated expanded :=
  ⟨_, _, start_eq files argv⟩

end Session

end Lisp
