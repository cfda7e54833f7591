import Lisp.Proofs.Calling
import Lisp.Proofs.Confinement
import Lisp.Proofs.Expansion
import Lisp.Proofs.Prelude
import Mathlib.Data.List.Induction

/-!
# The conditional of the prelude

`cond` is a macro, and its body is a program of the language that takes
the forms of a call apart. A call with two forms or more is expanded to
an `if` whose last operand is the call with the forms behind them
(`gives_condBody`), and this call is expanded when it is reached, not
before. So each test is evaluated once the tests before it are known to
be false, and nothing else is (`Chooses`).

This holds where `cond` and the names in its body mean what they mean in
a new session, and as long as no test changes that (`Undisturbed`). Each
expansion leaves a scope behind (`expanding`), and nothing refers to it.
-/

namespace Lisp

open World Value Behavior

/-! ## Forms that only give a value -/

/-- The form gives the value and does nothing to the world. -/
def Gives (scope : ScopeId) (w : World) (form v : Value) : Prop :=
  of (Evaluates form scope) w = (pure v : Behavior Value) w

/-- A condition that only gives a value. -/
theorem evaluates_branch_of_gives {scope : ScopeId} {w : World} {condition v : Value}
    (hfree : ¬w.BindsMacro scope "if") (h : Gives scope w condition v) (yes : Value)
    (no : List Value) (hno : no.length ≤ 1) :
    of (Evaluates (.list (.symbol "if" :: condition :: yes :: no)) scope) w =
      of (Evaluates (if v.isTruthy then yes else no.head?.getD .nil) scope) w := by
  rw [evaluates_branch hfree condition yes hno]
  exact bind_of_pure_at h

/-! ## Counting -/

theorem toInt_ofNat_of_fits {n : Nat} (h : fitsInt64 n = true) :
    (Int64.ofNat n).toInt = n := by
  rw [fitsInt64, Bool.and_eq_true, decide_eq_true_eq, decide_eq_true_eq] at h
  have hmax : Int64.maxValue.toInt = 9223372036854775807 := rfl
  rw [hmax] at h
  exact Int64.toInt_ofNat_of_lt (by omega)

theorem fitsInt64_of_le {m n : Nat} (hmn : m ≤ n) (h : fitsInt64 n = true) :
    fitsInt64 m = true := by
  rw [fitsInt64, Bool.and_eq_true, decide_eq_true_eq, decide_eq_true_eq] at h ⊢
  have hmin : Int64.minValue.toInt = -9223372036854775808 := rfl
  omega

/-- Is a count greater than a whole number? -/
theorem compares_greater_count {n : Nat} (h : fitsInt64 n = true) (k : Int64) :
    Number.compares .greater Ordering.isGT (.int (Int64.ofNat n)) (.int k) =
      .ok (decide (k.toInt < n)) := by
  have hcompares : Number.compares .greater Ordering.isGT (.int (Int64.ofNat n)) (.int k) =
      .ok (compare (Int64.ofNat n).toInt k.toInt).isGT := rfl
  rw [hcompares, toInt_ofNat_of_fits h]
  refine congrArg Except.ok (Bool.eq_iff_iff.mpr ?_)
  rw [Ordering.isGT_iff_eq_gt, Int.compare_eq_gt, decide_eq_true_eq]

namespace Session

/-! ## What a call of `cond` relies on -/

/-- What `cond` throws at a form that has no expression. -/
def unpairedMessage : String := "odd number of forms to cond"

def condForm (forms : List Value) : Value := .list (.symbol "cond" :: forms)

/-- The functions that the body of `cond` calls. -/
def condPrimitives : List Primitive :=
  [.count, .first, .nth, .rest, .greater, .list, .cons, .raise]

/-- In the scope, `cond` is the macro of the prelude, the functions of
its body are the primitives in the root scope, and no macro is in the
way. -/
structure Intact (scope : ScopeId) (w : World) : Prop where
  cond : ∃ object, w.find? scope "cond" =
    some (.closure object true ["&", "xs"] condBody rootScope)
  primitives : ∀ p ∈ condPrimitives, w.find? rootScope p.name = some (.builtin p)
  branch : ¬w.BindsMacro scope "if"
  rootBranch : ¬w.BindsMacro rootScope "if"
  rootQuote : ¬w.BindsMacro rootScope "quote"

theorem intact_start (files : Files) (argv : List String) : Intact rootScope (start files argv) := by
  have hunbound : ∀ name, (start files argv).find? rootScope name = none →
      ¬(start files argv).BindsMacro rootScope name :=
    fun name => World.not_bindsMacro_of_unbound
  rw [start_eq] at hunbound ⊢
  refine ⟨⟨3, rfl⟩, ?_, hunbound _ rfl, hunbound _ rfl, hunbound _ rfl⟩
  simp only [condPrimitives, List.forall_mem_cons]
  exact ⟨rfl, rfl, rfl, rfl, rfl, rfl, rfl, rfl, List.forall_mem_nil _⟩

/-- The world in the body of `cond`, and behind it. -/
def expanding (w : World) (forms : List Value) : World := w.enter rootScope [("xs", .list forms)]

section

variable {w : World} {scope : ScopeId} (hw : Rooted w)

include hw

theorem find?_expanding (forms : List Value) (hscope : scope < w.scopes.size) (name : String) :
    (expanding w forms).find? scope name = w.find? scope name :=
  hw.wellFormed.find?_enter_of_lt hscope

theorem intact_expanding (h : Intact scope w) (hscope : scope < w.scopes.size)
    (forms : List Value) : Intact scope (expanding w forms) := by
  have hsame := find?_expanding hw forms hscope
  have hroot := find?_expanding hw forms hw.root
  constructor
  · rw [hsame]
    exact h.cond
  · intro p hp
    rw [hroot]
    exact h.primitives p hp
  · rw [World.BindsMacro, hsame]
    exact h.branch
  · rw [World.BindsMacro, hroot]
    exact h.rootBranch
  · rw [World.BindsMacro, hroot]
    exact h.rootQuote

/-! ## The body of `cond` -/

theorem gives_xs (forms : List Value) :
    Gives w.scopes.size (expanding w forms) (.symbol "xs") (.list forms) :=
  evaluates_symbol (hw.wellFormed.find?_enter_single hw.root)

/-- All other names mean what they mean in the root scope. -/
theorem find?_body (forms : List Value) {name : String} (hname : name ≠ "xs") :
    (expanding w forms).find? w.scopes.size name = w.find? rootScope name :=
  hw.wellFormed.find?_enter_single_of_ne hw.root hname

variable (hintact : Intact scope w)

include hintact

theorem Intact.find?_primitive (forms : List Value) {p : Primitive} (hp : p ∈ condPrimitives) :
    (expanding w forms).find? w.scopes.size p.name = some (.builtin p) := by
  have hnames : ∀ p ∈ condPrimitives, p.name ≠ "xs" := by decide
  rw [find?_body hw forms (hnames p hp)]
  exact hintact.primitives p hp

theorem Intact.not_bindsMacro_branch (forms : List Value) :
    ¬(expanding w forms).BindsMacro w.scopes.size "if" := by
  rw [World.BindsMacro, find?_body hw forms (by decide)]
  exact hintact.rootBranch

theorem Intact.gives_quote (forms : List Value) (v : Value) :
    Gives w.scopes.size (expanding w forms) (.list [.symbol "quote", v]) v := by
  refine evaluates_quote ?_ v
  rw [World.BindsMacro, find?_body hw forms (by decide)]
  exact hintact.rootQuote

/-- A call of one of the primitives, if it only computes. -/
theorem Intact.gives_call (forms : List Value) {p : Primitive} {operands vs : List Value}
    {v : Value} (hp : p ∈ condPrimitives)
    (hoperands : List.Forall₂ (Gives w.scopes.size (expanding w forms)) operands vs)
    (hvalue : ∀ evaluate, p.checked evaluate w.scopes.size vs = pure v) :
    Gives w.scopes.size (expanding w forms) (.list (.symbol p.name :: operands)) v := by
  have hnames : ∀ p ∈ condPrimitives, SpecialForm.ofName? p.name = none ∧ p ≠ .eval ∧ p ≠ .swap := by
    decide
  obtain ⟨hname, heval, hswap⟩ := hnames p hp
  rw [Gives, evaluates_call (hintact.find?_primitive hw forms hp) hname,
    bind_of_pure_at (evaluatesEach_of_pure hoperands)]
  exact applies_lift (x := .ok v) heval hswap hvalue

theorem Intact.gives_moreThan {forms : List Value} (hlength : fitsInt64 forms.length = true)
    (k : Int64) : Gives w.scopes.size (expanding w forms) (moreThan k)
      (.bool (decide (k.toInt < forms.length))) := by
  have hcount : Gives w.scopes.size (expanding w forms)
      (.list [.symbol "count", .symbol "xs"]) (.int (Int64.ofNat forms.length)) :=
    hintact.gives_call hw forms (p := .count) (by decide) (.cons (gives_xs hw forms) .nil)
      fun _ => rfl
  refine hintact.gives_call hw forms (p := .greater) (by decide)
    (.cons hcount (.cons (evaluates_self trivial) .nil)) fun evaluate => ?_
  have hdecided : Primitive.greater.checked evaluate w.scopes.size
        [.int (Int64.ofNat forms.length), .int k] =
      Primitive.decided (Number.compares .greater Ordering.isGT
        (.int (Int64.ofNat forms.length)) (.int k)) := rfl
  rw [hdecided, compares_greater_count hlength]
  rfl

/-- Without forms there is nothing to choose from. -/
theorem Intact.gives_condBody_nil :
    Gives w.scopes.size (expanding w []) condBody .nil := by
  have hlength : fitsInt64 ([] : List Value).length = true := rfl
  have hnone := hintact.gives_moreThan hw hlength 0
  have hfree := hintact.not_bindsMacro_branch hw []
  rw [Gives, condBody, evaluates_branch_of_gives hfree hnone _ [] (by decide)]
  exact evaluates_self trivial

/-- With a form, what is expanded to is a list that is made of it. -/
theorem Intact.evaluates_condBody_cons {form : Value} {forms : List Value}
    (hlength : fitsInt64 (form :: forms).length = true) :
    of (Evaluates condBody w.scopes.size) (expanding w (form :: forms)) = (do
      let choice ← of (Evaluates condChoice w.scopes.size)
      let vs ← of (EvaluatesEach [condRest] w.scopes.size)
      of (Applies (.builtin .list) (.symbol "if" :: form :: choice :: vs) w.scopes.size))
        (expanding w (form :: forms)) := by
  have hmore := hintact.gives_moreThan hw hlength 0
  have hfree := hintact.not_bindsMacro_branch hw (form :: forms)
  have hlist := hintact.find?_primitive hw (form :: forms) (p := .list) (by decide)
  have hquote := hintact.gives_quote hw (form :: forms) (.symbol "if")
  have hfirst : Gives w.scopes.size (expanding w (form :: forms))
      (.list [.symbol "first", .symbol "xs"]) form :=
    hintact.gives_call hw _ (p := .first) (by decide) (.cons (gives_xs hw _) .nil) fun _ => rfl
  have hpositive : decide ((0 : Int64).toInt < (form :: forms).length) = true := by
    rw [decide_eq_true_eq, List.length_cons]
    exact Int.natCast_pos.mpr (Nat.succ_pos _)
  rw [hpositive] at hmore
  rw [condBody, evaluates_branch_of_gives hfree hmore _ [] (by decide)]
  refine (evaluates_call hlist rfl _).trans ?_
  rw [evaluatesEach_cons, bind_assoc, bind_of_pure_at hquote, evaluatesEach_cons, bind_assoc,
    bind_assoc, bind_of_pure_at hfirst, evaluatesEach_cons]
  simp only [bind_assoc, pure_bind]

theorem Intact.evaluates_throw (forms : List Value) (message : String) :
    of (Evaluates (.list [.symbol "throw", .string message]) w.scopes.size)
        (expanding w forms) =
      (lift (.error (.thrown message)) : Behavior Value) (expanding w forms) := by
  have hraise := hintact.find?_primitive hw forms (p := .raise) (by decide)
  have hmessage : Gives w.scopes.size (expanding w forms) (.string message)
      (.string message) := evaluates_self trivial
  have hraises : ∀ evaluate, Primitive.raise.checked evaluate w.scopes.size [.string message] =
      (Action.ask (·.text false (.string message)) >>= fun text => Action.fail (.thrown text)) :=
    fun _ => rfl
  refine (evaluates_call hraise rfl _).trans ?_
  rw [bind_of_pure_at (evaluatesEach_of_pure (.cons hmessage .nil)),
    applies_primitive (p := .raise) (by decide) (by decide) hraises]
  refine at_ext fun r w' => ?_
  rw [of, Action.ends_ask_bind, World.text_string, Action.ends_fail]
  rfl

/-- A form without another one behind it is no clause. -/
theorem Intact.evaluates_condBody_single (form : Value) :
    of (Evaluates condBody w.scopes.size) (expanding w [form]) =
      (lift (.error (.thrown unpairedMessage)) : Behavior Value) (expanding w [form]) := by
  have hlength : fitsInt64 [form].length = true := rfl
  have hmore := hintact.gives_moreThan hw hlength 1
  have hfree := hintact.not_bindsMacro_branch hw [form]
  rw [hintact.evaluates_condBody_cons hw hlength, condChoice]
  refine bind_of_error_at ?_
  rw [evaluates_branch_of_gives hfree hmore _ [_] (by decide)]
  exact hintact.evaluates_throw hw [form] unpairedMessage

/-- A call with a test and an expression is expanded to an `if`, and the
forms behind them are left for another call. -/
theorem Intact.gives_condBody {test expression : Value} {rest : List Value}
    (hlength : fitsInt64 (test :: expression :: rest).length = true) :
    Gives w.scopes.size (expanding w (test :: expression :: rest)) condBody
      (.list [.symbol "if", test, expression, condForm rest]) := by
  have hmore := hintact.gives_moreThan hw hlength 1
  have hfree := hintact.not_bindsMacro_branch hw (test :: expression :: rest)
  have hxs := gives_xs hw (test :: expression :: rest)
  have hchoice : Gives w.scopes.size (expanding w (test :: expression :: rest)) condChoice
      expression := by
    have htwo : decide ((1 : Int64).toInt < (test :: expression :: rest).length) = true := by
      have hone : (1 : Int64).toInt = 1 := rfl
      rw [decide_eq_true_eq, List.length_cons, List.length_cons]
      omega
    rw [htwo] at hmore
    rw [Gives, condChoice, evaluates_branch_of_gives hfree hmore _ [_] (by decide)]
    exact hintact.gives_call hw _ (p := .nth) (by decide)
      (.cons hxs (.cons (evaluates_self trivial) .nil)) fun _ => rfl
  have hrest : Gives w.scopes.size (expanding w (test :: expression :: rest)) condRest
      (condForm rest) := by
    have hcond := hintact.gives_quote hw (test :: expression :: rest) (.symbol "cond")
    have hfirst := hintact.gives_call hw _ (p := .rest) (v := .list (expression :: rest))
      (by decide) (.cons hxs .nil) fun _ => rfl
    have hsecond := hintact.gives_call hw _ (p := .rest) (v := .list rest) (by decide)
      (.cons hfirst .nil) fun _ => rfl
    exact hintact.gives_call hw _ (p := .cons) (by decide) (.cons hcond (.cons hsecond .nil))
      fun _ => rfl
  rw [Gives, hintact.evaluates_condBody_cons hw hlength, bind_of_pure_at hchoice,
    bind_of_pure_at (evaluatesEach_of_pure (.cons hrest .nil))]
  exact applies_lift (p := .list) (x := .ok _) (by decide) (by decide) fun _ => rfl

/-! ## Calls of `cond` -/

omit hw in
/-- A call is evaluated by expanding it once. -/
theorem Intact.evaluates_condForm (forms : List Value) :
    of (Evaluates (condForm forms) scope) w = (do
      let expansion ← of (Evaluates condBody w.scopes.size)
      of (Evaluates expansion scope)) (expanding w forms) := by
  obtain ⟨object, hcond⟩ := hintact.cond
  have hcall : w.macroCall? scope (condForm forms) =
      some (["&", "xs"], condBody, rootScope, forms) := by
    rw [condForm, World.macroCall?, hcond]
  have hbindings : Call.bindings ["&", "xs"] forms = .ok [("xs", .list forms)] := by
    simp [Call.bindings, Call.positional, Call.restMark, Call.bindAll, Scope.bind]
  exact evaluates_macroCall hcall hbindings

theorem Intact.evaluates_condForm_nil :
    of (Evaluates (condForm []) scope) w = (pure .nil : Behavior Value) (expanding w []) := by
  rw [hintact.evaluates_condForm, bind_of_pure_at (hintact.gives_condBody_nil hw)]
  exact evaluates_self trivial

theorem Intact.evaluates_condForm_single (form : Value) :
    of (Evaluates (condForm [form]) scope) w =
      (lift (.error (.thrown unpairedMessage)) : Behavior Value) (expanding w [form]) := by
  rw [hintact.evaluates_condForm]
  exact bind_of_error_at (hintact.evaluates_condBody_single hw form)

/-- With a clause, a call is as good as an `if`. -/
theorem Intact.evaluates_condForm_cons {test expression : Value} {rest : List Value}
    (hscope : scope < w.scopes.size)
    (hlength : fitsInt64 (test :: expression :: rest).length = true) :
    of (Evaluates (condForm (test :: expression :: rest)) scope) w =
      of (EvaluatesSpecial .branch [test, expression, condForm rest] scope)
        (expanding w (test :: expression :: rest)) := by
  have hfree := (intact_expanding hw hintact hscope (test :: expression :: rest)).branch
  rw [hintact.evaluates_condForm, bind_of_pure_at (hintact.gives_condBody hw hlength)]
  exact evaluates_special hfree (SpecialForm.ofName?_name .branch) _

end

/-! ## What is chosen -/

/-- What a conditional does with its forms, by the clauses: the tests
are evaluated from left to right up to the first one that is true, and
then the expression behind it. A form that is left over is an error, if
it is reached. -/
inductive Chooses (scope : ScopeId) : List Value → World → Except Error Value → World → Prop
  | nothing {w : World} : Chooses scope [] w (.ok .nil) (expanding w [])
  | unpaired {form : Value} {w : World} :
      Chooses scope [form] w (.error (.raised (.thrown unpairedMessage))) (expanding w [form])
  | testFails {test expression : Value} {rest : List Value} {w w₁ : World} {e : Error}
      (h : Finishes test scope (expanding w (test :: expression :: rest)) (.error e) w₁) :
      Chooses scope (test :: expression :: rest) w (.error e) w₁
  | chosen {test expression v : Value} {rest : List Value} {w w₁ w₂ : World}
      {r : Except Error Value}
      (h : Finishes test scope (expanding w (test :: expression :: rest)) (.ok v) w₁)
      (hv : v.isTruthy = true) (hexpression : Finishes expression scope w₁ r w₂) :
      Chooses scope (test :: expression :: rest) w r w₂
  | skipped {test expression v : Value} {rest : List Value} {w w₁ w₂ : World}
      {r : Except Error Value}
      (h : Finishes test scope (expanding w (test :: expression :: rest)) (.ok v) w₁)
      (hv : v.isTruthy = false) (hrest : Chooses scope rest w₁ r w₂) :
      Chooses scope (test :: expression :: rest) w r w₂

/-- The names that the conditional relies on mean what they should at
each of its calls: no test that turns out false changes that. -/
def Undisturbed (scope : ScopeId) : List Value → World → Prop
  | test :: expression :: rest, w => Intact scope w ∧
      ∀ v w₁, Finishes test scope (expanding w (test :: expression :: rest)) (.ok v) w₁ →
        v.isTruthy = false → Undisturbed scope rest w₁
  | _, w => Intact scope w

section

variable {scope : ScopeId} {w w' : World} {r : Except Error Value}

theorem Undisturbed.intact {forms : List Value} (h : Undisturbed scope forms w) :
    Intact scope w := by
  match forms with
  | [] | [_] => exact h
  | _ :: _ :: _ => exact h.1

theorem rooted_of_ready {m : Moment} (h : m.Ready) : Rooted m.world :=
  ⟨h.wellFormed, Nat.lt_of_le_of_lt (Nat.zero_le m.scope) h.scope⟩

/-- Behind the expansion the forms are evaluated in a world that has all
they need. -/
theorem ready_expanding {forms : List Value} (h : Moment.Ready ⟨.evaluate (condForm forms), scope, w⟩) :
    Moment.Ready ⟨.each forms, scope, expanding w forms⟩ := by
  have hforms : w.Holds (.list forms) := by
    have hform : w.Holds (condForm forms) := h.holds _ (List.mem_singleton_self _)
    exact scoped_list.mpr (List.forall_mem_cons.mp (scoped_list.mp hform)).2
  have hevolves : Evolves (fun _ _ _ => True) w (expanding w forms) :=
    .enter h.wellFormed (rooted_of_ready h).root (List.forall_mem_singleton.mpr hforms)
  exact h.later hevolves fun v hv => hevolves.holds (scoped_list.mp hforms v hv)

/-- A call with the forms that are left can be evaluated after the
test. -/
theorem ready_rest {test expression v : Value} {rest : List Value} {w₁ : World}
    (h : Moment.Ready ⟨.evaluate (condForm (test :: expression :: rest)), scope, w⟩)
    (htest : Evaluates test scope (expanding w (test :: expression :: rest)) (.ok v) w₁) :
    Moment.Ready ⟨.evaluate (condForm rest), scope, w₁⟩ := by
  have hready := ready_expanding h
  have hevolves := (htest.confined (hready.form (List.mem_cons_self ..))).evolves
  refine hready.later hevolves (List.forall_mem_singleton.mpr (scoped_list.mpr ?_))
  refine List.forall_mem_cons.mpr ⟨scoped_leaf trivial, fun form hform => ?_⟩
  exact hevolves.holds (hready.holds form (List.mem_cons_of_mem _ (List.mem_cons_of_mem _ hform)))

theorem evaluates_condForm_iff {forms : List Value}
    (hready : Moment.Ready ⟨.evaluate (condForm forms), scope, w⟩)
    (hlength : fitsInt64 forms.length = true) (h : Undisturbed scope forms w) :
    Evaluates (condForm forms) scope w r w' ↔ Chooses scope forms w r w' := by
  induction forms using List.twoStepInduction generalizing w with
  | nil =>
    have hnil := h.intact.evaluates_condForm_nil (rooted_of_ready hready)
    refine (at_iff hnil r w').trans ⟨?_, fun hchooses => ?_⟩
    · rintro ⟨rfl, rfl⟩
      exact .nothing
    · cases hchooses
      exact ⟨rfl, rfl⟩
  | singleton form =>
    have hsingle := h.intact.evaluates_condForm_single (rooted_of_ready hready) form
    refine (at_iff hsingle r w').trans ⟨?_, fun hchooses => ?_⟩
    · rintro ⟨rfl, rfl⟩
      exact .unpaired
    · cases hchooses
      exact ⟨rfl, rfl⟩
  | cons_cons test expression rest ih _ =>
    have hle : rest.length ≤ (test :: expression :: rest).length := by
      rw [List.length_cons, List.length_cons]
      omega
    have hrest : ∀ {v w₁}, Finishes test scope (expanding w (test :: expression :: rest)) (.ok v) w₁ →
        v.isTruthy = false →
          (Evaluates (condForm rest) scope w₁ r w' ↔ Chooses scope rest w₁ r w') := by
      intro v w₁ htest hv
      exact ih (ready_rest hready (finishes_iff.mp htest)) (fitsInt64_of_le hle hlength)
        (h.2 v w₁ htest hv)
    have hclause := h.intact.evaluates_condForm_cons (rooted_of_ready hready) hready.scope hlength
    refine (at_iff hclause r w').trans ⟨fun hbranch => ?_, fun hchooses => ?_⟩
    · cases hbranch with
      | arity harity => cases harity
      | conditionFails _ htest => exact .testFails (finishes_iff.mpr htest)
      | yes _ htest hv hyes => exact .chosen (finishes_iff.mpr htest) hv (finishes_iff.mpr hyes)
      | no htest hv hno =>
        have htest := finishes_iff.mpr htest
        exact .skipped htest hv ((hrest htest hv).mp hno)
    · cases hchooses with
      | testFails htest => exact .conditionFails (Nat.le_refl 1) (finishes_iff.mp htest)
      | chosen htest hv hexpression =>
        exact .yes (Nat.le_refl 1) (finishes_iff.mp htest) hv (finishes_iff.mp hexpression)
      | skipped htest hv hchosen =>
        exact .no (finishes_iff.mp htest) hv ((hrest htest hv).mpr hchosen)

end

/-- A call of `cond` with any number of forms does what the clauses say:
it ends with a result and a world exactly if the forms are chosen from
with this result and this world. This holds in any scope of a
well-formed world where `cond` and what its body calls mean what they
mean in a new session, as long as no test changes that. The number of
forms is one that `count` can give, as it is for all that fits into the
memory of a machine. -/
theorem cond_chooses {scope : ScopeId} {w : World} {forms : List Value}
    (hready : Moment.Ready ⟨.evaluate (condForm forms), scope, w⟩)
    (hlength : fitsInt64 forms.length = true) (h : Undisturbed scope forms w)
    (r : Except Error Value) (w' : World) :
    Finishes (condForm forms) scope w r w' ↔ Chooses scope forms w r w' := by
  rw [finishes_iff]
  exact evaluates_condForm_iff hready hlength h

/-- A false test with an expression that would fail, a true one, and a
form that is left over. -/
def condForms : List Value :=
  [.bool false, .symbol "unbound", .int 1, .symbol "count", .symbol "unbound"]

theorem cond_chooses_second :
    Moment.Ready ⟨.evaluate (condForm condForms), rootScope, start (fun _ => none) []⟩ ∧
      fitsInt64 condForms.length = true ∧
      Undisturbed rootScope condForms (start (fun _ => none) []) ∧
      ∃ w', Finishes (condForm condForms) rootScope (start (fun _ => none) [])
        (.ok (.builtin .count)) w' := by
  have hrooted := rooted_start (fun _ => none) []
  have hintact := intact_start (fun _ => none) []
  generalize start (fun _ => none) [] = w at hrooted hintact ⊢
  have hscoped : Scoped w.scopes.size (condForm condForms) := by
    refine scoped_list.mpr ?_
    simp only [condForms, List.forall_mem_cons]
    exact ⟨scoped_leaf trivial, scoped_leaf trivial, scoped_leaf trivial, scoped_leaf trivial,
      scoped_leaf trivial, scoped_leaf trivial, List.forall_mem_nil _⟩
  have hready : Moment.Ready ⟨.evaluate (condForm condForms), rootScope, w⟩ :=
    ⟨hrooted.wellFormed, hrooted.root, List.forall_mem_singleton.mpr hscoped⟩
  have hlength : fitsInt64 condForms.length = true := rfl
  have hself : ∀ v, v.SelfEvaluating → ∀ w₁ r w₂,
      Finishes v rootScope w₁ r w₂ ↔ r = .ok v ∧ w₂ = w₁ := fun v hv w₁ r w₂ =>
    finishes_iff.trans (at_iff (evaluates_self hv) r w₂)
  have hfalse := hself (.bool false) trivial
  have hone := hself (.int 1) trivial
  have hfirst := intact_expanding hrooted hintact hrooted.root condForms
  have hundisturbed : Undisturbed rootScope condForms w := by
    refine ⟨hintact, fun v w₁ htest _ => ?_⟩
    obtain ⟨-, rfl⟩ := (hfalse _ _ _).mp htest
    refine ⟨hfirst, fun v w₂ htest hv => ?_⟩
    obtain ⟨hvalue, -⟩ := (hone _ _ _).mp htest
    cases hvalue
    cases hv
  have htest := (hfalse (expanding w condForms) _ _).mpr ⟨rfl, rfl⟩
  have hrest : Rooted (expanding w condForms) :=
    rooted_of_ready (ready_rest hready (finishes_iff.mp htest))
  have hsecond := intact_expanding hrest hfirst hrest.root (condForms.drop 2)
  have hcount : Finishes (.symbol "count") rootScope (expanding (expanding w condForms)
      (condForms.drop 2)) (.ok (.builtin .count)) _ :=
    finishes_iff.mpr (.expanded (.plain rfl) (.bound (hsecond.primitives .count (by decide))))
  have hchooses : Chooses rootScope condForms w (.ok (.builtin .count)) _ :=
    .skipped htest rfl (.chosen ((hone _ _ _).mpr ⟨rfl, rfl⟩) rfl hcount)
  exact ⟨hready, hlength, hundisturbed, _,
    (cond_chooses hready hlength hundisturbed _ _).mpr hchooses⟩

end Session

end Lisp
