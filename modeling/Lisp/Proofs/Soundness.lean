import Lisp.Proofs.Turns
import Mathlib.Data.List.Basic

/-!
# The evaluator follows the rules

If an evaluation ends, there is a derivation of how it ends. A turn is
sound if the evaluations nested in it and those that follow it are, so
the whole is an induction over the turns inside an induction over the
depth.
-/

namespace Lisp

open Lisp.Action

/-- What the evaluator ends with can be derived. -/
def SoundFor (evaluator : Evaluator) : Prop :=
  ∀ {form : Value} {scope : ScopeId} {w w' : World} {r : Except Error Value},
    (evaluator form scope).Ends w r w' → Evaluates form scope w r w'

/-- The same for the expansion of macros. -/
def ExpandsFor (expandAll : Evaluator) : Prop :=
  ∀ {form : Value} {scope : ScopeId} {w w' : World} {r : Except Error Value},
    (expandAll form scope).Ends w r w' → Expands form scope w r w'

section

variable {nested expandAll next : Evaluator} {scope : ScopeId} {w w' : World}

/-! ## Several forms -/

theorem evaluateEach_sound (hnested : SoundFor nested) {forms : List Value}
    {vs : Except Error (List Value)} (h : (evaluateEach nested scope forms).Ends w vs w') :
    EvaluatesEach forms scope w vs w' := by
  induction forms generalizing w vs with
  | nil =>
    obtain ⟨rfl, rfl⟩ := ends_pure.mp h
    exact .nil
  | cons form rest ih =>
    rw [evaluateEach, ends_bind] at h
    rcases h with ⟨v, w₁, hform, h⟩ | ⟨e, hform, rfl⟩
    · have hform := hnested hform
      rcases ends_bind.mp h with ⟨vs', w₂, hrest, h⟩ | ⟨e, hrest, rfl⟩
      · obtain ⟨rfl, rfl⟩ := ends_pure.mp h
        exact .cons hform (ih hrest)
      · exact .cons hform (ih hrest)
    · exact .headFails (hnested hform)

theorem bindEach_sound (hnested : SoundFor nested) {items : List Value}
    (heven : items.length % 2 = 0) {r : Except Error Unit}
    (h : (bindEach nested scope items).Ends w r w') : Binds items scope w r w' := by
  fun_induction bindEach nested scope items generalizing w with
  | case1 target form rest ih =>
    cases hname : SpecialForm.letIn.nameOf target with
    | error cause =>
      rw [hname, ofExcept_error, fail_bind, ends_fail] at h
      obtain ⟨rfl, rfl⟩ := h
      exact .misnamed hname
    | ok name =>
      rw [hname, ofExcept_ok, pure_bind, ends_bind] at h
      rcases h with ⟨v, w₁, hform, h⟩ | ⟨e, hform, rfl⟩
      · have heven : rest.length % 2 = 0 := by
          simp only [List.length_cons] at heven
          omega
        exact .cons hname (hnested hform) (ih heven (ends_define_bind.mp h))
      · exact .formFails hname (hnested hform)
  | case2 items hitems =>
    obtain ⟨rfl, rfl⟩ := ends_pure.mp h
    rcases items with _ | ⟨target, _ | ⟨form, rest⟩⟩
    · exact .nil
    · cases heven
    · exact absurd rfl (hitems target form rest)

theorem runSequence_sound (hnested : SoundFor nested) (hnext : SoundFor next)
    {forms : List Value} {r : Except Error Value}
    (h : (runSequence nested scope forms >>= resume next).Ends w r w') :
    EvaluatesSequence forms scope w r w' := by
  fun_induction runSequence nested scope forms generalizing w with
  | case1 =>
    obtain ⟨rfl, rfl⟩ := ends_pure.mp h
    exact .nil
  | case2 last => exact .last (hnext h)
  | case3 form rest hrest ih =>
    obtain ⟨following, rest, rfl⟩ := List.exists_cons_of_ne_nil hrest
    rw [bind_assoc, ends_bind] at h
    rcases h with ⟨v, w₁, hform, h⟩ | ⟨e, hform, rfl⟩
    · exact .cons (hnested hform) (ih h)
    · exact .formFails (hnested hform)

/-! ## Application -/

/-- A call of a closure, if what evaluates the body is sound. -/
theorem enterCall_sound {evaluator : Evaluator} (hevaluator : SoundFor evaluator)
    {object : ObjectId} {expander : Bool} {params : List String} {body : Value}
    {captured : ScopeId} {args : List Value} {r : Except Error Value}
    (h : (enterCall captured params args >>= evaluator body).Ends w r w') :
    Applies (.closure object expander params body captured) args scope w r w' := by
  rcases ends_enterCall_bind.mp h with ⟨bindings, hargs, h⟩ | ⟨cause, hargs, rfl, rfl⟩
  · exact .closure hargs (hevaluator h)
  · exact .misfit hargs

theorem checked_sound (hnested : SoundFor nested) {p : Primitive} {args : List Value}
    {r : Except Error Value} (h : (p.checked nested scope args).Ends w r w') :
    Applies (.builtin p) args scope w r w' := by
  by_cases heval : p = .eval ∧ args.length = 1
  · obtain ⟨rfl, hlength⟩ := heval
    obtain ⟨form, rfl⟩ := List.length_eq_one_iff.mp hlength
    exact .eval (hnested h)
  · refine .primitive fun evaluate => ?_
    rwa [checked_congr heval evaluate nested]

theorem applyTo_sound (hnested : SoundFor nested) {f first : Value} {more : List Value}
    {r : Except Error Value} (h : (applyTo nested scope f first more).Ends w r w') :
    Applies f (first :: more) scope w r w' := by
  fun_induction applyTo nested scope f first more generalizing w r w' with
  | case1 first more object expander params body captured => exact enterCall_sound hnested h
  | case2 first =>
    obtain ⟨rfl, rfl⟩ := ends_fail.mp h
    exact .swapTooFew (by simp)
  | case3 target f more ih =>
    cases target with
    | atom cell =>
      rw [Primitive.cellOf, ofExcept_ok, pure_bind, ends_contents_bind, ends_bind] at h
      rcases h with ⟨v, w₁, hcall, h⟩ | ⟨e, hcall, rfl⟩
      · rw [ends_store_bind, ends_pure] at h
        obtain ⟨rfl, rfl⟩ := h
        exact .swap (ih _ hcall)
      · exact .swapFails (ih _ hcall)
    | _ =>
      obtain ⟨rfl, rfl⟩ := ends_fail.mp h
      exact .swapNoAtom rfl
  | case4 => exact checked_sound hnested h
  | case5 _ v _ hclosure hbuiltin =>
    obtain ⟨rfl, rfl⟩ := ends_uncallable.mp h
    refine .uncallable fun hcallable => ?_
    cases v with
    | closure object expander params body captured => exact hclosure _ _ _ _ _ rfl
    | builtin p => exact hbuiltin p rfl
    | _ => exact hcallable

theorem apply_sound (hnested : SoundFor nested) {f : Value} {args : List Value}
    {r : Except Error Value} (h : (apply nested scope f args).Ends w r w') :
    Applies f args scope w r w' := by
  cases args with
  | cons first more => exact applyTo_sound hnested h
  | nil =>
    by_cases hf : f.Callable
    · cases f with
      | closure object expander params body captured =>
        rw [apply_closure] at h
        exact enterCall_sound hnested h
      | builtin p =>
        by_cases hswap : p = .swap
        · subst hswap
          obtain ⟨rfl, rfl⟩ := ends_fail.mp h
          exact .swapTooFew (by simp)
        · refine checked_sound hnested ?_
          rwa [apply_builtin hswap] at h
      | _ => exact hf.elim
    · rw [apply_uncallable hf, ends_uncallable] at h
      obtain ⟨rfl, rfl⟩ := h
      exact .uncallable hf

theorem applyTurn_sound (hnested : SoundFor nested) (hnext : SoundFor next) {f : Value}
    {args : List Value} {r : Except Error Value}
    (h : (applyTurn nested scope f args >>= resume next).Ends w r w') :
    Applies f args scope w r w' := by
  by_cases hf : f.Callable
  · cases f with
    | closure object expander params body captured =>
      rw [applyTurn, bind_assoc] at h
      exact enterCall_sound hnext h
    | builtin p =>
      refine apply_sound hnested ?_
      rwa [applyTurn, ends_done] at h
    | _ => exact hf.elim
  · rw [applyTurn_uncallable hf, ends_uncallable_bind] at h
    obtain ⟨rfl, rfl⟩ := h
    exact .uncallable hf

/-! ## Special forms -/

section

variable {r : Except Error Value}

theorem define_sound (hnested : SoundFor nested) {target form : Value}
    (h : (specialTurn nested expandAll scope .define [target, form] >>= resume next).Ends w r w') :
    EvaluatesSpecial .define [target, form] scope w r w' := by
  rw [specialTurn] at h
  cases hname : SpecialForm.define.nameOf target with
  | error cause =>
    rw [hname, ofExcept_error, fail_bind, fail_bind, ends_fail] at h
    obtain ⟨rfl, rfl⟩ := h
    exact .defineMisnamed hname
  | ok name =>
    rw [hname, ofExcept_ok, pure_bind, bind_assoc, ends_bind] at h
    rcases h with ⟨v, w₁, hform, h⟩ | ⟨e, hform, rfl⟩
    · rw [bind_assoc, ends_define_bind, pure_bind, resume, ends_pure] at h
      obtain ⟨rfl, rfl⟩ := h
      exact .define hname (hnested hform)
    · exact .defineFails hname (hnested hform)

theorem letIn_sound (hnested : SoundFor nested) (hnext : SoundFor next) {bindings body : Value}
    (h : (specialTurn nested expandAll scope .letIn [bindings, body] >>= resume next).Ends w r w') :
    EvaluatesSpecial .letIn [bindings, body] scope w r w' := by
  cases hpairs : bindings.letPairs? with
  | none =>
    rw [specialTurn_letIn_misshapen hpairs, fail_bind, ends_fail] at h
    obtain ⟨rfl, rfl⟩ := h
    exact .letMisshapen hpairs
  | some items =>
    have heven := Value.even_of_letPairs? hpairs
    rw [specialTurn_letIn hpairs, bind_assoc, ends_enter_bind, bind_assoc, ends_bind] at h
    rcases h with ⟨_, w₁, hbindings, h⟩ | ⟨e, hbindings, rfl⟩
    · have hbindings := bindEach_sound hnested heven hbindings
      exact .letIn hpairs hbindings (hnext h)
    · exact .letFails hpairs (bindEach_sound hnested heven hbindings)

theorem branch_sound (hnested : SoundFor nested) (hnext : SoundFor next)
    {condition yes : Value} {no : List Value} (hno : no.length ≤ 1)
    (h : (specialTurn nested expandAll scope .branch (condition :: yes :: no) >>=
      resume next).Ends w r w') :
    EvaluatesSpecial .branch (condition :: yes :: no) scope w r w' := by
  rw [specialTurn, if_pos hno, bind_assoc, ends_bind] at h
  rcases h with ⟨v, w₁, hcondition, h⟩ | ⟨e, hcondition, rfl⟩
  · rw [pure_bind, resume] at h
    have hcondition := hnested hcondition
    cases hv : v.isTruthy with
    | true =>
      rw [hv, if_pos rfl] at h
      exact .yes hno hcondition hv (hnext h)
    | false =>
      rw [hv, if_neg Bool.false_ne_true] at h
      rcases no with _ | ⟨no, _ | ⟨_, _⟩⟩
      · obtain ⟨rfl, rfl⟩ := evaluates_nil (hnext h)
        exact .noElse hcondition hv
      · exact .no hcondition hv (hnext h)
      · simp at hno
  · exact .conditionFails hno (hnested hcondition)

theorem function_sound {params body : Value}
    (h : (specialTurn nested expandAll scope .function [params, body] >>=
      resume next).Ends w r w') :
    EvaluatesSpecial .function [params, body] scope w r w' := by
  rw [specialTurn] at h
  cases hnames : parameterNames params with
  | error cause =>
    rw [hnames, ofExcept_error, fail_bind, fail_bind, ends_fail] at h
    obtain ⟨rfl, rfl⟩ := h
    exact .functionMisshapen hnames
  | ok names =>
    rw [hnames, ofExcept_ok, pure_bind, bind_assoc, ends_freshObject_bind, pure_bind, resume,
      ends_pure] at h
    obtain ⟨rfl, rfl⟩ := h
    exact .function hnames

theorem quasiquoteExpand_sound {template : Value}
    (h : (specialTurn nested expandAll scope .quasiquoteExpand [template] >>=
      resume next).Ends w r w') :
    EvaluatesSpecial .quasiquoteExpand [template] scope w r w' := by
  rw [specialTurn, ends_done, ends_ofExcept] at h
  obtain ⟨rfl, rfl⟩ := h
  exact .quasiquoteExpand

theorem quasiquote_sound (hnext : SoundFor next) {template : Value}
    (h : (specialTurn nested expandAll scope .quasiquote [template] >>=
      resume next).Ends w r w') :
    EvaluatesSpecial .quasiquote [template] scope w r w' := by
  rw [specialTurn] at h
  cases hform : Quasiquote.expand template with
  | error cause =>
    rw [hform, ofExcept_error, fail_bind, fail_bind, ends_fail] at h
    obtain ⟨rfl, rfl⟩ := h
    exact .quasiquoteMisshapen hform
  | ok form =>
    rw [hform, ofExcept_ok, pure_bind, pure_bind, resume] at h
    exact .quasiquote hform (hnext h)

theorem defineMacro_sound (hnested : SoundFor nested) {target form : Value}
    (h : (specialTurn nested expandAll scope .defineMacro [target, form] >>=
      resume next).Ends w r w') :
    EvaluatesSpecial .defineMacro [target, form] scope w r w' := by
  rw [specialTurn] at h
  cases hname : SpecialForm.defineMacro.nameOf target with
  | error cause =>
    rw [hname, ofExcept_error, fail_bind, fail_bind, ends_fail] at h
    obtain ⟨rfl, rfl⟩ := h
    exact .macroMisnamed hname
  | ok name =>
    rw [hname, ofExcept_ok, pure_bind, bind_assoc, ends_bind] at h
    rcases h with ⟨v, w₁, hform, h⟩ | ⟨e, hform, rfl⟩
    · by_cases hclosure : ∃ object expander params body captured,
          v = .closure object expander params body captured
      · obtain ⟨object, expander, params, body, captured, rfl⟩ := hclosure
        rw [asMacro, bind_assoc, bind_assoc, ends_freshObject_bind, pure_bind, bind_assoc,
          ends_define_bind, pure_bind, resume, ends_pure] at h
        obtain ⟨rfl, rfl⟩ := h
        exact .defineMacro hname (hnested hform)
      · have hv : ∀ object expander params body captured,
            v ≠ .closure object expander params body captured :=
          fun _ _ _ _ _ heq => hclosure ⟨_, _, _, _, _, heq⟩
        rw [asMacro_of_ne hv, fail_bind, fail_bind, ends_fail] at h
        obtain ⟨rfl, rfl⟩ := h
        exact .macroNoFunction hname (hnested hform) hv
    · exact .macroFails hname (hnested hform)

theorem expandMacros_sound (hexpand : ExpandsFor expandAll) {form : Value}
    (h : (specialTurn nested expandAll scope .expandMacros [form] >>= resume next).Ends w r w') :
    EvaluatesSpecial .expandMacros [form] scope w r w' := by
  rw [specialTurn, ends_done] at h
  exact .expandMacros (hexpand h)

theorem specialTurn_sound (hnested : SoundFor nested) (hexpand : ExpandsFor expandAll)
    (hnext : SoundFor next) {form : SpecialForm} {operands : List Value}
    (h : (specialTurn nested expandAll scope form operands >>= resume next).Ends w r w') :
    EvaluatesSpecial form operands scope w r w' := by
  cases hoperands : form.takes operands.length with
  | false =>
    rw [specialTurn_of_arity hoperands, fail_bind, ends_fail] at h
    obtain ⟨rfl, rfl⟩ := h
    exact .arity hoperands
  | true =>
    cases form with
    | sequence =>
      rw [specialTurn] at h
      exact .sequence (runSequence_sound hnested hnext h)
    | branch =>
      obtain ⟨condition, yes, no, rfl, hno⟩ := branch_operands hoperands
      exact branch_sound hnested hnext hno h
    | define =>
      obtain ⟨target, form, rfl⟩ := List.length_eq_two.mp (of_decide_eq_true hoperands)
      exact define_sound hnested h
    | letIn =>
      obtain ⟨bindings, body, rfl⟩ := List.length_eq_two.mp (of_decide_eq_true hoperands)
      exact letIn_sound hnested hnext h
    | function =>
      obtain ⟨params, body, rfl⟩ := List.length_eq_two.mp (of_decide_eq_true hoperands)
      exact function_sound h
    | defineMacro =>
      obtain ⟨target, form, rfl⟩ := List.length_eq_two.mp (of_decide_eq_true hoperands)
      exact defineMacro_sound hnested h
    | quote =>
      obtain ⟨v, rfl⟩ := List.length_eq_one_iff.mp (of_decide_eq_true hoperands)
      obtain ⟨rfl, rfl⟩ := ends_pure.mp h
      exact .quote
    | quasiquoteExpand =>
      obtain ⟨template, rfl⟩ := List.length_eq_one_iff.mp (of_decide_eq_true hoperands)
      exact quasiquoteExpand_sound h
    | quasiquote =>
      obtain ⟨template, rfl⟩ := List.length_eq_one_iff.mp (of_decide_eq_true hoperands)
      exact quasiquote_sound hnext h
    | expandMacros =>
      obtain ⟨form, rfl⟩ := List.length_eq_one_iff.mp (of_decide_eq_true hoperands)
      exact expandMacros_sound hexpand h

/-! ## Turns -/

theorem evaluateData_sound (hnested : SoundFor nested) {form : Value}
    (hlist : ∀ items, form ≠ .list items)
    (h : (evaluateData nested scope form).Ends w r w') : EvaluatesPlain form scope w r w' := by
  cases form with
  | symbol name =>
    rcases ends_lookup.mp h with ⟨v, hfind, rfl, rfl⟩ | ⟨hfind, rfl, rfl⟩
    · exact .bound hfind
    · exact .unbound hfind
  | list items => exact absurd rfl (hlist items)
  | vector items =>
    rw [evaluateData, ends_bind] at h
    rcases h with ⟨vs, w₁, hitems, h⟩ | ⟨e, hitems, rfl⟩
    · obtain ⟨rfl, rfl⟩ := ends_pure.mp h
      exact .vector (evaluateEach_sound hnested hitems)
    · exact .vector (evaluateEach_sound hnested hitems)
  | map entries =>
    rw [evaluateData, ends_bind] at h
    rcases h with ⟨vs, w₁, hitems, h⟩ | ⟨e, hitems, rfl⟩
    · have hitems := evaluateEach_sound hnested hitems
      rw [mapOf_of_each hitems, ofExcept_ok, ends_pure] at h
      obtain ⟨rfl, rfl⟩ := h
      exact .map hitems
    · exact .map (evaluateEach_sound hnested hitems)
  | _ =>
    obtain ⟨rfl, rfl⟩ := ends_pure.mp h
    exact .self trivial

theorem callTurn_sound (hnested : SoundFor nested) (hnext : SoundFor next)
    {operator : Value} {operands : List Value} (hspecial : operator.special? = none)
    (h : (callTurn nested scope operator operands >>= resume next).Ends w r w') :
    EvaluatesPlain (.list (operator :: operands)) scope w r w' := by
  rw [callTurn_eq, bind_assoc, ends_bind] at h
  rcases h with ⟨callee, w₁, hoperator, h⟩ | ⟨e, hoperator, rfl⟩
  · have hoperator := hnested hoperator
    rw [bind_assoc, ends_bind] at h
    rcases h with ⟨args, w₂, hoperands, h⟩ | ⟨e, hoperands, rfl⟩
    · have hoperands := evaluateEach_sound hnested hoperands
      exact .call hspecial hoperator hoperands (applyTurn_sound hnested hnext h)
    · exact .operandFails hspecial hoperator (evaluateEach_sound hnested hoperands)
  · exact .operatorFails hspecial (hnested hoperator)

theorem plainTurn_sound (hnested : SoundFor nested) (hexpand : ExpandsFor expandAll)
    (hnext : SoundFor next) {form : Value}
    (h : (plainTurn nested expandAll form scope >>= resume next).Ends w r w') :
    EvaluatesPlain form scope w r w' := by
  by_cases hlist : ∃ items, form = .list items
  · obtain ⟨items, rfl⟩ := hlist
    match items with
    | [] =>
      obtain ⟨rfl, rfl⟩ := ends_pure.mp h
      exact .emptyList
    | operator :: operands =>
      rw [plainTurn_list] at h
      cases hspecial : operator.special? with
      | some special =>
        rw [hspecial] at h
        exact .special hspecial (specialTurn_sound hnested hexpand hnext h)
      | none =>
        rw [hspecial] at h
        exact callTurn_sound hnested hnext hspecial h
  · have hlist : ∀ items, form ≠ .list items := fun items heq => hlist ⟨items, heq⟩
    rw [plainTurn_data hlist, ends_done] at h
    exact evaluateData_sound hnested hlist h

end

end

/-! ## The loops -/

theorem expandMacros_expands {nested : Evaluator} (hnested : SoundFor nested) (steps : Nat) :
    ExpandsFor (expandMacros nested steps) := by
  induction steps with
  | zero => exact fun h => absurd h not_ends_loop_zero
  | succ steps ih =>
    intro form scope w w' r h
    rw [expandMacros, loop_succ] at h
    cases hcall : w.macroCall? scope form with
    | none =>
      rw [ends_expand_plain hcall, resume, ends_pure] at h
      obtain ⟨rfl, rfl⟩ := h
      exact .plain hcall
    | some call =>
      obtain ⟨params, body, captured, args⟩ := call
      rcases (ends_expand_call hcall).mp h with ⟨bindings, hargs, h⟩ | ⟨cause, hargs, rfl, rfl⟩
      · rcases ends_bind.mp h with ⟨expansion, w₁, hbody, h⟩ | ⟨e, hbody, rfl⟩
        · exact .step hcall hargs (hnested hbody) (ih h)
        · exact .bodyFails hcall hargs (hnested hbody)
      · exact .misfit hcall hargs

theorem loop_sound {nested : Evaluator} (hnested : SoundFor nested) (steps fuel : Nat) :
    SoundFor (loop (turn nested (expandMacros nested steps)) fuel) := by
  induction fuel with
  | zero => exact fun h => absurd h not_ends_loop_zero
  | succ fuel ih =>
    intro form scope w w' r h
    rw [loop_succ] at h
    cases hcall : w.macroCall? scope form with
    | none =>
      rw [ends_bind_congr (turn_plain hcall)] at h
      exact .expanded (.plain hcall)
        (plainTurn_sound hnested (expandMacros_expands hnested steps) ih h)
    | some call =>
      obtain ⟨params, body, captured, args⟩ := call
      rw [ends_bind_congr (turn_call hcall)] at h
      rcases (ends_expand_call hcall).mp h with ⟨bindings, hargs, h⟩ | ⟨cause, hargs, rfl, rfl⟩
      · rcases ends_bind.mp h with ⟨expansion, w₁, hbody, h⟩ | ⟨e, hbody, rfl⟩
        · have hbody := hnested hbody
          -- the expansion goes on where this call left off
          rcases ih h with hrest | ⟨hrest, hplain⟩
          · exact .expansionFails (.step hcall hargs hbody hrest)
          · exact .expanded (.step hcall hargs hbody hrest) hplain
        · exact .expansionFails (.bodyFails hcall hargs (hnested hbody))
      · exact .expansionFails (.misfit hcall hargs)

theorem evaluate_sound (steps depth : Nat) : SoundFor (evaluate steps depth) := by
  induction depth with
  | zero => exact fun h => absurd h not_ends_halt
  | succ depth ih => exact loop_sound ih steps steps

end Lisp
