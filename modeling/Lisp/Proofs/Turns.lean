import Lisp.Proofs.Semantics

/-!
# Turns

One turn of the evaluator, by the kind of form. What follows a turn is
the rest of the loop (`resume`), so a turn and what follows are one
action, and how it ends is said by the same lemmas as for any other.
-/

namespace Lisp

open Lisp.Action

/-- What is left to do after a turn: nothing, or the rest of the loop. -/
def resume (continue_ : Evaluator) : Turn → Action Value
  | .done v => pure v
  | .next form scope => continue_ form scope

theorem loop_succ (turn : Value → ScopeId → Action Turn) (steps : Nat) (form : Value)
    (scope : ScopeId) :
    loop turn (steps + 1) form scope = turn form scope >>= resume (loop turn steps) := by
  funext w
  simp only [loop, bind_apply]
  cases turn form scope w with
  | value next w' => cases next <;> rfl
  | failure e w' => rfl
  | halted why => rfl

/-- A turn that only computes a value is the last one. -/
theorem ends_done {next : Evaluator} {x : Action Value} {w w' : World} {r : Except Error Value} :
    ((x >>= fun v => pure (.done v) : Action Turn) >>= resume next).Ends w r w' ↔
      x.Ends w r w' := by
  have h : (x >>= fun v => pure (.done v) : Action Turn) >>= resume next = x := by
    funext w
    simp only [bind_apply]
    cases x w <;> rfl
  rw [h]

theorem not_ends_loop_zero {turn : Value → ScopeId → Action Turn} {form : Value}
    {scope : ScopeId} {w w' : World} {r : Except Error Value} :
    ¬(loop turn 0 form scope).Ends w r w' := not_ends_halt

/-- Two actions that do the same in a world go on alike. -/
theorem ends_bind_congr {α β : Type} {x y : Action α} {f : α → Action β} {w w' : World}
    {r : Except Error β} (h : x w = y w) : (x >>= f).Ends w r w' ↔ (y >>= f).Ends w r w' := by
  rw [Ends, Ends, bind_apply, bind_apply, h]

section

variable {nested expandAll : Evaluator} {form : Value} {scope : ScopeId} {w w' : World}

/-! ## Expansion -/

theorem expandTurn_plain (h : w.macroCall? scope form = none) :
    expandTurn nested form scope w = .value (.done form) w := by
  simp [expandTurn, bind_apply, ask, h]

variable {params : List String} {body : Value} {captured : ScopeId} {args : List Value}

theorem expandTurn_call (h : w.macroCall? scope form = some (params, body, captured, args)) :
    expandTurn nested form scope w =
      (enterCall captured params args >>= fun inner => nested body inner >>= fun expansion =>
        pure (.next expansion scope) : Action Turn) w := by
  simp only [expandTurn, bind_apply, ask, h]

theorem turn_plain (h : w.macroCall? scope form = none) :
    turn nested expandAll form scope w = plainTurn nested expandAll form scope w := by
  rw [turn, bind_apply, expandTurn_plain h]

theorem turn_call (h : w.macroCall? scope form = some (params, body, captured, args)) :
    turn nested expandAll form scope w = expandTurn nested form scope w := by
  rw [turn, bind_apply, expandTurn_call h]
  simp only [bind_apply]
  cases enterCall captured params args w with
  | value inner w₁ =>
    dsimp only
    cases nested body inner w₁ <;> rfl
  | failure e w₁ => rfl
  | halted why => rfl

theorem ends_expand_plain {after : Turn → Action Value} {r : Except Error Value}
    (h : w.macroCall? scope form = none) :
    (expandTurn nested form scope >>= after).Ends w r w' ↔ (after (.done form)).Ends w r w' := by
  rw [Ends, Ends, bind_apply, expandTurn_plain h]

/-- How a call of a macro goes on, in the loop of the evaluator and in
that of the expansion alike. -/
theorem ends_expand_call {after : Turn → Action Value} {r : Except Error Value}
    (h : w.macroCall? scope form = some (params, body, captured, args)) :
    (expandTurn nested form scope >>= after).Ends w r w' ↔
      (∃ bindings, Call.bindings params args = .ok bindings ∧
        (nested body w.scopes.size >>= fun expansion => after (.next expansion scope)).Ends
          (w.enter captured bindings) r w') ∨
      ∃ cause, Call.bindings params args = .error cause ∧ r = .error (.raised cause) ∧ w' = w := by
  rw [ends_bind_congr (expandTurn_call h), bind_assoc, ends_enterCall_bind]
  simp only [bind_assoc, pure_bind]

/-! ## Special forms -/

/-- A wrong number of operands is all that is looked at. -/
theorem specialTurn_of_arity {special : SpecialForm} {operands : List Value}
    (h : special.takes operands.length = false) :
    specialTurn nested expandAll scope special operands =
      fail (.formArity special.name special.expected operands.length) := by
  cases special with
  | define | letIn | function | defineMacro =>
    match operands, h with
    | [], _ | [_], _ | _ :: _ :: _ :: _, _ => rfl
  | branch =>
    match operands, h with
    | [], _ | [_], _ => rfl
    | _ :: _ :: a :: b :: more, _ => rfl
  | sequence => cases h
  | quote | quasiquoteExpand | quasiquote | expandMacros =>
    match operands, h with
    | [], _ | _ :: _ :: _, _ => rfl

theorem branch_operands {operands : List Value}
    (h : SpecialForm.branch.takes operands.length = true) :
    ∃ condition yes no, operands = condition :: yes :: no ∧ no.length ≤ 1 := by
  rcases operands with _ | ⟨condition, _ | ⟨yes, no⟩⟩
  · cases h
  · cases h
  · have hlength : no.length + 2 = 2 ∨ no.length + 2 = 3 := of_decide_eq_true h
    exact ⟨condition, yes, no, rfl, by omega⟩

theorem specialTurn_letIn_misshapen {bindings body : Value} (h : bindings.letPairs? = none) :
    specialTurn nested expandAll scope .letIn [bindings, body] = fail .letBindings := by
  rw [specialTurn]
  rw [Value.letPairs?] at h
  cases hitems : bindings.items? with
  | none => rfl
  | some items =>
    have hodd : ¬items.length % 2 = 0 := by simpa [hitems] using h
    simp only [if_neg hodd]

theorem specialTurn_letIn {bindings body : Value} {items : List Value}
    (h : bindings.letPairs? = some items) :
    specialTurn nested expandAll scope .letIn [bindings, body] =
      (Action.enter (some scope) [] >>= fun inner =>
        bindEach nested inner items >>= fun _ => pure (.next body inner)) := by
  obtain ⟨hitems, heven⟩ := Option.filter_eq_some_iff.mp h
  rw [specialTurn]
  simp only [hitems, if_pos (of_decide_eq_true heven)]

theorem runSequence_cons (form following : Value) (rest : List Value) :
    runSequence nested scope (form :: following :: rest) =
      nested form scope >>= fun _ => runSequence nested scope (following :: rest) := rfl

theorem asMacro_of_ne {v : Value} (h : ∀ object expander params body captured,
    v ≠ .closure object expander params body captured) :
    asMacro v = fail (.notFunction v.tag) := by
  cases v with
  | closure object expander params body captured => exact absurd rfl (h _ _ _ _ _)
  | _ => rfl

/-! ## Kinds of forms -/

theorem plainTurn_list (operator : Value) (operands : List Value) :
    plainTurn nested expandAll (.list (operator :: operands)) scope =
      match operator.special? with
      | some special => specialTurn nested expandAll scope special operands
      | none => callTurn nested scope operator operands := by
  cases operator <;> rfl

theorem plainTurn_data (h : ∀ items, form ≠ .list items) :
    plainTurn nested expandAll form scope =
      (evaluateData nested scope form >>= fun v => pure (.done v)) := by
  cases form with
  | list items => exact absurd rfl (h items)
  | _ => rfl

/-- As many values as forms, so the values for the entries of a map make
a map. -/
theorem length_of_each {forms vs : List Value}
    (h : EvaluatesEach forms scope w (.ok vs) w') : vs.length = forms.length := by
  induction forms generalizing w vs with
  | nil =>
    cases h
    rfl
  | cons form rest ih =>
    generalize hr : Except.ok vs = r at h
    cases h with
    | headFails h => cases hr
    | @cons _ v _ _ _ w₁ _ vs' hform hrest =>
      cases vs' with
      | error e => cases hr
      | ok vs' =>
        cases hr
        rw [List.length_cons, List.length_cons, ih hrest]

theorem mapOf_of_each {entries : List (Value × Value)} {vs : List Value}
    (h : EvaluatesEach (Value.alternating entries) scope w (.ok vs) w') :
    Value.mapOf vs = .ok (.map (Entries.ofPairs (Entries.pairs vs))) := by
  rw [Value.mapOf, length_of_each h, Value.length_alternating, if_pos (by omega)]

theorem ends_evaluateData_vector {items : List Value} {vs : Except Error (List Value)}
    (h : (evaluateEach nested scope items).Ends w vs w') :
    (evaluateData nested scope (.vector items)).Ends w (vs.map .vector) w' := ends_map h

theorem ends_evaluateData_map {entries : List (Value × Value)} {vs : Except Error (List Value)}
    (hvs : EvaluatesEach (Value.alternating entries) scope w vs w')
    (h : (evaluateEach nested scope (Value.alternating entries)).Ends w vs w') :
    (evaluateData nested scope (.map entries)).Ends w
      (vs.map fun vs => .map (Entries.ofPairs (Entries.pairs vs))) w' := by
  cases vs with
  | ok vs =>
    refine h.bind ?_
    rw [mapOf_of_each hvs]
    rfl
  | error e => exact h.bind_error

theorem ends_plainTurn_self {next : Evaluator} (h : form.SelfEvaluating) :
    (plainTurn nested expandAll form scope >>= resume next).Ends w (.ok form) w := by
  cases form with
  | symbol _ | list _ | vector _ | map _ => exact h.elim
  | _ => rfl

/-! ## Calls -/

/-- The part of a turn that applies the operator to the arguments. -/
def applyTurn (nested : Evaluator) (scope : ScopeId) (callee : Value) (args : List Value) :
    Action Turn :=
  match callee with
  | .closure _ _ params body captured => do
    return .next body (← Action.enterCall captured params args)
  | .builtin _ => return .done (← apply nested scope callee args)
  | v => Primitive.uncallable v

theorem callTurn_eq (operator : Value) (operands : List Value) :
    callTurn nested scope operator operands =
      nested operator scope >>= fun callee =>
        evaluateEach nested scope operands >>= applyTurn nested scope callee := rfl

theorem apply_closure (object : ObjectId) (expander : Bool) :
    apply nested scope (.closure object expander params body captured) args =
      enterCall captured params args >>= nested body := by
  cases args with
  | nil => rfl
  | cons first more => exact applyTo.eq_1 ..

theorem apply_builtin {p : Primitive} (h : p ≠ .swap) :
    apply nested scope (.builtin p) args = p.checked nested scope args := by
  cases args with
  | nil => cases p <;> first | rfl | exact absurd rfl h
  | cons first more =>
    rw [apply, applyTo]
    · exact fun _ hp => h hp
    · exact fun _ _ _ hp => h hp

theorem apply_swap_tooFew (h : args.length < 2) :
    apply nested scope (.builtin .swap) args = fail (.tooFew .swap 2 args.length) := by
  match args, h with
  | [], _ => rfl
  | [_], _ => rfl

theorem apply_swap (target f : Value) (more : List Value) :
    apply nested scope (.builtin .swap) (target :: f :: more) =
      (ofExcept (Primitive.cellOf .swap target) >>= fun cell => contents cell >>= fun v =>
        apply nested scope f (v :: more) >>= fun updated =>
          store cell updated >>= fun _ => pure updated) := by
  simp only [apply, applyTo]

theorem not_ends_checked_swap {r : Except Error Value} :
    ¬(Primitive.swap.checked nested scope args).Ends w r w' := by
  rcases args with _ | ⟨a, _ | ⟨b, more⟩⟩ <;> exact not_ends_halt

theorem ends_uncallable {α : Type} {v : Value} {r : Except Error α} :
    (Primitive.uncallable v : Action α).Ends w r w' ↔
      r = .error (.raised (.uncallable v.tag (w.text true v))) ∧ w' = w := by
  rw [Primitive.uncallable, ends_ask_bind, ends_fail]

theorem ends_uncallable_bind {α β : Type} {v : Value} {f : α → Action β} {r : Except Error β} :
    ((Primitive.uncallable v : Action α) >>= f).Ends w r w' ↔
      r = .error (.raised (.uncallable v.tag (w.text true v))) ∧ w' = w := by
  rw [Primitive.uncallable, bind_assoc, ends_ask_bind, fail_bind, ends_fail]

theorem apply_uncallable {v : Value} (h : ¬v.Callable) :
    apply nested scope v args = Primitive.uncallable v := by
  cases v with
  | closure _ _ _ _ _ | builtin _ => exact absurd trivial h
  | _ => cases args <;> simp only [apply, applyTo]

theorem applyTurn_uncallable {v : Value} (h : ¬v.Callable) :
    applyTurn nested scope v args = Primitive.uncallable v := by
  cases v with
  | closure _ _ _ _ _ | builtin _ => exact absurd trivial h
  | _ => rfl

/-- Only `eval` of one form uses the evaluator. -/
theorem checked_congr {p : Primitive} (h : ¬(p = .eval ∧ args.length = 1))
    (evaluate evaluate' : Evaluator) :
    p.checked evaluate scope args = p.checked evaluate' scope args := by
  have hbasic : Primitive.basic evaluate scope p args = Primitive.basic evaluate' scope p args := by
    rcases args with _ | ⟨a, _ | ⟨b, _ | ⟨c, more⟩⟩⟩
    · cases p <;> rfl
    · cases p with
      | eval => exact absurd ⟨rfl, rfl⟩ h
      | _ => rfl
    · cases p <;> rfl
    · cases p <;> rfl
  rw [Primitive.checked, Primitive.checked, hbasic]

end

end Lisp
