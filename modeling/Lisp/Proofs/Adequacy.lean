import Lisp.Proofs.Soundness

/-!
# The rules and the evaluator agree

What the rules derive, the evaluator computes, as soon as it may take
enough turns and nest deeply enough. How much is enough is different
for each part of a derivation. So the bounds are three, and a statement
about them is asked to hold from some number on (`Eventually`): the
turns of each nested evaluation, the depth, and the turns that are left
of the evaluation that is looked at.
-/

namespace Lisp

open Lisp.Action

/-! ## Large enough bounds -/

def Eventually (P : Nat → Nat → Nat → Prop) : Prop :=
  ∃ n, ∀ steps depth fuel, n ≤ steps → n ≤ depth → n ≤ fuel → P steps depth fuel

theorem Eventually.of_forall {P : Nat → Nat → Nat → Prop}
    (h : ∀ steps depth fuel, P steps depth fuel) : Eventually P :=
  ⟨0, fun steps depth fuel _ _ _ => h steps depth fuel⟩

theorem Eventually.mono {P Q : Nat → Nat → Nat → Prop} (h : Eventually P)
    (hPQ : ∀ steps depth fuel, P steps depth fuel → Q steps depth fuel) : Eventually Q := by
  obtain ⟨n, h⟩ := h
  exact ⟨n, fun steps depth fuel hs hd hf => hPQ _ _ _ (h steps depth fuel hs hd hf)⟩

theorem Eventually.and {P Q : Nat → Nat → Nat → Prop} (hP : Eventually P) (hQ : Eventually Q) :
    Eventually fun steps depth fuel => P steps depth fuel ∧ Q steps depth fuel := by
  obtain ⟨n, hP⟩ := hP
  obtain ⟨m, hQ⟩ := hQ
  refine ⟨n + m, fun steps depth fuel hs hd hf => ⟨?_, ?_⟩⟩
  · exact hP steps depth fuel (by omega) (by omega) (by omega)
  · exact hQ steps depth fuel (by omega) (by omega) (by omega)

/-- The loop of an evaluation in which others may be nested. -/
def spin (steps depth fuel : Nat) : Evaluator :=
  loop (turn (evaluate steps depth) (expandMacros (evaluate steps depth) steps)) fuel

section

variable {form : Value} {scope : ScopeId} {w w' : World} {r : Except Error Value}

/-- What an evaluation ends with, it ends with as a nested one. -/
theorem Eventually.nested
    (h : Eventually fun steps depth fuel => (spin steps depth fuel form scope).Ends w r w') :
    Eventually fun steps depth _ => (evaluate steps depth form scope).Ends w r w' := by
  obtain ⟨n, h⟩ := h
  refine ⟨n + 1, fun steps depth _ hs hd _ => ?_⟩
  obtain ⟨depth, rfl⟩ := Nat.exists_eq_add_of_le' (show 1 ≤ depth by omega)
  exact h steps depth steps (by omega) (by omega) (by omega)

/-- The turns left may be as many as any evaluation has. -/
theorem Eventually.whole {P : Nat → Nat → Nat → Prop} (h : Eventually P) :
    Eventually fun steps depth _ => P steps depth steps := by
  obtain ⟨n, h⟩ := h
  exact ⟨n, fun steps depth _ hs hd _ => h steps depth steps hs hd hs⟩

/-! ## Macros first -/

section

variable {nested expandAll : Evaluator}

/-- An error of the expansion is one of the evaluation. -/
theorem loop_of_expansionFails {e : Error} {fuel : Nat}
    (h : (expandMacros nested fuel form scope).Ends w (.error e) w') :
    (loop (turn nested expandAll) fuel form scope).Ends w (.error e) w' := by
  induction fuel generalizing form w with
  | zero => exact absurd h not_ends_loop_zero
  | succ fuel ih =>
    rw [expandMacros, loop_succ] at h
    rw [loop_succ]
    cases hcall : w.macroCall? scope form with
    | none =>
      rw [ends_expand_plain hcall, resume, ends_pure] at h
      cases h.1
    | some call =>
      obtain ⟨params, body, captured, args⟩ := call
      rw [ends_bind_congr (turn_call hcall), ends_expand_call hcall]
      refine ((ends_expand_call hcall).mp h).imp_left ?_
      rintro ⟨bindings, hargs, h⟩
      rcases ends_bind.mp h with ⟨expansion, w₁, hbody, h⟩ | ⟨e, hbody, heq⟩
      · exact ⟨bindings, hargs, hbody.bind (ih h)⟩
      · cases heq
        exact ⟨bindings, hargs, hbody.bind_error⟩

/-- The evaluation takes the turns of the expansion, and goes on with
what it comes to. -/
theorem loop_of_expanded {expansion : Value} {fuel : Nat} {w₁ : World}
    (h : (expandMacros nested fuel form scope).Ends w (.ok expansion) w₁) :
    ∃ used < fuel, ∀ left,
      (plainTurn nested expandAll expansion scope >>=
        resume (loop (turn nested expandAll) left)).Ends w₁ r w' →
      (loop (turn nested expandAll) (left + used + 1) form scope).Ends w r w' := by
  induction fuel generalizing form w with
  | zero => exact absurd h not_ends_loop_zero
  | succ fuel ih =>
    rw [expandMacros, loop_succ] at h
    cases hcall : w.macroCall? scope form with
    | none =>
      rw [ends_expand_plain hcall, resume, ends_pure] at h
      obtain ⟨heq, rfl⟩ := h
      cases heq
      refine ⟨0, by omega, fun left hplain => ?_⟩
      rwa [Nat.add_zero, loop_succ, ends_bind_congr (turn_plain hcall)]
    | some call =>
      obtain ⟨params, body, captured, args⟩ := call
      rcases (ends_expand_call hcall).mp h with ⟨bindings, hargs, h⟩ | ⟨_, _, heq, _⟩
      · rcases ends_bind.mp h with ⟨next, w₂, hbody, h⟩ | ⟨_, _, heq⟩
        · obtain ⟨used, hused, ih⟩ := ih h
          refine ⟨used + 1, by omega, fun left hplain => ?_⟩
          rw [loop_succ, ends_bind_congr (turn_call hcall), ends_expand_call hcall]
          exact Or.inl ⟨bindings, hargs, hbody.bind (ih left hplain)⟩
        · cases heq
      · cases heq

end

theorem spins_of_expansionFails {e : Error}
    (h : Eventually fun steps depth fuel =>
      (expandMacros (evaluate steps depth) fuel form scope).Ends w (.error e) w') :
    Eventually fun steps depth fuel => (spin steps depth fuel form scope).Ends w (.error e) w' :=
  h.mono fun _ _ _ h => loop_of_expansionFails h

theorem spins_of_expanded {expansion : Value} {w₁ : World}
    (h : Eventually fun steps depth fuel =>
      (expandMacros (evaluate steps depth) fuel form scope).Ends w (.ok expansion) w₁)
    (hplain : Eventually fun steps depth fuel =>
      (plainTurn (evaluate steps depth) (expandMacros (evaluate steps depth) steps) expansion
        scope >>= resume (spin steps depth fuel)).Ends w₁ r w') :
    Eventually fun steps depth fuel => (spin steps depth fuel form scope).Ends w r w' := by
  obtain ⟨n, h⟩ := h
  obtain ⟨m, hplain⟩ := hplain
  refine ⟨n + m, fun steps depth fuel hs hd hf => ?_⟩
  obtain ⟨used, hused, hloop⟩ := loop_of_expanded (h steps depth n (by omega) (by omega) (by omega))
  have hfuel : fuel = (fuel - used - 1) + used + 1 := by omega
  rw [hfuel]
  exact hloop _ (hplain steps depth (fuel - used - 1) (by omega) (by omega) (by omega))

end

theorem spins_nil (w : World) (scope : ScopeId) :
    Eventually fun steps depth fuel => (spin steps depth fuel .nil scope).Ends w (.ok .nil) w := by
  refine ⟨1, fun steps depth fuel _ _ hf => ?_⟩
  obtain ⟨fuel, rfl⟩ := Nat.exists_eq_add_of_le' hf
  rw [spin, loop_succ, ends_bind_congr (turn_plain rfl)]
  rfl

/-! ## What the rules derive is computed -/

mutual

theorem Evaluates.spins {form : Value} {scope : ScopeId} {w w' : World}
    {r : Except Error Value} : Evaluates form scope w r w' →
      Eventually fun steps depth fuel => (spin steps depth fuel form scope).Ends w r w'
  | .expansionFails h => spins_of_expansionFails h.runs
  | .expanded h h' => spins_of_expanded h.runs h'.runs

theorem Expands.runs {form : Value} {scope : ScopeId} {w w' : World} {r : Except Error Value} :
    Expands form scope w r w' → Eventually fun steps depth fuel =>
      (expandMacros (evaluate steps depth) fuel form scope).Ends w r w'
  | .plain h => ⟨1, fun steps depth fuel _ _ hf => by
      obtain ⟨fuel, rfl⟩ := Nat.exists_eq_add_of_le' hf
      rw [expandMacros, loop_succ, ends_expand_plain h]
      rfl⟩
  | .misfit h hargs => ⟨1, fun steps depth fuel _ _ hf => by
      obtain ⟨fuel, rfl⟩ := Nat.exists_eq_add_of_le' hf
      rw [expandMacros, loop_succ, ends_expand_call h]
      exact Or.inr ⟨_, hargs, rfl, rfl⟩⟩
  | .bodyFails h hargs hbody => by
      obtain ⟨n, hbody⟩ := hbody.spins.nested
      refine ⟨n + 1, fun steps depth fuel hs hd hf => ?_⟩
      obtain ⟨fuel, rfl⟩ := Nat.exists_eq_add_of_le' (show 1 ≤ fuel by omega)
      rw [expandMacros, loop_succ, ends_expand_call h]
      have hbody := hbody steps depth fuel (by omega) (by omega) (by omega)
      exact Or.inl ⟨_, hargs, hbody.bind_error⟩
  | .step h hargs hbody hrest => by
      obtain ⟨n, hboth⟩ := hbody.spins.nested.and hrest.runs
      refine ⟨n + 1, fun steps depth fuel hs hd hf => ?_⟩
      obtain ⟨fuel, rfl⟩ := Nat.exists_eq_add_of_le' (show 1 ≤ fuel by omega)
      rw [expandMacros, loop_succ, ends_expand_call h]
      obtain ⟨hbody, hrest⟩ := hboth steps depth fuel (by omega) (by omega) (by omega)
      exact Or.inl ⟨_, hargs, hbody.bind hrest⟩

theorem EvaluatesPlain.runs {form : Value} {scope : ScopeId} {w w' : World}
    {r : Except Error Value} : EvaluatesPlain form scope w r w' →
      Eventually fun steps depth fuel =>
        (plainTurn (evaluate steps depth) (expandMacros (evaluate steps depth) steps) form scope >>=
          resume (spin steps depth fuel)).Ends w r w'
  | .bound h => .of_forall fun _ _ _ => ends_done.mpr (ends_lookup.mpr (Or.inl ⟨_, h, rfl, rfl⟩))
  | .unbound h => .of_forall fun _ _ _ => ends_done.mpr (ends_lookup.mpr (Or.inr ⟨h, rfl, rfl⟩))
  | .vector h => h.runs.mono fun _ _ _ h => ends_done.mpr (ends_evaluateData_vector h)
  | .map h => h.runs.mono fun _ _ _ hs => ends_done.mpr (ends_evaluateData_map h hs)
  | .self h => .of_forall fun _ _ _ => ends_plainTurn_self h
  | .emptyList => .of_forall fun _ _ _ => rfl
  | .special h h' => h'.runs.mono fun _ _ _ h' => by
      rw [plainTurn_list, h]
      exact h'
  | .operatorFails h hoperator => hoperator.spins.nested.mono fun _ _ _ hoperator => by
      rw [plainTurn_list, h, callTurn_eq, bind_assoc]
      exact hoperator.bind_error
  | .operandFails h hoperator hoperands =>
      (hoperator.spins.nested.and hoperands.runs).mono fun _ _ _ ⟨hoperator, hoperands⟩ => by
        rw [plainTurn_list, h, callTurn_eq, bind_assoc]
        refine hoperator.bind ?_
        rw [bind_assoc]
        exact hoperands.bind_error
  | .call h hoperator hoperands hcall =>
      ((hoperator.spins.nested.and hoperands.runs).and hcall.runs).mono
        fun _ _ _ ⟨⟨hoperator, hoperands⟩, _, hcall⟩ => by
          rw [plainTurn_list, h, callTurn_eq, bind_assoc]
          refine hoperator.bind ?_
          rw [bind_assoc]
          exact hoperands.bind hcall

theorem EvaluatesSpecial.runs {form : SpecialForm} {operands : List Value} {scope : ScopeId}
    {w w' : World} {r : Except Error Value} : EvaluatesSpecial form operands scope w r w' →
      Eventually fun steps depth fuel =>
        (specialTurn (evaluate steps depth) (expandMacros (evaluate steps depth) steps) scope form
          operands >>= resume (spin steps depth fuel)).Ends w r w'
  | .arity h => .of_forall fun _ _ _ => by
      rw [specialTurn_of_arity h]
      rfl
  | .defineMisnamed h => .of_forall fun _ _ _ => by
      rw [specialTurn, h]
      rfl
  | .defineFails h hform => hform.spins.nested.mono fun _ _ _ hform => by
      rw [specialTurn, h, ofExcept_ok, pure_bind, bind_assoc]
      exact hform.bind_error
  | .define h hform => hform.spins.nested.mono fun _ _ _ hform => by
      rw [specialTurn, h, ofExcept_ok, pure_bind, bind_assoc]
      exact hform.bind rfl
  | .letMisshapen h => .of_forall fun _ _ _ => by
      rw [specialTurn_letIn_misshapen h]
      rfl
  | .letFails h hbindings => hbindings.runs.mono fun _ _ _ hbindings => by
      rw [specialTurn_letIn h, bind_assoc, ends_enter_bind, bind_assoc]
      exact hbindings.bind_error
  | .letIn h hbindings hbody => (hbindings.runs.and hbody.spins).mono
      fun _ _ _ ⟨hbindings, hbody⟩ => by
        rw [specialTurn_letIn h, bind_assoc, ends_enter_bind, bind_assoc]
        exact hbindings.bind hbody
  | .conditionFails h hcondition => hcondition.spins.nested.mono fun _ _ _ hcondition => by
      rw [specialTurn, if_pos h, bind_assoc]
      exact hcondition.bind_error
  | .yes h hcondition hv hyes => (hcondition.spins.nested.and hyes.spins).mono
      fun _ _ _ ⟨hcondition, hyes⟩ => by
        rw [specialTurn, if_pos h, bind_assoc]
        refine hcondition.bind ?_
        rwa [hv, if_pos rfl, pure_bind]
  | .no hcondition hv hno => (hcondition.spins.nested.and hno.spins).mono
      fun _ _ _ ⟨hcondition, hno⟩ => by
        rw [specialTurn, if_pos (by simp), bind_assoc]
        refine hcondition.bind ?_
        rwa [hv, if_neg Bool.false_ne_true, pure_bind]
  | .noElse hcondition hv => (hcondition.spins.nested.and (spins_nil w' scope)).mono
      fun _ _ _ ⟨hcondition, hnil⟩ => by
        rw [specialTurn, if_pos (by simp), bind_assoc]
        refine hcondition.bind ?_
        rw [hv, if_neg Bool.false_ne_true, pure_bind]
        exact hnil
  | .sequence h => h.runs.mono fun _ _ _ h => by rwa [specialTurn]
  | .functionMisshapen h => .of_forall fun _ _ _ => by
      rw [specialTurn, h]
      rfl
  | .function h => .of_forall fun _ _ _ => by
      rw [specialTurn, h]
      rfl
  | .quote => .of_forall fun _ _ _ => rfl
  | .quasiquoteExpand => .of_forall fun _ _ _ => by
      rw [specialTurn, ends_done, ends_ofExcept]
      exact ⟨rfl, rfl⟩
  | .quasiquoteMisshapen h => .of_forall fun _ _ _ => by
      rw [specialTurn, h]
      rfl
  | .quasiquote h hform => hform.spins.mono fun _ _ _ hform => by
      rw [specialTurn, h, ofExcept_ok, pure_bind, pure_bind]
      exact hform
  | .macroMisnamed h => .of_forall fun _ _ _ => by
      rw [specialTurn, h]
      rfl
  | .macroFails h hform => hform.spins.nested.mono fun _ _ _ hform => by
      rw [specialTurn, h, ofExcept_ok, pure_bind, bind_assoc]
      exact hform.bind_error
  | .macroNoFunction h hform hv => hform.spins.nested.mono fun _ _ _ hform => by
      rw [specialTurn, h, ofExcept_ok, pure_bind, bind_assoc]
      refine hform.bind ?_
      rw [asMacro_of_ne hv]
      rfl
  | .defineMacro h hform => hform.spins.nested.mono fun _ _ _ hform => by
      rw [specialTurn, h, ofExcept_ok, pure_bind, bind_assoc]
      exact hform.bind rfl
  | .expandMacros h => h.runs.whole.mono fun _ _ _ h => by
      rw [specialTurn, ends_done]
      exact h

theorem EvaluatesEach.runs {forms : List Value} {scope : ScopeId} {w w' : World}
    {vs : Except Error (List Value)} : EvaluatesEach forms scope w vs w' →
      Eventually fun steps depth _ => (evaluateEach (evaluate steps depth) scope forms).Ends w vs w'
  | .nil => .of_forall fun _ _ _ => rfl
  | .headFails h => h.spins.nested.mono fun _ _ _ h => h.bind_error
  | .cons h hrest => (h.spins.nested.and hrest.runs).mono fun _ _ _ ⟨h, hrest⟩ =>
      h.bind (ends_map hrest)

theorem Binds.runs {items : List Value} {scope : ScopeId} {w w' : World}
    {r : Except Error Unit} : Binds items scope w r w' →
      Eventually fun steps depth _ => (bindEach (evaluate steps depth) scope items).Ends w r w'
  | .nil => .of_forall fun _ _ _ => rfl
  | .misnamed h => .of_forall fun _ _ _ => by
      rw [bindEach, h]
      rfl
  | .formFails h hform => hform.spins.nested.mono fun _ _ _ hform => by
      rw [bindEach, h, ofExcept_ok, pure_bind]
      exact hform.bind_error
  | .cons h hform hrest => (hform.spins.nested.and hrest.runs).mono
      fun _ _ _ ⟨hform, hrest⟩ => by
        rw [bindEach, h, ofExcept_ok, pure_bind]
        exact hform.bind hrest

theorem EvaluatesSequence.runs {forms : List Value} {scope : ScopeId} {w w' : World}
    {r : Except Error Value} : EvaluatesSequence forms scope w r w' →
      Eventually fun steps depth fuel =>
        (runSequence (evaluate steps depth) scope forms >>= resume (spin steps depth fuel)).Ends
          w r w'
  | .nil => .of_forall fun _ _ _ => rfl
  | .last h => h.spins
  | .formFails h => h.spins.nested.mono fun _ _ _ h => by
      rw [runSequence_cons, bind_assoc]
      exact h.bind_error
  | .cons h hrest => (h.spins.nested.and hrest.runs).mono fun _ _ _ ⟨h, hrest⟩ => by
      rw [runSequence_cons, bind_assoc]
      exact h.bind hrest

/-- A call by a primitive is nested, and one by a form is in tail
position. -/
theorem Applies.runs {f : Value} {args : List Value} {scope : ScopeId} {w w' : World}
    {r : Except Error Value} : Applies f args scope w r w' →
      Eventually fun steps depth fuel =>
        (apply (evaluate steps depth) scope f args).Ends w r w' ∧
          (applyTurn (evaluate steps depth) scope f args >>= resume (spin steps depth fuel)).Ends
            w r w'
  | .misfit h => .of_forall fun _ _ _ => by
      rw [apply_closure, applyTurn, bind_assoc, ends_enterCall_bind, ends_enterCall_bind]
      exact ⟨Or.inr ⟨_, h, rfl, rfl⟩, Or.inr ⟨_, h, rfl, rfl⟩⟩
  | .closure h hbody => (hbody.spins.nested.and hbody.spins).mono
      fun _ _ _ ⟨hnested, htail⟩ => by
        rw [apply_closure, applyTurn, bind_assoc, ends_enterCall_bind, ends_enterCall_bind]
        exact ⟨Or.inl ⟨_, h, hnested⟩, Or.inl ⟨_, h, htail⟩⟩
  | .eval h => h.spins.nested.mono fun _ _ _ h => by
      rw [applyTurn, ends_done, and_self, apply_builtin (by decide)]
      exact h
  | .swapTooFew h => .of_forall fun _ _ _ => by
      rw [applyTurn, ends_done, and_self, apply_swap_tooFew h]
      rfl
  | .swapNoAtom h => .of_forall fun _ _ _ => by
      rw [applyTurn, ends_done, and_self, apply_swap, h]
      rfl
  | .swapFails h => h.runs.mono fun _ _ _ ⟨h, _⟩ => by
      rw [applyTurn, ends_done, and_self, apply_swap]
      exact h.bind_error
  | .swap h => h.runs.mono fun _ _ _ ⟨h, _⟩ => by
      rw [applyTurn, ends_done, and_self, apply_swap]
      exact h.bind rfl
  | .primitive (p := p) h => .of_forall fun _ _ _ => by
      have hswap : p ≠ .swap := by
        rintro rfl
        exact not_ends_checked_swap (h default)
      rw [applyTurn, ends_done, and_self, apply_builtin hswap]
      exact h _
  | .uncallable h => .of_forall fun _ _ _ => by
      rw [apply_uncallable h, applyTurn_uncallable h, ends_uncallable, ends_uncallable_bind]
      exact ⟨⟨rfl, rfl⟩, rfl, rfl⟩

end

/-! ## The agreement -/

/-- The evaluation has a result, within some bounds. -/
def Finishes (form : Value) (scope : ScopeId) (w : World) (r : Except Error Value) (w' : World) :
    Prop :=
  ∃ steps depth, (evaluate steps depth form scope).Ends w r w'

section

variable {form : Value} {scope : ScopeId} {w w' : World} {r : Except Error Value}

/-- From some bounds on, the evaluator gives the answer that is
derived. -/
theorem Evaluates.stable (h : Evaluates form scope w r w') :
    ∃ n, ∀ steps depth, n ≤ steps → n ≤ depth → (evaluate steps depth form scope).Ends w r w' := by
  obtain ⟨n, h⟩ := h.spins.nested
  exact ⟨n, fun steps depth hs hd => h steps depth n hs hd (Nat.le_refl n)⟩

theorem finishes_iff : Finishes form scope w r w' ↔ Evaluates form scope w r w' := by
  constructor
  · rintro ⟨steps, depth, h⟩
    exact evaluate_sound steps depth h
  · intro h
    obtain ⟨n, h⟩ := h.stable
    exact ⟨n, n, h n n (Nat.le_refl n) (Nat.le_refl n)⟩

/-- The rules leave no choice. -/
theorem Evaluates.unique {r₁ r₂ : Except Error Value} {w₁ w₂ : World}
    (h₁ : Evaluates form scope w r₁ w₁) (h₂ : Evaluates form scope w r₂ w₂) :
    r₁ = r₂ ∧ w₁ = w₂ := by
  obtain ⟨n, h₁⟩ := h₁.stable
  obtain ⟨m, h₂⟩ := h₂.stable
  exact (h₁ (n + m) (n + m) (by omega) (by omega)).unique
    (h₂ (n + m) (n + m) (by omega) (by omega))

end

/-- The evaluator, which takes turns and keeps no stack for tail calls,
computes what the rules say: an evaluation has a result exactly if this
result can be derived, with the same world. Nothing else can be derived
then, and larger bounds give nothing else. If nothing can be derived,
no bounds are large enough. -/
theorem evaluate_refines_rules (form : Value) (scope : ScopeId) (w : World) :
    (∀ r w', Finishes form scope w r w' ↔ Evaluates form scope w r w') ∧
    (∀ r₁ w₁ r₂ w₂, Evaluates form scope w r₁ w₁ → Evaluates form scope w r₂ w₂ →
      r₁ = r₂ ∧ w₁ = w₂) ∧
    (∀ r w', Evaluates form scope w r w' → ∃ n, ∀ steps depth, n ≤ steps → n ≤ depth →
      (evaluate steps depth form scope).Ends w r w') ∧
    ((∀ r w', ¬Evaluates form scope w r w') ↔
      ∀ steps depth, ∃ why, evaluate steps depth form scope w = .halted why) := by
  refine ⟨fun _ _ => finishes_iff, fun _ _ _ _ => Evaluates.unique, fun _ _ => Evaluates.stable,
    ?_⟩
  simp only [halted_iff]
  constructor
  · intro h steps depth r w' hends
    exact h r w' (evaluate_sound steps depth hends)
  · intro h r w' hderived
    obtain ⟨steps, depth, hends⟩ := finishes_iff.mpr hderived
    exact h steps depth r w' hends

/-- A tail call of a function that is defined on the way, in a world
without any scope but the one it makes. -/
def tailCall : Value :=
  .list [.symbol "let*", .vector [.symbol "f", .list [.symbol "fn*", .vector [.symbol "x"],
    .list [.symbol "if", .symbol "x", .int 1, .symbol "y"]]], .list [.symbol "f", .bool true]]

theorem evaluate_tailCall :
    let w := World.empty fun _ => none
    ∃ w', Evaluates tailCall 0 w (.ok (.int 1)) w' ∧
      (∀ r w'', Evaluates tailCall 0 w r w'' → r = .ok (.int 1) ∧ w'' = w') ∧
      ∃ n, ∀ steps depth, n ≤ steps → n ≤ depth →
        (evaluate steps depth tailCall 0).Ends w (.ok (.int 1)) w' := by
  obtain ⟨hiff, hunique, hstable, -⟩ :=
    evaluate_refines_rules tailCall 0 (World.empty fun _ => none)
  obtain ⟨w', hends⟩ :
      ∃ w', (evaluate 9 4 tailCall 0).Ends (World.empty fun _ => none) (.ok (.int 1)) w' :=
    ⟨_, rfl⟩
  have h := (hiff _ _).mp ⟨9, 4, hends⟩
  exact ⟨w', h, fun r w'' h' => hunique _ _ _ _ h' h, hstable _ _ h⟩

end Lisp
