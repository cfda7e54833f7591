import Lisp.Proofs.Adequacy
import Lisp.Proofs.Behavior

/-!
# How deep evaluations are nested

An evaluation opens others: those of the condition of an `if`, of the
values of a `let*`, of the forms of a `do` but the last, and of the
operator and the operands of a call. What stands in tail position is
not among them, since the evaluation goes on with it in its next turn.
So a bound on the depth is a property of an evaluation, apart from the
number of its turns (`EvaluatesWithin`).

There is one rule for each construct. A part that is evaluated on the
way may be nested one level less deep than the whole, and the part in
tail position just as deep (`within_branch`, `within_sequence`,
`within_letIn`, `within_closure`). So a chain of tail calls of any length
is as deep as one of its links.
-/

namespace Lisp

open Lisp.Action

/-! ## Large enough bounds -/

/-- It holds from some number of turns on, at every depth from `d` on. -/
def AtDepth (d : Nat) (P : Nat → Nat → Nat → Prop) : Prop :=
  ∃ n, ∀ steps depth fuel, n ≤ steps → d ≤ depth → n ≤ fuel → P steps depth fuel

namespace AtDepth

variable {d : Nat} {P Q : Nat → Nat → Nat → Prop}

theorem of_forall (h : ∀ steps depth fuel, P steps depth fuel) : AtDepth d P :=
  ⟨0, fun steps depth fuel _ _ _ => h steps depth fuel⟩

theorem mono (h : AtDepth d P) (hPQ : ∀ steps depth fuel, P steps depth fuel → Q steps depth fuel) :
    AtDepth d Q := by
  obtain ⟨n, h⟩ := h
  exact ⟨n, fun steps depth fuel hs hd hf => hPQ _ _ _ (h steps depth fuel hs hd hf)⟩

theorem and (hP : AtDepth d P) (hQ : AtDepth d Q) :
    AtDepth d fun steps depth fuel => P steps depth fuel ∧ Q steps depth fuel := by
  obtain ⟨n, hP⟩ := hP
  obtain ⟨m, hQ⟩ := hQ
  refine ⟨n + m, fun steps depth fuel hs hd hf => ⟨?_, ?_⟩⟩
  · exact hP steps depth fuel (by omega) hd (by omega)
  · exact hQ steps depth fuel (by omega) hd (by omega)

end AtDepth

/-! ## Evaluation within a depth -/

/-- The evaluation ends like this, and has at most `d` others inside one
another open at a time, itself not counted. -/
def EvaluatesWithin (d : Nat) (form : Value) (scope : ScopeId) (w : World) (r : Except Error Value)
    (w' : World) : Prop :=
  AtDepth d fun steps depth fuel => (spin steps depth fuel form scope).Ends w r w'

section

variable {d : Nat} {form : Value} {scope : ScopeId} {w w₁ w' : World} {r : Except Error Value}

/-- Being nested takes one level. -/
theorem EvaluatesWithin.nested (h : EvaluatesWithin d form scope w r w') :
    AtDepth (d + 1) fun steps depth _ => (evaluate steps depth form scope).Ends w r w' := by
  obtain ⟨n, h⟩ := h
  refine ⟨n, fun steps depth _ hs hd _ => ?_⟩
  obtain ⟨depth, rfl⟩ := Nat.exists_eq_add_of_le' (Nat.le_of_add_left_le hd)
  exact h steps depth steps hs (Nat.le_of_succ_le_succ hd) hs

/-- One turn, and what comes after it. -/
theorem within_turn (hplain : w.macroCall? scope form = none)
    (h : AtDepth d fun steps depth fuel =>
      (plainTurn (evaluate steps depth) (expandMacros (evaluate steps depth) steps) form scope >>=
        resume (spin steps depth fuel)).Ends w r w') : EvaluatesWithin d form scope w r w' := by
  obtain ⟨n, h⟩ := h
  refine ⟨n + 1, fun steps depth fuel hs hd hf => ?_⟩
  obtain ⟨fuel, rfl⟩ := Nat.exists_eq_add_of_le' (Nat.le_of_add_left_le hf)
  rw [spin, loop_succ, ends_bind_congr (turn_plain hplain)]
  exact h steps depth fuel (by omega) hd (by omega)

/-! ### Forms without parts -/

theorem within_symbol {name : String} {v : Value} (h : w.find? scope name = some v) :
    EvaluatesWithin d (.symbol name) scope w (.ok v) w :=
  within_turn rfl (.of_forall fun _ _ _ => ends_done.mpr (ends_lookup.mpr (Or.inl ⟨v, h, rfl, rfl⟩)))

theorem within_self (h : form.SelfEvaluating) : EvaluatesWithin d form scope w (.ok form) w := by
  have hplain : w.macroCall? scope form = none := by
    cases form with
    | list _ => exact h.elim
    | _ => rfl
  exact within_turn hplain (.of_forall fun _ _ _ => ends_plainTurn_self h)

/-! ### Special forms -/

theorem within_special (special : SpecialForm) {operands : List Value}
    (hfree : ¬w.BindsMacro scope special.name)
    (h : AtDepth d fun steps depth fuel =>
      (specialTurn (evaluate steps depth) (expandMacros (evaluate steps depth) steps) scope special
        operands >>= resume (spin steps depth fuel)).Ends w r w') :
    EvaluatesWithin d (.list (.symbol special.name :: operands)) scope w r w' := by
  have hspecial : (Value.symbol special.name).special? = some special := special.ofName?_name
  refine within_turn (World.macroCall?_of_not_bindsMacro hfree operands) (h.mono fun _ _ _ h => ?_)
  rw [plainTurn_list, hspecial]
  exact h

theorem within_branch {condition yes no v : Value} (hfree : ¬w.BindsMacro scope "if")
    (hcondition : EvaluatesWithin d condition scope w (.ok v) w₁)
    (hchosen : EvaluatesWithin (d + 1) (if v.isTruthy then yes else no) scope w₁ r w') :
    EvaluatesWithin (d + 1) (.list [.symbol "if", condition, yes, no]) scope w r w' :=
  within_special .branch hfree <|
    (hcondition.nested.and hchosen).mono fun _ _ _ ⟨hcondition, hchosen⟩ => by
      rw [specialTurn, if_pos (Nat.le_of_eq List.length_singleton), bind_assoc]
      exact hcondition.bind hchosen

theorem within_sequence {first last v : Value} (hfree : ¬w.BindsMacro scope "do")
    (hfirst : EvaluatesWithin d first scope w (.ok v) w₁)
    (hlast : EvaluatesWithin (d + 1) last scope w₁ r w') :
    EvaluatesWithin (d + 1) (.list [.symbol "do", first, last]) scope w r w' :=
  within_special .sequence hfree <|
    (hfirst.nested.and hlast).mono fun _ _ _ ⟨hfirst, hlast⟩ => by
      rw [specialTurn, runSequence_cons, bind_assoc]
      exact hfirst.bind hlast

theorem within_letIn {name : String} {bindings form body v : Value}
    (hfree : ¬w.BindsMacro scope "let*") (hbindings : bindings.letPairs? = some [.symbol name, form])
    (hform : EvaluatesWithin d form w.scopes.size (w.enter scope []) (.ok v) w₁)
    (hbody : EvaluatesWithin (d + 1) body w.scopes.size (w₁.define w.scopes.size name v) r w') :
    EvaluatesWithin (d + 1) (.list [.symbol "let*", bindings, body]) scope w r w' := by
  refine within_special .letIn hfree ((hform.nested.and hbody).mono ?_)
  intro steps depth _ ⟨hform, hbody⟩
  have hbinds : (bindEach (evaluate steps depth) w.scopes.size [.symbol name, form]).Ends
      (w.enter scope []) (.ok ()) (w₁.define w.scopes.size name v) := hform.bind rfl
  rw [specialTurn_letIn hbindings, bind_assoc, ends_enter_bind, bind_assoc]
  exact hbinds.bind hbody

/-! ### Calls -/

/-- The operands have these values, and nothing happens to the world. -/
theorem within_operands {forms vs : List Value}
    (h : List.Forall₂ (fun form v => EvaluatesWithin d form scope w (.ok v) w) forms vs) :
    AtDepth (d + 1) fun steps depth _ =>
      (evaluateEach (evaluate steps depth) scope forms).Ends w (.ok vs) w := by
  induction h with
  | nil => exact .of_forall fun _ _ _ => rfl
  | cons hform _ ih =>
    refine (hform.nested.and ih).mono ?_
    intro _ _ _ ⟨hform, hrest⟩
    exact hform.bind (ends_map hrest)

section

variable {name : String} {operands args : List Value}
  (hoperands : List.Forall₂ (fun form v => EvaluatesWithin d form scope w (.ok v) w) operands args)

include hoperands

theorem within_call {callee : Value} (hfind : w.find? scope name = some callee)
    (hname : SpecialForm.ofName? name = none)
    (hplain : w.macroCall? scope (.list (.symbol name :: operands)) = none)
    (h : AtDepth (d + 1) fun steps depth fuel =>
      (applyTurn (evaluate steps depth) scope callee args >>=
        resume (spin steps depth fuel)).Ends w r w') :
    EvaluatesWithin (d + 1) (.list (.symbol name :: operands)) scope w r w' := by
  have hspecial : (Value.symbol name).special? = none := hname
  have hoperator : EvaluatesWithin d (.symbol name) scope w (.ok callee) w := within_symbol hfind
  refine within_turn hplain ?_
  refine ((hoperator.nested.and (within_operands hoperands)).and h).mono ?_
  intro _ _ _ ⟨⟨hoperator, hoperands⟩, h⟩
  rw [plainTurn_list, hspecial, callTurn_eq, bind_assoc]
  refine hoperator.bind ?_
  rw [bind_assoc]
  exact hoperands.bind h

/-- The body of the function is in tail position. -/
theorem within_closure {object : ObjectId} {params : List String} {body : Value}
    {captured : ScopeId} {bindings : List (String × Value)}
    (hfind : w.find? scope name = some (.closure object false params body captured))
    (hname : SpecialForm.ofName? name = none) (hargs : Call.bindings params args = .ok bindings)
    (hbody : EvaluatesWithin (d + 1) body w.scopes.size (w.enter captured bindings) r w') :
    EvaluatesWithin (d + 1) (.list (.symbol name :: operands)) scope w r w' := by
  have hplain : w.macroCall? scope (.list (.symbol name :: operands)) = none := by
    rw [World.macroCall?, hfind]
  refine within_call hoperands hfind hname hplain (AtDepth.mono hbody fun _ _ _ hbody => ?_)
  rw [applyTurn, bind_assoc, ends_enterCall_bind]
  exact Or.inl ⟨bindings, hargs, hbody⟩

/-- A primitive that only computes. -/
theorem within_primitive {p : Primitive} {v : Value}
    (hfind : w.find? scope p.name = some (.builtin p)) (hswap : p ≠ .swap)
    (hvalue : ∀ evaluate, (p.checked evaluate scope args).Ends w (.ok v) w) :
    EvaluatesWithin (d + 1) (.list (.symbol p.name :: operands)) scope w (.ok v) w := by
  have hname : SpecialForm.ofName? p.name = none := by cases p <;> rfl
  have hplain : w.macroCall? scope (.list (.symbol p.name :: operands)) = none := by
    rw [World.macroCall?, hfind]
  refine within_call hoperands hfind hname hplain (.of_forall fun steps depth fuel => ?_)
  rw [applyTurn, ends_done, apply_builtin hswap]
  exact hvalue _

end

end

end Lisp
