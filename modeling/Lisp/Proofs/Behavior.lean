import Lisp.Proofs.Semantics
import Mathlib.Data.List.Forall2

/-!
# Evaluation by equations

What a form may do in a world is a relation between results and worlds
(`Behavior`), and relations of this kind compose like actions do. So the
rules can be read as equations: a call does what its operands do, from
left to right, and then what the function does. The equations hold in a
world that binds the names in question as they expect.
-/

namespace Lisp

/-- The results that something may have in a world, with the worlds
they leave. -/
def Behavior (α : Type) : Type := World → Except Error α → World → Prop

namespace Behavior

variable {α β : Type}

/-- Goes on after a value; an error is the end. -/
instance : Monad Behavior where
  pure a := fun w r w' => r = .ok a ∧ w' = w
  bind x f := fun w r w' =>
    (∃ a w₁, x w (.ok a) w₁ ∧ f a w₁ r w') ∨ ∃ e, x w (.error e) w' ∧ r = .error e

/-- A judgement about worlds and results, as a behavior. -/
def of (judgement : World → Except Error α → World → Prop) : Behavior α := judgement

/-- What only computes leaves the world as it is. -/
def lift (x : Except Cause α) : Behavior α := fun w r w' => r = x.mapError .raised ∧ w' = w

theorem ext {x y : Behavior α} (h : ∀ w, x w = y w) : x = y := funext h

theorem at_ext {w v : World} {x y : Behavior α} (h : ∀ r w', x w r w' ↔ y v r w') : x w = y v :=
  funext fun r => funext fun w' => propext (h r w')

/-- What is alike gives the same results and worlds. -/
theorem at_iff {w v : World} {x y : Behavior α} (h : x w = y v) (r : Except Error α)
    (w' : World) : x w r w' ↔ y v r w' := iff_of_eq (congrFun (congrFun h r) w')

theorem pure_apply {a : α} {w w' : World} {r : Except Error α} :
    (pure a : Behavior α) w r w' ↔ r = .ok a ∧ w' = w := Iff.rfl

theorem bind_apply {x : Behavior α} {f : α → Behavior β} {w w' : World} {r : Except Error β} :
    (x >>= f) w r w' ↔
      (∃ a w₁, x w (.ok a) w₁ ∧ f a w₁ r w') ∨ ∃ e, x w (.error e) w' ∧ r = .error e := Iff.rfl

theorem bind_ok {x : Behavior α} {f : α → Behavior β} {w w' : World} {b : β} :
    (x >>= f) w (.ok b) w' ↔ ∃ a w₁, x w (.ok a) w₁ ∧ f a w₁ (.ok b) w' := by
  rw [bind_apply, or_iff_left]
  rintro ⟨_, _, heq⟩
  cases heq

theorem pure_bind_at (a : α) (f : α → Behavior β) (w : World) : (pure a >>= f) w = f a w := by
  refine at_ext fun r w' => bind_apply.trans ⟨?_, fun h => Or.inl ⟨a, w, ⟨rfl, rfl⟩, h⟩⟩
  rintro (⟨_, _, ⟨heq, rfl⟩, h⟩ | ⟨_, ⟨heq, -⟩, -⟩) <;> cases heq
  exact h

instance : LawfulMonad Behavior :=
  LawfulMonad.mk' Behavior
    (fun x => by
      refine ext fun w => at_ext fun r w' => ⟨?_, fun h => ?_⟩
      · rintro (⟨a, w₁, h, heq, rfl⟩ | ⟨e, h, rfl⟩)
        · cases heq
          exact h
        · exact h
      · cases r with
        | ok a => exact Or.inl ⟨a, w', h, rfl, rfl⟩
        | error e => exact Or.inr ⟨e, h, rfl⟩)
    (fun a f => ext fun w => pure_bind_at a f w)
    (fun x f g => by
      refine ext fun w => at_ext fun r w' => ⟨?_, ?_⟩
      · rintro (⟨b, w₂, ⟨a, w₁, hx, hf⟩ | ⟨_, _, heq⟩, hg⟩ | ⟨e, ⟨a, w₁, hx, hf⟩ | ⟨_, hx, heq⟩, rfl⟩)
        · exact Or.inl ⟨a, w₁, hx, Or.inl ⟨b, w₂, hf, hg⟩⟩
        · cases heq
        · exact Or.inl ⟨a, w₁, hx, Or.inr ⟨e, hf, rfl⟩⟩
        · cases heq
          exact Or.inr ⟨e, hx, rfl⟩
      · rintro (⟨a, w₁, hx, ⟨b, w₂, hf, hg⟩ | ⟨e, hf, rfl⟩⟩ | ⟨e, hx, rfl⟩)
        · exact Or.inl ⟨b, w₂, Or.inl ⟨a, w₁, hx, hf⟩, hg⟩
        · exact Or.inr ⟨e, Or.inl ⟨a, w₁, hx, hf⟩, rfl⟩
        · exact Or.inr ⟨e, Or.inr ⟨e, hx, rfl⟩, rfl⟩)

/-- What goes on alike from the worlds that are reached is alike. -/
theorem bind_congr_at {x y : Behavior α} {f g : α → Behavior β} {w : World} (hx : x w = y w)
    (hf : ∀ a w₁, y w (.ok a) w₁ → f a w₁ = g a w₁) : (x >>= f) w = (y >>= g) w := by
  refine at_ext fun r w' => ?_
  rw [bind_apply, bind_apply, hx]
  refine or_congr_left (exists_congr fun a => exists_congr fun w₁ => and_congr_right fun h => ?_)
  rw [hf a w₁ h]

/-- What starts alike in two worlds goes on alike. -/
theorem bind_at {x y : Behavior α} {f : α → Behavior β} {w v : World} (h : x w = y v) :
    (x >>= f) w = (y >>= f) v := by
  refine at_ext fun r w' => ?_
  rw [bind_apply, bind_apply, h]

/-- What only gives a value goes on with it. -/
theorem bind_of_pure_at {x : Behavior α} {f : α → Behavior β} {a : α} {w : World}
    (hx : x w = (pure a : Behavior α) w) : (x >>= f) w = f a w :=
  (bind_congr_at hx fun _ _ _ => rfl).trans (pure_bind_at a f w)

theorem lift_ok (a : α) : (lift (.ok a) : Behavior α) = pure a := rfl

/-- What only fails is the end. -/
theorem bind_of_error_at {x : Behavior α} {f : α → Behavior β} {cause : Cause} {w : World}
    (hx : x w = (lift (.error cause) : Behavior α) w) :
    (x >>= f) w = (lift (.error cause) : Behavior β) w := by
  refine at_ext fun r w' => ?_
  rw [bind_apply, hx]
  constructor
  · rintro (⟨_, _, ⟨heq, -⟩, -⟩ | ⟨_, ⟨heq, rfl⟩, rfl⟩) <;> cases heq
    exact ⟨rfl, rfl⟩
  · rintro ⟨rfl, rfl⟩
    exact Or.inr ⟨_, ⟨rfl, rfl⟩, rfl⟩

/-- An action that gives a value and leaves the world as it is. -/
theorem of_value {x : Action α} {a : α} {w : World} (h : x w = .value a w) :
    of x.Ends w = (pure a : Behavior α) w := by
  refine at_ext fun r w' => ?_
  rw [of, Action.Ends, h]
  exact Action.ends_pure

end Behavior

open Behavior

/-- The name is bound to a macro. -/
def World.BindsMacro (w : World) (scope : ScopeId) (name : String) : Prop :=
  ∃ object params body captured,
    w.find? scope name = some (.closure object true params body captured)

theorem World.macroCall?_of_not_bindsMacro {w : World} {scope : ScopeId} {name : String}
    (h : ¬w.BindsMacro scope name) (args : List Value) :
    w.macroCall? scope (.list (.symbol name :: args)) = none := by
  rw [World.macroCall?]
  split
  · next hfind => exact absurd ⟨_, _, _, _, hfind⟩ h
  · rfl

section

variable {scope : ScopeId} {w : World}

/-! ## Equations -/

theorem evaluates_plain {form : Value} (h : w.macroCall? scope form = none) :
    of (Evaluates form scope) w = of (EvaluatesPlain form scope) w := by
  refine at_ext fun r w' => ⟨fun h' => ?_, .expanded (.plain h)⟩
  rcases h' with h' | ⟨h', hplain⟩
  · rcases h' with - | ⟨hcall, -⟩ | ⟨hcall, -, -⟩ | ⟨hcall, -, -, -⟩ <;>
      rw [h] at hcall <;> cases hcall
  · rcases h' with - | - | - | ⟨hcall, -, -, -⟩
    · exact hplain
    · rw [h] at hcall
      cases hcall

theorem evaluates_self {v : Value} (h : v.SelfEvaluating) :
    of (Evaluates v scope) w = (pure v : Behavior Value) w := by
  have hcall : w.macroCall? scope v = none := by
    cases v with
    | list _ => exact h.elim
    | _ => rfl
  rw [evaluates_plain hcall]
  refine at_ext fun r w' => ?_
  constructor
  · intro h'
    cases h' with
    | self _ => exact ⟨rfl, rfl⟩
    | _ => exact h.elim
  · rintro ⟨rfl, rfl⟩
    exact .self h

theorem evaluates_emptyList :
    of (Evaluates (.list []) scope) w = (pure (.list []) : Behavior Value) w := by
  rw [evaluates_plain rfl]
  refine at_ext fun r w' => ?_
  constructor
  · intro h
    cases h with
    | self h => exact h.elim
    | emptyList => exact ⟨rfl, rfl⟩
  · rintro ⟨rfl, rfl⟩
    exact .emptyList

theorem evaluates_symbol {name : String} {v : Value} (h : w.find? scope name = some v) :
    of (Evaluates (.symbol name) scope) w = (pure v : Behavior Value) w := by
  rw [evaluates_plain rfl]
  refine at_ext fun r w' => ?_
  constructor
  · intro h'
    cases h' with
    | self h => exact h.elim
    | bound h' =>
      rw [h] at h'
      cases h'
      exact ⟨rfl, rfl⟩
    | unbound h' =>
      rw [h] at h'
      cases h'
  · rintro ⟨rfl, rfl⟩
    exact .bound h

theorem evaluatesEach_nil :
    of (EvaluatesEach [] scope) = pure [] := by
  refine Behavior.ext fun w => at_ext fun r w' => ?_
  constructor
  · intro h
    cases h
    exact ⟨rfl, rfl⟩
  · rintro ⟨rfl, rfl⟩
    exact .nil

theorem evaluatesEach_cons (form : Value) (rest : List Value) :
    of (EvaluatesEach (form :: rest) scope) = do
      let v ← of (Evaluates form scope)
      let vs ← of (EvaluatesEach rest scope)
      return v :: vs := by
  refine Behavior.ext fun w => at_ext fun r w' => ?_
  constructor
  · intro h
    cases h with
    | headFails h => exact Or.inr ⟨_, h, rfl⟩
    | @cons _ v _ _ _ w₁ _ vs h hrest =>
      refine Or.inl ⟨v, w₁, h, ?_⟩
      cases vs with
      | ok vs => exact Or.inl ⟨vs, w', hrest, rfl, rfl⟩
      | error e => exact Or.inr ⟨e, hrest, rfl⟩
  · rintro (⟨v, w₁, h, ⟨vs, w₂, hrest, rfl, rfl⟩ | ⟨e, hrest, rfl⟩⟩ | ⟨e, h, rfl⟩)
    · exact .cons h hrest
    · exact .cons h hrest
    · exact .headFails h

/-- Forms that only give values. -/
theorem evaluatesEach_of_pure {forms vs : List Value}
    (h : List.Forall₂ (fun form v => of (Evaluates form scope) w = (pure v : Behavior Value) w)
      forms vs) :
    of (EvaluatesEach forms scope) w = (pure vs : Behavior (List Value)) w := by
  induction h with
  | nil => rw [evaluatesEach_nil]
  | cons hform _ ih =>
    rw [evaluatesEach_cons, bind_of_pure_at hform, bind_of_pure_at ih]

theorem evaluatesEach_append (forms more : List Value) :
    of (EvaluatesEach (forms ++ more) scope) = do
      let vs ← of (EvaluatesEach forms scope)
      let us ← of (EvaluatesEach more scope)
      return vs ++ us := by
  induction forms with
  | nil =>
    rw [evaluatesEach_nil, pure_bind]
    exact (bind_pure _).symm
  | cons form rest ih =>
    rw [List.cons_append, evaluatesEach_cons, evaluatesEach_cons, ih]
    simp only [bind_assoc, pure_bind, List.cons_append]

/-- The operator, the operands from left to right, and then the
application. -/
theorem evaluates_operation {operator : Value} {operands : List Value}
    (hcall : w.macroCall? scope (.list (operator :: operands)) = none)
    (hspecial : operator.special? = none) :
    of (Evaluates (.list (operator :: operands)) scope) w = (do
      let callee ← of (Evaluates operator scope)
      let args ← of (EvaluatesEach operands scope)
      of (Applies callee args scope)) w := by
  rw [evaluates_plain hcall]
  refine at_ext fun r w' => ?_
  constructor
  · intro h
    cases h with
    | self h => exact h.elim
    | special h _ =>
      rw [hspecial] at h
      cases h
    | operatorFails _ h => exact Or.inr ⟨_, h, rfl⟩
    | operandFails _ h hoperands => exact Or.inl ⟨_, _, h, Or.inr ⟨_, hoperands, rfl⟩⟩
    | call _ h hoperands hcall => exact Or.inl ⟨_, _, h, Or.inl ⟨_, _, hoperands, hcall⟩⟩
  · rintro (⟨callee, w₁, h, ⟨args, w₂, hoperands, hcall⟩ | ⟨e, hoperands, rfl⟩⟩ | ⟨e, h, rfl⟩)
    · exact .call hspecial h hoperands hcall
    · exact .operandFails hspecial h hoperands
    · exact .operatorFails hspecial h

/-- A call of a function by its name. -/
theorem evaluates_application {name : String} {callee : Value}
    (hfind : w.find? scope name = some callee) (hfree : ¬w.BindsMacro scope name)
    (hname : SpecialForm.ofName? name = none) (operands : List Value) :
    of (Evaluates (.list (.symbol name :: operands)) scope) w = (do
      let args ← of (EvaluatesEach operands scope)
      of (Applies callee args scope)) w := by
  rw [evaluates_operation (World.macroCall?_of_not_bindsMacro hfree operands) hname,
    bind_of_pure_at (evaluates_symbol hfind)]

/-- A call of a primitive by its name. -/
theorem evaluates_call {name : String} {p : Primitive}
    (hfind : w.find? scope name = some (.builtin p)) (hname : SpecialForm.ofName? name = none)
    (operands : List Value) :
    of (Evaluates (.list (.symbol name :: operands)) scope) w = (do
      let args ← of (EvaluatesEach operands scope)
      of (Applies (.builtin p) args scope)) w := by
  have hfree : ¬w.BindsMacro scope name := by
    rintro ⟨_, _, _, _, h⟩
    rw [hfind] at h
    cases h
  exact evaluates_application hfind hfree hname operands

/-- The body of a closure is evaluated in a scope of its own. -/
theorem applies_closure {object : ObjectId} {expander : Bool} {params : List String}
    {body : Value} {captured : ScopeId} {args : List Value} {bindings : List (String × Value)}
    (h : Call.bindings params args = .ok bindings) :
    of (Applies (.closure object expander params body captured) args scope) w =
      of (Evaluates body w.scopes.size) (w.enter captured bindings) := by
  refine at_ext fun r w' => ⟨fun h' => ?_, .closure h⟩
  cases h' with
  | misfit h' =>
    rw [h] at h'
    cases h'
  | closure h' hbody =>
    rw [h] at h'
    cases h'
    exact hbody
  | uncallable h' => exact absurd trivial h'

theorem applies_eval (form : Value) :
    of (Applies (.builtin .eval) [form] scope) w = of (Evaluates form (w.root scope)) w := by
  refine at_ext fun r w' => ⟨fun h => ?_, .eval⟩
  cases h with
  | eval h => exact h
  | primitive h => exact absurd (h fun _ _ => Action.halt .fault) Action.not_ends_halt
  | uncallable h => exact absurd trivial h

/-- A primitive that needs no evaluator. -/
theorem applies_primitive {p : Primitive} {args : List Value} {x : Action Value}
    (heval : p ≠ .eval) (hswap : p ≠ .swap)
    (h : ∀ evaluate, p.checked evaluate scope args = x) :
    of (Applies (.builtin p) args scope) w = of x.Ends w := by
  refine at_ext fun r w' => ⟨fun h' => ?_, fun h' => ?_⟩
  · cases h' with
    | primitive h' =>
      have h' := h' default
      rwa [h] at h'
    | uncallable h' => exact absurd trivial h'
    | eval _ => exact absurd rfl heval
    | swapTooFew _ | swapNoAtom _ | swapFails _ | swap _ => exact absurd rfl hswap
  · refine .primitive fun evaluate => ?_
    rw [h]
    exact h'

/-- A primitive that only computes. -/
theorem applies_lift {p : Primitive} {args : List Value} {x : Except Cause Value}
    (heval : p ≠ .eval) (hswap : p ≠ .swap)
    (h : ∀ evaluate, p.checked evaluate scope args = Action.ofExcept x) :
    of (Applies (.builtin p) args scope) w = Behavior.lift x w := by
  rw [applies_primitive heval hswap h]
  exact at_ext fun r w' => Action.ends_ofExcept

theorem evaluates_special {name : String} {special : SpecialForm}
    (hfree : ¬w.BindsMacro scope name) (hname : SpecialForm.ofName? name = some special)
    (operands : List Value) :
    of (Evaluates (.list (.symbol name :: operands)) scope) w =
      of (EvaluatesSpecial special operands scope) w := by
  rw [evaluates_plain (World.macroCall?_of_not_bindsMacro hfree operands)]
  refine at_ext fun r w' => ⟨fun h => ?_, .special hname⟩
  cases h with
  | self h => exact h.elim
  | special h h' =>
    rw [Value.special?, hname] at h
    cases h
    exact h'
  | operatorFails h _ | operandFails h _ _ | call h _ _ _ =>
    rw [Value.special?, hname] at h
    cases h

theorem evaluates_quote (hfree : ¬w.BindsMacro scope "quote") (v : Value) :
    of (Evaluates (.list [.symbol "quote", v]) scope) w = (pure v : Behavior Value) w := by
  rw [evaluates_special hfree rfl]
  refine at_ext fun r w' => ?_
  constructor
  · intro h
    cases h with
    | arity h => cases h
    | quote => exact ⟨rfl, rfl⟩
  · rintro ⟨rfl, rfl⟩
    exact .quote

/-- An alternative that is left out is `nil`. -/
theorem evaluates_branch (hfree : ¬w.BindsMacro scope "if") (condition yes : Value)
    {no : List Value} (hno : no.length ≤ 1) :
    of (Evaluates (.list (.symbol "if" :: condition :: yes :: no)) scope) w = (do
      let v ← of (Evaluates condition scope)
      of (Evaluates (if v.isTruthy then yes else no.head?.getD .nil) scope)) w := by
  rw [evaluates_special hfree (SpecialForm.ofName?_name .branch)]
  refine at_ext fun r w' => ?_
  constructor
  · intro h
    cases h with
    | arity h =>
      have hlength : no.length + 2 ≠ 2 ∧ no.length + 2 ≠ 3 := by
        simpa [SpecialForm.takes] using h
      omega
    | conditionFails _ h => exact Or.inr ⟨_, h, rfl⟩
    | yes _ h hv hyes =>
      refine Or.inl ⟨_, _, h, ?_⟩
      show Evaluates (if _ then yes else _) scope _ r w'
      rwa [if_pos hv]
    | no h hv hno =>
      refine Or.inl ⟨_, _, h, ?_⟩
      show Evaluates (if _ then yes else _) scope _ r w'
      rwa [if_neg (by simp [hv])]
    | noElse h hv =>
      refine Or.inl ⟨_, _, h, ?_⟩
      show Evaluates (if _ then yes else .nil) scope w' _ w'
      rw [if_neg (by simp [hv])]
      exact .expanded (.plain rfl) (.self trivial)
  · rintro (⟨v, w₁, h, hrest⟩ | ⟨e, h, rfl⟩)
    · change Evaluates (if v.isTruthy then yes else no.head?.getD .nil) scope w₁ r w' at hrest
      cases hv : v.isTruthy with
      | true =>
        rw [if_pos hv] at hrest
        exact .yes hno h hv hrest
      | false =>
        rw [if_neg (by simp [hv])] at hrest
        match no, hno with
        | [], _ =>
          obtain ⟨rfl, rfl⟩ := evaluates_nil hrest
          exact .noElse h hv
        | [_], _ => exact .no h hv hrest
    · exact .conditionFails hno h

theorem evaluates_quasiquote (hfree : ¬w.BindsMacro scope "quasiquote") (template : Value) :
    of (Evaluates (.list [.symbol "quasiquote", template]) scope) w = (do
      let form ← Behavior.lift (Quasiquote.expand template)
      of (Evaluates form scope)) w := by
  rw [evaluates_special hfree rfl]
  refine at_ext fun r w' => ?_
  constructor
  · intro h
    cases h with
    | arity h => cases h
    | quasiquoteMisshapen h =>
      rw [h]
      exact Or.inr ⟨_, ⟨rfl, rfl⟩, rfl⟩
    | quasiquote h h' =>
      rw [h]
      exact Or.inl ⟨_, _, ⟨rfl, rfl⟩, h'⟩
  · cases hform : Quasiquote.expand template with
    | ok form =>
      rintro (⟨_, _, ⟨heq, rfl⟩, h⟩ | ⟨_, ⟨heq, -⟩, -⟩) <;> cases heq
      exact .quasiquote hform h
    | error cause =>
      rintro (⟨_, _, ⟨heq, -⟩, -⟩ | ⟨_, ⟨heq, rfl⟩, rfl⟩) <;> cases heq
      exact .quasiquoteMisshapen hform

end

end Lisp
