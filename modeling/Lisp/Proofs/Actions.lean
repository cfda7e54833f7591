import Lisp.Call

/-!
# How actions end

An action ends with a value or an error, and leaves a world, or it is
halted and has no result at all (`Action.Ends`). Each action of the
library has one lemma that says exactly how it ends. A composed action
is taken apart with `ends_bind`, and nobody has to look at outcomes
again.
-/

namespace Lisp

/-- The error of a cause that is found in no text. -/
def Error.raised (cause : Cause) : Error := .diagnostic ⟨cause, none⟩

/-- The outcome of an action that is not halted. -/
def Outcome.ended {α : Type} : Except Error α → World → Outcome α
  | .ok a, w => .value a w
  | .error e, w => .failure e w

/-! ## Results -/

section

variable {ε α β : Type} {x : Except ε α} {f : α → Except ε β}

theorem ok_bind (a : α) (f : α → Except ε β) : (Except.ok a >>= f) = f a := rfl

theorem ok_of_bind {b : β} (h : (x >>= f) = .ok b) :
    ∃ a, x = .ok a ∧ f a = .ok b := by
  cases x with
  | error e => cases h
  | ok a => exact ⟨a, rfl, h⟩

end

/-! ## The changes of a world -/

namespace World

def define (w : World) (scope : ScopeId) (name : String) (v : Value) : World :=
  { w with scopes := w.scopes.modify scope (·.define name v) }

/-- A new scope, whose number is that of the scopes before. -/
def enter (w : World) (parent : ScopeId) (bindings : List (String × Value)) : World :=
  { w with scopes := w.scopes.push ⟨some parent, bindings⟩ }

/-- One more number is in use. -/
def count (w : World) : World := { w with objects := w.objects + 1 }

def contents (w : World) (cell : CellId) : Value := w.cells[cell]?.getD .nil

def store (w : World) (cell : CellId) (v : Value) : World :=
  { w with cells := w.cells.setIfInBounds cell v }

end World

namespace Action

variable {α β : Type} {w w' : World}

/-- The action ends in `w` with a result and leaves `w'`. -/
def Ends (x : Action α) (w : World) (r : Except Error α) (w' : World) : Prop :=
  x w = .ended r w'

theorem Ends.unique {x : Action α} {r₁ r₂ : Except Error α} {w₁ w₂ : World}
    (h₁ : x.Ends w r₁ w₁) (h₂ : x.Ends w r₂ w₂) : r₁ = r₂ ∧ w₁ = w₂ := by
  have h : Outcome.ended r₁ w₁ = Outcome.ended r₂ w₂ := h₁.symm.trans h₂
  cases r₁ <;> cases r₂ <;> cases h <;> exact ⟨rfl, rfl⟩

/-- What has not ended is halted. -/
theorem halted_iff {x : Action α} :
    (∃ why, x w = .halted why) ↔ ∀ r w', ¬x.Ends w r w' := by
  constructor
  · rintro ⟨why, h⟩ r w' hends
    have := h.symm.trans hends
    cases r <;> cases this
  · intro h
    cases hx : x w with
    | value a w' => exact absurd hx (h (.ok a) w')
    | failure e w' => exact absurd hx (h (.error e) w')
    | halted why => exact ⟨why, rfl⟩

/-! ## Sequences of actions -/

theorem ends_bind {x : Action α} {f : α → Action β} {r : Except Error β} :
    (x >>= f).Ends w r w' ↔
      (∃ a w₁, x.Ends w (.ok a) w₁ ∧ (f a).Ends w₁ r w') ∨
        ∃ e, x.Ends w (.error e) w' ∧ r = .error e := by
  unfold Ends
  rw [bind_apply]
  cases x w with
  | value a w₁ =>
    constructor
    · exact fun h => Or.inl ⟨a, w₁, rfl, h⟩
    · rintro (⟨_, _, hvalue, h⟩ | ⟨_, hvalue, -⟩) <;> cases hvalue
      exact h
  | failure e w₁ =>
    constructor
    · intro h
      cases r with
      | ok _ => cases h
      | error _ =>
        cases h
        exact Or.inr ⟨e, rfl, rfl⟩
    · rintro (⟨_, _, hfailure, -⟩ | ⟨_, hfailure, rfl⟩) <;> cases hfailure
      rfl
  | halted why =>
    constructor
    · cases r <;> exact fun h => nomatch h
    · rintro (⟨_, _, hhalted, -⟩ | ⟨_, hhalted, -⟩) <;> cases hhalted

theorem Ends.bind {x : Action α} {f : α → Action β} {a : α} {w₁ : World} {r : Except Error β}
    (h : x.Ends w (.ok a) w₁) (h' : (f a).Ends w₁ r w') : (x >>= f).Ends w r w' :=
  ends_bind.mpr (Or.inl ⟨a, w₁, h, h'⟩)

theorem Ends.bind_error {x : Action α} {f : α → Action β} {e : Error}
    (h : x.Ends w (.error e) w') : (x >>= f).Ends w (.error e) w' :=
  ends_bind.mpr (Or.inr ⟨e, h, rfl⟩)

instance : LawfulMonad Action :=
  LawfulMonad.mk' Action
    (fun x => by
      funext w
      change (x >>= fun a => pure a) w = x w
      rw [bind_apply]
      cases x w <;> rfl)
    (fun _ _ => rfl)
    (fun x f g => by
      funext w
      simp only [bind_apply]
      cases x w <;> rfl)

theorem ends_pure {a : α} {r : Except Error α} :
    (pure a : Action α).Ends w r w' ↔ r = .ok a ∧ w' = w := by
  cases r <;> simp [Ends, Outcome.ended, eq_comm]

theorem ends_fail {cause : Cause} {r : Except Error α} :
    (fail cause : Action α).Ends w r w' ↔ r = .error (.raised cause) ∧ w' = w := by
  cases r <;> simp [Ends, Outcome.ended, fail, Error.raised, eq_comm]

theorem ends_map {x : Action α} {f : α → β} {r : Except Error α} (h : x.Ends w r w') :
    (x >>= fun a => pure (f a)).Ends w (r.map f) w' := by
  cases r with
  | ok a => exact h.bind rfl
  | error e => exact h.bind_error

theorem not_ends_halt {why : Halt} {r : Except Error α} :
    ¬(halt why : Action α).Ends w r w' := by
  cases r <;> simp [Ends, Outcome.ended, halt]

theorem fail_bind (cause : Cause) (f : α → Action β) : fail cause >>= f = fail cause := rfl

theorem ofExcept_ok (a : α) : ofExcept (.ok a) = pure a := rfl

theorem ofExcept_error (cause : Cause) : (ofExcept (.error cause) : Action α) = fail cause := rfl

theorem ends_ofExcept {x : Except Cause α} {r : Except Error α} :
    (ofExcept x).Ends w r w' ↔ r = x.mapError .raised ∧ w' = w := by
  cases x with
  | ok a => exact ends_pure
  | error cause => exact ends_fail

theorem ends_lookup {scope : ScopeId} {name : String} {r : Except Error Value} :
    (lookup scope name).Ends w r w' ↔
      (∃ v, w.find? scope name = some v ∧ r = .ok v ∧ w' = w) ∨
        (w.find? scope name = none ∧ r = .error (.raised (.unbound name)) ∧ w' = w) := by
  cases h : w.find? scope name <;> cases r <;>
    simp [Ends, Outcome.ended, lookup, h, Error.raised, eq_comm]

/-! ## Changes of the world

These cannot fail, so what comes after them is all that matters. -/

variable {r : Except Error β}

theorem ends_ask_bind {f : World → α} {g : α → Action β} :
    (ask f >>= g).Ends w r w' ↔ (g (f w)).Ends w r w' := Iff.rfl

theorem ends_enter_bind {parent : ScopeId} {bindings : List (String × Value)}
    {f : ScopeId → Action β} :
    (Action.enter (some parent) bindings >>= f).Ends w r w' ↔
      (f w.scopes.size).Ends (w.enter parent bindings) r w' := Iff.rfl

theorem ends_define_bind {scope : ScopeId} {name : String} {v : Value} {f : Unit → Action β} :
    (define scope name v >>= f).Ends w r w' ↔ (f ()).Ends (w.define scope name v) r w' := Iff.rfl

theorem ends_freshObject_bind {f : ObjectId → Action β} :
    (freshObject >>= f).Ends w r w' ↔ (f w.objects).Ends w.count r w' := Iff.rfl

theorem ends_contents_bind {cell : CellId} {f : Value → Action β} :
    (contents cell >>= f).Ends w r w' ↔ (f (w.contents cell)).Ends w r w' := Iff.rfl

theorem ends_store_bind {cell : CellId} {v : Value} {f : Unit → Action β} :
    (store cell v >>= f).Ends w r w' ↔ (f ()).Ends (w.store cell v) r w' := Iff.rfl

theorem ends_enterCall_bind {parent : ScopeId} {params : List String} {args : List Value}
    {f : ScopeId → Action β} :
    (enterCall parent params args >>= f).Ends w r w' ↔
      (∃ bindings, Call.bindings params args = .ok bindings ∧
        (f w.scopes.size).Ends (w.enter parent bindings) r w') ∨
      ∃ cause, Call.bindings params args = .error cause ∧ r = .error (.raised cause) ∧ w' = w := by
  rw [enterCall, bind_assoc]
  cases Call.bindings params args with
  | ok bindings => simp [ofExcept, pure_bind, ends_enter_bind]
  | error cause => simp [ofExcept, fail_bind, ends_fail]

/-! ## Calls -/

theorem enterCall_of_error {params : List String} {args : List Value} {cause : Cause}
    (h : Call.bindings params args = .error cause) (captured : ScopeId) (w : World) :
    enterCall captured params args w = .failure (.raised cause) w := by
  rw [enterCall, h]
  rfl

theorem enterCall_of_ok {params : List String} {args : List Value}
    {bindings : List (String × Value)} (h : Call.bindings params args = .ok bindings)
    (captured : ScopeId) (w : World) :
    enterCall captured params args w = .value w.scopes.size (w.enter captured bindings) := by
  rw [enterCall, h]
  rfl

end Action

end Lisp
