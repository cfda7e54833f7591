import Lisp.Proofs.Adequacy
import Lisp.Proofs.Behavior
import Lisp.Proofs.Passages

/-!
# Macro expansion

The body of a macro is a program like any other. While it runs it may
write to atoms, define names and redefine macros, the one that is being
expanded among them. So whether a form is a call of a macro is a
question about a world, and what is shown here is about the world that
the last expansion leaves.

There the expansion is no call of a macro (`Expands.settled`), so to
expand it once more gives it back and does nothing
(`expands_of_settled`), and to evaluate it is to evaluate the form that
was expanded (`Expands.evaluates_iff`). The evaluator expands at two
places, before each of its turns and in the special form `macroexpand`.
Since the rules leave no choice, what one of them has expanded the other
one leaves alone.
-/

namespace Lisp

open World Behavior Lisp.Action

/-- The expansion of the form has a result, within some bounds. -/
def ExpandsTo (form : Value) (scope : ScopeId) (w : World) (r : Except Error Value) (w' : World) :
    Prop :=
  ∃ steps depth, (expandMacros (evaluate steps depth) steps form scope).Ends w r w'

section

variable {form expansion : Value} {scope : ScopeId} {w w₁ w' : World} {r : Except Error Value}

theorem expandsTo_iff : ExpandsTo form scope w r w' ↔ Expands form scope w r w' := by
  constructor
  · rintro ⟨steps, depth, h⟩
    exact expandMacros_expands (evaluate_sound steps depth) steps h
  · intro h
    obtain ⟨n, h⟩ := h.runs.whole
    exact ⟨n, n, h n n n (Nat.le_refl n) (Nat.le_refl n) (Nat.le_refl n)⟩

theorem Expands.unique {r₁ r₂ : Except Error Value} {w₁ w₂ : World}
    (h₁ : Expands form scope w r₁ w₁) (h₂ : Expands form scope w r₂ w₂) : r₁ = r₂ ∧ w₁ = w₂ := by
  obtain ⟨n, h⟩ := h₁.runs.and h₂.runs
  obtain ⟨h₁, h₂⟩ := h n n n (Nat.le_refl n) (Nat.le_refl n) (Nat.le_refl n)
  exact h₁.unique h₂

/-! ## Settled forms -/

theorem World.macroCall?_eq_none_iff :
    w.macroCall? scope form = none ↔
      ∀ name args, form = .list (.symbol name :: args) → ¬w.BindsMacro scope name := by
  constructor
  · rintro h name args rfl ⟨object, params, body, captured, hfind⟩
    simp [World.macroCall?, hfind] at h
  · intro h
    unfold World.macroCall?
    split
    · next name args =>
      split
      · next hfind => exact absurd ⟨_, _, _, _, hfind⟩ (h name args rfl)
      · rfl
    · rfl

/-- What is no call of a macro is its own expansion. -/
theorem expands_of_settled (h : w.macroCall? scope form = none) :
    Expands form scope w r w' ↔ r = .ok form ∧ w' = w := by
  constructor
  · exact fun h' => h'.unique (.plain h)
  · rintro ⟨rfl, rfl⟩
    exact .plain h

/-- The loop only stops at a form that calls no macro of the world it is
in. -/
theorem settled_of_expandMacros {nested : Evaluator} {fuel : Nat}
    (h : (expandMacros nested fuel form scope).Ends w (.ok expansion) w₁) :
    w₁.macroCall? scope expansion = none := by
  induction fuel generalizing form w with
  | zero => exact absurd h not_ends_loop_zero
  | succ fuel ih =>
    rw [expandMacros, loop_succ] at h
    cases hcall : w.macroCall? scope form with
    | none =>
      rw [ends_expand_plain hcall, resume, ends_pure] at h
      obtain ⟨heq, rfl⟩ := h
      cases heq
      exact hcall
    | some call =>
      obtain ⟨params, body, captured, args⟩ := call
      rcases (ends_expand_call hcall).mp h with ⟨_, _, hbody⟩ | ⟨_, _, heq, _⟩
      · rcases ends_bind.mp hbody with ⟨next, w₂, _, hrest⟩ | ⟨_, _, heq⟩
        · exact ih hrest
        · cases heq
      · cases heq

theorem Expands.settled (h : Expands form scope w (.ok expansion) w₁) :
    w₁.macroCall? scope expansion = none := by
  obtain ⟨steps, depth, hends⟩ := expandsTo_iff.mpr h
  exact settled_of_expandMacros hends

/-! ## Evaluation after expansion -/

/-- From here on the form and its expansion are evaluated alike. -/
theorem Expands.evaluates_iff (h : Expands form scope w (.ok expansion) w₁) :
    Evaluates form scope w r w' ↔ Evaluates expansion scope w₁ r w' := by
  have hsettled := h.settled
  constructor
  · intro h'
    cases h' with
    | expansionFails hfails =>
      have hresult := (hfails.unique h).1
      cases hresult
    | expanded hexpands hplain =>
      obtain ⟨heq, rfl⟩ := hexpands.unique h
      cases heq
      exact .expanded (.plain hsettled) hplain
  · intro h'
    have hplain : EvaluatesPlain expansion scope w₁ r w' :=
      (at_iff (evaluates_plain hsettled) r w').mp h'
    exact .expanded h hplain

theorem Expands.evaluates_error_iff {e : Error} (h : Expands form scope w (.error e) w₁) :
    Evaluates form scope w r w' ↔ r = .error e ∧ w' = w₁ := by
  constructor
  · exact fun h' => h'.unique (.expansionFails h)
  · rintro ⟨rfl, rfl⟩
    exact .expansionFails h

/-- To evaluate a form is to expand it and to evaluate what comes of
it. -/
theorem evaluates_eq_expands (form : Value) (scope : ScopeId) :
    of (Evaluates form scope) = (do
      let expansion ← of (Expands form scope)
      of (Evaluates expansion scope)) := by
  refine Behavior.ext fun w => at_ext fun r w' => ?_
  constructor
  · intro h
    cases h with
    | expansionFails h => exact Or.inr ⟨_, h, rfl⟩
    | expanded h hplain => exact Or.inl ⟨_, _, h, h.evaluates_iff.mp (.expanded h hplain)⟩
  · rintro (⟨expansion, w₁, h, h'⟩ | ⟨e, h, rfl⟩)
    · exact h.evaluates_iff.mpr h'
    · exact .expansionFails h

/-! ## Calls of macros -/

section

variable {body : Value} {captured : ScopeId} {params : List String} {args : List Value}
  {bindings : List (String × Value)}

theorem expands_macroCall (h : w.macroCall? scope form = some (params, body, captured, args))
    (hargs : Call.bindings params args = .ok bindings) :
    of (Expands form scope) w = (do
      let expansion ← of (Evaluates body w.scopes.size)
      of (Expands expansion scope)) (w.enter captured bindings) := by
  refine at_ext fun r w' => ?_
  constructor
  · intro h'
    cases h' with
    | plain hnone =>
      rw [h] at hnone
      cases hnone
    | misfit hcall hmisfit =>
      rw [h] at hcall
      cases hcall
      rw [hargs] at hmisfit
      cases hmisfit
    | bodyFails hcall hfits hbody =>
      rw [h] at hcall
      cases hcall
      rw [hargs] at hfits
      cases hfits
      exact Or.inr ⟨_, hbody, rfl⟩
    | step hcall hfits hbody hrest =>
      rw [h] at hcall
      cases hcall
      rw [hargs] at hfits
      cases hfits
      exact Or.inl ⟨_, _, hbody, hrest⟩
  · rintro (⟨expansion, w₁, hbody, hrest⟩ | ⟨e, hbody, rfl⟩)
    · exact .step h hargs hbody hrest
    · exact .bodyFails h hargs hbody

/-- The body of the macro is evaluated in a scope of its own, and what it
gives is evaluated where the call is. -/
theorem evaluates_macroCall (h : w.macroCall? scope form = some (params, body, captured, args))
    (hargs : Call.bindings params args = .ok bindings) :
    of (Evaluates form scope) w = (do
      let expansion ← of (Evaluates body w.scopes.size)
      of (Evaluates expansion scope)) (w.enter captured bindings) := by
  rw [evaluates_eq_expands, bind_at (expands_macroCall h hargs), bind_assoc]
  simp only [← evaluates_eq_expands]

end

/-! ## The special form -/

theorem evaluates_macroexpand (hfree : ¬w.BindsMacro scope "macroexpand") (form : Value) :
    of (Evaluates (.list [.symbol "macroexpand", form]) scope) w = of (Expands form scope) w := by
  rw [evaluates_special hfree rfl]
  refine at_ext fun r w' => ⟨fun h => ?_, .expandMacros⟩
  cases h with
  | arity h => cases h
  | expandMacros h => exact h

/-- The call of `eval` on the expansion of a form. -/
def evalExpansion (form : Value) : Value :=
  .list [.symbol "eval", .list [.symbol "macroexpand", form]]

/-- In a scope with nothing around it, `eval` evaluates where the form
was expanded, whatever the expansion has done to the world. -/
theorem evaluates_evalExpansion (form : Value) (hroot : w.Parentless scope)
    (heval : w.find? scope "eval" = some (.builtin .eval))
    (hfree : ¬w.BindsMacro scope "macroexpand") :
    of (Evaluates (evalExpansion form) scope) w = of (Evaluates form scope) w := by
  rw [evalExpansion, evaluates_call heval rfl, evaluates_eq_expands, evaluatesEach_cons,
    evaluatesEach_nil]
  simp only [bind_assoc, pure_bind]
  refine bind_congr_at (evaluates_macroexpand hfree form) fun expansion w₁ h => ?_
  have hbecomes : w.Becomes w₁ := h.arrives.becomes
  rw [applies_eval, (hbecomes.parentless hroot).root]

end

/-- If the expansion of a form has a result in some world, then in that
world it is no call of a macro, to expand it again gives it back and
changes nothing, and to evaluate the form comes to the same as to
evaluate the expansion there. An error of the expansion is that of the
evaluation. So in a root scope the form may be replaced by a call of
`eval` on its expansion. The bodies of the macros may do anything. -/
theorem expansion_settles (form : Value) (scope : ScopeId) (w : World) :
    (∀ expansion w₁, ExpandsTo form scope w (.ok expansion) w₁ →
      (∀ name args, expansion = .list (.symbol name :: args) → ¬w₁.BindsMacro scope name) ∧
      (∀ r w₂, ExpandsTo expansion scope w₁ r w₂ ↔ r = .ok expansion ∧ w₂ = w₁) ∧
      ∀ r w', Finishes form scope w r w' ↔ Finishes expansion scope w₁ r w') ∧
    (∀ e w₁, ExpandsTo form scope w (.error e) w₁ →
      ∀ r w', Finishes form scope w r w' ↔ r = .error e ∧ w' = w₁) ∧
    (w.Parentless scope → w.find? scope "eval" = some (.builtin .eval) →
      ¬w.BindsMacro scope "macroexpand" →
      ∀ r w', Finishes (evalExpansion form) scope w r w' ↔ Finishes form scope w r w') := by
  simp only [expandsTo_iff, finishes_iff]
  refine ⟨fun expansion w₁ h => ?_, fun e w₁ h r w' => h.evaluates_error_iff,
    fun hroot heval hfree r w' => ?_⟩
  · have hsettled := h.settled
    exact ⟨macroCall?_eq_none_iff.mp hsettled, fun r w₂ => expands_of_settled hsettled,
      fun r w' => h.evaluates_iff⟩
  · exact at_iff (evaluates_evalExpansion form hroot heval hfree) r w'

/-- A root scope with `eval` and a macro. The body of the macro makes
`next` a macro that gives 5, and gives a call of it. -/
def macroWorld : World :=
  { World.empty fun _ => none with
    scopes := #[⟨none, [("eval", .builtin .eval), ("first", .closure 0 true []
      (.list [.symbol "do",
        .list [.symbol "eval", .list [.symbol "quote", .list [.symbol "defmacro!", .symbol "next",
          .list [.symbol "fn*", .list [], .int 5]]]],
        .list [.symbol "quote", .list [.symbol "next"]]]) 0)]⟩] }

theorem expansion_settles_redefined :
    let form := Value.list [.symbol "first"]
    macroWorld.Parentless 0 ∧ macroWorld.find? 0 "eval" = some (.builtin .eval) ∧
      ¬macroWorld.BindsMacro 0 "macroexpand" ∧ ¬macroWorld.BindsMacro 0 "next" ∧
      ∃ w₁, w₁.BindsMacro 0 "next" ∧ ExpandsTo form 0 macroWorld (.ok (.int 5)) w₁ ∧
        ExpandsTo (.int 5) 0 w₁ (.ok (.int 5)) w₁ ∧
        Finishes form 0 macroWorld (.ok (.int 5)) w₁ ∧
        Finishes (evalExpansion form) 0 macroWorld (.ok (.int 5)) w₁ := by
  intro form
  obtain ⟨hexpansion, -, heval⟩ := expansion_settles form 0 macroWorld
  have hroot : macroWorld.Parentless 0 := ⟨_, rfl, rfl⟩
  have hunbound : ∀ name, macroWorld.find? 0 name = none → ¬macroWorld.BindsMacro 0 name := by
    rintro name hnone ⟨_, _, _, _, hfind⟩
    rw [hnone] at hfind
    cases hfind
  obtain ⟨w₁, hends, hnext⟩ : ∃ w₁, (expandMacros (evaluate 9 9) 9 form 0).Ends macroWorld
      (.ok (.int 5)) w₁ ∧ w₁.BindsMacro 0 "next" := ⟨_, rfl, _, _, _, _, rfl⟩
  have hexpands : ExpandsTo form 0 macroWorld (.ok (.int 5)) w₁ := ⟨9, 9, hends⟩
  obtain ⟨-, hagain, hsame⟩ := hexpansion _ _ hexpands
  have hfive : Finishes (.int 5) 0 w₁ (.ok (.int 5)) w₁ := ⟨1, 1, rfl⟩
  have hform := (hsame _ _).mpr hfive
  exact ⟨hroot, rfl, hunbound _ rfl, hunbound _ rfl, w₁, hnext, hexpands,
    (hagain _ _).mpr ⟨rfl, rfl⟩, hform, (heval hroot rfl (hunbound _ rfl) _ _).mpr hform⟩

end Lisp
