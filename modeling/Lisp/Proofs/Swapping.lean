import Lisp.Proofs.Adequacy
import Lisp.Proofs.Behavior
import Lisp.Proofs.Passages
import Lisp.Session

/-!
# Swapping the contents of an atom

`swap!` applies a function to what an atom holds and stores the result.
It does so by `apply`, from inside a primitive. The evaluator has a
second way to apply a function: a call in a form, where the body of a
closure takes over the turns of the evaluation that is going on. Both
ways satisfy the rules and so agree (`applied_iff`, `appliedInTurn_iff`).

Hence `swap!` is no more than a call and `reset!` (`swap_eq_reset`). It
reads the atom before the call and writes to it once, after the call has
given a value. What the function does to the atom meanwhile is its own
affair.
-/

namespace Lisp

open World Behavior Lisp.Action

/-! ## Two ways to apply a function -/

/-- The function is applied by a primitive. -/
def Applied (f : Value) (args : List Value) (scope : ScopeId) (w : World) (r : Except Error Value)
    (w' : World) : Prop :=
  ∃ steps depth, (apply (evaluate steps depth) scope f args).Ends w r w'

/-- The function is applied by a turn of an evaluation, and the turns
that are left follow. -/
def AppliedInTurn (f : Value) (args : List Value) (scope : ScopeId) (w : World)
    (r : Except Error Value) (w' : World) : Prop :=
  ∃ steps depth fuel,
    (applyTurn (evaluate steps depth) scope f args >>= resume (spin steps depth fuel)).Ends w r w'

section

variable {f : Value} {args : List Value} {scope : ScopeId} {w w' : World} {r : Except Error Value}

theorem applied_iff : Applied f args scope w r w' ↔ Applies f args scope w r w' := by
  constructor
  · rintro ⟨steps, depth, h⟩
    exact apply_sound (evaluate_sound steps depth) h
  · intro h
    obtain ⟨n, h⟩ := h.runs
    exact ⟨n, n, (h n n n (Nat.le_refl n) (Nat.le_refl n) (Nat.le_refl n)).1⟩

theorem appliedInTurn_iff : AppliedInTurn f args scope w r w' ↔ Applies f args scope w r w' := by
  constructor
  · rintro ⟨steps, depth, fuel, h⟩
    have hnested : SoundFor (evaluate steps depth) := evaluate_sound steps depth
    exact applyTurn_sound hnested (loop_sound hnested steps fuel) h
  · intro h
    obtain ⟨n, h⟩ := h.runs
    exact ⟨n, n, n, (h n n n (Nat.le_refl n) (Nat.le_refl n) (Nat.le_refl n)).2⟩

end

/-! ## The two forms -/

def quoted (v : Value) : Value := .list [.symbol "quote", v]

/-- The call of a value with values. -/
def callForm (f : Value) (args : List Value) : Value := .list (quoted f :: args.map quoted)

/-- The call of `swap!` on an atom. -/
def swapForm (cell : CellId) (f : Value) (args : List Value) : Value :=
  .list (.symbol "swap!" :: (.atom cell :: f :: args).map quoted)

/-- What the atom holds, read by a form. -/
def derefForm (cell : CellId) : Value := .list [.symbol "deref", quoted (.atom cell)]

/-- The call of `reset!` on the atom and the call of the function. -/
def resetForm (cell : CellId) (f : Value) (args : List Value) : Value :=
  .list [.symbol "reset!", quoted (.atom cell),
    .list (quoted f :: derefForm cell :: args.map quoted)]

/-- Stores the value in the atom and gives it. -/
def Behavior.storing (cell : CellId) (v : Value) : Behavior Value :=
  fun w r w' => r = .ok v ∧ w' = w.store cell v

section

variable {x : Behavior Value} {cell : CellId} {w w' : World}

theorem Behavior.bind_storing_ok {v : Value} :
    (x >>= Behavior.storing cell) w (.ok v) w' ↔
      ∃ w₁, x w (.ok v) w₁ ∧ w' = w₁.store cell v := by
  rw [bind_ok]
  constructor
  · rintro ⟨_, w₁, h, heq, rfl⟩
    cases heq
    exact ⟨w₁, h, rfl⟩
  · rintro ⟨w₁, h, rfl⟩
    exact ⟨v, w₁, h, rfl, rfl⟩

theorem Behavior.bind_storing_error {e : Error} :
    (x >>= Behavior.storing cell) w (.error e) w' ↔ x w (.error e) w' := by
  rw [Behavior.bind_apply]
  constructor
  · rintro (⟨_, _, _, heq, -⟩ | ⟨_, h, heq⟩) <;> cases heq
    exact h
  · exact fun h => Or.inr ⟨e, h, rfl⟩

end

section

variable {scope : ScopeId} {w : World} (cell : CellId) (f : Value) (args : List Value)

theorem evaluates_quoted (hquote : ¬w.BindsMacro scope "quote") (v : Value) :
    of (Evaluates (quoted v) scope) w = (pure v : Behavior Value) w := evaluates_quote hquote v

theorem evaluatesEach_quoted (hquote : ¬w.BindsMacro scope "quote") :
    of (EvaluatesEach (args.map quoted) scope) w = (pure args : Behavior (List Value)) w := by
  refine evaluatesEach_of_pure (List.forall₂_map_left_iff.mpr (List.forall₂_same.mpr ?_))
  exact fun v _ => evaluates_quoted hquote v

theorem evaluates_callForm (hquote : ¬w.BindsMacro scope "quote") :
    of (Evaluates (callForm f args) scope) w = of (Applies f args scope) w := by
  rw [callForm, evaluates_operation rfl rfl, bind_of_pure_at (evaluates_quoted hquote f),
    bind_of_pure_at (evaluatesEach_quoted args hquote)]

theorem applies_swap :
    of (Applies (.builtin .swap) (.atom cell :: f :: args) scope) w = (do
      let v ← of (Applies f (w.contents cell :: args) scope)
      Behavior.storing cell v) w := by
  refine at_ext fun r w' => ?_
  constructor
  · intro h
    cases h with
    | swapTooFew h =>
      rw [List.length_cons, List.length_cons] at h
      omega
    | swapNoAtom h => cases h
    | swapFails h => exact Or.inr ⟨_, h, rfl⟩
    | swap h => exact Or.inl ⟨_, _, h, rfl, rfl⟩
    | primitive h => exact absurd (h default) not_ends_checked_swap
    | uncallable h => exact absurd trivial h
  · rintro (⟨v, w₁, h, rfl, rfl⟩ | ⟨e, h, rfl⟩)
    · exact .swap h
    · exact .swapFails h

theorem applies_reset (v : Value) :
    of (Applies (.builtin .reset) [.atom cell, v] scope) w = Behavior.storing cell v w := by
  have hstores : ∀ evaluate, Primitive.reset.checked evaluate scope [.atom cell, v] =
      store cell v >>= fun _ => pure v := fun _ => rfl
  rw [applies_primitive (p := .reset) (by decide) (by decide) hstores]
  refine at_ext fun r w' => ?_
  rw [of, ends_store_bind, ends_pure]
  rfl

theorem evaluates_derefForm (hderef : w.find? scope "deref" = some (.builtin .deref))
    (hquote : ¬w.BindsMacro scope "quote") :
    of (Evaluates (derefForm cell) scope) w = (pure (w.contents cell) : Behavior Value) w := by
  have hreads : ∀ evaluate, Primitive.deref.checked evaluate scope [.atom cell] =
      contents cell := fun _ => rfl
  have hquoted := evaluatesEach_quoted [.atom cell] hquote
  rw [derefForm, evaluates_call hderef rfl]
  refine (bind_of_pure_at hquoted).trans ?_
  rw [applies_primitive (p := .deref) (by decide) (by decide) hreads]
  exact of_value rfl

/-- A call of `swap!` applies the function to what the atom holds, and
stores the value. -/
theorem evaluates_swapForm (hswap : w.find? scope "swap!" = some (.builtin .swap))
    (hquote : ¬w.BindsMacro scope "quote") :
    of (Evaluates (swapForm cell f args) scope) w = (do
      let v ← of (Applies f (w.contents cell :: args) scope)
      Behavior.storing cell v) w := by
  rw [swapForm, evaluates_call hswap rfl, bind_of_pure_at (evaluatesEach_quoted _ hquote),
    applies_swap]

/-- The same of `reset!`, given the value of the call. The atom is read
before the function is called. -/
theorem evaluates_resetForm (hreset : w.find? scope "reset!" = some (.builtin .reset))
    (hderef : w.find? scope "deref" = some (.builtin .deref))
    (hquote : ¬w.BindsMacro scope "quote") :
    of (Evaluates (resetForm cell f args) scope) w = (do
      let v ← of (Applies f (w.contents cell :: args) scope)
      Behavior.storing cell v) w := by
  have hargs : of (EvaluatesEach (derefForm cell :: args.map quoted) scope) w =
      (pure (w.contents cell :: args) : Behavior (List Value)) w := by
    rw [evaluatesEach_cons, bind_of_pure_at (evaluates_derefForm cell hderef hquote),
      bind_of_pure_at (evaluatesEach_quoted args hquote)]
  have hcall : of (Evaluates (.list (quoted f :: derefForm cell :: args.map quoted)) scope) w =
      of (Applies f (w.contents cell :: args) scope) w := by
    rw [evaluates_operation rfl rfl, bind_of_pure_at (evaluates_quoted hquote f),
      bind_of_pure_at hargs]
  rw [resetForm, evaluates_call hreset rfl, evaluatesEach_cons, bind_assoc,
    bind_of_pure_at (evaluates_quoted hquote (.atom cell)), evaluatesEach_cons, evaluatesEach_nil]
  simp only [bind_assoc, pure_bind]
  exact bind_congr_at hcall fun v w₁ _ => applies_reset cell v

end

/-- In a world where the three names mean the primitives and `quote` is
no macro, `swap!` on an atom, a value and more values does the same as
`reset!` on the atom and the call of the value: result, error and world
are the same. The call comes first, with what the atom holds before.
If it gives a value, this is stored, and it is what the atom holds in
the end; if it fails, nothing is stored any more. In every world, to
apply a value by a primitive is the same as to apply it in a turn of an
evaluation, and to evaluate its call. -/
theorem swap_eq_reset (f : Value) (scope : ScopeId) (w : World) :
    (w.find? scope "swap!" = some (.builtin .swap) →
      w.find? scope "reset!" = some (.builtin .reset) →
      w.find? scope "deref" = some (.builtin .deref) →
      ¬w.BindsMacro scope "quote" → ∀ cell args,
      (∀ r w', Finishes (swapForm cell f args) scope w r w' ↔
        Finishes (resetForm cell f args) scope w r w') ∧
      (∀ v w', Finishes (swapForm cell f args) scope w (.ok v) w' ↔
        ∃ w₁, Applied f (w.contents cell :: args) scope w (.ok v) w₁ ∧ w' = w₁.store cell v) ∧
      (∀ e w', Finishes (swapForm cell f args) scope w (.error e) w' ↔
        Applied f (w.contents cell :: args) scope w (.error e) w') ∧
      (cell < w.cells.size → ∀ v w', Finishes (swapForm cell f args) scope w (.ok v) w' →
        w'.contents cell = v)) ∧
    ∀ args r w', (Applied f args scope w r w' ↔ AppliedInTurn f args scope w r w') ∧
      (¬w.BindsMacro scope "quote" →
        (Applied f args scope w r w' ↔ Finishes (callForm f args) scope w r w')) := by
  simp only [finishes_iff, applied_iff, appliedInTurn_iff]
  refine ⟨fun hswap hreset hderef hquote cell args => ?_, fun args r w' => ⟨trivial, fun hquote => ?_⟩⟩
  · have hswaps := evaluates_swapForm cell f args hswap hquote
    have hresets := evaluates_resetForm cell f args hreset hderef hquote
    have hvalue : ∀ v w', Evaluates (swapForm cell f args) scope w (.ok v) w' ↔
        ∃ w₁, Applies f (w.contents cell :: args) scope w (.ok v) w₁ ∧ w' = w₁.store cell v :=
      fun v w' => (at_iff hswaps _ _).trans bind_storing_ok
    refine ⟨fun r w' => ?_, hvalue, fun e w' => ?_, fun hcell v w' h => ?_⟩
    · exact at_iff (hswaps.trans hresets.symm) r w'
    · exact (at_iff hswaps _ _).trans bind_storing_error
    · obtain ⟨w₁, hcall, rfl⟩ := (hvalue v w').mp h
      have hgrows := hcall.arrives.becomes.cells_size_le
      exact contents_store (Nat.lt_of_lt_of_le hcell hgrows) v
  · exact (at_iff (evaluates_callForm f args hquote) r w').symm

/-- A world with an atom that holds 1, and a function that makes it hold
2 and gives its argument. -/
def swapWorld : World :=
  { Session.bare (fun _ => none) [] with cells := #[.int 1] }

def resetting : Value :=
  .closure 0 false ["x"] (.list [.symbol "do",
    .list [.symbol "reset!", quoted (.atom 0), .int 2], .symbol "x"]) 0

theorem swap_eq_reset_resetting :
    swapWorld.find? 0 "swap!" = some (.builtin .swap) ∧
      swapWorld.find? 0 "reset!" = some (.builtin .reset) ∧
      swapWorld.find? 0 "deref" = some (.builtin .deref) ∧ ¬swapWorld.BindsMacro 0 "quote" ∧
      ∃ w', Finishes (swapForm 0 resetting []) 0 swapWorld (.ok (.int 1)) w' ∧
        Finishes (resetForm 0 resetting []) 0 swapWorld (.ok (.int 1)) w' ∧
        w'.contents 0 = .int 1 ∧
        ∃ w₁, AppliedInTurn resetting [.int 1] 0 swapWorld (.ok (.int 1)) w₁ ∧
          w₁.contents 0 = .int 2 ∧ Finishes (callForm resetting [.int 1]) 0 swapWorld
            (.ok (.int 1)) w₁ := by
  obtain ⟨hforms, hways⟩ := swap_eq_reset resetting 0 swapWorld
  have hquote : ¬swapWorld.BindsMacro 0 "quote" := by
    rintro ⟨_, _, _, _, h⟩
    cases h
  obtain ⟨hsame, hvalue, -, hholds⟩ := hforms rfl rfl rfl hquote 0 []
  obtain ⟨w₁, hends, hcontents⟩ : ∃ w₁, (apply (evaluate 9 9) 0 resetting [.int 1]).Ends swapWorld
      (.ok (.int 1)) w₁ ∧ w₁.contents 0 = .int 2 := ⟨_, rfl, rfl⟩
  have happlied : Applied resetting [.int 1] 0 swapWorld (.ok (.int 1)) w₁ := ⟨9, 9, hends⟩
  have hswap := (hvalue _ _).mpr ⟨w₁, happlied, rfl⟩
  obtain ⟨hturn, hcall⟩ := hways [.int 1] (.ok (.int 1)) w₁
  exact ⟨rfl, rfl, rfl, hquote, _, hswap, (hsame _ _).mp hswap, hholds (by decide) _ _ hswap, w₁,
    hturn.mp happlied, hcontents, (hcall hquote).mp happlied⟩

end Lisp
