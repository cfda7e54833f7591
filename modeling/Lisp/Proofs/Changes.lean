import Lisp.Proofs.Evolution
import Lisp.Proofs.Semantics
import Mathlib.Logic.Relation

/-!
# Changes of a world

Whatever is done to a world is a sequence of single changes: a name is
defined, a scope or a cell is added, a cell gets new contents, a number
is used up, text is written (`Change`). What every single change keeps,
any number of them keeps: scopes keep their parents, and no scope or
cell is lost. A primitive that evaluates nothing makes only such changes
(`Primitive.changing_checked`).
-/

namespace Lisp

namespace World

/-- One change of a world. -/
inductive Change : World → World → Prop
  | define (w : World) (scope : ScopeId) (name : String) (v : Value) :
      Change w (w.define scope name v)
  | enter (w : World) (parent : ScopeId) (bindings : List (String × Value)) :
      Change w (w.enter parent bindings)
  | count (w : World) : Change w w.count
  | newCell (w : World) (v : Value) : Change w { w with cells := w.cells.push v }
  | store (w : World) (cell : CellId) (v : Value) : Change w (w.store cell v)
  | write (w : World) (text : String) : Change w { w with output := text }

/-- Any number of changes. -/
def Becomes : World → World → Prop := Relation.ReflTransGen Change

variable {w w₁ w' : World}

namespace Becomes

theorem refl : w.Becomes w := Relation.ReflTransGen.refl

theorem trans (h : w.Becomes w₁) (h' : w₁.Becomes w') : w.Becomes w' :=
  Relation.ReflTransGen.trans h h'

theorem single (h : Change w w') : w.Becomes w' := Relation.ReflTransGen.single h

theorem after (h : Change w w₁) (h' : w₁.Becomes w') : w.Becomes w' :=
  Relation.ReflTransGen.head h h'

theorem before (h : w.Becomes w₁) (h' : Change w₁ w') : w.Becomes w' :=
  Relation.ReflTransGen.tail h h'

end Becomes

/-! ## What changes keep -/

theorem Change.cells_size_le (h : Change w w') : w.cells.size ≤ w'.cells.size := by
  cases h <;> simp [World.define, World.enter, World.count, World.store]

/-- No cell is lost. -/
theorem Becomes.cells_size_le (h : w.Becomes w') : w.cells.size ≤ w'.cells.size := by
  induction h with
  | refl => exact Nat.le_refl _
  | tail _ hchange ih => exact Nat.le_trans ih hchange.cells_size_le

theorem Change.remain (h : Change w w') : Scope.Remain w.scopes w'.scopes := by
  cases h with
  | define target name v => exact Scope.remain_define target name v
  | enter parent bindings => exact Scope.remain_push _
  | count | newCell | store | write => exact Scope.Remain.refl

/-- Scopes stay, and so do their parents. -/
theorem Becomes.remain (h : w.Becomes w') : Scope.Remain w.scopes w'.scopes := by
  induction h with
  | refl => exact Scope.Remain.refl
  | tail _ hchange ih => exact ih.trans hchange.remain

theorem Becomes.parentless (h : w.Becomes w') {s : ScopeId} (hs : w.Parentless s) :
    w'.Parentless s := by
  obtain ⟨scope, hscope, hparent⟩ := hs
  obtain ⟨later, hlater, heq⟩ := h.remain hscope
  exact ⟨later, hlater, heq.trans hparent⟩

/-- A scope without a parent is the outermost one. -/
theorem Parentless.root {s : ScopeId} (h : w.Parentless s) : w.root s = s := by
  obtain ⟨scope, hscope, hparent⟩ := h
  simp [World.root, rootFrom, hscope, hparent]

theorem contents_store {cell : CellId} (h : cell < w.cells.size) (v : Value) :
    (w.store cell v).contents cell = v := by
  simp [World.store, World.contents, h]

end World

/-! ## Primitives -/

/-- The world of the outcome comes of `w` by changes. -/
def Outcome.Changes {α : Type} (w : World) : Outcome α → Prop
  | .value _ w' | .failure _ w' => w.Becomes w'
  | .halted _ => True

namespace Action

open World

variable {α β : Type}

/-- All that the action does to a world is to change it. -/
def Changing (x : Action α) : Prop := ∀ w, (x w).Changes w

theorem Changing.ends {x : Action α} (h : Changing x) {w w' : World} {r : Except Error α}
    (hends : x.Ends w r w') : w.Becomes w' := by
  have h := h w
  rw [hends] at h
  cases r <;> exact h

theorem changing_pure {a : α} : Changing (pure a) := fun _ => Becomes.refl

theorem changing_fail {cause : Cause} : Changing (fail cause : Action α) := fun _ => Becomes.refl

theorem changing_halt {why : Halt} : Changing (halt why : Action α) := fun _ => trivial

theorem Changing.bind {x : Action α} {f : α → Action β} (h : Changing x)
    (h' : ∀ a, Changing (f a)) : Changing (x >>= f) := by
  intro w
  have hx := h w
  rw [bind_apply]
  cases houtcome : x w with
  | value a w₁ =>
    rw [houtcome] at hx
    have hf := h' a w₁
    dsimp only
    cases hrest : f a w₁ with
    | value b w₂ | failure e w₂ =>
      rw [hrest] at hf
      exact Becomes.trans hx hf
    | halted why => exact trivial
  | failure e w₁ =>
    rw [houtcome] at hx
    exact hx
  | halted why => exact trivial

theorem changing_ofExcept {x : Except Cause α} : Changing (ofExcept x) := by
  cases x with
  | ok a => exact changing_pure
  | error cause => exact changing_fail

theorem changing_ask {f : World → α} {g : α → Action β} (h : ∀ a, Changing (g a)) :
    Changing (ask f >>= g) := fun w => h (f w) w

theorem changing_freshObject : Changing freshObject := fun w => Becomes.single (.count w)

theorem changing_newCell (v : Value) : Changing (newCell v) := fun w => Becomes.single (.newCell w v)

theorem changing_store (cell : CellId) (v : Value) : Changing (store cell v) :=
  fun w => Becomes.single (.store w cell v)

theorem changing_contents (cell : CellId) : Changing (contents cell) := fun _ => Becomes.refl

theorem changing_writeLine (text : String) : Changing (writeLine text) :=
  fun w => Becomes.single (.write w _)

theorem changing_readFile (path : String) : Changing (readFile path) := by
  intro w
  unfold readFile
  split
  · exact Becomes.refl
  · exact Becomes.refl
  · exact trivial

theorem changing_readForm (source : String) : Changing (Primitive.readForm source) := by
  intro w
  unfold Primitive.readForm
  split <;> exact Becomes.refl

end Action

namespace Primitive

open Lisp.Action

theorem changing_computed (result : Except Cause Number) : Changing (computed result) := by
  refine changing_ofExcept.bind fun number => ?_
  match number with
  | .whole n => exact changing_pure
  | .float (some x) => exact changing_pure
  | .float none => exact changing_freshObject.bind fun _ => changing_pure

theorem changing_basic {evaluate : Evaluator} {scope : ScopeId} {p : Primitive} {args : List Value}
    (hevaluate : ∀ form scope, Changing (evaluate form scope)) :
    Changing (basic evaluate scope p args) := by
  fun_cases basic evaluate scope p args with
  | case1 | case2 | case3 | case4 => exact changing_computed _
  | case5 | case10 | case11 | case34 => exact changing_pure
  | case12 | case15 | case17 | case18 | case19 | case20 | case22 => exact changing_ofExcept
  | case6 | case7 | case8 | case9 | case13 | case14 | case16 | case21 =>
    exact changing_ofExcept.bind fun _ => changing_pure
  | case23 | case24 => exact changing_ask fun _ => changing_pure
  | case25 | case26 =>
    exact changing_ask fun _ => (changing_writeLine _).bind fun _ => changing_pure
  | case27 => exact changing_ofExcept.bind changing_readForm
  | case28 =>
    exact changing_ofExcept.bind fun path => (changing_readFile path).bind fun _ => changing_pure
  | case29 v => exact (changing_newCell v).bind fun _ => changing_pure
  | case30 => exact changing_ofExcept.bind fun cell => changing_contents cell
  | case31 target v =>
    exact changing_ofExcept.bind fun cell => (changing_store cell v).bind fun _ => changing_pure
  | case32 form => exact changing_ask fun root => hevaluate form root
  | case33 => exact changing_ask fun _ => changing_fail
  | case35 | case36 => exact changing_halt

theorem changing_checked {evaluate : Evaluator} {scope : ScopeId} {p : Primitive}
    {args : List Value} (hevaluate : ∀ form scope, Changing (evaluate form scope)) :
    Changing (p.checked evaluate scope args) := by
  rw [checked]
  split
  · split
    · exact changing_basic hevaluate
    · exact changing_fail
  · exact changing_basic hevaluate

end Primitive

end Lisp
