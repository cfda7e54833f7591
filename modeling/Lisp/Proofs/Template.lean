import Lisp.Proofs.Adequacy
import Lisp.Proofs.Behavior

/-!
# Quasiquotation instantiates templates

A template describes a value with holes in it, and the holes are filled
with the values of expressions (`instantiate`). The evaluator knows
nothing of holes: it rewrites the template into calls of `cons`,
`concat` and `vec` and evaluates these. The two agree as long as the
names that the rewriting uses mean what they should (`Intact`), after
every expression that is evaluated on the way (`Undisturbed`).
-/

namespace Lisp

namespace Template

open Behavior Quasiquote

/-! ## Templates and what they mean -/

/-- The operand of a list that consists of the symbol `name` and one
operand. -/
def operand? (name : String) : Value → Option Value
  | .list [.symbol head, operand] => if head = name then some operand else none
  | _ => none

mutual

/-- The value that a template describes. Expressions are evaluated from
left to right, each one once. What is spliced is looked at when the rest
of the sequence is there. -/
def instantiate (scope : ScopeId) : Value → Behavior Value
  | .list items => match operand? "unquote" (.list items) with
    | some expression => of (Evaluates expression scope)
    | none => do return .list (← instantiateItems scope items)
  | .vector items => do return .vector (← instantiateItems scope items)
  | v => pure v

def instantiateItems (scope : ScopeId) : List Value → Behavior (List Value)
  | [] => pure []
  | item :: rest => match operand? "splice-unquote" item with
    | some expression => do
      let v ← of (Evaluates expression scope)
      let tail ← instantiateItems scope rest
      let elements ← Behavior.lift (Sequence.items .concat v)
      return elements ++ tail
    | none => do
      let v ← instantiate scope item
      let tail ← instantiateItems scope rest
      return v :: tail

end

mutual

/-- The expressions in a template, in the order in which they stand
there. -/
def expressions : Value → List Value
  | .list items => match operand? "unquote" (.list items) with
    | some expression => [expression]
    | none => expressionsOf items
  | .vector items => expressionsOf items
  | _ => []

def expressionsOf : List Value → List Value
  | [] => []
  | item :: rest =>
    (match operand? "splice-unquote" item with
      | some expression => [expression]
      | none => expressions item) ++ expressionsOf rest

end

mutual

/-- What looks like an unquoted or a spliced expression is one. -/
def WellFormed : Value → Prop
  | .list items =>
    if (Value.list items).isForm "unquote" then items.length = 2 else WellFormedItems items
  | .vector items => WellFormedItems items
  | _ => True

def WellFormedItems : List Value → Prop
  | [] => True
  | item :: rest =>
    (if item.isForm "splice-unquote" then item.elements.length = 2 else WellFormed item) ∧
      WellFormedItems rest

end

/-- The names that templates are rewritten with mean what they should. -/
structure Intact (scope : ScopeId) (w : World) : Prop where
  cons : w.find? scope "cons" = some (.builtin .cons)
  concat : w.find? scope "concat" = some (.builtin .concat)
  vec : w.find? scope "vec" = some (.builtin .vec)
  quote : ¬w.BindsMacro scope "quote"

mutual

/-- The names stay intact while the expressions of a template are
evaluated, one after the other. -/
def Undisturbed (scope : ScopeId) : Value → World → Prop
  | .list items, w => match operand? "unquote" (.list items) with
    | some expression => ∀ v w₁, Evaluates expression scope w (.ok v) w₁ → Intact scope w₁
    | none => UndisturbedItems scope items w
  | .vector items, w => UndisturbedItems scope items w
  | _, _ => True

def UndisturbedItems (scope : ScopeId) : List Value → World → Prop
  | [], _ => True
  | item :: rest, w => match operand? "splice-unquote" item with
    | some expression => ∀ v w₁, Evaluates expression scope w (.ok v) w₁ →
      Intact scope w₁ ∧ UndisturbedItems scope rest w₁
    | none => Undisturbed scope item w ∧
      ∀ v w₁, instantiate scope item w (.ok v) w₁ → UndisturbedItems scope rest w₁

end

/-! ## Expressions in templates -/

theorem isForm_iff {name : String} {v : Value} :
    v.isForm name = true ↔ ∃ operands, v = .list (.symbol name :: operands) := by
  unfold Value.isForm
  split
  · next head operands =>
    rw [beq_iff_eq]
    constructor
    · rintro rfl
      exact ⟨operands, rfl⟩
    · rintro ⟨_, heq⟩
      cases heq
      rfl
  · next hne =>
    constructor
    · exact fun h => nomatch h
    · rintro ⟨operands, rfl⟩
      exact absurd rfl (hne name operands)

theorem operand?_eq_none {name : String} {v : Value} (h : v.isForm name = false) :
    operand? name v = none := by
  unfold operand?
  split
  · next head operand =>
    rw [if_neg]
    rintro rfl
    rw [isForm_iff.mpr ⟨[operand], rfl⟩] at h
    cases h
  · rfl

/-- A form with one operand is what the rewriting expects, and no other
form is. -/
theorem argument_eq_ok {name : String} {v operand : Value} (h : v.isForm name = true)
    (harg : argument name v.elements = .ok operand) : v = .list [.symbol name, operand] := by
  obtain ⟨operands, rfl⟩ := isForm_iff.mp h
  match operands, harg with
  | [_], rfl => rfl

theorem operand?_self (name : String) (operand : Value) :
    operand? name (.list [.symbol name, operand]) = some operand := if_pos rfl

theorem argument_of_length {name : String} {items : List Value} (h : items.length = 2) :
    ∃ operand, argument name items = .ok operand := by
  match items, h with
  | [_, operand], _ => exact ⟨operand, rfl⟩

theorem argument_of_length_ne {name : String} {items : List Value} (h : items.length ≠ 2) :
    argument name items = .error (.formArity name "1" (items.length - 1)) := by
  unfold argument
  split
  · exact absurd rfl h
  · rfl

theorem expandItems_cons (item : Value) (rest : List Value) :
    expandItems (item :: rest) = (expandItems rest >>= fun tail =>
      if item.isForm "splice-unquote" then
        (argument "splice-unquote" item.elements).map fun spliced => call "concat" [spliced, tail]
      else (expand item).map fun head => call "cons" [head, tail]) := by
  rw [expandItems]
  cases item.isForm "splice-unquote" <;> rfl

theorem expandItems_ok {item form : Value} {rest : List Value}
    (h : expandItems (item :: rest) = .ok form) :
    ∃ tail, expandItems rest = .ok tail ∧
      ((∃ spliced, item = .list [.symbol "splice-unquote", spliced] ∧
        form = call "concat" [spliced, tail]) ∨
      (item.isForm "splice-unquote" = false ∧ ∃ head, expand item = .ok head ∧
        form = call "cons" [head, tail])) := by
  rw [expandItems_cons] at h
  cases htail : expandItems rest with
  | error cause =>
    rw [htail] at h
    cases h
  | ok tail =>
    have h : (if item.isForm "splice-unquote" then
        (argument "splice-unquote" item.elements).map fun spliced => call "concat" [spliced, tail]
      else (expand item).map fun head => call "cons" [head, tail]) = .ok form := by rwa [htail] at h
    refine ⟨tail, rfl, ?_⟩
    split at h
    · next hitem =>
      cases hspliced : argument "splice-unquote" item.elements with
      | error cause =>
        rw [hspliced] at h
        cases h
      | ok spliced =>
        rw [hspliced] at h
        cases h
        exact Or.inl ⟨spliced, argument_eq_ok hitem hspliced, rfl⟩
    · next hitem =>
      cases hhead : expand item with
      | error cause =>
        rw [hhead] at h
        cases h
      | ok head =>
        rw [hhead] at h
        cases h
        exact Or.inr ⟨Bool.eq_false_iff.mpr hitem, head, rfl, rfl⟩

theorem expand_list {items : List Value} {form : Value}
    (h : expand (.list items) = .ok form) :
    items = [.symbol "unquote", form] ∨
      ((Value.list items).isForm "unquote" = false ∧ expandItems items = .ok form) := by
  rw [expand] at h
  cases hitems : (Value.list items).isForm "unquote" with
  | true =>
    rw [hitems, if_pos rfl] at h
    cases argument_eq_ok hitems h
    exact Or.inl rfl
  | false =>
    rw [hitems, if_neg Bool.false_ne_true] at h
    exact Or.inr ⟨rfl, h⟩

theorem expand_vector {items : List Value} {form : Value}
    (h : expand (.vector items) = .ok form) :
    ∃ built, expandItems items = .ok built ∧ form = call "vec" [built] := by
  rw [expand] at h
  cases hitems : expandItems items with
  | error cause =>
    rw [hitems] at h
    cases h
  | ok built =>
    rw [hitems] at h
    cases h
    exact ⟨built, rfl, rfl⟩

/-! ## The calls that are made -/

section

variable {scope : ScopeId} {w : World}

/-- A call of `cons` or `concat`. -/
theorem evaluates_pair {name : String} {p : Primitive}
    (hfind : w.find? scope name = some (.builtin p)) (hname : SpecialForm.ofName? name = none)
    (head tail : Value) :
    of (Evaluates (call name [head, tail]) scope) w = (do
      let v ← of (Evaluates head scope)
      let u ← of (Evaluates tail scope)
      of (Applies (.builtin p) [v, u] scope)) w := by
  rw [call, evaluates_call hfind hname]
  simp only [evaluatesEach_cons, evaluatesEach_nil, bind_assoc, pure_bind]

theorem evaluates_vec (hw : Intact scope w) (items : Value) :
    of (Evaluates (call "vec" [items]) scope) w = (do
      let v ← of (Evaluates items scope)
      of (Applies (.builtin .vec) [v] scope)) w := by
  rw [call, evaluates_call hw.vec rfl]
  simp only [evaluatesEach_cons, evaluatesEach_nil, bind_assoc, pure_bind]

theorem applies_cons (head : Value) (tail : List Value) :
    of (Applies (.builtin .cons) [head, .list tail] scope) w =
      (pure (.list (head :: tail)) : Behavior Value) w :=
  applies_lift (x := .ok (.list (head :: tail))) (fun h => nomatch h) (fun h => nomatch h)
    fun _ => rfl

theorem concat_pair (v : Value) (tail : List Value) :
    Sequence.concat [v, .list tail] = (Sequence.items .concat v).map (· ++ tail) := by
  rw [Sequence.concat]
  cases Sequence.items .concat v with
  | ok elements => exact congrArg (fun rest => Except.ok (elements ++ rest)) (List.append_nil tail)
  | error cause => rfl

theorem applies_concat (v : Value) (tail : List Value) :
    of (Applies (.builtin .concat) [v, .list tail] scope) w = (do
      let elements ← Behavior.lift (Sequence.items .concat v)
      return .list (elements ++ tail) : Behavior Value) w := by
  have hrun : ∀ evaluate, Primitive.concat.checked evaluate scope [v, .list tail] =
      Action.ofExcept (((Sequence.items .concat v).map (· ++ tail)).map .list) := by
    intro evaluate
    rw [← concat_pair]
    change (Action.ofExcept (Sequence.concat [v, .list tail]) >>= fun vs => pure (Value.list vs)) = _
    cases Sequence.concat [v, .list tail] <;> rfl
  rw [applies_lift (p := .concat) (fun h => nomatch h) (fun h => nomatch h) hrun]
  cases Sequence.items .concat v with
  | ok elements =>
    rw [lift_ok, pure_bind]
    rfl
  | error cause =>
    refine at_ext fun r w' => ⟨fun ⟨hr, hw⟩ => Or.inr ⟨_, ⟨rfl, hw⟩, hr⟩, ?_⟩
    rintro (⟨_, _, ⟨heq, -⟩, -⟩ | ⟨_, ⟨heq, rfl⟩, rfl⟩) <;> cases heq
    exact ⟨rfl, rfl⟩

theorem applies_vec (items : List Value) :
    of (Applies (.builtin .vec) [.list items] scope) w =
      (pure (.vector items) : Behavior Value) w :=
  applies_lift (x := .ok (.vector items)) (fun h => nomatch h) (fun h => nomatch h) fun _ => rfl

/-! ## What stays intact -/

theorem intact_of_instantiateItems {items vs : List Value}
    (hitems : ∀ t ∈ items, ∀ (w w₁ : World) (v : Value), Intact scope w → Undisturbed scope t w →
      instantiate scope t w (.ok v) w₁ → Intact scope w₁)
    {w₁ : World} (hw : Intact scope w) (hquiet : UndisturbedItems scope items w)
    (h : instantiateItems scope items w (.ok vs) w₁) : Intact scope w₁ := by
  induction items generalizing w vs with
  | nil =>
    obtain ⟨-, rfl⟩ := h
    exact hw
  | cons item rest ih =>
    obtain ⟨hitem, hrest⟩ := List.forall_mem_cons.mp hitems
    unfold UndisturbedItems at hquiet
    unfold instantiateItems at h
    split at hquiet
    · next expression hoperand =>
      rw [hoperand] at h
      obtain ⟨v, w₂, hv, h⟩ := bind_ok.mp h
      obtain ⟨tail, w₃, htail, h⟩ := bind_ok.mp h
      obtain ⟨elements, w₄, ⟨-, rfl⟩, -, rfl⟩ := bind_ok.mp h
      obtain ⟨hw₂, hquiet⟩ := hquiet v w₂ hv
      exact ih hrest hw₂ hquiet htail
    · next hoperand =>
      rw [hoperand] at h
      obtain ⟨v, w₂, hv, h⟩ := bind_ok.mp h
      obtain ⟨tail, w₃, htail, -, rfl⟩ := bind_ok.mp h
      have hw₂ := hitem w w₂ v hw hquiet.1 hv
      exact ih hrest hw₂ (hquiet.2 v w₂ hv) htail

theorem intact_of_instantiate {t v : Value} {w₁ : World} (hw : Intact scope w)
    (hquiet : Undisturbed scope t w) (h : instantiate scope t w (.ok v) w₁) :
    Intact scope w₁ := by
  induction t using Value.byChildren generalizing w v w₁ with
  | step t ih =>
    have hitems : ∀ item ∈ t.elements, ∀ (w w₁ : World) (v : Value), Intact scope w →
        Undisturbed scope item w → instantiate scope item w (.ok v) w₁ → Intact scope w₁ := by
      intro item hitem w w₁ v
      exact ih item (Value.element_mem_children hitem)
    cases t with
    | list items =>
      unfold Undisturbed at hquiet
      unfold instantiate at h
      split at hquiet
      · next hoperand =>
        rw [hoperand] at h
        exact hquiet v w₁ h
      · next hoperand =>
        rw [hoperand] at h
        obtain ⟨vs, _, h, -, rfl⟩ := bind_ok.mp h
        exact intact_of_instantiateItems hitems hw hquiet h
    | vector items =>
      unfold Undisturbed at hquiet
      unfold instantiate at h
      obtain ⟨vs, _, h, -, rfl⟩ := bind_ok.mp h
      exact intact_of_instantiateItems hitems hw hquiet h
    | _ =>
      obtain ⟨-, rfl⟩ := h
      exact hw

/-! ## The rewriting -/

/-- What is known of the elements of a sequence is known of the list
that is built of them. -/
theorem evaluates_expandItems {items : List Value} {form : Value}
    (hitems : ∀ t ∈ items, ∀ (form : Value) (w : World), expand t = .ok form → Intact scope w →
      Undisturbed scope t w → of (Evaluates form scope) w = instantiate scope t w)
    (hform : expandItems items = .ok form) (hw : Intact scope w)
    (hquiet : UndisturbedItems scope items w) :
    of (Evaluates form scope) w =
      (do return .list (← instantiateItems scope items) : Behavior Value) w := by
  induction items generalizing form w with
  | nil =>
    cases hform
    rw [evaluates_emptyList, instantiateItems, pure_bind]
  | cons item rest ih =>
    obtain ⟨hfirst, hrest⟩ := List.forall_mem_cons.mp hitems
    unfold UndisturbedItems at hquiet
    unfold instantiateItems
    obtain ⟨tail, htail, hform⟩ := expandItems_ok hform
    rcases hform with ⟨expression, rfl, rfl⟩ | ⟨hitem, head, hhead, rfl⟩
    · rw [operand?_self] at hquiet ⊢
      simp only [bind_assoc]
      rw [evaluates_pair hw.concat rfl]
      refine bind_congr_at rfl fun v w₁ hv => ?_
      obtain ⟨hw₁, hquiet⟩ := hquiet v w₁ hv
      rw [bind_congr_at (ih hrest htail hw₁ hquiet) fun _ _ _ => rfl]
      simp only [bind_assoc, pure_bind]
      exact bind_congr_at rfl fun tail w₂ _ => applies_concat v tail
    · rw [operand?_eq_none hitem] at hquiet ⊢
      simp only [bind_assoc, pure_bind]
      rw [evaluates_pair hw.cons rfl]
      refine bind_congr_at (hfirst head w hhead hw hquiet.1) fun v w₁ hv => ?_
      have hw₁ := intact_of_instantiate hw hquiet.1 hv
      rw [bind_congr_at (ih hrest htail hw₁ (hquiet.2 v w₁ hv)) fun _ _ _ => rfl]
      simp only [bind_assoc, pure_bind]
      exact bind_congr_at rfl fun tail w₂ _ => applies_cons v tail

/-- The rewritten template does what the template describes. -/
theorem evaluates_expand {t form : Value} (hform : expand t = .ok form) (hw : Intact scope w)
    (hquiet : Undisturbed scope t w) : of (Evaluates form scope) w = instantiate scope t w := by
  induction t using Value.byChildren generalizing form w with
  | step t ih =>
    have hitems : ∀ item ∈ t.elements, ∀ (form : Value) (w : World), expand item = .ok form →
        Intact scope w → Undisturbed scope item w →
          of (Evaluates form scope) w = instantiate scope item w := by
      intro item hitem form w
      exact ih item (Value.element_mem_children hitem)
    cases t with
    | list items =>
      unfold Undisturbed at hquiet
      unfold instantiate
      rcases expand_list hform with rfl | ⟨hlist, hform⟩
      · rw [operand?_self]
      · rw [operand?_eq_none hlist] at hquiet ⊢
        exact evaluates_expandItems hitems hform hw hquiet
    | vector items =>
      unfold Undisturbed at hquiet
      unfold instantiate
      obtain ⟨built, hbuilt, rfl⟩ := expand_vector hform
      rw [evaluates_vec hw, bind_congr_at (evaluates_expandItems hitems hbuilt hw hquiet)
        fun _ _ _ => rfl]
      simp only [bind_assoc, pure_bind]
      exact bind_congr_at rfl fun vs w₁ _ => applies_vec vs
    | map _ | symbol _ =>
      cases hform
      rw [call, evaluates_quote hw.quote]
      rfl
    | _ =>
      cases hform
      exact evaluates_self trivial

end

/-! ## Faulty templates -/

/-- The error of something that only looks like an expression in a
template. -/
def Faulty (cause : Cause) : Prop :=
  ∃ name n, (name = "unquote" ∨ name = "splice-unquote") ∧ n ≠ 1 ∧ cause = .formArity name "1" n

/-- The rewriting has a result exactly if the template is well formed. -/
def Judged (wellFormed : Prop) (result : Except Cause Value) : Prop :=
  (wellFormed ∧ ∃ form, result = .ok form) ∨
    (¬wellFormed ∧ ∃ cause, Faulty cause ∧ result = .error cause)

theorem Judged.map {p : Prop} {x : Except Cause Value} (h : Judged p x) (f : Value → Value) :
    Judged p (x.map f) := by
  rcases h with ⟨hp, form, rfl⟩ | ⟨hp, cause, hcause, rfl⟩
  · exact Or.inl ⟨hp, f form, rfl⟩
  · exact Or.inr ⟨hp, cause, hcause, rfl⟩

theorem Judged.bind {p q : Prop} {x : Except Cause Value} {f : Value → Except Cause Value}
    (h : Judged p x) (hf : ∀ form, Judged q (f form)) : Judged (q ∧ p) (x >>= f) := by
  rcases h with ⟨hp, form, rfl⟩ | ⟨hp, cause, hcause, rfl⟩
  · rcases hf form with ⟨hq, h⟩ | ⟨hq, h⟩
    · exact Or.inl ⟨⟨hq, hp⟩, h⟩
    · exact Or.inr ⟨fun hqp => hq hqp.1, h⟩
  · exact Or.inr ⟨fun hqp => hp hqp.2, cause, hcause, rfl⟩

theorem judged_argument {name : String} (hname : name = "unquote" ∨ name = "splice-unquote")
    {v : Value} (h : v.isForm name = true) :
    Judged (v.elements.length = 2) (argument name v.elements) := by
  obtain ⟨operands, rfl⟩ := isForm_iff.mp h
  by_cases hlength : (Value.list (.symbol name :: operands)).elements.length = 2
  · exact Or.inl ⟨hlength, argument_of_length hlength⟩
  · refine Or.inr ⟨hlength, _, ⟨name, operands.length, hname, ?_, rfl⟩,
      argument_of_length_ne hlength⟩
    rw [Value.elements_list, List.length_cons] at hlength
    omega

theorem judged_expandItems {items : List Value}
    (hitems : ∀ t ∈ items, Judged (WellFormed t) (expand t)) :
    Judged (WellFormedItems items) (expandItems items) := by
  induction items with
  | nil => exact Or.inl ⟨trivial, _, rfl⟩
  | cons item rest ih =>
    obtain ⟨hfirst, hrest⟩ := List.forall_mem_cons.mp hitems
    rw [expandItems_cons, WellFormedItems]
    refine (ih hrest).bind fun tail => ?_
    by_cases hitem : item.isForm "splice-unquote" = true
    · rw [if_pos hitem, if_pos hitem]
      exact (judged_argument (Or.inr rfl) hitem).map _
    · rw [if_neg hitem, if_neg hitem]
      exact hfirst.map _

theorem judged_expand (t : Value) : Judged (WellFormed t) (expand t) := by
  induction t using Value.byChildren with
  | step t ih =>
    have hitems : ∀ item ∈ t.elements, Judged (WellFormed item) (expand item) :=
      fun item hitem => ih item (Value.element_mem_children hitem)
    cases t with
    | list items =>
      rw [expand, WellFormed]
      by_cases h : (Value.list items).isForm "unquote" = true
      · rw [if_pos h, if_pos h]
        exact judged_argument (Or.inl rfl) h
      · rw [if_neg h, if_neg h]
        exact judged_expandItems hitems
    | vector items =>
      rw [expand, WellFormed]
      exact (judged_expandItems hitems).map fun built => call "vec" [built]
    | _ => exact Or.inl ⟨trivial, _, rfl⟩

/-! ## The order of evaluation -/

/-- The error of splicing something that is no sequence. -/
def SpliceError (e : Error) : Prop :=
  ∃ found, e = .raised (.operand .concat "List or Vector" found)

/-- The expressions are evaluated in order, each one once: all of them
if there is a value, and some of them if there is an error. The error is
that of the last one, or it is an error of splicing. -/
def Visits (scope : ScopeId) (forms : List Value) (w : World) {α : Type} :
    Except Error α → World → Prop
  | .ok _, w' => ∃ vs, EvaluatesEach forms scope w (.ok vs) w'
  | .error e, w' => ∃ done left, forms = done ++ left ∧
    (EvaluatesEach done scope w (.error e) w' ∨
      (SpliceError e ∧ ∃ vs, EvaluatesEach done scope w (.ok vs) w'))

section

variable {scope : ScopeId} {α β : Type} {w w₁ w' : World} {forms more : List Value}

theorem visits_one {expression : Value} {r : Except Error Value}
    (h : Evaluates expression scope w r w') : Visits scope [expression] w r w' := by
  cases r with
  | ok v => exact ⟨[v], .cons h .nil⟩
  | error e => exact ⟨[expression], [], rfl, Or.inl (.headFails h)⟩

theorem each_append {vs : List Value} {us : Except Error (List Value)}
    (h : EvaluatesEach forms scope w (.ok vs) w₁) (h' : EvaluatesEach more scope w₁ us w') :
    EvaluatesEach (forms ++ more) scope w (us.map (vs ++ ·)) w' := by
  change of (EvaluatesEach (forms ++ more) scope) w _ w'
  rw [evaluatesEach_append]
  refine Or.inl ⟨vs, w₁, h, ?_⟩
  cases us with
  | ok us => exact Or.inl ⟨us, w', h', rfl, rfl⟩
  | error e => exact Or.inr ⟨e, h', rfl⟩

theorem Visits.then {a : α} {r : Except Error β} (h : Visits scope forms w (.ok a) w₁)
    (h' : Visits scope more w₁ r w') : Visits scope (forms ++ more) w r w' := by
  obtain ⟨vs, h⟩ := h
  cases r with
  | ok b =>
    obtain ⟨us, h'⟩ := h'
    exact ⟨vs ++ us, each_append h h'⟩
  | error e =>
    obtain ⟨done, left, rfl, h'⟩ := h'
    refine ⟨forms ++ done, left, (List.append_assoc ..).symm, ?_⟩
    rcases h' with h' | ⟨he, us, h'⟩
    · exact Or.inl (each_append h h')
    · exact Or.inr ⟨he, vs ++ us, each_append h h'⟩

theorem Visits.stop {e : Error} (h : Visits scope forms w (.error e : Except Error α) w') :
    Visits scope (forms ++ more) w (.error e : Except Error β) w' := by
  obtain ⟨done, left, rfl, h⟩ := h
  exact ⟨done, left ++ more, List.append_assoc .., h⟩

/-- What goes on after a value goes on with the expressions. -/
theorem Visits.bind {x : Behavior α} {f : α → Behavior β} {r : Except Error β}
    (hx : ∀ {r w'}, x w r w' → Visits scope forms w r w')
    (hf : ∀ {a w₁ r w'}, f a w₁ r w' → Visits scope more w₁ r w') (h : (x >>= f) w r w') :
    Visits scope (forms ++ more) w r w' := by
  rcases h with ⟨a, w₁, ha, h⟩ | ⟨e, h, rfl⟩
  · exact (hx ha).then (hf h)
  · exact (hx h).stop

theorem visits_pure {a : α} {r : Except Error α} (h : (pure a : Behavior α) w r w') :
    Visits scope [] w r w' := by
  obtain ⟨rfl, rfl⟩ := h
  exact ⟨[], .nil⟩

/-- Splicing evaluates nothing. -/
theorem visits_items {v : Value} {r : Except Error (List Value)}
    (h : Behavior.lift (Sequence.items .concat v) w r w') : Visits scope [] w r w' := by
  obtain ⟨rfl, rfl⟩ := h
  cases v with
  | list _ | vector _ | nil => exact ⟨[], .nil⟩
  | _ => exact ⟨[], [], rfl, Or.inr ⟨⟨_, rfl⟩, [], .nil⟩⟩

theorem visits_instantiateItems {items : List Value} {r : Except Error (List Value)}
    (hitems : ∀ t ∈ items, ∀ (w w' : World) (r : Except Error Value),
      instantiate scope t w r w' → Visits scope (expressions t) w r w')
    (h : instantiateItems scope items w r w') : Visits scope (expressionsOf items) w r w' := by
  induction items generalizing w r w' with
  | nil => exact visits_pure h
  | cons item rest ih =>
    obtain ⟨hfirst, hrest⟩ := List.forall_mem_cons.mp hitems
    unfold instantiateItems at h
    unfold expressionsOf
    split
    · next expression hoperand =>
      rw [hoperand] at h
      refine Visits.bind visits_one (fun {v} _ _ _ h => ?_) h
      rw [← List.append_nil (expressionsOf rest)]
      refine Visits.bind (ih hrest) (fun {tail} _ _ _ h => ?_) h
      exact Visits.bind visits_items visits_pure h
    · next hoperand =>
      rw [hoperand] at h
      refine Visits.bind (hfirst _ _ _) (fun {v} _ _ _ h => ?_) h
      rw [← List.append_nil (expressionsOf rest)]
      exact Visits.bind (ih hrest) visits_pure h

theorem visits_instantiate {t : Value} {r : Except Error Value}
    (h : instantiate scope t w r w') : Visits scope (expressions t) w r w' := by
  induction t using Value.byChildren generalizing w r w' with
  | step t ih =>
    have hitems : ∀ item ∈ t.elements, ∀ (w w' : World) (r : Except Error Value),
        instantiate scope item w r w' → Visits scope (expressions item) w r w' := by
      intro item hitem w w' r
      exact ih item (Value.element_mem_children hitem)
    cases t with
    | list items =>
      unfold instantiate at h
      unfold expressions
      split
      · next expression hoperand =>
        rw [hoperand] at h
        exact visits_one h
      · next hoperand =>
        rw [hoperand] at h
        rw [← List.append_nil (expressionsOf items)]
        exact Visits.bind (visits_instantiateItems hitems) visits_pure h
    | vector items =>
      unfold instantiate at h
      unfold expressions
      rw [← List.append_nil (expressionsOf items)]
      exact Visits.bind (visits_instantiateItems hitems) visits_pure h
    | _ => exact visits_pure h

end

/-! ## The evaluator -/

/-- Evaluating a quasiquoted template instantiates it. -/
theorem finishes_quasiquote {scope : ScopeId} {t : Value} {w : World}
    (hquasiquote : ¬w.BindsMacro scope "quasiquote") (hw : Intact scope w)
    (hquiet : Undisturbed scope t w) (ht : WellFormed t) (r : Except Error Value) (w' : World) :
    Finishes (.list [.symbol "quasiquote", t]) scope w r w' ↔ instantiate scope t w r w' := by
  obtain ⟨form, hform⟩ : ∃ form, expand t = .ok form := by
    rcases judged_expand t with ⟨-, h⟩ | ⟨h, -⟩
    · exact h
    · exact absurd ht h
  rw [finishes_iff]
  change of (Evaluates _ scope) w r w' ↔ _
  rw [evaluates_quasiquote hquasiquote, hform, lift_ok, pure_bind,
    evaluates_expand hform hw hquiet]

/-- A faulty template is an error at once. -/
theorem finishes_quasiquote_faulty {scope : ScopeId} {t : Value} {w : World}
    (hquasiquote : ¬w.BindsMacro scope "quasiquote") (ht : ¬WellFormed t) :
    ∃ cause, Faulty cause ∧ ∀ r w',
      Finishes (.list [.symbol "quasiquote", t]) scope w r w' ↔
        r = .error (.raised cause) ∧ w' = w := by
  obtain ⟨cause, hcause, hform⟩ : ∃ cause, Faulty cause ∧ expand t = .error cause := by
    rcases judged_expand t with ⟨h, -⟩ | ⟨-, h⟩
    · exact absurd h ht
    · exact h
  refine ⟨cause, hcause, fun r w' => ?_⟩
  rw [finishes_iff]
  change of (Evaluates _ scope) w r w' ↔ _
  rw [evaluates_quasiquote hquasiquote, hform]
  constructor
  · rintro (⟨_, _, ⟨heq, -⟩, -⟩ | ⟨_, ⟨heq, rfl⟩, rfl⟩) <;> cases heq
    exact ⟨rfl, rfl⟩
  · rintro ⟨rfl, rfl⟩
    exact Or.inr ⟨_, ⟨rfl, rfl⟩, rfl⟩

/-- If the template is well formed and the names that it is rewritten
with mean what they should, evaluating a quasiquoted template does what
the template describes, result, effects and all; and the expressions in
it are evaluated in order, each one once, up to the first that fails. A
template that is not well formed is an error, and nothing is
evaluated. -/
theorem quasiquote_instantiates (scope : ScopeId) (t : Value) (w : World)
    (hquasiquote : ¬w.BindsMacro scope "quasiquote") :
    (WellFormed t → Intact scope w → Undisturbed scope t w →
      (∀ r w', Finishes (.list [.symbol "quasiquote", t]) scope w r w' ↔
        instantiate scope t w r w') ∧
      ∀ r w', instantiate scope t w r w' → Visits scope (expressions t) w r w') ∧
    (¬WellFormed t → ∃ cause, Faulty cause ∧ ∀ r w',
      Finishes (.list [.symbol "quasiquote", t]) scope w r w' ↔
        r = .error (.raised cause) ∧ w' = w) :=
  ⟨fun ht hw hquiet => ⟨finishes_quasiquote hquasiquote hw hquiet ht,
    fun _ _ => visits_instantiate⟩, finishes_quasiquote_faulty hquasiquote⟩

/-- A world with the names that templates need, and no others. -/
def sampleWorld : World :=
  { World.empty (fun _ => none) with
    scopes := #[⟨none, [("cons", .builtin .cons), ("concat", .builtin .concat),
      ("vec", .builtin .vec)]⟩] }

theorem intact_sampleWorld : Intact 0 sampleWorld :=
  ⟨rfl, rfl, rfl, fun ⟨_, _, _, _, h⟩ => nomatch h⟩

theorem not_bindsMacro_sampleWorld : ¬sampleWorld.BindsMacro 0 "quasiquote" :=
  fun ⟨_, _, _, _, h⟩ => nomatch h

/-- A list that starts like an unquoted expression and is none. -/
def faultyTemplate : Value := .list [.symbol "unquote", .int 1, .int 2]

theorem not_wellFormed_faultyTemplate : ¬WellFormed faultyTemplate := by
  simp [faultyTemplate, WellFormed, Value.isForm]

/-- What a list describes that is not an unquoted expression is not what
its evaluation gives if it looks like one. -/
theorem faultyTemplate_not_instantiated :
    Intact 0 sampleWorld ∧ ¬sampleWorld.BindsMacro 0 "quasiquote" ∧
      Undisturbed 0 faultyTemplate sampleWorld ∧
      instantiate 0 faultyTemplate sampleWorld (.ok faultyTemplate) sampleWorld ∧
      ¬Finishes (.list [.symbol "quasiquote", faultyTemplate]) 0 sampleWorld
        (.ok faultyTemplate) sampleWorld := by
  refine ⟨intact_sampleWorld, not_bindsMacro_sampleWorld, ?_, ?_, ?_⟩
  · exact ⟨trivial, fun _ _ _ => ⟨trivial, fun _ _ _ => ⟨trivial, fun _ _ _ => trivial⟩⟩⟩
  · refine Or.inl ⟨_, _, Or.inl ⟨_, _, ⟨rfl, rfl⟩, Or.inl ⟨_, _, ?_, rfl, rfl⟩⟩, rfl, rfl⟩
    refine Or.inl ⟨_, _, ⟨rfl, rfl⟩, Or.inl ⟨_, _, ?_, rfl, rfl⟩⟩
    exact Or.inl ⟨_, _, ⟨rfl, rfl⟩, Or.inl ⟨_, _, ⟨rfl, rfl⟩, rfl, rfl⟩⟩
  · obtain ⟨_, _, h⟩ :=
      finishes_quasiquote_faulty not_bindsMacro_sampleWorld not_wellFormed_faultyTemplate
    rw [h]
    exact fun h => nomatch h.1

/-- A vector of a name, an unquoted expression and a spliced one. -/
def sampleTemplate : Value :=
  .vector [.symbol "a", .list [.symbol "unquote", .int 1],
    .list [.symbol "splice-unquote", .vector [.int 2, .int 3]]]

theorem undisturbed_sampleTemplate : Undisturbed 0 sampleTemplate sampleWorld := by
  have hint : Evaluates (.int 1) 0 sampleWorld (.ok (.int 1)) sampleWorld :=
    evaluate_sound 9 9 rfl
  have hvector : Evaluates (.vector [.int 2, .int 3]) 0 sampleWorld
      (.ok (.vector [.int 2, .int 3])) sampleWorld := evaluate_sound 9 9 rfl
  refine ⟨trivial, ?_⟩
  rintro _ _ ⟨-, rfl⟩
  refine ⟨fun v w₁ h => ?_, fun v w₁ h => ?_⟩
  · rw [(h.unique hint).2]
    exact intact_sampleWorld
  · obtain ⟨-, rfl⟩ := Evaluates.unique h hint
    refine fun v w₁ h => ?_
    rw [(h.unique hvector).2]
    exact ⟨intact_sampleWorld, trivial⟩

theorem sampleTemplate_instantiated :
    ¬sampleWorld.BindsMacro 0 "quasiquote" ∧ WellFormed sampleTemplate ∧ Intact 0 sampleWorld ∧
      Undisturbed 0 sampleTemplate sampleWorld ∧
      instantiate 0 sampleTemplate sampleWorld
        (.ok (.vector [.symbol "a", .int 1, .int 2, .int 3])) sampleWorld ∧
      (∃ vs, EvaluatesEach [.int 1, .vector [.int 2, .int 3]] 0 sampleWorld (.ok vs)
        sampleWorld) ∧
      ∃ cause, Faulty cause ∧ Finishes (.list [.symbol "quasiquote", faultyTemplate]) 0
        sampleWorld (.error (.raised cause)) sampleWorld := by
  have ht : WellFormed sampleTemplate := by
    simp [sampleTemplate, WellFormed, WellFormedItems, Value.isForm]
  obtain ⟨hwell, -⟩ := quasiquote_instantiates 0 sampleTemplate sampleWorld
    not_bindsMacro_sampleWorld
  obtain ⟨hiff, hvisits⟩ := hwell ht intact_sampleWorld undisturbed_sampleTemplate
  have h := (hiff (.ok (.vector [.symbol "a", .int 1, .int 2, .int 3])) sampleWorld).mp
    ⟨9, 9, rfl⟩
  obtain ⟨-, hfaulty⟩ := quasiquote_instantiates 0 faultyTemplate sampleWorld
    not_bindsMacro_sampleWorld
  obtain ⟨cause, hcause, herror⟩ := hfaulty not_wellFormed_faultyTemplate
  exact ⟨not_bindsMacro_sampleWorld, ht, intact_sampleWorld, undisturbed_sampleTemplate, h,
    hvisits _ _ h, cause, hcause, (herror _ _).mpr ⟨rfl, rfl⟩⟩

end Template

end Lisp
