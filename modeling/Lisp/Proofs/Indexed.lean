import Lisp.Proofs.Descent
import Lisp.Proofs.Turns

/-!
# Evaluation by index

Forms and arguments come as sequences, and a program that cannot take a
sequence apart by its shape looks at its length first and then takes the
elements by their offsets. Such a program is written down here: every
part of a form, every binding of `let*`, every parameter and every
argument is an access that has to be in range, and faults if it is not
(`Halt.fault`). The checks that keep the accesses in range stand where
they are made, which is often not where the access is: a primitive
relies on a number of arguments that its caller has compared with a
table, a special form on a length compared in its first line, the
binding of a call on one comparison for all its parameters.

Step by step the two are shown to be the same function, for every form,
every world and every evaluator for what is nested inside: templates,
parameter lists, the binding of calls, primitives, the application of
functions, special forms, turns. So the whole evaluation is the same
(`Indexed.evaluate_eq`).
-/

namespace Lisp

/-- The table of the primitives. -/
theorem Primitive.arity_cases (p : Primitive) :
    p.arity = none ∨ p.arity = some 1 ∨ p.arity = some 2 := by
  cases p <;> decide

namespace Indexed

open Lisp.Action (ofExcept)

/-! ## Accesses in an action -/

section

variable {α : Type}

/-- The result of an access, which has to be in range. -/
def inRange : Option α → Action α
  | some a => pure a
  | none => Action.halt .fault

@[simp] theorem inRange_some (a : α) : inRange (some a) = pure a := rfl

/-- The element at an index. -/
def item (xs : List α) (i : Nat) : Action α := inRange xs[i]?

/-- A computation with accesses, and its errors, as an action. -/
def computation (x : ExceptT Cause Option α) : Action α := do ofExcept (← inRange x.run)

theorem run_bind {α β : Type} {x : ExceptT Cause Option α} {r : Except Cause α}
    {f : α → ExceptT Cause Option β} {g : α → Except Cause β} (h : x.run = some r)
    (hf : ∀ a, r = .ok a → (f a).run = some (g a)) : (x >>= f).run = some (r >>= g) := by
  rw [ExceptT.run_bind, h]
  cases r with
  | ok a => exact hf a rfl
  | error cause => rfl

/-- What is found is what is gone on with. -/
theorem access_bind {α β : Type} (a : α) (f : α → ExceptT Cause Option β) :
    ((liftM (some a) : ExceptT Cause Option α) >>= f) = f a := rfl

theorem computation_some {x : ExceptT Cause Option α} {r : Except Cause α} (h : x.run = some r) :
    computation x = ofExcept r := by
  rw [computation, h]
  rfl

end

/-! ## Reading -/

/-- Reads the first form of a text. -/
def readForm (source : String) : Action Value := do
  match ← inRange (read source) with
  | .ok form => return form
  | .error d => fun w => .failure (.diagnostic d) w

theorem readForm_eq : readForm = Primitive.readForm := by
  funext source w
  rw [readForm, read_eq, inRange_some, pure_bind, Primitive.readForm]
  cases Lisp.read source <;> rfl

/-! ## Templates -/

namespace Quasiquote

/-- The one argument of a form, by its index. -/
def argument (name : String) (items : List Value) : ExceptT Cause Option Value := do
  if items.length ≠ 2 then throw (.formArity name "1" (items.length - 1))
  let arg ← (items[1]? : Option Value)
  return arg

mutual

def expand : Value → ExceptT Cause Option Value
  | .list items =>
    if (Value.list items).isForm "unquote" then argument "unquote" items else expandItems items
  | .vector items => do
    let built ← expandItems items
    return Lisp.Quasiquote.call "vec" [built]
  | .map entries => return Lisp.Quasiquote.call "quote" [.map entries]
  | .symbol name => return Lisp.Quasiquote.call "quote" [.symbol name]
  | v => return v

def expandItems : List Value → ExceptT Cause Option Value
  | [] => return .list []
  | item :: rest => do
    let tail ← expandItems rest
    if item.isForm "splice-unquote" then
      let spliced ← argument "splice-unquote" (item.items?.getD [])
      return Lisp.Quasiquote.call "concat" [spliced, tail]
    else
      let head ← expand item
      return Lisp.Quasiquote.call "cons" [head, tail]

end

theorem argument_eq (name : String) (items : List Value) :
    (argument name items).run = some (Lisp.Quasiquote.argument name items) := by
  rcases items with _ | ⟨head, _ | ⟨arg, _ | ⟨more, rest⟩⟩⟩ <;> rfl

mutual

theorem expand_eq : ∀ v, (expand v).run = some (Lisp.Quasiquote.expand v)
  | .list items => by
    rw [expand, Lisp.Quasiquote.expand]
    split
    · exact argument_eq "unquote" items
    · exact expandItems_eq items
  | .vector items => run_bind (expandItems_eq items) fun _ _ => rfl
  | .map _ | .symbol _ => rfl
  | .nil | .bool _ | .int _ | .float _ | .nan _ | .string _ | .keyword _ => rfl
  | .closure .. | .builtin _ | .atom _ => rfl

theorem expandItems_eq : ∀ items, (expandItems items).run = some (Lisp.Quasiquote.expandItems items)
  | [] => rfl
  | item :: rest => by
    rw [expandItems, Lisp.Quasiquote.expandItems]
    refine run_bind (expandItems_eq rest) fun tail _ => ?_
    split
    · exact run_bind (argument_eq _ _) fun _ _ => rfl
    · exact run_bind (expand_eq item) fun _ _ => rfl

end

end Quasiquote

/-! ## Parameters and calls -/

/-- The index of the first `&`. -/
def mark? (names : List String) : Option Nat := names.findIdx? (· == Call.restMark)

/-- After `&` there must be one name and no more, so the name after it is
only looked at if it is the last. -/
def parameterNames (v : Value) : ExceptT Cause Option (List String) :=
  match v.items? with
  | none => throw (.notParameters v.tag)
  | some items => do
    let names ← MonadExcept.ofExcept (items.mapM (SpecialForm.function.nameOf ·))
    match mark? names with
    | none => return names
    | some i =>
      if names.length ≠ i + 2 then throw .restMisplaced
      let rest ← (names[i + 1]? : Option String)
      if rest = Call.restMark then throw .restMisplaced
      return names

/-- One comparison of the number of arguments has to do for the cuts of
both lists. Only the name after `&` may be missing. -/
def bindings (params : List String) (args : List Value) :
    ExceptT Cause Option (List (String × Value)) := do
  let variadic := mark? params
  let positional := variadic.getD params.length
  if args.length < positional ∨ (variadic.isNone ∧ positional < args.length) then
    throw (.callArity variadic.isSome positional args.length)
  let names ← front? params positional
  let bound := Call.bindAll (names.zip args)
  match variadic with
  | none => return bound
  | some i =>
    match params[i + 1]? with
    | none => throw .restMissing
    | some name =>
      let rest ← after? args positional
      return Scope.bind name (.list rest) bound

theorem mark?_cons (name : String) (names : List String) :
    mark? (name :: names) =
      if name = Call.restMark then some 0 else (mark? names).map (· + 1) := by
  rw [mark?, List.findIdx?_cons]
  simp [mark?]

theorem positional_cons (name : String) (names : List String) :
    Call.positional (name :: names) =
      if name = Call.restMark then [] else name :: Call.positional names := by
  rw [Call.positional, List.takeWhile_cons]
  by_cases h : name = Call.restMark <;> simp [h, Call.positional]

theorem mark?_cases (names : List String) :
    (mark? names = none ∧ Call.positional names = names) ∨
      ∃ front later, names = front ++ Call.restMark :: later ∧ mark? names = some front.length ∧
        Call.positional names = front := by
  induction names with
  | nil => exact Or.inl ⟨rfl, rfl⟩
  | cons name names ih =>
    rw [mark?_cons, positional_cons]
    by_cases hname : name = Call.restMark
    · rw [if_pos hname, if_pos hname]
      exact Or.inr ⟨[], names, by rw [hname]; rfl, rfl, rfl⟩
    · rw [if_neg hname, if_neg hname]
      rcases ih with ⟨hmark, hpositional⟩ | ⟨front, later, rfl, hmark, hpositional⟩
      · exact Or.inl ⟨by rw [hmark]; rfl, by rw [hpositional]⟩
      · exact Or.inr ⟨name :: front, later, rfl, by rw [hmark]; rfl, by rw [hpositional]⟩

theorem run_ofExcept {α : Type} (r : Except Cause α) :
    (MonadExcept.ofExcept r : ExceptT Cause Option α).run = some r := by
  cases r <;> rfl

theorem parameterNames_eq (v : Value) :
    (parameterNames v).run = some (Lisp.parameterNames v) := by
  rw [parameterNames, Lisp.parameterNames]
  cases v.items? with
  | none => rfl
  | some items =>
    refine run_bind (run_ofExcept _) fun names _ => ?_
    rcases mark?_cases names with ⟨hmark, hpositional⟩ | ⟨front, later, rfl, hmark, hpositional⟩
    · rw [hmark, hpositional, List.drop_length]
      rfl
    · rw [hmark, hpositional, List.drop_left]
      rcases later with _ | ⟨rest, _ | ⟨more, later⟩⟩
      · simp
      · by_cases hrest : rest = Call.restMark
        · simp [hrest, access_bind]
        · simp [hrest, access_bind]
          rfl
      · simp

theorem bindings_eq (params : List String) (args : List Value) :
    (bindings params args).run = some (Call.bindings params args) := by
  rw [bindings, Call.bindings]
  rcases mark?_cases params with ⟨hmark, hpositional⟩ | ⟨front, later, rfl, hmark, hpositional⟩
  · rw [hmark, hpositional, List.drop_length]
    by_cases hlength : args.length = params.length
    · simp only [Option.getD_none, hlength, front?_of_le (Nat.le_refl params.length), List.take_length,
        lt_irrefl, and_false, or_false, if_false, if_true]
      rfl
    · have hne : args.length < params.length ∨ params.length < args.length := by omega
      simp [hlength, hne]
  · rw [hmark, hpositional, List.drop_left]
    by_cases hlength : args.length < front.length
    · simp [hlength]
    · have hfront : front.length ≤ (front ++ Call.restMark :: later).length := by simp
      have hargs : front.length ≤ args.length := by omega
      simp only [Option.getD_some, hlength, front?_of_le hfront, after?_of_le hargs, List.take_left,
        Option.isNone_some, Bool.false_eq_true, false_and, or_false, if_false, access_bind]
      have hnext : (front ++ Call.restMark :: later)[front.length + 1]? = later.head? := by
        rw [List.getElem?_append_right (Nat.le_add_right _ 1), Nat.add_sub_cancel_left,
          List.getElem?_cons_succ, List.head?_eq_getElem?]
      rw [hnext]
      cases later with
      | nil => rfl
      | cons name later =>
        have hsnoc : ∀ pair pairs, Call.bindAll (pairs ++ [pair]) =
            Scope.bind pair.1 pair.2 (Call.bindAll pairs) := fun _ _ => List.foldl_append
        simp only [hsnoc]
        rfl

/-- A call enters a scope with its parameters bound. -/
def enterCall (parent : ScopeId) (params : List String) (args : List Value) : Action ScopeId := do
  Action.enter (some parent) (← computation (bindings params args))

theorem enterCall_eq : enterCall = Action.enterCall := by
  funext parent params args
  rw [enterCall, computation_some (bindings_eq params args)]
  rfl

/-! ## Primitives

What a primitive does with its arguments, by their indices. It takes the
elements it needs before it does anything that can fail. -/

/-- A primitive of one argument. -/
def unary (args : List Value) (f : Value → Action Value) : Action Value := do
  f (← item args 0)

/-- A primitive of two arguments. -/
def binary (args : List Value) (f : Value → Value → Action Value) : Action Value := do
  f (← item args 0) (← item args 1)

def ensureLeast (p : Primitive) (least : Nat) (args : List Value) : Action Unit :=
  if args.length < least then Action.fail (.tooFew p least args.length) else pure ()

/-- The first argument is split off from the others. -/
def arithmetic (op : Number.Operation) (args : List Value) : Action Value := do
  ensureLeast op.primitive 1 args
  let first ← item (← inRange (front? args 1)) 0
  let rest ← inRange (after? args 1)
  Primitive.computed (do op.foldFrom (← Number.ofValue op.primitive first) rest)

section

variable (evaluate : Evaluator) (scope : ScopeId)

/-- Every primitive but `swap!`. None of them looks at the number of its
arguments if it takes a fixed number. -/
def callback : Primitive → List Value → Action Value
  | .add, args =>
    if args.isEmpty then return .int 0 else arithmetic Number.addition args
  | .sub, args => do
    if args.length = 1 then arithmetic Number.subtraction [.int 0, ← item args 0]
    else arithmetic Number.subtraction args
  | .mul, args =>
    if args.isEmpty then return .int 1 else arithmetic Number.multiplication args
  | .div, args => do
    ensureLeast .div 2 args
    arithmetic Number.division args
  | .equal, args => binary args fun a b => return .bool (a == b)
  | .less, args => binary args fun a b =>
    Primitive.decided (Number.compares .less Ordering.isLT a b)
  | .greater, args => binary args fun a b =>
    Primitive.decided (Number.compares .greater Ordering.isGT a b)
  | .atMost, args => binary args fun a b =>
    Primitive.decided (Number.compares .atMost Ordering.isLE a b)
  | .atLeast, args => binary args fun a b =>
    Primitive.decided (Number.compares .atLeast Ordering.isGE a b)
  | .list, args => return .list args
  | .vector, args => return .vector args
  | .hashMap, args => ofExcept (Value.mapOf args)
  | .isEmpty, args => unary args fun v =>
    Primitive.decided ((Sequence.count .isEmpty v).map (· == 0))
  | .count, args => unary args fun v => do
    return .int (Int64.ofNat (← ofExcept (Sequence.count .count v)))
  | .cons, args => binary args fun head tail => ofExcept (Sequence.cons head tail)
  | .concat, args => do return .list (← ofExcept (Sequence.concat args))
  | .vec, args => unary args fun v => ofExcept (Sequence.vec v)
  | .nth, args => binary args fun v index => ofExcept (Sequence.nth v index)
  | .first, args => unary args fun v => ofExcept (Sequence.first v)
  | .rest, args => unary args fun v => ofExcept (Sequence.rest v)
  | .symbol, args => unary args fun v => do
    return .symbol (← ofExcept (Primitive.stringOf .symbol v))
  | .keyword, args => unary args fun v => ofExcept (Primitive.keywordOf v)
  | .printed, args => do return .string (← Action.ask (·.texts true " " args))
  | .text, args => do return .string (← Action.ask (·.texts false "" args))
  | .showLine, args => do
    Action.writeLine (← Action.ask (·.texts true " " args))
    return .nil
  | .sayLine, args => do
    Action.writeLine (← Action.ask (·.texts false " " args))
    return .nil
  | .readText, args => unary args fun v => do
    readForm (← ofExcept (Primitive.stringOf .readText v))
  | .slurp, args => unary args fun v => do
    let path ← ofExcept (Primitive.stringOf .slurp v)
    return .string (← Action.readFile path)
  | .newAtom, args => unary args fun v => do return .atom (← Action.newCell v)
  | .deref, args => unary args fun v => do
    Action.contents (← ofExcept (Primitive.cellOf .deref v))
  | .reset, args => binary args fun a v => do
    Action.store (← ofExcept (Primitive.cellOf .reset a)) v
    return v
  | .eval, args => unary args fun form => do evaluate form (← Action.ask (·.root scope))
  | .raise, args => unary args fun v => do
    Action.fail (.thrown (← Action.ask (·.text false v)))
  | p, args => unary args fun v => match p.test? v with
    | some b => return .bool b
    | none => Action.halt .fault

/-- A primitive is entered if the number of arguments is the one that
the table says, or if there is none in the table. -/
def native (p : Primitive) (args : List Value) : Action Value :=
  match p.arity with
  | some n =>
    if args.length ≠ n then Action.fail (.primitiveArity p n args.length)
    else callback evaluate scope p args
  | none => callback evaluate scope p args

/-- Applies a function to arguments. A `swap!` applies a function to one
argument less than it has itself, so `fuel` need not exceed the number
of arguments by more than one. -/
def applyWithin : (fuel : Nat) → Value → List Value → Action Value
  | 0, _, _ => Action.halt .depth
  | _ + 1, .closure _ _ params body captured, args => do
    evaluate body (← enterCall captured params args)
  | fuel + 1, .builtin .swap, args => do
    ensureLeast .swap 2 args
    let cell ← ofExcept (Primitive.cellOf .swap (← item args 0))
    let _room ← inRange (minus? args.length 1)
    let v ← Action.contents cell
    let more ← inRange (after? args 2)
    let updated ← applyWithin fuel (← item args 1) (v :: more)
    Action.store cell updated
    return updated
  | _ + 1, .builtin p, args => native evaluate scope p args
  | _ + 1, v, _ => Primitive.uncallable v

def apply (f : Value) (args : List Value) : Action Value :=
  applyWithin evaluate scope (args.length + 1) f args

end

section

variable {evaluate : Evaluator} {scope : ScopeId}

theorem callback_variadic {p : Primitive} (h : p.arity = none) (hp : p ≠ .swap)
    (args : List Value) :
    callback evaluate scope p args = Primitive.basic evaluate scope p args := by
  cases p with
  | add | mul => cases args <;> rfl
  | sub | div => rcases args with _ | ⟨a, _ | ⟨b, more⟩⟩ <;> rfl
  | list | vector | hashMap | concat | printed | text | showLine | sayLine => rfl
  | swap => exact absurd rfl hp
  | _ => cases h

theorem callback_unary (p : Primitive) (v : Value) :
    callback evaluate scope p [v] = Primitive.basic evaluate scope p [v] := by
  cases p with
  | readText =>
    change (do readForm (← ofExcept (Primitive.stringOf .readText v)) : Action Value) = _
    rw [readForm_eq]
    rfl
  | _ => rfl

theorem callback_binary {p : Primitive} (h : p.arity = some 2) (a b : Value) :
    callback evaluate scope p [a, b] = Primitive.basic evaluate scope p [a, b] := by
  cases p <;> first | rfl | cases h

/-- With the number of arguments that the table says, every argument
that a primitive takes is there. -/
theorem callback_eq {p : Primitive} {args : List Value} (hp : p ≠ .swap)
    (harity : ∀ n, p.arity = some n → args.length = n) :
    callback evaluate scope p args = Primitive.basic evaluate scope p args := by
  rcases p.arity_cases with h | h | h
  · exact callback_variadic h hp args
  · obtain ⟨v, rfl⟩ := List.length_eq_one_iff.mp (harity 1 h)
    exact callback_unary p v
  · obtain ⟨a, b, rfl⟩ := List.length_eq_two.mp (harity 2 h)
    exact callback_binary h a b

theorem native_eq {p : Primitive} (hp : p ≠ .swap) (args : List Value) :
    native evaluate scope p args = p.checked evaluate scope args := by
  rw [native, Primitive.checked]
  cases h : p.arity with
  | none =>
    have harity : ∀ n, p.arity = some n → args.length = n := by simp [h]
    exact callback_eq hp harity
  | some n =>
    by_cases hlength : args.length = n
    · have harity : ∀ n', p.arity = some n' → args.length = n' :=
        fun n' hn' => hlength.trans (Option.some.inj (h.symm.trans hn'))
      simpa [hlength] using callback_eq hp harity
    · simp [hlength]

theorem applyWithin_eq (fuel : Nat) : ∀ (f : Value) (args : List Value), args.length < fuel →
    applyWithin evaluate scope fuel f args = Lisp.apply evaluate scope f args := by
  induction fuel with
  | zero => exact fun _ _ h => absurd h (Nat.not_lt_zero _)
  | succ fuel ih =>
    intro f args hfuel
    cases f with
    | closure object expander params body captured =>
      rw [applyWithin, apply_closure, enterCall_eq]
    | builtin p =>
      by_cases hp : p = .swap
      · subst hp
        rcases args with _ | ⟨target, _ | ⟨f, more⟩⟩
        · rfl
        · rfl
        · have hmore : ∀ v, applyWithin evaluate scope fuel f (v :: more) =
              Lisp.apply evaluate scope f (v :: more) :=
            fun v => ih f (v :: more) (Nat.lt_of_succ_lt_succ hfuel)
          rw [apply_swap]
          simp only [← hmore]
          rfl
      · rw [apply_builtin hp, ← native_eq hp args]
        cases p <;> first | rfl | exact absurd rfl hp
    | _ => exact (apply_uncallable id).symm

theorem apply_eq : apply evaluate scope = Lisp.apply evaluate scope := by
  funext f args
  exact applyWithin_eq (args.length + 1) f args (Nat.lt_succ_self _)

end

/-! ## Turns -/

section

variable (nested : Evaluator)

/-- The arguments of a macro are the form without its first element. -/
def expandTurn (form : Value) (scope : ScopeId) : Action Turn := do
  match ← Action.ask (·.macroCall? scope form) with
  | some (params, body, captured, _) =>
    let args ← inRange (after? (form.items?.getD []) 1)
    let expansion ← nested body (← enterCall captured params args)
    return .next expansion scope
  | none => return .done form

/-- The first line of a special form that has a fixed length. -/
def expectLength (special : SpecialForm) (n : Nat) (items : List Value) : Action Unit :=
  if items.length ≠ n then
    Action.fail (.formArity special.name special.expected (items.length - 1))
  else pure ()

/-- A list in pieces of two. The last piece is shorter if the length is
odd. -/
def chunks : List Value → List (List Value)
  | a :: b :: rest => [a, b] :: chunks rest
  | [a] => [[a]]
  | [] => []

/-- Evaluates the values of `let*`, given in pieces of a name and a
form. -/
def bindPairs (scope : ScopeId) (pairs : List (List Value)) : Action Unit :=
  pairs.forM fun pair => do
    let name ← ofExcept (SpecialForm.letIn.nameOf (← item pair 0))
    let v ← nested (← item pair 1) scope
    Action.define scope name v

/-- One turn of a special form, with its name as the first of the
items. -/
def specialTurn (expandAll : Evaluator) (scope : ScopeId) (items : List Value) :
    SpecialForm → Action Turn
  | .define => do
    expectLength .define 3 items
    let name ← ofExcept (SpecialForm.define.nameOf (← item items 1))
    let v ← nested (← item items 2) scope
    Action.define scope name v
    return .done v
  | .letIn => do
    expectLength .letIn 3 items
    match (← item items 1).items? with
    | some bindings =>
      if bindings.length % 2 = 0 then do
        let inner ← Action.enter (some scope) []
        bindPairs nested inner (chunks bindings)
        return .next (← item items 2) inner
      else Action.fail .letBindings
    | none => Action.fail .letBindings
  | .branch => do
    if items.length ≠ 3 ∧ items.length ≠ 4 then
      let received ← inRange (minus? items.length 1)
      Action.fail (.formArity SpecialForm.branch.name SpecialForm.branch.expected received)
    else do
      let v ← nested (← item items 1) scope
      if v.isTruthy then return .next (← item items 2) scope
      else return .next (items[3]?.getD .nil) scope
  | .sequence => do
    let forms ← inRange (after? items 1)
    match forms.getLast? with
    | none => return .done .nil
    | some last =>
      forms.dropLast.forM fun form => do
        let _ ← nested form scope
      return .next last scope
  | .function => do
    expectLength .function 3 items
    let names ← computation (parameterNames (← item items 1))
    let body ← item items 2
    return .done (.closure (← Action.freshObject) false names body scope)
  | .quote => do
    expectLength .quote 2 items
    return .done (← item items 1)
  | .quasiquoteExpand => do
    expectLength .quasiquoteExpand 2 items
    return .done (← computation (Quasiquote.expand (← item items 1)))
  | .quasiquote => do
    expectLength .quasiquote 2 items
    return .next (← computation (Quasiquote.expand (← item items 1))) scope
  | .defineMacro => do
    expectLength .defineMacro 3 items
    let name ← ofExcept (SpecialForm.defineMacro.nameOf (← item items 1))
    let v ← asMacro (← nested (← item items 2) scope)
    Action.define scope name v
    return .done v
  | .expandMacros => do
    expectLength .expandMacros 2 items
    return .done (← expandAll (← item items 1) scope)

/-- One turn of a call. -/
def callTurn (scope : ScopeId) (items : List Value) : Action Turn := do
  let callee ← nested (← item items 0) scope
  let _room ← inRange (minus? items.length 1)
  let args ← evaluateEach nested scope (← inRange (after? items 1))
  match callee with
  | .closure _ _ params body captured =>
    return .next body (← enterCall captured params args)
  | .builtin _ => return .done (← apply nested scope callee args)
  | v => Primitive.uncallable v

/-- One turn of a form that calls no macro. -/
def plainTurn (expandAll : Evaluator) (form : Value) (scope : ScopeId) : Action Turn :=
  match form with
  | .list items =>
    if items.isEmpty then return .done form
    else do
      match (← item items 0).special? with
      | some special => specialTurn nested expandAll scope items special
      | none => callTurn nested scope items
  | _ => return .done (← evaluateData nested scope form)

def turn (expandAll : Evaluator) (form : Value) (scope : ScopeId) : Action Turn := do
  match ← expandTurn nested form scope with
  | .next expansion scope => return .next expansion scope
  | .done form => plainTurn nested expandAll form scope

end

/-- Evaluation with every access checked. -/
def evaluate (steps : Nat) : (depth : Nat) → Evaluator
  | 0 => fun _ _ => Action.halt .depth
  | depth + 1 =>
    let nested := evaluate steps depth
    loop (turn nested (loop (expandTurn nested) steps)) steps

/-! ## The same turns -/

section

variable {nested expandAll : Evaluator} {scope : ScopeId}

theorem args_of_macroCall? {w : World} {form : Value}
    {call : List String × Value × ScopeId × List Value} (h : w.macroCall? scope form = some call) :
    after? (form.items?.getD []) 1 = some call.2.2.2 := by
  unfold World.macroCall? at h
  split at h
  · split at h
    · obtain rfl := Option.some.inj h
      exact after?_of_le (Nat.le_add_left 1 _)
    · cases h
  · cases h

theorem expandTurn_eq : expandTurn nested = Lisp.expandTurn nested := by
  funext form scope w
  rw [expandTurn, Lisp.expandTurn, enterCall_eq, Action.bind_apply, Action.bind_apply]
  simp only [Action.ask]
  cases h : w.macroCall? scope form with
  | none => rfl
  | some call =>
    simp only [args_of_macroCall? h]
    rfl

theorem bindPairs_eq {items : List Value} (h : items.length % 2 = 0) :
    bindPairs nested scope (chunks items) = bindEach nested scope items := by
  induction items using chunks.induct with
  | case1 name form rest ih =>
    have hrest : rest.length % 2 = 0 := by
      simp only [List.length_cons] at h
      omega
    rw [bindEach, ← ih hrest]
    change (_ : Action Unit) >>= (fun _ => bindPairs nested scope (chunks rest)) = _
    simp only [bind_assoc]
    rfl
  | case2 a => cases h
  | case3 => rfl

/-- All forms but the last, and then the last: the other way round from
the list as it is built. -/
theorem sequence_eq (forms : List Value) :
    (match forms.getLast? with
      | none => return .done .nil
      | some last => do
        forms.dropLast.forM fun form => do
          let _ ← nested form scope
        return .next last scope : Action Turn) = runSequence nested scope forms := by
  induction forms with
  | nil => rfl
  | cons form rest ih =>
    cases rest with
    | nil => rfl
    | cons following rest =>
      rw [runSequence_cons, ← ih, List.getLast?_cons_cons]
      cases hlast : (following :: rest).getLast? with
      | none => cases List.getLast?_eq_none_iff.mp hlast
      | some last =>
        change ((_ : Action Unit) >>= fun _ => (following :: rest).dropLast.forM _) >>= _ = _
        simp only [bind_assoc]
        rfl

theorem computation_expand (template : Value) :
    computation (Quasiquote.expand template) = ofExcept (Lisp.Quasiquote.expand template) :=
  computation_some (Quasiquote.expand_eq template)

theorem computation_parameterNames (params : Value) :
    computation (parameterNames params) = ofExcept (Lisp.parameterNames params) :=
  computation_some (parameterNames_eq params)

theorem specialTurn_letIn_eq (head bindings body : Value) :
    specialTurn nested expandAll scope [head, bindings, body] .letIn =
      Lisp.specialTurn nested expandAll scope .letIn [bindings, body] := by
  change (match bindings.items? with | some _ => _ | none => _ : Action Turn) = _
  rw [Lisp.specialTurn]
  cases bindings.items? with
  | none => rfl
  | some items =>
    by_cases heven : items.length % 2 = 0
    · simp only [if_pos heven, bindPairs_eq heven]
      rfl
    · simp only [if_neg heven]

/-- Only one of the two branches is looked at, and the second may be
missing. -/
theorem branch_eq (condition yes : Value) (no : Option Value) :
    (do
      let v ← nested condition scope
      if v.isTruthy then return .next yes scope
      else return .next (no.getD .nil) scope : Action Turn) =
    (do
      let v ← nested condition scope
      return .next (if v.isTruthy then yes else no.getD .nil) scope) := by
  refine bind_congr fun v => ?_
  split <;> rfl

theorem specialTurn_branch_eq (head : Value) (operands : List Value) :
    specialTurn nested expandAll scope (head :: operands) .branch =
      Lisp.specialTurn nested expandAll scope .branch operands := by
  rcases operands with _ | ⟨condition, _ | ⟨yes, _ | ⟨no, _ | ⟨more, rest⟩⟩⟩⟩
  · rfl
  · rfl
  · exact branch_eq condition yes none
  · exact branch_eq condition yes (some no)
  · rfl

/-- One turn of a special form looks at all parts of the form that it
needs, and they are there. -/
theorem specialTurn_eq (special : SpecialForm) (head : Value) (operands : List Value) :
    specialTurn nested expandAll scope (head :: operands) special =
      Lisp.specialTurn nested expandAll scope special operands := by
  cases special with
  | define | defineMacro =>
    rcases operands with _ | ⟨name, _ | ⟨form, _ | ⟨more, rest⟩⟩⟩ <;> rfl
  | letIn =>
    rcases operands with _ | ⟨bindings, _ | ⟨body, _ | ⟨more, rest⟩⟩⟩
    · rfl
    · rfl
    · exact specialTurn_letIn_eq head bindings body
    · rfl
  | function =>
    rcases operands with _ | ⟨params, _ | ⟨body, _ | ⟨more, rest⟩⟩⟩
    · rfl
    · rfl
    · rw [specialTurn, Lisp.specialTurn, ← computation_parameterNames]
      rfl
    · rfl
  | branch => exact specialTurn_branch_eq head operands
  | sequence => exact sequence_eq operands
  | quasiquoteExpand | quasiquote =>
    rcases operands with _ | ⟨template, _ | ⟨more, rest⟩⟩
    · rfl
    · rw [specialTurn, Lisp.specialTurn, ← computation_expand]
      rfl
    · rfl
  | quote | expandMacros =>
    rcases operands with _ | ⟨form, _ | ⟨more, rest⟩⟩ <;> rfl

theorem callTurn_eq (operator : Value) (operands : List Value) :
    callTurn nested scope (operator :: operands) =
      Lisp.callTurn nested scope operator operands := by
  rw [callTurn, Lisp.callTurn, apply_eq, enterCall_eq]
  rfl

theorem plainTurn_eq (form : Value) :
    plainTurn nested expandAll form scope = Lisp.plainTurn nested expandAll form scope := by
  cases form with
  | list items =>
    cases items with
    | nil => rfl
    | cons operator operands =>
      rw [plainTurn_list]
      change (match operator.special? with
        | some special => specialTurn nested expandAll scope (operator :: operands) special
        | none => callTurn nested scope (operator :: operands) : Action Turn) = _
      cases operator.special? with
      | none => exact callTurn_eq operator operands
      | some special => exact specialTurn_eq special operator operands
  | _ => rfl

theorem turn_eq : turn nested expandAll = Lisp.turn nested expandAll := by
  funext form scope
  rw [turn, Lisp.turn, expandTurn_eq]
  refine bind_congr fun next => ?_
  cases next with
  | next expansion scope => rfl
  | done form => exact plainTurn_eq form

end

/-- No access of an evaluation is out of range: it is the evaluation
that takes forms apart by their shapes. -/
theorem evaluate_eq (steps depth : Nat) : evaluate steps depth = Lisp.evaluate steps depth := by
  induction depth with
  | zero => rfl
  | succ depth ih =>
    rw [evaluate, Lisp.evaluate, ih]
    simp only [turn_eq, expandTurn_eq]
    rfl

end Indexed

end Lisp
