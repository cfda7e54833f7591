import Lisp.Proofs.Conditional
import Lisp.Proofs.Forest
import Lisp.Proofs.Nesting
import Lisp.Proofs.RoundTrip

/-!
# Loops by tail calls

A loop is written as a function that calls itself, or another one, in
tail position: through `do`, `let*` and `if` (`count-down`), by two
functions in turn (`even?` and `odd?`), or with a second argument that
collects the result (`sum-to`). However often the loop goes round, it
nests no deeper than once round, though every round leaves a scope or
two behind. In these scopes all names but those of the loop mean what
they mean in the root scope (`Inside`), which is what a round needs
(`Ready`), so one round after the other can be run.
-/

namespace Lisp

open World Lisp.Action

/-! ## Scopes of a round -/

theorem World.find?_zero (w : World) (name : String) : w.find? 0 name = w.findIn? 0 name := by
  rw [find?, findFrom, findIn?]
  cases w.scopes[0]? with
  | none => rfl
  | some scope =>
    cases hfound : scope.find? name with
    | some v => simp [hfound]
    | none => cases hparent : scope.parent <;> simp [hfound, hparent, findFrom]

/-- A scope with a name defined in it that it is made with. -/
theorem World.define_enter (w : World) (parent : ScopeId) (name : String) (v : Value) :
    (w.enter parent []).define w.scopes.size name v = w.enter parent [(name, v)] := by
  have hscopes : (w.scopes.push ⟨some parent, []⟩).modify w.scopes.size (·.define name v) =
      w.scopes.push ⟨some parent, [(name, v)]⟩ := by
    refine Array.ext_getElem? fun s => ?_
    rw [Array.getElem?_modify, Array.getElem?_push, Array.getElem?_push]
    by_cases hs : w.scopes.size = s
    · subst hs
      simp [Scope.define, Scope.bind]
    · simp [hs, Ne.symm hs]
  exact congrArg (fun scopes => { w with scopes }) hscopes

/-! ## Words -/

/-- A natural number as a value. -/
def Value.word (n : Nat) : Value := .int (Int64.ofNat n)

def wordBindings (locals : List (String × Nat)) : List (String × Value) :=
  locals.map fun l => (l.1, .word l.2)

theorem lookup_wordBindings (locals : List (String × Nat)) (name : String) :
    (wordBindings locals).lookup name = (locals.lookup name).map Value.word := by
  induction locals with
  | nil => rfl
  | cons l rest ih =>
    rw [wordBindings, List.map_cons, List.lookup_cons, List.lookup_cons]
    cases name == l.1 with
    | true => rfl
    | false => exact ih

section

variable {m n : Nat}

theorem fitsInt64_of_lt (h : n < 2 ^ 63) : fitsInt64 n = true := by
  have hmin : Int64.minValue.toInt = -9223372036854775808 := rfl
  have hmax : Int64.maxValue.toInt = 9223372036854775807 := rfl
  rw [fitsInt64, Bool.and_eq_true, decide_eq_true_eq, decide_eq_true_eq]
  omega

theorem toInt_ofNat_of_lt (h : n < 2 ^ 63) : (Int64.ofNat n).toInt = n :=
  toInt_ofNat_of_fits (fitsInt64_of_lt h)

theorem int64?_of_lt (h : n < 2 ^ 63) : int64? n = some (Int64.ofNat n) := by
  rw [← toInt_ofNat_of_lt h]
  exact int64?_toInt _

theorem difference_one (h : n + 1 < 2 ^ 63) :
    Number.difference [.word (n + 1), .int 1] = .ok (.whole (Int64.ofNat n)) := by
  have hexact : (Int64.ofNat (n + 1)).toInt - (1 : Int64).toInt = n := by
    have hone : (1 : Int64).toInt = 1 := rfl
    rw [toInt_ofNat_of_lt h, hone]
    omega
  change Number.subtraction.apply (.whole (Int64.ofNat (n + 1))) (.whole 1) >>= _ = _
  rw [Number.Operation.apply]
  simp only [Number.subtraction, hexact, int64?_of_lt (Nat.lt_of_succ_lt h)]
  rfl

theorem sum_words (h : m + n < 2 ^ 63) :
    Number.sum [.word m, .word n] = .ok (.whole (Int64.ofNat (m + n))) := by
  have hexact : (Int64.ofNat m).toInt + (Int64.ofNat n).toInt = (m + n : Nat) := by
    rw [toInt_ofNat_of_lt (Nat.lt_of_le_of_lt (Nat.le_add_right m n) h),
      toInt_ofNat_of_lt (Nat.lt_of_le_of_lt (Nat.le_add_left n m) h)]
    omega
  change Number.addition.apply (.whole (Int64.ofNat m)) (.whole (Int64.ofNat n)) >>= _ = _
  rw [Number.Operation.apply]
  simp only [Number.addition, hexact, int64?_of_lt h]
  rfl

theorem word_beq_zero (h : n < 2 ^ 63) : (Value.word n == .int 0) = decide (n = 0) := by
  have hzero : Int64.ofNat n = 0 ↔ n = 0 := by
    rw [← Int64.toInt_inj, toInt_ofNat_of_lt h]
    exact Int.natCast_eq_zero
  rw [Value.beq_def, Value.word, Value.equal, beq_eq_decide]
  exact decide_eq_decide.mpr hzero

theorem compares_greater_zero (h : n < 2 ^ 63) :
    Number.compares .greater Ordering.isGT (.word n) (.int 0) = .ok (decide (0 < n)) := by
  rw [Value.word, compares_greater_count (fitsInt64_of_lt h)]
  exact congrArg Except.ok (decide_eq_decide.mpr Int.natCast_pos)

end

/-! ## The functions -/

/-- The functions of the loops. Whether a number is even and whether it is
odd are asked in turn. -/
inductive TailFunction where
  | countDown
  | parity (even : Bool)
  | sumTo
  deriving DecidableEq

namespace TailFunction

def name : TailFunction → String
  | countDown => "count-down"
  | parity true => "even?"
  | parity false => "odd?"
  | sumTo => "sum-to"

def params : TailFunction → List String
  | countDown | parity _ => ["n"]
  | sumTo => ["n", "acc"]

/-- One less than `n`. -/
def oneLess : Value := .list [.symbol "-", .symbol "n", .int 1]

def atZero (yes no : Value) : Value :=
  .list [.symbol "if", .list [.symbol "=", .symbol "n", .int 0], yes, no]

/-- What `count-down` does with the number that is next. -/
def goOn : Value :=
  .list [.symbol "if", .list [.symbol ">", .symbol "m", .int 0],
    .list [.symbol countDown.name, .symbol "m"], .keyword "done"]

def body : TailFunction → Value
  | countDown => .list [.symbol "do", .nil,
      .list [.symbol "let*", .list [.symbol "m", oneLess], goOn]]
  | parity even => atZero (.bool even) (.list [.symbol (parity !even).name, oneLess])
  | sumTo => atZero (.symbol "acc") (.list [.symbol sumTo.name, oneLess,
      .list [.symbol "+", .symbol "acc", .symbol "n"]])

/-- The text of the definition. -/
def source : TailFunction → String
  | countDown =>
    "(def! count-down (fn* (n) (do nil (let* (m (- n 1)) (if (> m 0) (count-down m) :done)))))"
  | parity true => "(def! even? (fn* (n) (if (= n 0) true (odd? (- n 1)))))"
  | parity false => "(def! odd? (fn* (n) (if (= n 0) false (even? (- n 1)))))"
  | sumTo => "(def! sum-to (fn* (n acc) (if (= n 0) acc (sum-to (- n 1) (+ acc n)))))"

set_option maxRecDepth 4000 in
theorem read_source (f : TailFunction) :
    read f.source = .ok (.list [.symbol "def!", .symbol f.name,
      functionForm (.list (f.params.map .symbol)) f.body]) := by
  rcases f with _ | (_ | _) | _ <;> rfl

theorem parameterNames_params (f : TailFunction) :
    parameterNames (.list (f.params.map .symbol)) = .ok f.params := by
  cases f <;> rfl

theorem name_injective {f g : TailFunction} (h : f.name = g.name) : f = g := by
  rcases f with _ | (_ | _) | _ <;> rcases g with _ | (_ | _) | _ <;>
    first | rfl | exact absurd h (by decide)

theorem ofName?_name (f : TailFunction) : SpecialForm.ofName? f.name = none := by
  rcases f with _ | (_ | _) | _ <;> rfl

theorem special_ne_name (f : TailFunction) (special : SpecialForm) : special.name ≠ f.name := by
  intro h
  have hnone := f.ofName?_name
  rw [← h, special.ofName?_name] at hnone
  cases hnone

/-- The functions that the rounds call. -/
def primitives : List Primitive := [.add, .sub, .equal, .greater]

theorem primitive_ne_name (f : TailFunction) {p : Primitive} (hp : p ∈ primitives) :
    p.name ≠ f.name := by
  have hne : ∀ p ∈ primitives, p.name ≠ f.name := by
    rcases f with _ | (_ | _) | _ <;> decide
  exact hne p hp

theorem bareName_name (f : TailFunction) : Value.BareName f.name := by
  have hnumeral : ¬Numeral.NumeralShape f.name.toList := by
    rcases f with _ | (_ | _) | _ <;> exact Numeral.ofChars?_eq_none_iff.mp rfl
  rcases f with _ | (_ | _) | _ <;>
    exact ⟨bare_of_all rfl (by decide), by decide, by decide, hnumeral⟩

/-! ### Calls -/

def callForm (f : TailFunction) (args : List Nat) : Value :=
  .list (.symbol f.name :: args.map .word)

/-- The text of the call, with the arguments in decimal. -/
def callText (f : TailFunction) (args : List Nat) : String :=
  "(" ++ " ".intercalate (f.name :: args.map fun n : Nat => wholeText n) ++ ")"

example : sumTo.callText [4, 0] = "(sum-to 4 0)" := rfl

theorem readable_callForm (f : TailFunction) (args : List Nat) : (f.callForm args).Readable := by
  refine .node trivial fun child hchild => ?_
  obtain rfl | hchild : child = .symbol f.name ∨ child ∈ args.map Value.word := by
    simpa [callForm, Value.children] using hchild
  · exact .leaf (Or.inr f.bareName_name) rfl
  · obtain ⟨n, -, rfl⟩ := List.mem_map.mp hchild
    exact .leaf trivial rfl

theorem text_callForm (f : TailFunction) {args : List Nat} (hargs : ∀ n ∈ args, n < 2 ^ 63) :
    (f.callForm args).text true = f.callText args := by
  have hwords : args.map (Value.textWith (fun _ => "") true ∘ Value.word) =
      args.map fun n : Nat => wholeText n :=
    List.map_congr_left fun n hn => congrArg wholeText (toInt_ofNat_of_lt (hargs n hn))
  rw [callForm, Value.text, Value.textWith, Value.itemTexts_eq_map, List.map_cons, List.map_map,
    hwords]
  rfl

theorem read_callText (f : TailFunction) {args : List Nat} (hargs : ∀ n ∈ args, n < 2 ^ 63) :
    read (f.callText args) = .ok (f.callForm args) := by
  rw [← f.text_callForm hargs]
  exact read_of_scans (Value.scans_textWith _ (f.readable_callForm args))

end TailFunction

namespace Session

/-! ## What a round relies on -/

/-- In the root scope these functions are the primitives, the names of
special forms are not bound, and the given loops are defined. -/
structure Ready (loops : List TailFunction) (w : World) : Prop where
  rooted : Rooted w
  primitives : ∀ p ∈ TailFunction.primitives, w.find? rootScope p.name = some (.builtin p)
  unbound : ∀ special : SpecialForm, w.find? rootScope special.name = none
  defined : ∀ f ∈ loops, ∃ object,
    w.find? rootScope f.name = some (.closure object false f.params f.body rootScope)

theorem ready_start (files : Files) (argv : List String) : Ready [] (start files argv) := by
  refine ⟨rooted_start files argv, ?_, ?_, List.forall_mem_nil _⟩
  · rw [start_eq]
    simp only [TailFunction.primitives, List.forall_mem_cons]
    exact ⟨rfl, rfl, rfl, rfl, List.forall_mem_nil _⟩
  · rw [start_eq]
    intro special
    cases special <;> rfl

variable {loops : List TailFunction} {w : World} {s : ScopeId} {locals : List (String × Nat)}

/-- Only what the root scope binds matters. -/
theorem Ready.congr {w' : World} (h : Ready loops w) (hw' : Rooted w')
    (hroot : ∀ name, w'.find? rootScope name = w.find? rootScope name) : Ready loops w' := by
  refine ⟨hw', fun p hp => ?_, fun special => ?_, fun f hf => ?_⟩ <;> rw [hroot]
  · exact h.primitives p hp
  · exact h.unbound special
  · exact h.defined f hf

/-- The scope is one of a round, whose names are bound to words. -/
structure Inside (loops : List TailFunction) (w : World) (s : ScopeId)
    (locals : List (String × Nat)) : Prop where
  ready : Ready loops w
  scope : s < w.scopes.size
  find? : ∀ name,
    w.find? s name = ((locals.lookup name).map Value.word).or (w.find? rootScope name)

theorem Ready.inside (h : Ready loops w) : Inside loops w rootScope [] :=
  ⟨h, h.rooted.root, fun _ => rfl⟩

/-- A scope further inside, of a call or a `let*`. -/
theorem Inside.enter (h : Inside loops w s locals) (more : List (String × Nat)) :
    Inside loops (w.enter s (wordBindings more)) w.scopes.size (more ++ locals) := by
  have hw := h.ready.rooted.wellFormed
  have hsize : (w.enter s (wordBindings more)).scopes.size = w.scopes.size + 1 :=
    Array.size_push _
  have hroot : ∀ name, (w.enter s (wordBindings more)).find? rootScope name =
      w.find? rootScope name := fun name => hw.find?_enter_of_lt h.ready.rooted.root
  have hwords : ∀ b ∈ wordBindings more, w.Holds b.2 := by
    intro b hb
    obtain ⟨l, -, rfl⟩ := List.mem_map.mp hb
    exact Value.scoped_leaf trivial
  have hrooted : Rooted (w.enter s (wordBindings more)) := by
    refine ⟨wellFormed_enter hw h.scope hwords, ?_⟩
    rw [hsize]
    exact Nat.succ_pos _
  refine ⟨h.ready.congr hrooted hroot, ?_, fun name => ?_⟩
  · rw [hsize]
    exact Nat.lt_succ_self _
  · rw [hw.find?_enter h.scope, h.find?, hroot, lookup_wordBindings, List.lookup_append]
    cases more.lookup name <;> rfl

namespace Inside

section

variable (h : Inside loops w s locals) {d n : Nat} {r : Except Error Value} {w' : World}

include h

theorem symbol {x : String} (hx : locals.lookup x = some n) :
    EvaluatesWithin d (.symbol x) s w (.ok (.word n)) w := by
  refine within_symbol ?_
  rw [h.find?, hx]
  rfl

theorem not_bindsMacro (special : SpecialForm) (hlocal : locals.lookup special.name = none) :
    ¬w.BindsMacro s special.name := by
  refine World.not_bindsMacro_of_unbound ?_
  rw [h.find?, hlocal, h.ready.unbound]
  rfl

theorem primitive {p : Primitive} {operands args : List Value} {v : Value}
    (hp : p ∈ TailFunction.primitives) (hlocal : locals.lookup p.name = none)
    (hoperands : List.Forall₂ (fun form v => EvaluatesWithin d form s w (.ok v) w) operands args)
    (hvalue : ∀ evaluate, (p.checked evaluate s args).Ends w (.ok v) w) :
    EvaluatesWithin (d + 1) (.list (.symbol p.name :: operands)) s w (.ok v) w := by
  have hswap : ∀ p ∈ TailFunction.primitives, p ≠ .swap := by decide
  refine within_primitive hoperands ?_ (hswap p hp) hvalue
  rw [h.find?, hlocal, h.ready.primitives p hp]
  rfl

/-- The next round. -/
theorem tailCall {f : TailFunction} {operands args : List Value} {next : List (String × Nat)}
    (hf : f ∈ loops) (hlocal : locals.lookup f.name = none)
    (hoperands : List.Forall₂ (fun form v => EvaluatesWithin d form s w (.ok v) w) operands args)
    (hargs : Call.bindings f.params args = .ok (wordBindings next))
    (hbody : EvaluatesWithin (d + 1) f.body w.scopes.size
      (w.enter rootScope (wordBindings next)) r w') :
    EvaluatesWithin (d + 1) (.list (.symbol f.name :: operands)) s w r w' := by
  obtain ⟨object, hdefined⟩ := h.ready.defined f hf
  have hfind : w.find? s f.name = some (.closure object false f.params f.body rootScope) := by
    rw [h.find?, hlocal, hdefined]
    rfl
  exact within_closure hoperands hfind f.ofName?_name hargs hbody

theorem branch {condition yes no : Value} {b : Bool} (hlocal : locals.lookup "if" = none)
    (hcondition : EvaluatesWithin d condition s w (.ok (.bool b)) w)
    (hchosen : EvaluatesWithin (d + 1) (if b then yes else no) s w r w') :
    EvaluatesWithin (d + 1) (.list [.symbol "if", condition, yes, no]) s w r w' := by
  refine within_branch (h.not_bindsMacro .branch hlocal) hcondition ?_
  cases b <;> exact hchosen

/-! ### What a round computes -/

theorem oneLess (hn : n + 1 < 2 ^ 63) (hlocal : locals.lookup "-" = none)
    (hname : locals.lookup "n" = some (n + 1)) :
    EvaluatesWithin (d + 1) TailFunction.oneLess s w (.ok (.word n)) w := by
  refine h.primitive (p := .sub) (by decide) hlocal
    (.cons (h.symbol hname) (.cons (within_self trivial) .nil)) fun evaluate => ?_
  change (Primitive.computed (Number.difference [.word (n + 1), .int 1])).Ends w _ w
  rw [difference_one hn]
  rfl

theorem isZero (hn : n < 2 ^ 63) (hlocal : locals.lookup "=" = none)
    (hname : locals.lookup "n" = some n) :
    EvaluatesWithin (d + 1) (.list [.symbol "=", .symbol "n", .int 0]) s w
      (.ok (.bool (decide (n = 0)))) w := by
  refine h.primitive (p := .equal) (by decide) hlocal
    (.cons (h.symbol hname) (.cons (within_self trivial) .nil)) fun evaluate => ?_
  change (pure (.bool (Value.word n == .int 0)) : Action Value).Ends w _ w
  rw [word_beq_zero hn]
  rfl

theorem isPositive {x : String} (hn : n < 2 ^ 63) (hlocal : locals.lookup ">" = none)
    (hname : locals.lookup x = some n) :
    EvaluatesWithin (d + 1) (.list [.symbol ">", .symbol x, .int 0]) s w
      (.ok (.bool (decide (0 < n)))) w := by
  refine h.primitive (p := .greater) (by decide) hlocal
    (.cons (h.symbol hname) (.cons (within_self trivial) .nil)) fun evaluate => ?_
  change (Primitive.decided (Number.compares .greater Ordering.isGT (.word n) (.int 0))).Ends w _ w
  rw [compares_greater_zero hn]
  rfl

theorem sum {m : Nat} {x y : String} (hsum : m + n < 2 ^ 63) (hlocal : locals.lookup "+" = none)
    (hx : locals.lookup x = some m) (hy : locals.lookup y = some n) :
    EvaluatesWithin (d + 1) (.list [.symbol "+", .symbol x, .symbol y]) s w
      (.ok (.word (m + n))) w := by
  refine h.primitive (p := .add) (by decide) hlocal
    (.cons (h.symbol hx) (.cons (h.symbol hy) .nil)) fun evaluate => ?_
  change (Primitive.computed (Number.sum [.word m, .word n])).Ends w _ w
  rw [sum_words hsum]
  rfl

/-- What is done is decided by whether `n` is zero. -/
theorem atZero {yes no : Value} (hn : n < 2 ^ 63) (hif : locals.lookup "if" = none)
    (hequal : locals.lookup "=" = none) (hname : locals.lookup "n" = some n)
    (hchosen : EvaluatesWithin (d + 2) (if n = 0 then yes else no) s w r w') :
    EvaluatesWithin (d + 2) (TailFunction.atZero yes no) s w r w' := by
  refine h.branch hif (h.isZero hn hequal hname) ?_
  simpa only [decide_eq_true_eq] using hchosen

end

end Inside

/-! ## The loops -/

/-- Called with these arguments, the function has the value, at depth 2:
one evaluation on the way, and one for each part of a call there. -/
def Returns (loops : List TailFunction) (f : TailFunction) (args : List (String × Nat))
    (v : Value) : Prop :=
  ∀ w, Ready loops w →
    ∃ w', EvaluatesWithin 2 f.body w.scopes.size (w.enter rootScope (wordBindings args)) (.ok v) w'

variable {n : Nat}

theorem countDown_goOn (hloop : .countDown ∈ loops) (h : Inside loops w s locals)
    (hn : n < 2 ^ 63) (hm : locals.lookup "m" = some n) (hif : locals.lookup "if" = none)
    (hgreater : locals.lookup ">" = none) (hname : locals.lookup "count-down" = none)
    (hnext : n ≠ 0 → Returns loops .countDown [("n", n)] (.keyword "done")) :
    ∃ w', EvaluatesWithin 2 TailFunction.goOn s w (.ok (.keyword "done")) w' := by
  have hpositive : EvaluatesWithin 1 (.list [.symbol ">", .symbol "m", .int 0]) s w _ w :=
    h.isPositive hn hgreater hm
  by_cases hzero : n = 0
  · subst hzero
    exact ⟨w, h.branch hif hpositive (within_self trivial)⟩
  · obtain ⟨w', hbody⟩ := hnext hzero w h.ready
    refine ⟨w', h.branch hif hpositive ?_⟩
    rw [decide_eq_true (Nat.pos_of_ne_zero hzero), if_pos rfl]
    exact h.tailCall hloop hname (.cons (h.symbol hm) .nil) rfl hbody

theorem countDown_round (hloop : .countDown ∈ loops) (hn : n + 1 < 2 ^ 63)
    (hnext : n ≠ 0 → Returns loops .countDown [("n", n)] (.keyword "done")) :
    Returns loops .countDown [("n", n + 1)] (.keyword "done") := by
  intro w hready
  have hround : Inside loops _ w.scopes.size [("n", n + 1)] := hready.inside.enter [("n", n + 1)]
  obtain ⟨w', hgoOn⟩ := countDown_goOn hloop (hround.enter [("m", n)]) (Nat.lt_of_succ_lt hn) rfl
    rfl rfl rfl hnext
  -- The scope of the `let*` is there before `m` is defined in it.
  have hless : EvaluatesWithin 1 TailFunction.oneLess _ _ (.ok (.word n)) _ :=
    (hround.enter []).oneLess hn rfl rfl
  have hbindings : (Value.list [.symbol "m", TailFunction.oneLess]).letPairs? =
      some [.symbol "m", TailFunction.oneLess] := by
    simp [Value.letPairs?, Value.items?]
  refine ⟨w', within_sequence (hround.not_bindsMacro .sequence rfl) (within_self trivial) ?_⟩
  refine within_letIn (hround.not_bindsMacro .letIn rfl) hbindings hless ?_
  rw [show wordBindings [] = [] from rfl, World.define_enter]
  exact hgoOn

theorem returns_countDown (hloop : .countDown ∈ loops) (n : Nat) (hn : n + 1 < 2 ^ 63) :
    Returns loops .countDown [("n", n + 1)] (.keyword "done") := by
  induction n with
  | zero => exact countDown_round hloop hn fun hzero => absurd rfl hzero
  | succ n ih => exact countDown_round hloop hn fun _ => ih (Nat.lt_of_succ_lt hn)

/-- Each of the two asks the other one about the number before. -/
theorem returns_parity (hloops : ∀ even, .parity even ∈ loops) (n : Nat) (hn : n < 2 ^ 63) :
    ∀ even, Returns loops (.parity even) [("n", n)] (.bool (decide (n % 2 = 0) == even)) := by
  induction n with
  | zero =>
    intro even w hready
    have hround : Inside loops _ w.scopes.size [("n", 0)] := hready.inside.enter [("n", 0)]
    have hvalue : (decide (0 % 2 = 0) == even) = even := by cases even <;> rfl
    rw [hvalue]
    exact ⟨_, hround.atZero hn rfl rfl rfl (within_self trivial)⟩
  | succ n ih =>
    intro even w hready
    have hround : Inside loops _ w.scopes.size [("n", n + 1)] := hready.inside.enter [("n", n + 1)]
    have hvalue : (decide ((n + 1) % 2 = 0) == even) = (decide (n % 2 = 0) == !even) := by
      cases even <;> rcases Nat.mod_two_eq_zero_or_one n with h | h <;> simp [Nat.add_mod, h]
    obtain ⟨w', hnext⟩ := ih (Nat.lt_of_succ_lt hn) (!even) _ hround.ready
    rw [hvalue]
    refine ⟨w', hround.atZero hn rfl rfl rfl ?_⟩
    rw [if_neg (Nat.succ_ne_zero n)]
    refine hround.tailCall (hloops !even) ?_ (.cons (hround.oneLess hn rfl rfl) .nil) rfl hnext
    cases even <;> rfl

theorem returns_sumTo (hloop : .sumTo ∈ loops) (n : Nat) :
    ∀ total, total + n * (n + 1) / 2 < 2 ^ 63 →
      Returns loops .sumTo [("n", n), ("acc", total)] (.word (total + n * (n + 1) / 2)) := by
  induction n with
  | zero =>
    intro total htotal w hready
    have hround : Inside loops _ w.scopes.size [("n", 0), ("acc", total)] :=
      hready.inside.enter [("n", 0), ("acc", total)]
    exact ⟨_, hround.atZero (by decide) rfl rfl rfl (hround.symbol rfl)⟩
  | succ n ih =>
    intro total htotal w hready
    have hround : Inside loops _ w.scopes.size [("n", n + 1), ("acc", total)] :=
      hready.inside.enter [("n", n + 1), ("acc", total)]
    have hsum : total + (n + 1) * (n + 1 + 1) / 2 = total + (n + 1) + n * (n + 1) / 2 := by
      have hproduct : (n + 1) * (n + 1 + 1) = n * (n + 1) + (n + 1) * 2 := by ring
      rw [hproduct, Nat.add_mul_div_right _ _ Nat.two_pos]
      omega
    rw [hsum] at htotal ⊢
    obtain ⟨w', hnext⟩ := ih (total + (n + 1)) htotal _ hround.ready
    refine ⟨w', hround.atZero (by omega) rfl rfl rfl ?_⟩
    rw [if_neg (Nat.succ_ne_zero n)]
    exact hround.tailCall hloop rfl (.cons (hround.oneLess (by omega) rfl rfl)
      (.cons (hround.sum (by omega) rfl rfl rfl) .nil)) rfl hnext

/-! ## Sources -/

/-- Evaluates sources in order; the value is that of the last one. -/
def evalAll (b : Budget) : List String → Action Value
  | [] => return .nil
  | [last] => eval b last
  | source :: rest => do
    let _ ← eval b source
    evalAll b rest

theorem evalAll_cons {b : Budget} {source : String} {rest : List String} (h : rest ≠ []) :
    evalAll b (source :: rest) = eval b source >>= fun _ => evalAll b rest := by
  cases rest with
  | nil => exact absurd rfl h
  | cons next rest => rfl

section

variable {b b' : Budget} {w₁ w₂ : World} {r₁ r₂ : Except Error Value}

/-- Bounds do not change an answer. -/
theorem eval_unique {source : String} (h₁ : (eval b source).Ends w r₁ w₁)
    (h₂ : (eval b' source).Ends w r₂ w₂) : r₁ = r₂ ∧ w₁ = w₂ := by
  rcases ends_eval.mp h₁ with ⟨form, hread, h₁⟩ | ⟨d, hread, rfl, rfl⟩
  · rcases ends_eval.mp h₂ with ⟨form', hread', h₂⟩ | ⟨d, hread', -, -⟩
    · rw [hread] at hread'
      obtain rfl := Except.ok.inj hread'
      exact (evaluate_sound _ _ h₁).unique (evaluate_sound _ _ h₂)
    · rw [hread] at hread'
      cases hread'
  · rcases ends_eval.mp h₂ with ⟨form', hread', -⟩ | ⟨d', hread', rfl, rfl⟩
    · rw [hread] at hread'
      cases hread'
    · rw [hread] at hread'
      obtain rfl := Except.error.inj hread'
      exact ⟨rfl, rfl⟩

theorem evalAll_unique {sources : List String} : ∀ {w : World},
    (evalAll b sources).Ends w r₁ w₁ → (evalAll b' sources).Ends w r₂ w₂ → r₁ = r₂ ∧ w₁ = w₂ := by
  induction sources with
  | nil => exact fun h₁ h₂ => h₁.unique h₂
  | cons source rest ih =>
    intro w h₁ h₂
    by_cases hrest : rest = []
    · subst hrest
      exact eval_unique h₁ h₂
    · rw [evalAll_cons hrest, Action.ends_bind] at h₁ h₂
      rcases h₁ with ⟨v, w', h₁, hrest₁⟩ | ⟨e, h₁, rfl⟩ <;>
        rcases h₂ with ⟨v', w'', h₂, hrest₂⟩ | ⟨e', h₂, rfl⟩ <;>
        obtain ⟨heq, rfl⟩ := eval_unique h₁ h₂
      · exact ih hrest₁ hrest₂
      · cases heq
      · cases heq
      · exact ⟨congrArg Except.error (Except.error.inj heq), rfl⟩

end

/-! ### Definitions -/

/-- A definition in the root scope is seen there, and nothing else. -/
theorem find?_define_root (hw : Rooted w) (name other : String) (v : Value) :
    (w.define rootScope name v).find? rootScope other =
      if other = name then some v else w.find? rootScope other := by
  rw [rootScope, World.find?_zero, World.find?_zero]
  split
  · next heq =>
    subst heq
    exact World.findIn?_define_self hw.root
  · next hne => exact World.findIn?_define_other hne

/-- What the source of a loop does. -/
def defining (f : TailFunction) (w : World) : World :=
  w.count.define rootScope f.name (.closure w.objects false f.params f.body rootScope)

theorem Ready.eval_source (h : Ready loops w) (f : TailFunction) {b : Budget}
    (hb : Budget.Defines b) :
    eval b f.source w =
      .value (.closure w.objects false f.params f.body rootScope) (defining f w) :=
  eval_define hb f.read_source f.parameterNames_params (h.unbound .define) (h.unbound .function)

theorem Ready.defining (h : Ready loops w) (f : TailFunction) :
    Ready (f :: loops) (defining f w) := by
  have hends : (eval .ample f.source).Ends w
      (.ok (.closure w.objects false f.params f.body rootScope)) (Session.defining f w) :=
    h.eval_source f ample_defines
  have hcount : Rooted w.count := ⟨⟨h.rooted.wellFormed.older, h.rooted.wellFormed.bound,
    h.rooted.wellFormed.cells⟩, h.rooted.root⟩
  have hfind : ∀ name, (Session.defining f w).find? rootScope name =
      if name = f.name then some (.closure w.objects false f.params f.body rootScope)
      else w.find? rootScope name := fun name => find?_define_root hcount f.name name _
  refine ⟨rooted_eval h.rooted hends, ?_, ?_, ?_⟩
  · intro p hp
    rw [hfind, if_neg (f.primitive_ne_name hp)]
    exact h.primitives p hp
  · intro special
    rw [hfind, if_neg (f.special_ne_name special)]
    exact h.unbound special
  · intro g hg
    rw [hfind]
    by_cases hname : g.name = f.name
    · obtain rfl := TailFunction.name_injective hname
      exact ⟨_, if_pos rfl⟩
    · rw [if_neg hname]
      have hne : g ≠ f := fun heq => hname (congrArg _ heq)
      exact h.defined g ((List.mem_cons.mp hg).resolve_left hne)

/-- Definitions in any order, before something else. -/
theorem evalAll_definitions (definitions : List TailFunction) {rest : List String}
    (hrest : rest ≠ []) : ∀ {loops : List TailFunction} {w : World}, Ready loops w →
      ∃ w', Ready (definitions.reverse ++ loops) w' ∧ ∀ b, Budget.Defines b →
        evalAll b (definitions.map TailFunction.source ++ rest) w = evalAll b rest w' := by
  induction definitions with
  | nil => exact fun {_ w} h => ⟨w, h, fun _ _ => rfl⟩
  | cons f definitions ih =>
    intro loops w h
    obtain ⟨w', hready, hevaluated⟩ := ih (h.defining f)
    refine ⟨w', by simpa using hready, fun b hb => ?_⟩
    rw [List.map_cons, List.cons_append, evalAll_cons (by simp [hrest]), bind_apply,
      h.eval_source f hb]
    exact hevaluated b hb

theorem bindings_args (f : TailFunction) {args : List Nat}
    (hlength : args.length = f.params.length) :
    Call.bindings f.params (args.map .word) = .ok (wordBindings (f.params.zip args)) := by
  cases f with
  | countDown | parity _ =>
    obtain ⟨n, rfl⟩ := List.length_eq_one_iff.mp hlength
    rfl
  | sumTo =>
    obtain ⟨n, total, rfl⟩ := List.length_eq_two.mp hlength
    rfl

theorem Ready.call (h : Ready loops w) {f : TailFunction} (hf : f ∈ loops) {args : List Nat}
    (hlength : args.length = f.params.length) {v : Value}
    (hreturns : Returns loops f (f.params.zip args) v) :
    ∃ w', EvaluatesWithin 2 (f.callForm args) rootScope w (.ok v) w' := by
  obtain ⟨w', hbody⟩ := hreturns w h
  have hoperands : List.Forall₂ (fun form v => EvaluatesWithin 1 form rootScope w (.ok v) w)
      (args.map .word) (args.map .word) := by
    refine List.forall₂_same.mpr fun v hv => ?_
    obtain ⟨n, -, rfl⟩ := List.mem_map.mp hv
    exact within_self trivial
  exact ⟨w', h.inside.tailCall hf rfl hoperands (bindings_args f hlength) hbody⟩

/-! ## Answers -/

/-- Submitted in order, the sources have the answer `v`: with a depth of
`depth` or more as soon as the turns are enough, and never another one,
whatever the bounds. -/
def Answers (depth : Nat) (w : World) (sources : List String) (v : Value) : Prop :=
  (∃ n, ∀ b : Budget, depth ≤ b.depth → n ≤ b.steps → ∃ w', evalAll b sources w = .value v w') ∧
    ∀ b r w', (evalAll b sources).Ends w r w' → r = .ok v

/-- Some definitions, and a call. -/
def sources (definitions : List TailFunction) (f : TailFunction) (args : List Nat) : List String :=
  definitions.map TailFunction.source ++ [f.callText args]

theorem answers_call (files : Files) (argv : List String) {definitions : List TailFunction}
    {f : TailFunction} (hf : f ∈ definitions) {args : List Nat}
    (hlength : args.length = f.params.length) (hargs : ∀ n ∈ args, n < 2 ^ 63) {v : Value}
    (hreturns : Returns (definitions.reverse ++ []) f (f.params.zip args) v) :
    Answers 3 (start files argv) (sources definitions f args) v := by
  obtain ⟨w, hready, hdefined⟩ :=
    evalAll_definitions definitions (List.cons_ne_nil (f.callText args) []) (ready_start files argv)
  obtain ⟨w', hcall⟩ := hready.call (by simpa using hf) hlength hreturns
  obtain ⟨n, hends⟩ := hcall.nested
  have hvalue : ∀ b : Budget, 3 ≤ b.depth → n + 1 ≤ b.steps →
      evalAll b (sources definitions f args) (start files argv) = .value v w' := by
    intro b hdepth hsteps
    rw [sources, hdefined b ⟨by omega, by omega⟩, evalAll, eval_of_read (f.read_callText hargs)]
    exact hends b.steps b.depth n (by omega) hdepth (Nat.le_refl n)
  refine ⟨⟨n + 1, fun b hdepth hsteps => ⟨w', hvalue b hdepth hsteps⟩⟩, fun b r w'' h => ?_⟩
  have hends : (evalAll ⟨3, n + 1⟩ (sources definitions f args)).Ends (start files argv) (.ok v) w' :=
    hvalue ⟨3, n + 1⟩ (Nat.le_refl 3) (Nat.le_refl _)
  exact (evalAll_unique h hends).1

/-- Loops by tail calls need no nesting. In a new session, after
definitions in any order with that of the loop among them, three
evaluations inside one another are enough for a call with any number
that fits into a word: that of the call, in which all rounds are turns,
that of a condition or an operand in a round, and that of a part of the
latter. The definitions keep to the same bounds, and the answer is the
one without bounds. -/
theorem tail_calls_need_no_nesting (files : Files) (argv : List String)
    (definitions : List TailFunction) (n : Nat) (hpositive : 1 ≤ n) (hword : n < 2 ^ 63) :
    (.countDown ∈ definitions →
      Answers 3 (start files argv) (sources definitions .countDown [n]) (.keyword "done")) ∧
    ((∀ even, .parity even ∈ definitions) →
      Answers 3 (start files argv) (sources definitions (.parity true) [n])
        (.bool (decide (n % 2 = 0)))) ∧
    (.sumTo ∈ definitions → n * (n + 1) / 2 < 2 ^ 63 →
      Answers 3 (start files argv) (sources definitions .sumTo [n, 0])
        (.word (n * (n + 1) / 2))) := by
  refine ⟨fun hdefined => ?_, fun hdefined => ?_, fun hdefined hsum => ?_⟩
  · obtain ⟨n, rfl⟩ := Nat.exists_eq_add_of_le' hpositive
    refine answers_call files argv hdefined rfl (by simpa using hword) ?_
    exact returns_countDown (by simpa using hdefined) n hword
  · have hparity : (decide (n % 2 = 0) == true) = decide (n % 2 = 0) := beq_true _
    refine answers_call files argv (hdefined true) rfl (by simpa using hword) ?_
    rw [← hparity]
    exact returns_parity (by simpa using hdefined) n hword true
  · refine answers_call files argv hdefined rfl (by simpa using hword) ?_
    rw [← Nat.zero_add (n * (n + 1) / 2)] at hsum ⊢
    exact returns_sumTo (by simpa using hdefined) n 0 hsum

/-- The greatest numbers that are allowed. -/
theorem tail_calls_greatestWord :
    let w := start (fun _ => none) []
    let parities : List TailFunction := [.parity false, .countDown, .parity true]
    Answers 3 w (sources parities .countDown [9223372036854775807]) (.keyword "done") ∧
      Answers 3 w (sources parities (.parity true) [9223372036854775807]) (.bool false) ∧
      Answers 3 w (sources [.sumTo] .sumTo [4294967295, 0]) (.word 9223372034707292160) := by
  intro w parities
  obtain ⟨hcountDown, hparity, -⟩ := tail_calls_need_no_nesting (fun _ => none) [] parities
    9223372036854775807 (by decide) (by decide)
  obtain ⟨-, -, hsumTo⟩ := tail_calls_need_no_nesting (fun _ => none) [] [.sumTo]
    4294967295 (by decide) (by decide)
  exact ⟨hcountDown (by decide), hparity (by decide), hsumTo (by decide) (by decide)⟩

end Session

end Lisp
