import Lisp.Proofs.Grammar
import Lisp.Proofs.Turns
import Mathlib.Data.List.Induction

/-!
# Arithmetic is exact or fails

The four operations fold their operands from the left. This module says
what comes out in terms of whole numbers without bounds. As long as the
operands are whole, the result so far is the fold of the unbounded
operation, and every partial result fits into a word (`Stays`); where
one does not, or a divisor is zero, the operation fails at that operand.
From the first floating point operand on, all is floating point and only
an operand that is no number can fail.

What a list of operands comes to is said without reference to the fold
that computes it, by `Reaches` for numbers and by `Fails` for errors. Each
of the two is shown in both directions (`result_eq_ok_iff`,
`result_eq_error_iff`), by an induction from the end of the list, since
the leftmost operand at fault is the one whose predecessors fold.
-/

namespace Lisp

namespace Value

/-- A whole or a floating point number. -/
def IsNumber (v : Value) : Prop := v.tag = .int ∨ v.tag = .float

/-- A number as an operand of floating point arithmetic, `none` for
NaN. -/
def asFloat : Value → Option Binary64
  | int n => some (.ofInt n.toInt)
  | float x => some x
  | _ => none

end Value

namespace Number

/-! ## Operations without bounds -/

inductive Arithmetic where
  | plus | minus | times | divided
  deriving DecidableEq

/-- Operands that are whole numbers. -/
def words (ns : List Int64) : List Value := ns.map .int

theorem words_ne_nil (n : Int64) (ns : List Int64) : words (n :: ns) ≠ [] := List.cons_ne_nil _ _

theorem words_concat (ns : List Int64) (n : Int64) : words (ns ++ [n]) = words ns ++ [.int n] := by
  rw [words, List.map_append]
  rfl

/-- A whole number fits into a signed word of 64 bits. -/
def InWord (n : Int) : Prop := -9223372036854775808 ≤ n ∧ n ≤ 9223372036854775807

instance (n : Int) : Decidable (InWord n) := inferInstanceAs (Decidable (_ ∧ _))

namespace Arithmetic

def operation : Arithmetic → Operation
  | plus => addition
  | minus => subtraction
  | times => multiplication
  | divided => division

def primitive (o : Arithmetic) : Primitive := o.operation.primitive

/-- The operation on whole numbers without bounds. Division cuts off
toward zero. -/
def exact : Arithmetic → Int → Int → Int
  | plus, a, b => a + b
  | minus, a, b => a - b
  | times, a, b => a * b
  | divided, a, b => a.tdiv b

def total (o : Arithmetic) (a : Int) (ns : List Int64) : Int :=
  ns.foldl (fun acc n => o.exact acc n.toInt) a

theorem total_nil (o : Arithmetic) (a : Int) : o.total a [] = a := rfl

theorem total_concat (o : Arithmetic) (a : Int) (ns : List Int64) (n : Int64) :
    o.total a (ns ++ [n]) = o.exact (o.total a ns) n.toInt := by
  simp [total]

/-- All partial results fit into a word, and nothing is divided by
zero. -/
structure Stays (o : Arithmetic) (a : Int64) (ns : List Int64) : Prop where
  fits : ∀ front, front <+: ns → InWord (o.total a.toInt front)
  divisors : o = divided → 0 ∉ ns

/-- The number of operands that is asked for. -/
def least : Arithmetic → Nat
  | plus | times => 0
  | minus => 1
  | divided => 2

/-- The operands that are folded: with none the sum is 0 and the product
1, and a single number is subtracted from 0. -/
def operands : Arithmetic → List Value → List Value
  | plus, [] => [.int 0]
  | times, [] => [.int 1]
  | minus, [v] => [.int 0, v]
  | _, args => args

/-- What is wrong with an operand that leads out of the words. -/
def fault (o : Arithmetic) (n : Int64) : Cause :=
  if o = divided ∧ n = 0 then .divisionByZero else .overflow o.primitive

/-- Floating point operands, folded from `x`. -/
def floats (o : Arithmetic) (x : Option Binary64) (vs : List Value) : Option Binary64 :=
  vs.foldl (fun x v => Binary64.compute o.operation.float x v.asFloat) x

/-- The operands come to a number. -/
inductive Reaches (o : Arithmetic) : List Value → Number → Prop
  | whole {a r : Int64} {ns : List Int64} (h : o.Stays a ns) (hr : r.toInt = o.total a.toInt ns) :
      Reaches o (words (a :: ns)) (.whole r)
  | float {v : Value} {vs : List Value} (hv : v.tag = .float) (hvs : ∀ v ∈ vs, v.IsNumber) :
      Reaches o (v :: vs) (.float (o.floats v.asFloat vs))
  | mixed {a : Int64} {ns : List Int64} {v : Value} {vs : List Value} (h : o.Stays a ns)
      (hv : v.tag = .float) (hvs : ∀ v ∈ vs, v.IsNumber) :
      Reaches o (words (a :: ns) ++ v :: vs)
        (.float (o.floats (some (.ofInt (o.total a.toInt ns))) (v :: vs)))

/-- The operands fail, at the first one that is no number or leads out of
the words. -/
inductive Fails (o : Arithmetic) : List Value → Cause → Prop
  | noNumber {front back : List Value} {v : Value} (h : front = [] ∨ ∃ x, o.Reaches front x)
      (hv : ¬v.IsNumber) :
      Fails o (front ++ v :: back) (.operand o.primitive "a number" v.tag)
  | arithmetic {a n : Int64} {front : List Int64} {back : List Value} (h : o.Stays a front)
      (hn : ¬o.Stays a (front ++ [n])) :
      Fails o (words (a :: front) ++ .int n :: back) (o.fault n)

/-! ## Words -/

theorem inWord_iff {n : Int} : InWord n ↔ ∃ r, int64? n = some r := by
  have hnone : int64? n = none ↔ ¬InWord n := Literal.int64?_eq_none_iff
  rw [← not_iff_not, ← hnone, Option.eq_none_iff_forall_ne_some, not_exists]

theorem inWord_toInt (n : Int64) : InWord n.toInt := inWord_iff.mpr ⟨n, int64?_toInt n⟩

theorem stays_nil (o : Arithmetic) (a : Int64) : o.Stays a [] := by
  refine ⟨fun front h => ?_, fun _ => List.not_mem_nil⟩
  rw [List.prefix_nil.mp h]
  exact inWord_toInt a

theorem stays_concat {o : Arithmetic} {a n : Int64} {ns : List Int64} :
    o.Stays a (ns ++ [n]) ↔
      o.Stays a ns ∧ (o = divided → n ≠ 0) ∧ InWord (o.exact (o.total a.toInt ns) n.toInt) := by
  rw [← total_concat]
  constructor
  · intro h
    refine ⟨⟨fun front hfront => h.fits front (hfront.trans (List.prefix_append ..)), ?_⟩, ?_, ?_⟩
    · exact fun ho hzero => h.divisors ho (List.mem_append_left _ hzero)
    · rintro ho rfl
      exact h.divisors ho (by simp)
    · exact h.fits _ (List.prefix_refl _)
  · rintro ⟨h, hn, hfits⟩
    refine ⟨fun front hfront => ?_, fun ho hzero => ?_⟩
    · rcases List.prefix_concat_iff.mp hfront with rfl | hfront
      · exact hfits
      · exact h.fits front hfront
    · rcases List.mem_append.mp hzero with hzero | hzero
      · exact h.divisors ho hzero
      · exact hn ho (List.mem_singleton.mp hzero).symm

/-! ## One operand -/

/-- Takes one more operand. -/
def step (o : Arithmetic) (x : Number) (v : Value) : Except Cause Number := do
  o.operation.apply x (← ofValue o.primitive v)

section

variable {o : Arithmetic} {v : Value} {x : Number} {cause : Cause}

theorem ofValue_of_float (h : v.tag = .float) (p : Primitive) :
    ofValue p v = .ok (.float v.asFloat) := by
  cases v with
  | closure object expander params body captured => cases expander <;> cases h
  | float y | nan object => rfl
  | _ => cases h

theorem ofValue_of_noNumber (h : ¬v.IsNumber) (p : Primitive) :
    ofValue p v = .error (.operand p "a number" v.tag) := by
  cases v with
  | int n => exact absurd (Or.inl rfl) h
  | float y | nan object => exact absurd (Or.inr rfl) h
  | _ => rfl

theorem value_cases (v : Value) : (∃ n, v = .int n) ∨ v.tag = .float ∨ ¬v.IsNumber := by
  by_cases hint : v.tag = .int
  · cases v with
    | int n => exact Or.inl ⟨n, rfl⟩
    | closure object expander params body captured => cases expander <;> cases hint
    | _ => cases hint
  · by_cases hfloat : v.tag = .float
    · exact Or.inr (Or.inl hfloat)
    · exact Or.inr (Or.inr (not_or.mpr ⟨hint, hfloat⟩))

theorem apply_whole (o : Arithmetic) (a n : Int64) :
    o.operation.apply (.whole a) (.whole n) =
      if o = divided ∧ n = 0 then .error .divisionByZero
      else match int64? (o.exact a.toInt n.toInt) with
        | some r => .ok (.whole r)
        | none => .error (.overflow o.primitive) := by
  cases o with
  | divided =>
    have hzero : n.toInt = 0 ↔ n = 0 := by rw [← Int64.toInt_zero, Int64.toInt_inj]
    by_cases hn : n = 0
    · simp [operation, Operation.apply, division, hn]
    · simp only [operation, Operation.apply, division, hzero, hn, if_false, and_false]
      rfl
  | plus | minus | times => rfl

theorem step_word (a n : Int64) :
    o.step (.whole a) (.int n) = o.operation.apply (.whole a) (.whole n) := rfl

theorem step_word_ok {a n r : Int64} (hn : o = divided → n ≠ 0)
    (hr : r.toInt = o.exact a.toInt n.toInt) : o.step (.whole a) (.int n) = .ok (.whole r) := by
  rw [step_word, apply_whole, if_neg fun h => hn h.1 h.2, ← hr, int64?_toInt]

theorem step_word_cases (o : Arithmetic) (a n : Int64) :
    ((o = divided → n ≠ 0) ∧ ∃ r : Int64, r.toInt = o.exact a.toInt n.toInt ∧
        o.step (.whole a) (.int n) = .ok (.whole r)) ∨
      ¬((o = divided → n ≠ 0) ∧ InWord (o.exact a.toInt n.toInt)) ∧
        o.step (.whole a) (.int n) = .error (o.fault n) := by
  rw [step_word, apply_whole, fault]
  by_cases hzero : o = divided ∧ n = 0
  · rw [if_pos hzero, if_pos hzero]
    exact Or.inr ⟨fun h => h.1 hzero.1 hzero.2, rfl⟩
  · rw [if_neg hzero, if_neg hzero]
    cases hword : int64? (o.exact a.toInt n.toInt) with
    | some r =>
      exact Or.inl ⟨fun ho hn => hzero ⟨ho, hn⟩, r, Literal.toInt_of_int64? hword, rfl⟩
    | none => exact Or.inr ⟨fun h => Literal.int64?_eq_none_iff.mp hword h.2, rfl⟩

theorem step_of_float (h : v.tag = .float) (x : Number) :
    o.step x v = .ok (.float (Binary64.compute o.operation.float x.toFloat v.asFloat)) := by
  rw [step, ofValue_of_float h]
  cases x <;> rfl

theorem step_float (h : v.IsNumber) (x : Option Binary64) :
    o.step (.float x) v = .ok (.float (Binary64.compute o.operation.float x v.asFloat)) := by
  rcases value_cases v with ⟨n, rfl⟩ | hfloat | hnone
  · rfl
  · exact step_of_float hfloat (.float x)
  · exact absurd h hnone

theorem step_of_noNumber (h : ¬v.IsNumber) (x : Number) :
    o.step x v = .error (.operand o.primitive "a number" v.tag) := by
  rw [step, ofValue_of_noNumber h]
  rfl

end

/-! ## All operands -/

theorem foldFrom_append (op : Operation) (x : Number) (front back : List Value) :
    op.foldFrom x (front ++ back) = op.foldFrom x front >>= fun y => op.foldFrom y back := by
  induction front generalizing x with
  | nil => rfl
  | cons v rest ih =>
    rw [List.cons_append, Operation.foldFrom, Operation.foldFrom]
    cases ofValue op.primitive v with
    | error cause => rfl
    | ok operand =>
      change (op.apply x operand >>= _) = (op.apply x operand >>= _) >>= _
      cases op.apply x operand with
      | error cause => rfl
      | ok y => exact ih y

/-- What a list of operands is computed to. -/
def result (o : Arithmetic) : List Value → Except Cause Number
  | [] => .error (.tooFew o.primitive o.least 0)
  | v :: vs => do o.operation.foldFrom (← ofValue o.primitive v) vs

section

variable {o : Arithmetic} {front back vs : List Value} {v : Value} {x y : Number} {cause : Cause}

theorem foldFrom_single (o : Arithmetic) (x : Number) (v : Value) :
    o.operation.foldFrom x [v] = o.step x v := by
  rw [Operation.foldFrom, step]
  change (ofValue o.primitive v >>= _) = _
  cases ofValue o.primitive v with
  | error cause => rfl
  | ok operand =>
    change (o.operation.apply x operand >>= _) = o.operation.apply x operand
    cases o.operation.apply x operand <;> rfl

theorem result_append (hfront : front ≠ []) (back : List Value) :
    o.result (front ++ back) = o.result front >>= fun y => o.operation.foldFrom y back := by
  obtain ⟨first, rest, rfl⟩ := List.exists_cons_of_ne_nil hfront
  rw [List.cons_append, result, result]
  cases ofValue o.primitive first with
  | error cause => rfl
  | ok operand => exact foldFrom_append o.operation operand rest back

theorem result_concat (hfront : front ≠ []) :
    o.result (front ++ [v]) = o.result front >>= fun y => o.step y v := by
  rw [result_append hfront]
  simp only [foldFrom_single]

theorem result_single (v : Value) : o.result [v] = ofValue o.primitive v := by
  rw [result]
  cases ofValue o.primitive v <;> rfl

/-- An error stays, whatever comes after it. -/
theorem result_append_of_error (hfront : front ≠ []) (h : o.result front = .error cause)
    (back : List Value) : o.result (front ++ back) = .error cause := by
  rw [result_append hfront, h]
  rfl

/-! ### Numbers -/

theorem result_words_concat {a r n : Int64} {ns : List Int64}
    (h : o.result (words (a :: ns)) = .ok (.whole r)) :
    o.result (words (a :: ns) ++ [.int n]) = o.step (.whole r) (.int n) := by
  rw [result_concat (words_ne_nil a ns), h, ok_bind]

theorem result_words {a r : Int64} {ns : List Int64} (h : o.Stays a ns)
    (hr : r.toInt = o.total a.toInt ns) : o.result (words (a :: ns)) = .ok (.whole r) := by
  induction ns using List.reverseRecOn generalizing r with
  | nil =>
    rw [total_nil, Int64.toInt_inj] at hr
    rw [hr]
    exact result_single (.int a)
  | append_singleton ns n ih =>
    obtain ⟨hns, hn, -⟩ := stays_concat.mp h
    obtain ⟨partialSum, hpartial⟩ := inWord_iff.mp (hns.fits ns (List.prefix_refl _))
    have htoInt := Literal.toInt_of_int64? hpartial
    rw [total_concat, ← htoInt] at hr
    rw [← List.cons_append, words_concat, result_words_concat (ih hns htoInt)]
    exact step_word_ok hn hr

theorem foldFrom_floats (hvs : ∀ v ∈ vs, v.IsNumber) (x : Option Binary64) :
    o.operation.foldFrom (.float x) vs = .ok (.float (o.floats x vs)) := by
  induction vs generalizing x with
  | nil => rfl
  | cons v vs ih =>
    obtain ⟨hv, hvs⟩ := List.forall_mem_cons.mp hvs
    rw [← List.singleton_append, foldFrom_append, foldFrom_single, step_float hv]
    exact ih hvs _

theorem Reaches.result (h : o.Reaches vs x) : o.result vs = .ok x := by
  cases h with
  | whole h hr => exact result_words h hr
  | @float v vs hv hvs =>
    rw [Arithmetic.result, ofValue_of_float hv]
    exact foldFrom_floats hvs _
  | @mixed a ns v vs h hv hvs =>
    obtain ⟨r, hr⟩ := inWord_iff.mp (h.fits ns (List.prefix_refl _))
    have htoInt := Literal.toInt_of_int64? hr
    rw [result_append (words_ne_nil a ns), result_words h htoInt, ← htoInt]
    change o.operation.foldFrom (.whole r) ([v] ++ vs) = _
    rw [foldFrom_append, foldFrom_single, step_of_float hv]
    exact foldFrom_floats hvs _

theorem reaches_single (h : ofValue o.primitive v = .ok x) : o.Reaches [v] x := by
  rcases value_cases v with ⟨n, rfl⟩ | hfloat | hnone
  · obtain rfl := Except.ok.inj h
    exact .whole (stays_nil o n) rfl
  · rw [ofValue_of_float hfloat] at h
    obtain rfl := Except.ok.inj h
    exact .float hfloat (List.forall_mem_nil _)
  · rw [ofValue_of_noNumber hnone] at h
    cases h

/-- After a floating point number come numbers only. -/
theorem Reaches.more {x : Option Binary64} (h : o.Reaches vs (.float x))
    (hback : ∀ v ∈ back, v.IsNumber) : o.Reaches (vs ++ back) (.float (o.floats x back)) := by
  cases h with
  | @float v vs hv hvs =>
    have hall := Reaches.float (o := o) hv (List.forall_mem_append.mpr ⟨hvs, hback⟩)
    rwa [floats, List.foldl_append] at hall
  | @mixed a ns v vs h hv hvs =>
    have hall := Reaches.mixed (o := o) h hv (List.forall_mem_append.mpr ⟨hvs, hback⟩)
    rwa [floats, ← List.cons_append, List.foldl_append, ← List.append_assoc] at hall

/-- One more operand. -/
theorem Reaches.concat (h : o.Reaches vs x) (hstep : o.step x v = .ok y) :
    o.Reaches (vs ++ [v]) y := by
  cases x with
  | float x =>
    by_cases hv : v.IsNumber
    · rw [step_float hv] at hstep
      obtain rfl := Except.ok.inj hstep
      exact h.more (List.forall_mem_singleton.mpr hv)
    · rw [step_of_noNumber hv] at hstep
      cases hstep
  | whole r =>
    obtain @⟨a, _, ns, h, hr⟩ := h
    rcases value_cases v with ⟨n, rfl⟩ | hfloat | hnone
    · rcases step_word_cases o r n with ⟨hn, s, hs, hok⟩ | ⟨-, herror⟩
      · obtain rfl := Except.ok.inj (hok.symm.trans hstep)
        rw [hr] at hs
        have hfits : InWord (o.exact (o.total a.toInt ns) n.toInt) := hs ▸ inWord_toInt s
        have hmore := Reaches.whole (stays_concat.mpr ⟨h, hn, hfits⟩)
          (hs.trans (o.total_concat ..).symm)
        rwa [← List.cons_append, words_concat] at hmore
      · cases herror.symm.trans hstep
    · rw [step_of_float hfloat] at hstep
      obtain rfl := Except.ok.inj hstep
      have hmixed := Reaches.mixed h hfloat (List.forall_mem_nil _)
      rwa [← hr] at hmixed
    · rw [step_of_noNumber hnone] at hstep
      cases hstep

theorem reaches_of_result (h : o.result vs = .ok x) : o.Reaches vs x := by
  induction vs using List.reverseRecOn generalizing x with
  | nil => cases h
  | append_singleton vs v ih =>
    by_cases hvs : vs = []
    · subst hvs
      rw [List.nil_append, result_single] at h
      exact reaches_single h
    · rw [result_concat hvs] at h
      obtain ⟨y, hy, hstep⟩ := ok_of_bind h
      exact (ih hy).concat hstep

theorem result_eq_ok_iff : o.result vs = .ok x ↔ o.Reaches vs x :=
  ⟨reaches_of_result, Reaches.result⟩

/-! ### Errors -/

theorem Fails.result (h : o.Fails vs cause) : o.result vs = .error cause := by
  cases h with
  | @noNumber front back v h hv =>
    rw [List.append_cons]
    refine result_append_of_error (by simp) ?_ back
    by_cases hfront : front = []
    · rw [hfront, List.nil_append, result_single, ofValue_of_noNumber hv]
    · obtain ⟨x, hx⟩ := h.resolve_left hfront
      rw [result_concat hfront, hx.result, ok_bind]
      exact step_of_noNumber hv x
  | @arithmetic a n front back h hn =>
    rw [List.append_cons]
    refine result_append_of_error (by simp) ?_ back
    obtain ⟨r, hr⟩ := inWord_iff.mp (h.fits front (List.prefix_refl _))
    have htoInt := Literal.toInt_of_int64? hr
    rw [result_words_concat (result_words h htoInt)]
    rcases step_word_cases o r n with ⟨hdivisor, s, hs, -⟩ | ⟨-, herror⟩
    · have hfits : InWord (o.exact r.toInt n.toInt) := hs ▸ inWord_toInt s
      rw [htoInt] at hfits
      exact absurd (stays_concat.mpr ⟨h, hdivisor, hfits⟩) hn
    · exact herror

theorem Fails.append (h : o.Fails vs cause) (more : List Value) : o.Fails (vs ++ more) cause := by
  cases h with
  | noNumber h hv =>
    rw [List.append_assoc, List.cons_append]
    exact .noNumber h hv
  | arithmetic h hn =>
    rw [List.append_assoc, List.cons_append]
    exact .arithmetic h hn

theorem fails_single (h : ofValue o.primitive v = .error cause) : o.Fails [v] cause := by
  by_cases hv : v.IsNumber
  · rcases value_cases v with ⟨n, rfl⟩ | hfloat | hnone
    · cases h
    · rw [ofValue_of_float hfloat] at h
      cases h
    · exact absurd hv hnone
  · rw [ofValue_of_noNumber hv] at h
    obtain rfl := Except.error.inj h
    have hfails : o.Fails ([] ++ [v]) (.operand o.primitive "a number" v.tag) :=
      .noNumber (Or.inl rfl) hv
    exact hfails

/-- The operand after operands that have a result. -/
theorem Reaches.fails (h : o.Reaches vs x) (hstep : o.step x v = .error cause) :
    o.Fails (vs ++ [v]) cause := by
  by_cases hv : v.IsNumber
  · cases x with
    | float x =>
      rw [step_float hv] at hstep
      cases hstep
    | whole r =>
      obtain @⟨a, _, ns, h, hr⟩ := h
      rcases value_cases v with ⟨n, rfl⟩ | hfloat | hnone
      · rcases step_word_cases o r n with ⟨-, s, -, hok⟩ | ⟨hn, herror⟩
        · cases hok.symm.trans hstep
        · obtain rfl := Except.error.inj (herror.symm.trans hstep)
          refine .arithmetic h fun hstays => hn ?_
          rw [hr]
          exact (stays_concat.mp hstays).2
      · rw [step_of_float hfloat] at hstep
        cases hstep
      · exact absurd hv hnone
  · rw [step_of_noNumber hv] at hstep
    obtain rfl := Except.error.inj hstep
    exact .noNumber (Or.inr ⟨x, h⟩) hv

theorem fails_of_result (hvs : vs ≠ []) (h : o.result vs = .error cause) : o.Fails vs cause := by
  induction vs using List.reverseRecOn with
  | nil => exact absurd rfl hvs
  | append_singleton front v ih =>
    by_cases hfront : front = []
    · subst hfront
      rw [List.nil_append, result_single] at h
      exact fails_single h
    · cases hbefore : o.result front with
      | error earlier =>
        rw [result_append_of_error hfront hbefore] at h
        obtain rfl := Except.error.inj h
        exact (ih hfront hbefore).append [v]
      | ok x =>
        rw [result_concat hfront, hbefore, ok_bind] at h
        exact (reaches_of_result hbefore).fails h

theorem Fails.ne_nil (h : o.Fails vs cause) : vs ≠ [] := by
  cases h <;> simp

theorem result_eq_error_iff (hvs : vs ≠ []) : o.result vs = .error cause ↔ o.Fails vs cause :=
  ⟨fails_of_result hvs, Fails.result⟩

/-- After a floating point number only an operand that is no number
fails, and the first such one does. -/
theorem Reaches.after_float {x : Option Binary64} (h : o.Reaches vs (.float x))
    (back : List Value) :
    (∃ y, o.Reaches (vs ++ back) (.float y)) ∨
      ∃ front v rest, back = front ++ v :: rest ∧ (∀ u ∈ front, u.IsNumber) ∧ ¬v.IsNumber ∧
        o.Fails (vs ++ back) (.operand o.primitive "a number" v.tag) := by
  induction back generalizing vs x with
  | nil => exact Or.inl ⟨x, by rwa [List.append_nil]⟩
  | cons v back ih =>
    by_cases hv : v.IsNumber
    · rw [List.append_cons]
      rcases ih (h.concat (step_float hv x)) with
        hreaches | ⟨front, u, rest, rfl, hfront, hu, hfails⟩
      · exact Or.inl hreaches
      · exact Or.inr ⟨v :: front, u, rest, rfl, List.forall_mem_cons.mpr ⟨hv, hfront⟩, hu, hfails⟩
    · exact Or.inr ⟨[], v, back, rfl, List.forall_mem_nil _, hv, .noNumber (Or.inr ⟨_, h⟩) hv⟩

theorem tag_of_mem_words {ns : List Int64} (h : v ∈ words ns) : v.tag = .int := by
  obtain ⟨n, -, rfl⟩ := List.mem_map.mp h
  rfl

theorem reaches_words {a : Int64} {ns : List Int64} :
    o.Reaches (words (a :: ns)) x ↔
      ∃ r, x = .whole r ∧ o.Stays a ns ∧ r.toInt = o.total a.toInt ns := by
  constructor
  · intro h
    generalize hvs : words (a :: ns) = vs at h
    cases h with
    | @whole b r ms h hr =>
      obtain ⟨rfl, rfl⟩ := List.cons.inj (List.map_injective_iff.mpr (fun _ _ => Value.int.inj) hvs)
      exact ⟨r, rfl, h, hr⟩
    | @float v vs hv =>
      have htag := tag_of_mem_words (hvs ▸ List.mem_cons_self)
      cases hv.symm.trans htag
    | @mixed b ms v vs h hv =>
      have htag := tag_of_mem_words (hvs ▸ List.mem_append_right _ List.mem_cons_self)
      cases hv.symm.trans htag
  · rintro ⟨r, rfl, h, hr⟩
    exact .whole h hr

theorem fails_words {a : Int64} {ns : List Int64} :
    o.Fails (words (a :: ns)) cause ↔
      ∃ front n back, ns = front ++ n :: back ∧ o.Stays a front ∧ ¬o.Stays a (front ++ [n]) ∧
        cause = o.fault n := by
  constructor
  · intro h
    generalize hvs : words (a :: ns) = vs at h
    cases h with
    | @noNumber front back v h hv =>
      have htag := tag_of_mem_words (hvs ▸ List.mem_append_right _ List.mem_cons_self)
      exact absurd (Or.inl htag) hv
    | @arithmetic b n front back h hn =>
      obtain ⟨hhead, hback⟩ := List.cons.inj hvs
      obtain rfl := Value.int.inj hhead
      obtain ⟨front', rest, rfl, hfront, hrest⟩ := List.map_eq_append_iff.mp hback
      obtain ⟨m, back', rfl, hm, -⟩ := List.map_eq_cons_iff.mp hrest
      obtain rfl := List.map_injective_iff.mpr (fun _ _ => Value.int.inj) hfront
      obtain rfl := Value.int.inj hm
      exact ⟨front', m, back', rfl, h, hn, rfl⟩
  · rintro ⟨front, n, back, rfl, h, hn, rfl⟩
    rw [words, List.map_cons, List.map_append, List.map_cons]
    exact .arithmetic h hn

end

/-! ## The primitives -/

/-- What the primitive computes. -/
def compute : Arithmetic → List Value → Except Cause Number
  | plus => sum
  | minus => difference
  | times => product
  | divided => quotient

theorem fold_of_le {op : Operation} {least : Nat} {v : Value} {vs : List Value}
    (h : least ≤ (v :: vs).length) :
    op.fold least (v :: vs) = ofValue op.primitive v >>= fun x => op.foldFrom x vs := by
  rw [Operation.fold, if_neg (Nat.not_lt.mpr h)]

theorem compute_of_lt {o : Arithmetic} {args : List Value} (h : args.length < o.least) :
    o.compute args = .error (.tooFew o.primitive o.least args.length) := by
  cases o with
  | plus | times => exact absurd h (Nat.not_lt_zero _)
  | minus =>
    obtain rfl := List.length_eq_zero_iff.mp (Nat.lt_one_iff.mp h)
    rfl
  | divided =>
    match args, h with
    | [], _ | [_], _ => rfl

theorem compute_of_le {o : Arithmetic} {args : List Value} (h : o.least ≤ args.length) :
    o.compute args = o.result (o.operands args) := by
  cases o with
  | plus | times =>
    cases args with
    | nil => rfl
    | cons v vs => exact fold_of_le (Nat.le_add_left 1 _)
  | minus =>
    rcases args with _ | ⟨v, _ | ⟨u, vs⟩⟩
    · cases h
    · rfl
    · exact fold_of_le (Nat.le_add_left 1 _)
  | divided =>
    rcases args with _ | ⟨v, vs⟩
    · cases h
    · exact fold_of_le h

theorem operands_ne_nil {o : Arithmetic} {args : List Value} (h : o.least ≤ args.length) :
    o.operands args ≠ [] := by
  rcases args with _ | ⟨v, _ | ⟨u, vs⟩⟩
  · cases o with
    | plus | times => exact List.cons_ne_nil _ _
    | minus | divided => cases h
  · cases o <;> exact List.cons_ne_nil _ _
  · cases o <;> exact List.cons_ne_nil _ _

theorem operands_words {o : Arithmetic} {ns : List Int64} (h : o.least ≤ ns.length) :
    ∃ a rest, o.operands (words ns) = words (a :: rest) := by
  rcases ns with _ | ⟨n, _ | ⟨m, ns⟩⟩
  · cases o with
    | plus => exact ⟨0, [], rfl⟩
    | times => exact ⟨1, [], rfl⟩
    | minus | divided => cases h
  · cases o with
    | minus => exact ⟨0, [n], rfl⟩
    | plus | times | divided => exact ⟨n, [], rfl⟩
  · cases o <;> exact ⟨n, m :: ns, rfl⟩

theorem apply_primitive (o : Arithmetic) (evaluate : Evaluator) (scope : ScopeId)
    (args : List Value) :
    apply evaluate scope (.builtin o.primitive) args = Primitive.computed (o.compute args) := by
  cases o <;> exact apply_builtin (by decide)

theorem computed_error (cause : Cause) (w : World) :
    Primitive.computed (.error cause) w = .failure (.raised cause) w := rfl

theorem computed_ok (x : Number) (w : World) :
    Primitive.computed (.ok x) w = Primitive.numberValue x w := rfl

theorem numberValue_eq (x : Number) (w : World) :
    ∃ v w', Primitive.numberValue x w = .value v w' := by
  rcases x with n | _ | x
  · exact ⟨_, _, rfl⟩
  · exact ⟨_, _, rfl⟩
  · exact ⟨_, _, rfl⟩

theorem numberValue_inj {x y : Number} {w : World}
    (h : Primitive.numberValue x w = Primitive.numberValue y w) : x = y := by
  rcases x with n | _ | x <;> rcases y with m | _ | y <;> cases h <;> rfl

theorem computed_eq_value_iff {result : Except Cause Number} {x : Number} {w : World} :
    Primitive.computed result w = Primitive.numberValue x w ↔ result = .ok x := by
  constructor
  · intro h
    cases result with
    | error cause =>
      obtain ⟨v, w', hv⟩ := numberValue_eq x w
      cases h.trans hv
    | ok y => rw [numberValue_inj h]
  · rintro rfl
    exact computed_ok x w

theorem computed_eq_failure_iff {result : Except Cause Number} {cause : Cause} {w : World} :
    Primitive.computed result w = .failure (.raised cause) w ↔ result = .error cause := by
  constructor
  · intro h
    cases result with
    | error other =>
      cases h
      rfl
    | ok y =>
      obtain ⟨v, w', hv⟩ := numberValue_eq y w
      cases hv.symm.trans h
  · rintro rfl
    exact computed_error cause w

/-- An operand out of the words is an error of arithmetic, and division
by zero is told from an overflow. -/
theorem fault_shown (o : Arithmetic) (n : Int64) :
    (o.fault n).kind = .arithmetic ∧
      (o.fault n).message =
        if o = divided ∧ n = 0 then "division by zero"
        else "integer overflow in `" ++ o.primitive.name ++ "`" := by
  rw [fault]
  split
  · exact ⟨rfl, rfl⟩
  · exact ⟨rfl, by cases o <;> rfl⟩

/-- How the operation ends for arguments in a world. -/
structure ExactOrFails (o : Arithmetic) (args : List Value) (w : World)
    (outcome : Outcome Value) : Prop where
  tooFew : args.length < o.least →
    outcome = .failure (.raised (.tooFew o.primitive o.least args.length)) w
  /-- Enough operands come to a number or fail. -/
  total : o.least ≤ args.length →
    (∃ x, o.Reaches (o.operands args) x) ∨ ∃ cause, o.Fails (o.operands args) cause
  value : o.least ≤ args.length → ∀ x,
    (outcome = Primitive.numberValue x w ↔ o.Reaches (o.operands args) x)
  error : o.least ≤ args.length → ∀ cause,
    (outcome = .failure (.raised cause) w ↔ o.Fails (o.operands args) cause)
  /-- Whole numbers come to what they come to without bounds if no partial
  result leaves the words and no divisor is zero, and fail at the first
  operand where that is not so. -/
  whole : o.least ≤ args.length → ∀ ns, args = words ns →
    ∃ a rest, o.operands args = words (a :: rest) ∧
      (∀ r, outcome = .value (.int r) w ↔ o.Stays a rest ∧ r.toInt = o.total a.toInt rest) ∧
      ∀ cause, outcome = .failure (.raised cause) w ↔
        ∃ front n back, rest = front ++ n :: back ∧ o.Stays a front ∧
          ¬o.Stays a (front ++ [n]) ∧ cause = o.fault n
  /-- No arithmetic fails once there is a floating point number. -/
  afterFloat : o.least ≤ args.length → ∀ front x back, o.operands args = front ++ back →
    o.Reaches front (.float x) →
      (∃ y, outcome = Primitive.numberValue (.float y) w) ∨
      ∃ numbers v rest, back = numbers ++ v :: rest ∧ (∀ u ∈ numbers, u.IsNumber) ∧
        ¬v.IsNumber ∧ outcome = .failure (.raised (.operand o.primitive "a number" v.tag)) w
  faults : ∀ n, (o.fault n).kind = .arithmetic ∧
    (o.fault n).message =
      if o = divided ∧ n = 0 then "division by zero"
      else "integer overflow in `" ++ o.primitive.name ++ "`"

section

variable {o : Arithmetic} {args : List Value} {w : World} {outcome : Outcome Value}

theorem whole_of_iff (hle : o.least ≤ args.length)
    (hvalue : ∀ x, outcome = Primitive.numberValue x w ↔ o.Reaches (o.operands args) x)
    (herror : ∀ cause, outcome = .failure (.raised cause) w ↔ o.Fails (o.operands args) cause)
    {ns : List Int64} (hns : args = words ns) :
    ∃ a rest, o.operands args = words (a :: rest) ∧
      (∀ r, outcome = .value (.int r) w ↔ o.Stays a rest ∧ r.toInt = o.total a.toInt rest) ∧
      ∀ cause, outcome = .failure (.raised cause) w ↔
        ∃ front n back, rest = front ++ n :: back ∧ o.Stays a front ∧
          ¬o.Stays a (front ++ [n]) ∧ cause = o.fault n := by
  subst hns
  have hlength : o.least ≤ ns.length := by simpa [words] using hle
  obtain ⟨a, rest, hwords⟩ := operands_words hlength
  refine ⟨a, rest, hwords, fun r => ?_, fun cause => ?_⟩
  · refine (hvalue (.whole r)).trans ?_
    rw [hwords, reaches_words]
    constructor
    · rintro ⟨s, hs, hstays⟩
      cases hs
      exact hstays
    · exact fun hstays => ⟨r, rfl, hstays⟩
  · rw [herror, hwords, fails_words]

theorem afterFloat_of_iff
    (hvalue : ∀ x, outcome = Primitive.numberValue x w ↔ o.Reaches (o.operands args) x)
    (herror : ∀ cause, outcome = .failure (.raised cause) w ↔ o.Fails (o.operands args) cause)
    {front back : List Value} {x : Option Binary64} (hoperands : o.operands args = front ++ back)
    (hfront : o.Reaches front (.float x)) :
    (∃ y, outcome = Primitive.numberValue (.float y) w) ∨
    ∃ numbers v rest, back = numbers ++ v :: rest ∧ (∀ u ∈ numbers, u.IsNumber) ∧
      ¬v.IsNumber ∧ outcome = .failure (.raised (.operand o.primitive "a number" v.tag)) w := by
  rcases hfront.after_float back with ⟨y, hy⟩ | ⟨numbers, v, rest, hback, hnumbers, hv, hfails⟩
  · exact Or.inl ⟨y, (hvalue _).mpr (hoperands ▸ hy)⟩
  · exact Or.inr ⟨numbers, v, rest, hback, hnumbers, hv, (herror _).mpr (hoperands ▸ hfails)⟩

end

/-- For whole numbers an operation is exact or fails where a partial
result leaves the words, for any operands it fails at the leftmost one
that cannot be computed with. -/
theorem arithmetic_exact_or_fails (o : Arithmetic) (evaluate : Evaluator) (scope : ScopeId)
    (args : List Value) (w : World) :
    o.ExactOrFails args w (apply evaluate scope (.builtin o.primitive) args w) := by
  rw [apply_primitive]
  have hvalue (h : o.least ≤ args.length) (x : Number) :
      Primitive.computed (o.compute args) w = Primitive.numberValue x w ↔
        o.Reaches (o.operands args) x := by
    rw [compute_of_le h, computed_eq_value_iff, result_eq_ok_iff]
  have herror (h : o.least ≤ args.length) (cause : Cause) :
      Primitive.computed (o.compute args) w = .failure (.raised cause) w ↔
        o.Fails (o.operands args) cause := by
    rw [compute_of_le h, computed_eq_failure_iff, result_eq_error_iff (operands_ne_nil h)]
  exact {
    tooFew := fun h => by rw [compute_of_lt h, computed_error]
    total := fun h => by
      cases hresult : o.result (o.operands args) with
      | ok x => exact Or.inl ⟨x, reaches_of_result hresult⟩
      | error cause => exact Or.inr ⟨cause, fails_of_result (operands_ne_nil h) hresult⟩
    value := hvalue
    error := herror
    whole := fun h _ hns => whole_of_iff h (hvalue h) (herror h) hns
    afterFloat := fun h _ _ _ => afterFloat_of_iff (hvalue h) (herror h)
    faults := o.fault_shown }

/-- The least word has no negative. -/
theorem least_word_negated :
    apply (fun _ _ => Action.halt .fault) 0 (.builtin .sub) [.int Int64.minValue]
        (World.empty fun _ => none) =
      .failure (.raised (.overflow .sub)) (World.empty fun _ => none) := by
  have h := (arithmetic_exact_or_fails minus (fun _ _ => Action.halt .fault) 0
    [.int Int64.minValue] (World.empty fun _ => none)).error (by decide) (.overflow .sub)
  have hleaves : ¬minus.Stays 0 ([] ++ [Int64.minValue]) := fun hstays =>
    absurd (stays_concat.mp hstays).2.2 (by decide)
  exact h.mpr (.arithmetic (stays_nil minus 0) hleaves)

end Arithmetic

end Number

end Lisp
