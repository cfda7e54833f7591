import Lisp.Proofs.Descent
import Lisp.World

/-!
# Progress of the reader

Reading by descent has a loop and a recursion: forms are collected up to
a closing bracket, and forms are nested in forms. Here each of them has a
budget of its own, the turns of a loop (`collect`) and the depth of the
nesting (`formWithin`), and a reading that runs out of one says which.
The tokens are any tokens, also those that no text has, so the cut that
takes the inside out of a string may be out of range; that is a third way
to stop.

The position never moves back and never passes the end, and a result
has taken a token at least (`progresses_formWithin`, `progresses_collect`).
Since the end is never taken, what is left bounds both the nesting and
the turns of every loop: with more of each there is one and the same
end, and neither budget is what stops the reading (`settles`). And it
reads what the machine that builds forms reads (`formWithin_eq_parseWith`).
-/

namespace Lisp.Indexed

open Form (parseWith)

/-! ## Walks -/

/-- A reading with budgets: it stops where one of them runs out, or an
access is out of range. -/
abbrev Walk (α : Type) := ExceptT Diagnostic (StateT Nat (Except Halt)) α

namespace Walk

variable {α β : Type}

def halt (why : Halt) : Walk α := fun _ => .error why

/-- A reading that needs no budget. -/
def ofReading (x : Reading α) : Walk α := fun start =>
  match x start with
  | some ended => .ok ended
  | none => .error .fault

def access (x : Option α) : Walk α := ofReading (liftM x)

/-- What became of a token, with its place where it is an error. -/
def located (t : Token) : Except Cause Value → Walk Value
  | .ok v => pure v
  | .error cause => throw ⟨cause, some t.span⟩

theorem bind_apply (x : Walk α) (f : α → Walk β) (start : Nat) :
    (x >>= f) start = match x start with
      | .ok (.ok a, next) => f a next
      | .ok (.error d, next) => .ok (.error d, next)
      | .error why => .error why := by
  change Except.bind (x start) _ = _
  rcases x start with why | ⟨d | a, next⟩ <;> rfl

theorem ofReading_bind {x : Reading α} {f : α → Walk β} {a : α} {start next : Nat}
    (h : x.Ends start (.ok a) next) : (ofReading x >>= f) start = f a next := by
  have hx : x start = some (.ok a, next) := h
  rw [bind_apply, ofReading, hx]

end Walk

/-! ## Forms and sequences, with budgets -/

section

variable (tokens : List (Option Token)) (nested : Walk Value)

/-- One turn of reading a sequence: a form, or the end of the sequence at
the bracket that closes `b`. -/
def sequenceTurn (b : Bracket) (opener : Token) : Walk (Option Value) := do
  match ← Walk.ofReading (peek tokens) with
  | none => throw ⟨.unclosed b, some opener.span⟩
  | some t => match t.kind with
    | .closing b' =>
      if b' = b then do
        let _ ← Walk.ofReading (advance tokens)
        return none
      else throw ⟨.mismatched b' b, some t.span⟩
    | _ => return some (← nested)

/-- Takes turns until one gives nothing, and no more than `steps`. -/
def collect {α : Type} (turn : Walk (Option α)) : (steps : Nat) → Walk (List α)
  | 0 => Walk.halt .steps
  | steps + 1 => do
    match ← turn with
    | none => return []
    | some a => return a :: (← collect turn steps)

/-- The form that a token starts, which has been taken. -/
def formFrom (steps : Nat) (t : Token) : Walk Value :=
  match t.kind with
  | .opening b => do Walk.located t (Form.enclosed b (← collect (sequenceTurn tokens nested b t) steps))
  | .mark m => return Form.marked m (← nested)
  | _ => do Walk.located t (← Walk.access (literal t))

variable (stop : Nat)

def formTurn (steps : Nat) : Walk Value := do
  match ← Walk.ofReading (advance tokens) with
  | none => throw ⟨.missingForm, some ⟨stop, stop⟩⟩
  | some t => formFrom tokens nested steps t

/-- Reads a form, with at most `depth` forms inside one another, and
sequences of less than `steps` forms. -/
def formWithin (steps : Nat) : (depth : Nat) → Walk Value
  | 0 => Walk.halt .depth
  | depth + 1 => formTurn tokens (formWithin steps depth) stop steps

/-- Reads forms up to the bracket that closes `b`. -/
def sequenceWithin (steps depth : Nat) (b : Bracket) (opener : Token) : Walk (List Value) :=
  collect (sequenceTurn tokens (formWithin tokens stop steps depth) b opener) steps

end

section

variable {α β : Type} {tokens : List Token} {stop start steps depth : Nat} {nested : Walk Value}
  {b b' : Bracket} {opener t : Token}

/-! ## Turns by the token at the position -/

theorem formTurn_end (h : tokens[start]? = none) (hstart : start ≤ tokens.length) :
    formTurn (vector tokens) nested stop steps start =
      .ok (.error ⟨.missingForm, some ⟨stop, stop⟩⟩, start) := by
  have hend : start = tokens.length := Nat.le_antisymm hstart (List.getElem?_eq_none_iff.mp h)
  exact Walk.ofReading_bind (advance_ends_none hend)

theorem formTurn_token (h : tokens[start]? = some t) :
    formTurn (vector tokens) nested stop steps start =
      formFrom (vector tokens) nested steps t (start + 1) :=
  Walk.ofReading_bind (advance_ends_some h)

theorem peek_ends_of (hstart : start ≤ tokens.length) {found : Option Token}
    (h : tokens[start]? = found) : (peek (vector tokens)).Ends start (.ok found) start :=
  h ▸ peek_ends hstart

theorem sequenceTurn_end (h : tokens[start]? = none) (hstart : start ≤ tokens.length) :
    sequenceTurn (vector tokens) nested b opener start =
      .ok (.error ⟨.unclosed b, some opener.span⟩, start) :=
  Walk.ofReading_bind (peek_ends_of hstart h)

theorem le_length_of_getElem? (h : tokens[start]? = some t) : start + 1 ≤ tokens.length :=
  (List.getElem?_eq_some_iff.mp h).1

theorem sequenceTurn_closing (h : tokens[start]? = some t) (hkind : t.kind = .closing b) :
    sequenceTurn (vector tokens) nested b opener start = .ok (.ok none, start + 1) := by
  have hbound := le_length_of_getElem? h
  rw [sequenceTurn, Walk.ofReading_bind (peek_ends_of (by omega) h)]
  simp only [hkind, if_true]
  exact Walk.ofReading_bind (advance_ends_some h)

theorem sequenceTurn_mismatched (h : tokens[start]? = some t) (hkind : t.kind = .closing b')
    (hne : b' ≠ b) :
    sequenceTurn (vector tokens) nested b opener start =
      .ok (.error ⟨.mismatched b' b, some t.span⟩, start) := by
  have hbound := le_length_of_getElem? h
  rw [sequenceTurn, Walk.ofReading_bind (peek_ends_of (by omega) h)]
  simp only [hkind, if_neg hne]
  rfl

theorem sequenceTurn_item (h : tokens[start]? = some t) (hkind : ∀ b, t.kind ≠ .closing b) :
    sequenceTurn (vector tokens) nested b opener start =
      (nested >>= fun v => pure (some v) : Walk (Option Value)) start := by
  have hbound := le_length_of_getElem? h
  rw [sequenceTurn, Walk.ofReading_bind (peek_ends_of (by omega) h)]
  cases hkind' : t.kind with
  | closing b' => exact absurd hkind' (hkind b')
  | _ => simp only [hkind']

theorem collect_item (h : tokens[start]? = some t) (hkind : ∀ b, t.kind ≠ .closing b) :
    collect (sequenceTurn (vector tokens) nested b opener) (steps + 1) start =
      (do
        let v ← nested
        return v :: (← collect (sequenceTurn (vector tokens) nested b opener) steps)) start := by
  rw [collect, Walk.bind_apply, Walk.bind_apply, sequenceTurn_item h hkind, Walk.bind_apply]
  rcases nested start with why | ⟨d | v, next⟩ <;> rfl

/-! ## The position -/

namespace Walk

/-- The position does not move back, nor past the end. -/
def Onward (tokens : List Token) (x : Walk α) : Prop :=
  ∀ start r next, start ≤ tokens.length → x start = .ok (r, next) →
    start ≤ next ∧ next ≤ tokens.length

/-- Besides, a result has taken a token at least. -/
def Progresses (tokens : List Token) (x : Walk α) : Prop :=
  ∀ start r next, start ≤ tokens.length → x start = .ok (r, next) → Moves tokens start r next

theorem Progresses.onward {x : Walk α} (h : x.Progresses tokens) : x.Onward tokens :=
  fun start r next hstart hx => ⟨(h start r next hstart hx).onward, (h start r next hstart hx).bound⟩

theorem onward_pure (a : α) : (pure a : Walk α).Onward tokens := by
  intro start r next hstart h
  cases h
  exact ⟨Nat.le_refl _, hstart⟩

theorem onward_throw (d : Diagnostic) : (throw d : Walk α).Onward tokens := by
  intro start r next hstart h
  cases h
  exact ⟨Nat.le_refl _, hstart⟩

theorem onward_access (a? : Option α) : (access a?).Onward tokens := by
  intro start r next hstart h
  cases a? with
  | none => cases h
  | some a =>
    cases h
    exact ⟨Nat.le_refl _, hstart⟩

theorem onward_located (t : Token) (r : Except Cause Value) : (located t r).Onward tokens := by
  cases r with
  | ok v => exact onward_pure v
  | error cause => exact onward_throw _

theorem Onward.bind {x : Walk α} {f : α → Walk β} (hx : x.Onward tokens)
    (hf : ∀ a, (f a).Onward tokens) : (x >>= f).Onward tokens := by
  intro start r next hstart h
  rw [bind_apply] at h
  rcases hstep : x start with why | ⟨d | a, middle⟩ <;> rw [hstep] at h
  · cases h
  · cases h
    exact hx start _ _ hstart hstep
  · obtain ⟨honward, hbound⟩ := hx start _ _ hstart hstep
    obtain ⟨honward', hbound'⟩ := hf a middle r next hbound h
    exact ⟨Nat.le_trans honward honward', hbound'⟩

/-- What begins with progress makes progress. -/
theorem Progresses.bind {x : Walk α} {f : α → Walk β} (hx : x.Progresses tokens)
    (hf : ∀ a, (f a).Onward tokens) : (x >>= f).Progresses tokens := by
  intro start r next hstart h
  obtain ⟨honward, hbound⟩ := hx.onward.bind hf start r next hstart h
  refine ⟨honward, hbound, fun b heq => ?_⟩
  subst heq
  rw [bind_apply] at h
  rcases hstep : x start with why | ⟨d | a, middle⟩ <;> rw [hstep] at h
  · cases h
  · cases h
  · have hmoves := hx start _ _ hstart hstep
    obtain ⟨honward', -⟩ := hf a middle _ next hmoves.bound h
    exact Nat.lt_of_lt_of_le (hmoves.progress a rfl) honward'

end Walk

theorem progresses_sequenceTurn (hnested : nested.Progresses tokens) :
    (sequenceTurn (vector tokens) nested b opener).Progresses tokens := by
  intro start r next hstart h
  cases htoken : tokens[start]? with
  | none =>
    rw [sequenceTurn_end htoken hstart] at h
    cases h
    exact ⟨Nat.le_refl _, hstart, nofun⟩
  | some t =>
    have hbound := le_length_of_getElem? htoken
    by_cases hclosing : ∃ b', t.kind = .closing b'
    · obtain ⟨b', hkind⟩ := hclosing
      by_cases hb : b' = b
      · subst hb
        rw [sequenceTurn_closing htoken hkind] at h
        cases h
        exact ⟨Nat.le_succ _, hbound, fun _ _ => Nat.lt_succ_self _⟩
      · rw [sequenceTurn_mismatched htoken hkind hb] at h
        cases h
        exact ⟨Nat.le_refl _, hstart, nofun⟩
    · rw [sequenceTurn_item htoken fun b' hkind => hclosing ⟨b', hkind⟩] at h
      exact hnested.bind (fun v => Walk.onward_pure (some v)) start r next hstart h

theorem progresses_collect {turn : Walk (Option α)} (hturn : turn.Progresses tokens)
    (steps : Nat) : (collect turn steps).Progresses tokens := by
  induction steps with
  | zero => exact fun _ _ _ _ h => nomatch h
  | succ steps ih =>
    refine hturn.bind fun found => ?_
    cases found with
    | none => exact Walk.onward_pure []
    | some a => exact ih.onward.bind fun rest => Walk.onward_pure (a :: rest)

theorem onward_formFrom (hnested : nested.Progresses tokens) (t : Token) :
    (formFrom (vector tokens) nested steps t).Onward tokens := by
  unfold formFrom
  split
  · next b _ =>
    have hitems : (collect (sequenceTurn (vector tokens) nested b t) steps).Progresses tokens :=
      progresses_collect (progresses_sequenceTurn hnested) steps
    exact hitems.onward.bind fun items => Walk.onward_located t (Form.enclosed b items)
  · exact hnested.onward.bind fun v => Walk.onward_pure _
  · exact (Walk.onward_access _).bind (Walk.onward_located t)

theorem progresses_formTurn (hnested : nested.Progresses tokens) :
    (formTurn (vector tokens) nested stop steps).Progresses tokens := by
  intro start r next hstart h
  cases htoken : tokens[start]? with
  | none =>
    rw [formTurn_end htoken hstart] at h
    cases h
    exact ⟨Nat.le_refl _, hstart, nofun⟩
  | some t =>
    rw [formTurn_token htoken] at h
    obtain ⟨honward, hbound⟩ :=
      onward_formFrom hnested t (start + 1) r next (le_length_of_getElem? htoken) h
    exact ⟨Nat.le_of_succ_le honward, hbound, fun _ _ => honward⟩

/-- Whatever the budgets, a form that is read is one token long at
least, and nothing is read past the end. -/
theorem progresses_formWithin (tokens : List Token) (stop steps depth : Nat) :
    (formWithin (vector tokens) stop steps depth).Progresses tokens := by
  induction depth with
  | zero => exact fun _ _ _ _ h => nomatch h
  | succ depth ih => exact progresses_formTurn ih

end

/-! ## The end -/

/-- What a reading may still use: the turns of every sequence that it
starts, the nesting, and the turns that are left of the sequence it is in. -/
structure Allowance where
  steps : Nat
  depth : Nat
  left : Nat

/-- More of each than `k`. -/
structure Allowance.Exceeds (allowance : Allowance) (k : Nat) : Prop where
  steps : k < allowance.steps
  depth : k < allowance.depth
  left : k < allowance.left

section

variable {α β : Type} {tokens : List Token} {stop start k : Nat} {t : Token} {b : Bracket}
  {opener : Token}

/-- How a reading stops by itself: it ends, with a result or an error,
or the inside of one of the tokens is out of range. -/
inductive Settled (tokens : List Token) : Except Halt (Except Diagnostic α × Nat) → Prop where
  | ended (r : Except Diagnostic α) (next : Nat) : Settled tokens (.ok (r, next))
  | fault {t : Token} (ht : t ∈ tokens) (hcut : literal t = none) : Settled tokens (.error .fault)

/-- A reading stops by itself, and in one way whatever it may use, if
that is more than `k`. -/
def Settles (tokens : List Token) (k : Nat) (x : Allowance → Walk α) (start : Nat) : Prop :=
  ∃ outcome, Settled tokens outcome ∧ ∀ allowance, allowance.Exceeds k → x allowance start = outcome

theorem Settles.of_ended {x : Allowance → Walk α} (r : Except Diagnostic α) (next : Nat)
    (h : ∀ allowance, allowance.Exceeds k → x allowance start = .ok (r, next)) :
    Settles tokens k x start :=
  ⟨.ok (r, next), .ended r next, h⟩

theorem Settles.congr {x y : Allowance → Walk α} {start' : Nat} (hy : Settles tokens k y start')
    (h : ∀ allowance, allowance.Exceeds k → x allowance start = y allowance start') :
    Settles tokens k x start := by
  obtain ⟨outcome, hsettled, hsame⟩ := hy
  exact ⟨outcome, hsettled, fun allowance hk => (h allowance hk).trans (hsame allowance hk)⟩

/-- A part of a reading is given its allowance out of that of the whole. -/
theorem Settles.part {x : Allowance → Walk α} {k' : Nat} (share : Allowance → Allowance)
    (hx : Settles tokens k x start)
    (h : ∀ allowance, allowance.Exceeds k' → (share allowance).Exceeds k) :
    Settles tokens k' (fun allowance => x (share allowance)) start := by
  obtain ⟨outcome, hsettled, hsame⟩ := hx
  exact ⟨outcome, hsettled, fun allowance hk => hsame (share allowance) (h allowance hk)⟩

theorem Settles.bind {x : Allowance → Walk α} {f : Allowance → α → Walk β}
    (hx : Settles tokens k x start)
    (hf : ∀ a next, (∀ allowance, allowance.Exceeds k → x allowance start = .ok (.ok a, next)) →
      Settles tokens k (fun allowance => f allowance a) next) :
    Settles tokens k (fun allowance => x allowance >>= f allowance) start := by
  obtain ⟨outcome, hsettled, hsame⟩ := hx
  cases hsettled with
  | fault ht hcut =>
    refine ⟨.error .fault, .fault ht hcut, fun allowance hk => (Walk.bind_apply _ _ _).trans ?_⟩
    rw [hsame allowance hk]
  | ended r next =>
    cases r with
    | error d =>
      refine .of_ended (.error d) next fun allowance hk => (Walk.bind_apply _ _ _).trans ?_
      rw [hsame allowance hk]
    | ok a =>
      refine (hf a next hsame).congr fun allowance hk => (Walk.bind_apply _ _ _).trans ?_
      rw [hsame allowance hk]

theorem settles_pure (a : α) : Settles tokens k (fun _ => (pure a : Walk α)) start :=
  .of_ended (.ok a) start fun _ _ => rfl

theorem settles_located (t : Token) (r : Except Cause Value) :
    Settles tokens k (fun _ => Walk.located t r) start := by
  cases r with
  | ok v => exact settles_pure v
  | error cause => exact .of_ended (.error ⟨cause, some t.span⟩) start fun _ _ => rfl

theorem settles_literal (ht : t ∈ tokens) :
    Settles tokens k (fun _ => Walk.access (literal t)) start := by
  cases hcut : literal t with
  | none => exact ⟨.error .fault, .fault ht hcut, fun _ _ => rfl⟩
  | some r => exact .of_ended (.ok r) start fun _ _ => rfl

/-! ### Forms and sequences -/

def Allowance.form (tokens : List Token) (stop : Nat) (allowance : Allowance) : Walk Value :=
  formWithin (vector tokens) stop allowance.steps allowance.depth

/-- The rest of a sequence. -/
def Allowance.items (tokens : List Token) (stop : Nat) (b : Bracket) (opener : Token)
    (allowance : Allowance) : Walk (List Value) :=
  collect (sequenceTurn (vector tokens) (allowance.form tokens stop) b opener) allowance.left

/-- What is left for a form inside. -/
def Allowance.inner (allowance : Allowance) : Allowance :=
  ⟨allowance.steps, allowance.depth - 1, allowance.steps⟩

theorem Allowance.Exceeds.inner {allowance : Allowance} (h : allowance.Exceeds (k + 1)) :
    allowance.inner.Exceeds k :=
  ⟨Nat.lt_of_succ_lt h.steps, Nat.lt_sub_of_add_lt h.depth, Nat.lt_of_succ_lt h.steps⟩

theorem settles_form_end (h : tokens[start]? = none) (hstart : start ≤ tokens.length) :
    Settles tokens k (Allowance.form tokens stop) start := by
  refine .of_ended (.error ⟨.missingForm, some ⟨stop, stop⟩⟩) start fun ⟨steps, depth, left⟩ hk => ?_
  obtain ⟨depth, rfl⟩ := Nat.exists_eq_add_of_lt hk.depth
  exact formTurn_end h hstart

/-- A form takes its first token, and the rest is inside it. -/
theorem settles_form_token (h : tokens[start]? = some t)
    (hform : Settles tokens k (Allowance.form tokens stop) (start + 1))
    (hitems : ∀ b, Settles tokens k (Allowance.items tokens stop b t) (start + 1)) :
    Settles tokens (k + 1) (Allowance.form tokens stop) start := by
  have hinner : ∀ allowance : Allowance, allowance.Exceeds (k + 1) → allowance.inner.Exceeds k :=
    fun _ hk => hk.inner
  have hfrom : Settles tokens (k + 1) (fun allowance =>
      formFrom (vector tokens) (allowance.inner.form tokens stop) allowance.steps t)
      (start + 1) := by
    unfold formFrom
    cases hkind : t.kind with
    | opening b =>
      refine ((hitems b).part Allowance.inner hinner).bind fun items _ _ => ?_
      exact settles_located t (Form.enclosed b items)
    | mark m =>
      refine (hform.part Allowance.inner hinner).bind fun v _ _ => ?_
      exact settles_pure _
    | _ =>
      refine (settles_literal (List.mem_of_getElem? h)).bind fun r _ _ => ?_
      exact settles_located t r
  refine hfrom.congr fun ⟨steps, depth, left⟩ hk => ?_
  obtain ⟨depth, rfl⟩ := Nat.exists_eq_add_of_lt hk.depth
  exact formTurn_token h

theorem settles_items_end (h : tokens[start]? = none) (hstart : start ≤ tokens.length) :
    Settles tokens k (Allowance.items tokens stop b opener) start := by
  refine .of_ended (.error ⟨.unclosed b, some opener.span⟩) start fun ⟨steps, depth, left⟩ hk => ?_
  obtain ⟨left, rfl⟩ := Nat.exists_eq_add_of_lt hk.left
  exact (Walk.bind_apply _ _ _).trans (by rw [sequenceTurn_end h hstart])

theorem settles_items_closing {b' : Bracket} (h : tokens[start]? = some t)
    (hkind : t.kind = .closing b') :
    Settles tokens k (Allowance.items tokens stop b opener) start := by
  by_cases hb : b' = b
  · subst hb
    refine .of_ended (.ok []) (start + 1) fun ⟨steps, depth, left⟩ hk => ?_
    obtain ⟨left, rfl⟩ := Nat.exists_eq_add_of_lt hk.left
    exact (Walk.bind_apply _ _ _).trans (by rw [sequenceTurn_closing h hkind]; rfl)
  · refine .of_ended (.error ⟨.mismatched b' b, some t.span⟩) start
      fun ⟨steps, depth, left⟩ hk => ?_
    obtain ⟨left, rfl⟩ := Nat.exists_eq_add_of_lt hk.left
    exact (Walk.bind_apply _ _ _).trans (by rw [sequenceTurn_mismatched h hkind hb])

/-- What is left after one turn. -/
def Allowance.next (allowance : Allowance) : Allowance :=
  { allowance with left := allowance.left - 1 }

theorem Allowance.Exceeds.next {allowance : Allowance} (h : allowance.Exceeds (k + 1)) :
    allowance.next.Exceeds k :=
  ⟨Nat.lt_of_succ_lt h.steps, Nat.lt_of_succ_lt h.depth, Nat.lt_sub_of_add_lt h.left⟩

/-- A turn takes a token at least, so there are as many turns as tokens
at most. -/
theorem settles_items_item (h : tokens[start]? = some t) (hkind : ∀ b, t.kind ≠ .closing b)
    (hform : Settles tokens (k + 1) (Allowance.form tokens stop) start)
    (hitems : ∀ next, start < next → next ≤ tokens.length →
      Settles tokens k (Allowance.items tokens stop b opener) next) :
    Settles tokens (k + 1) (Allowance.items tokens stop b opener) start := by
  have hturns : Settles tokens (k + 1) (fun allowance => do
      let v ← allowance.form tokens stop
      return v :: (← allowance.next.items tokens stop b opener)) start := by
    refine hform.bind fun v next hends => ?_
    have hmoves : Moves tokens start (.ok v) next :=
      progresses_formWithin tokens stop (k + 2) (k + 2) start _ next
        (Nat.le_of_succ_le (le_length_of_getElem? h)) (hends ⟨k + 2, k + 2, k + 2⟩ (by constructor <;> simp))
    have hrest := hitems next (hmoves.progress v rfl) hmoves.bound
    exact (hrest.part Allowance.next fun _ hk => hk.next).bind fun rest _ _ => settles_pure (v :: rest)
  refine hturns.congr fun ⟨steps, depth, left⟩ hk => ?_
  obtain ⟨left, rfl⟩ := Nat.exists_eq_add_of_lt hk.left
  exact collect_item h hkind

/-- What there are more of than tokens left does not run out. -/
theorem settles (stop k : Nat) :
    (∀ start, start ≤ tokens.length → tokens.length - start ≤ k →
      Settles tokens k (Allowance.form tokens stop) start) ∧
    ∀ start, start ≤ tokens.length → tokens.length - start ≤ k → ∀ b opener,
      Settles tokens k (Allowance.items tokens stop b opener) start := by
  induction k with
  | zero =>
    have hend : ∀ start, tokens.length - start ≤ 0 → tokens[start]? = none := fun start hk =>
      List.getElem?_eq_none_iff.mpr (Nat.le_of_sub_eq_zero (Nat.le_zero.mp hk))
    exact ⟨fun start hstart hk => settles_form_end (hend start hk) hstart,
      fun start hstart hk b opener => settles_items_end (hend start hk) hstart⟩
  | succ k ih =>
    obtain ⟨ihForm, ihItems⟩ := ih
    -- An item of a sequence starts where the sequence goes on, so it is
    -- as far from the end, and forms come first.
    have hform : ∀ start, start ≤ tokens.length → tokens.length - start ≤ k + 1 →
        Settles tokens (k + 1) (Allowance.form tokens stop) start := by
      intro start hstart hk
      cases h : tokens[start]? with
      | none => exact settles_form_end h hstart
      | some t =>
        have hbound := le_length_of_getElem? h
        exact settles_form_token h (ihForm (start + 1) hbound (by omega))
          fun b => ihItems (start + 1) hbound (by omega) b t
    refine ⟨hform, fun start hstart hk b opener => ?_⟩
    cases h : tokens[start]? with
    | none => exact settles_items_end h hstart
    | some t =>
      by_cases hclosing : ∃ b', t.kind = .closing b'
      · obtain ⟨b', hkind⟩ := hclosing
        exact settles_items_closing h hkind
      · exact settles_items_item h (fun b' hkind => hclosing ⟨b', hkind⟩) (hform start hstart hk)
          fun next hnext hbound => ihItems next hbound (by omega) b opener

end

/-! ## Both readings -/

/-- Where the one reading ends, the other ends in the same way. -/
def Reading.RunBy {α : Type} (x : Reading α) (y : Walk α) : Prop :=
  ∀ start ended, x start = some ended → y start = .ok ended

namespace Reading

variable {α β : Type} {x : Reading α} {y : Walk α}

theorem runBy_self (x : Reading α) : x.RunBy (Walk.ofReading x) := by
  intro start ended h
  rw [Walk.ofReading, h]

theorem runBy_pure (a : α) : (pure a : Reading α).RunBy (pure a) := by
  rintro start ended h
  cases h
  rfl

theorem runBy_throw (d : Diagnostic) : (throw d : Reading α).RunBy (throw d) := by
  rintro start ended h
  cases h
  rfl

theorem RunBy.bind {f : α → Reading β} {g : α → Walk β} (h : x.RunBy y)
    (hf : ∀ a, (f a).RunBy (g a)) : (x >>= f).RunBy (y >>= g) := by
  intro start ended hx
  change Option.bind (x start) _ = _ at hx
  rcases hstep : x start with _ | ⟨d | a, next⟩ <;> rw [hstep] at hx
  · cases hx
  · cases hx
    rw [Walk.bind_apply, h start _ hstep]
  · rw [Walk.bind_apply, h start _ hstep]
    exact hf a next ended hx

theorem runBy_located (t : Token) (r : Except Cause Value) : (match r with
      | .ok v => pure v
      | .error cause => throw ⟨cause, some t.span⟩ : Reading Value).RunBy (Walk.located t r) := by
  cases r with
  | ok v => exact runBy_pure v
  | error cause => exact runBy_throw _

end Reading

/-- A reading that comes to an end with one budget for all comes to the
same end with each of the budgets that large. -/
theorem runs_within (tokens : List (Option Token)) (stop fuel : Nat) :
    (∀ steps depth, fuel ≤ steps → fuel ≤ depth →
      (form tokens stop fuel).RunBy (formWithin tokens stop steps depth)) ∧
    ∀ steps depth left b opener, fuel ≤ steps → fuel ≤ depth → fuel ≤ left →
      (sequence tokens stop fuel b opener).RunBy
        (collect (sequenceTurn tokens (formWithin tokens stop steps depth) b opener) left) := by
  induction fuel with
  | zero => exact ⟨fun _ _ _ _ _ _ h => (nomatch h), fun _ _ _ _ _ _ _ _ _ _ h => (nomatch h)⟩
  | succ fuel ih =>
    obtain ⟨ihForm, ihSequence⟩ := ih
    constructor
    · rintro steps (_ | depth) hsteps hdepth
      · exact absurd hdepth (Nat.not_succ_le_zero fuel)
      have hsteps := Nat.le_of_succ_le hsteps
      have hdepth := Nat.le_of_succ_le_succ hdepth
      rw [form]
      refine (Reading.runBy_self (advance tokens)).bind fun found => ?_
      rcases found with _ | t
      · exact Reading.runBy_throw _
      · unfold formFrom
        cases hkind : t.kind with
        | opening b =>
          simp only [hkind]
          exact (ihSequence steps depth steps b t hsteps hdepth hsteps).bind fun items =>
            Reading.runBy_located t (Form.enclosed b items)
        | mark m =>
          simp only [hkind]
          exact (ihForm steps depth hsteps hdepth).bind fun v => Reading.runBy_pure _
        | _ =>
          simp only [hkind]
          exact (Reading.runBy_self _).bind (Reading.runBy_located t)
    · rintro steps depth (_ | left) b opener hsteps hdepth hleft
      · exact absurd hleft (Nat.not_succ_le_zero fuel)
      have hsteps := Nat.le_of_succ_le hsteps
      have hdepth := Nat.le_of_succ_le hdepth
      have hleft := Nat.le_of_succ_le_succ hleft
      rw [sequence, collect, sequenceTurn, bind_assoc]
      refine (Reading.runBy_self (peek tokens)).bind fun found => ?_
      rcases found with _ | t
      · exact Reading.runBy_throw _
      · cases hkind : t.kind with
        | closing b' =>
          simp only [hkind]
          by_cases hb : b' = b
          · simp only [if_pos hb, bind_assoc, pure_bind]
            exact (Reading.runBy_self (advance tokens)).bind fun _ => Reading.runBy_pure _
          · simp only [if_neg hb]
            exact Reading.runBy_throw _
        | _ =>
          simp only [hkind, bind_assoc, pure_bind]
          refine (ihForm steps depth hsteps hdepth).bind fun v => ?_
          exact (ihSequence steps depth left b opener hsteps hdepth hleft).bind fun rest =>
            Reading.runBy_pure (v :: rest)

/-! ## Progress and the end -/

/-- The reading stops by itself: with more turns for each sequence and
more nesting than there are tokens left, it always does the same. -/
def StopsByItself {α : Type} (tokens : List Token) (start : Nat) (x : Nat → Nat → Walk α) : Prop :=
  ∃ outcome, Settled tokens outcome ∧ ∀ steps depth, tokens.length - start < steps →
    tokens.length - start < depth → x steps depth start = outcome

section

variable {tokens : List Token} {stop start : Nat}

theorem stopsByItself_form (hstart : start ≤ tokens.length) :
    StopsByItself tokens start (formWithin (vector tokens) stop) := by
  obtain ⟨outcome, hsettled, hsame⟩ := (settles stop _).1 start hstart (Nat.le_refl _)
  exact ⟨outcome, hsettled, fun steps depth hsteps hdepth =>
    hsame ⟨steps, depth, steps⟩ ⟨hsteps, hdepth, hsteps⟩⟩

theorem stopsByItself_sequence (hstart : start ≤ tokens.length) (b : Bracket) (opener : Token) :
    StopsByItself tokens start
      fun steps depth => sequenceWithin (vector tokens) stop steps depth b opener := by
  obtain ⟨outcome, hsettled, hsame⟩ := (settles stop _).2 start hstart (Nat.le_refl _) b opener
  exact ⟨outcome, hsettled, fun steps depth hsteps hdepth =>
    hsame ⟨steps, depth, steps⟩ ⟨hsteps, hdepth, hsteps⟩⟩

/-- With every access in range, reading with budgets is building forms
with a stack. Neither budget stops it, so it is the reading that has one
budget, which is large enough. -/
theorem formWithin_eq_parseWith (hstart : start ≤ tokens.length)
    (hliteral : ∀ t ∈ tokens, literal t = some (Form.ofToken t)) :
    ∃ r next, parseWith stop [] (tokens.drop start) = r.map (fun v => (v, tokens.drop next)) ∧
      ∀ steps depth, tokens.length - start < steps → tokens.length - start < depth →
        formWithin (vector tokens) stop steps depth start = .ok (r, next) := by
  have hagrees : FormAgrees tokens stop (2 * (tokens.length - start) + 1) start :=
    (agrees hliteral _).1 start hstart (Nat.lt_succ_self _)
  obtain ⟨r, next, hends, -, hmachine⟩ := hagrees
  have hlarge := (runs_within (vector tokens) stop _).1 _ _ (Nat.le_refl _) (Nat.le_refl _)
    start (r, next) hends
  obtain ⟨outcome, -, hsame⟩ : StopsByItself tokens start (formWithin (vector tokens) stop) :=
    stopsByItself_form hstart
  refine ⟨r, next, ?_, fun steps depth hsteps hdepth => ?_⟩
  · rw [hmachine [] fun _ _ _ _ heq => nomatch heq]
    cases r <;> rfl
  · rw [hsame steps depth hsteps hdepth, ← hlarge, hsame _ _ (by omega) (by omega)]

end

/-- Reading makes progress and ends, on any tokens and from any position.
The position does not move back or pass the end, with any budget, and
forms, sequences and single turns of a sequence that have a result take
a token. What is left of the tokens bounds the turns and the nesting
that are needed, so the nesting is at most the number of tokens with the
end. -/
theorem reading_progresses (tokens : List Token) (stop : Nat) :
    (∀ steps depth,
      (formWithin (vector tokens) stop steps depth).Progresses tokens ∧
      ∀ b opener,
        (sequenceTurn (vector tokens) (formWithin (vector tokens) stop steps depth) b
          opener).Progresses tokens ∧
        (sequenceWithin (vector tokens) stop steps depth b opener).Progresses tokens) ∧
    ∀ start, start ≤ tokens.length →
      StopsByItself tokens start (formWithin (vector tokens) stop) ∧
      (∀ b opener, StopsByItself tokens start
        fun steps depth => sequenceWithin (vector tokens) stop steps depth b opener) ∧
      ((∀ t ∈ tokens, literal t = some (Form.ofToken t)) →
        ∃ r next,
          parseWith stop [] (tokens.drop start) = r.map (fun v => (v, tokens.drop next)) ∧
          ∀ steps depth, tokens.length - start < steps → tokens.length - start < depth →
            formWithin (vector tokens) stop steps depth start = .ok (r, next)) := by
  constructor
  · intro steps depth
    have hform := progresses_formWithin tokens stop steps depth
    refine ⟨hform, fun b opener => ⟨progresses_sequenceTurn hform, ?_⟩⟩
    exact progresses_collect (progresses_sequenceTurn hform) steps
  · intro start hstart
    exact ⟨stopsByItself_form hstart, stopsByItself_sequence hstart,
      formWithin_eq_parseWith hstart⟩

/-- A bracket and a mark, and nothing after them. The form for the mark
is missing. -/
theorem unclosed_mark_progresses :
    let tokens := [⟨.opening .round, "(", 0⟩, ⟨.mark .quote, "'", 1⟩]
    0 ≤ tokens.length ∧ (∀ t ∈ tokens, literal t = some (Form.ofToken t)) ∧
      ∀ steps depth, 2 < steps → 2 < depth →
        formWithin (vector tokens) 2 steps depth 0 = .ok (.error ⟨.missingForm, some ⟨2, 2⟩⟩, 2) := by
  intro tokens
  have hliteral : ∀ t ∈ tokens, literal t = some (Form.ofToken t) := by
    intro t ht
    rcases List.mem_cons.mp ht with rfl | ht
    · rfl
    · obtain rfl := List.mem_singleton.mp ht
      rfl
  obtain ⟨-, hstarts⟩ := reading_progresses tokens 2
  obtain ⟨⟨outcome, -, hsame⟩, -, -⟩ := hstarts 0 (Nat.zero_le _)
  have houtcome : formWithin (vector tokens) 2 3 3 0 = outcome := hsame 3 3 (by decide) (by decide)
  refine ⟨Nat.zero_le _, hliteral, fun steps depth hsteps hdepth => ?_⟩
  rw [hsame steps depth hsteps hdepth, ← houtcome]
  rfl

end Lisp.Indexed
