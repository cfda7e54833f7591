import Lisp.Proofs.Accesses
import Lisp.Proofs.Parsing

/-!
# Reading by descent

The forms of a text can be read without a stack, by functions that call
each other: a form that starts with a bracket is a sequence of forms, and
a mark has a form after it. The position in the tokens is the state, and
each token is looked up by its position (`Indexed.form`,
`Indexed.sequence`). The tokens are followed by a mark for the end, which
is never passed, so there is always a token to look at.

The stack of the machine that builds forms is the stack of these calls.
A form that is read is one that the machine delivers to its stack,
whatever is on it, and an error of one is the error of the other
(`Indexed.Agrees`). It takes no more than two calls for each token that
is left, so the calls end (`Indexed.form_agrees`), and reading by descent
is reading (`Indexed.read_eq`).
-/

namespace Lisp.Indexed

open Form (parseWith)

/-! ## Readings -/

/-- A reading starts at a position and ends at one, with a result or an
error. It does not end where an access is out of range. -/
abbrev Reading (α : Type) := ExceptT Diagnostic (StateT Nat Option) α

namespace Reading

variable {α β : Type}

/-- The reading ends with a result and at a position. -/
def Ends (x : Reading α) (start : Nat) (r : Except Diagnostic α) (stop : Nat) : Prop :=
  x start = some (r, stop)

variable {x : Reading α} {f : α → Reading β} {start next stop : Nat}

theorem Ends.bind {a : α} {r : Except Diagnostic β} (h : x.Ends start (.ok a) next)
    (h' : (f a).Ends next r stop) : (x >>= f).Ends start r stop := by
  change Option.bind (x start) _ = _
  rw [h]
  exact h'

theorem Ends.bind_error {d : Diagnostic} (h : x.Ends start (.error d) stop) :
    (x >>= f).Ends start (.error d) stop := by
  change Option.bind (x start) _ = _
  rw [h]
  rfl

end Reading

/-! ## Tokens by their position -/

section

variable (tokens : List (Option Token))

/-- The token at the position, or the last one. -/
def peek : Reading (Option Token) := do
  let current ← get
  let last ← minus? tokens.length 1
  let token ← tokens[min current last]?
  return token

/-- Takes the token at the position, and goes past it unless it is the
end. -/
def advance : Reading (Option Token) := do
  let token ← peek tokens
  if token.isSome then set ((← get) + 1)
  return token

end

/-- A token of its own as a form. The inside of a string is cut out. -/
def literal (t : Token) : Option (Except Cause Value) :=
  match t.kind with
  | .string => do return .ok (.string (← readString t))
  | _ => some (Form.ofToken t)

/-! ## Forms and sequences -/

section

variable (tokens : List (Option Token)) (stop : Nat)

mutual

/-- Reads a form. -/
def form : (fuel : Nat) → Reading Value
  | 0 => fun _ => none
  | fuel + 1 => do
    match ← advance tokens with
    | none => throw ⟨.missingForm, some ⟨stop, stop⟩⟩
    | some t => match t.kind with
      | .opening b =>
        match Form.enclosed b (← sequence fuel b t) with
        | .ok v => return v
        | .error cause => throw ⟨cause, some t.span⟩
      | .mark m => return Form.marked m (← form fuel)
      | _ =>
        match ← literal t with
        | .ok v => return v
        | .error cause => throw ⟨cause, some t.span⟩

/-- Reads forms up to the bracket that closes `b`. -/
def sequence : (fuel : Nat) → Bracket → (opener : Token) → Reading (List Value)
  | 0, _, _ => fun _ => none
  | fuel + 1, b, opener => do
    match ← peek tokens with
    | none => throw ⟨.unclosed b, some opener.span⟩
    | some t => match t.kind with
      | .closing b' =>
        if b' = b then do
          let _ ← advance tokens
          return []
        else throw ⟨.mismatched b' b, some t.span⟩
      | _ => do
        let v ← form fuel
        return v :: (← sequence fuel b opener)

end

end

/-- Tokens and a mark for their end. -/
def vector (tokens : List Token) : List (Option Token) := tokens.map some ++ [none]

/-- Reads the first form of a text. -/
def read (source : String) : Option (Except Diagnostic Value) := do
  let stream ← tokenize source
  let tokens := vector stream.tokens
  let (first, _) ← peek tokens 0
  match first with
  | .ok none => return .error ⟨.noForm, none⟩
  | _ => do
    let fuel := 2 * stream.tokens.length + 1
    let (result, _) ← form tokens stream.stop fuel 0
    return result

/-! ## The tokens are there -/

section

variable {tokens : List Token} {current : Nat}

theorem minus?_length_vector (tokens : List Token) :
    minus? (vector tokens).length 1 = some tokens.length := by
  have hlength : (vector tokens).length = tokens.length + 1 := by simp [vector]
  rw [hlength, minus?_of_le (Nat.le_add_left 1 _), Nat.add_sub_cancel]

theorem getElem?_vector (h : current ≤ tokens.length) :
    (vector tokens)[min current tokens.length]? = some tokens[current]? := by
  rw [min_eq_left h, vector]
  rcases Nat.lt_or_eq_of_le h with hlt | rfl
  · rw [List.getElem?_append_left (by simpa using hlt), List.getElem?_map,
      List.getElem?_eq_getElem hlt]
    rfl
  · simp

theorem peek_ends (h : current ≤ tokens.length) :
    (peek (vector tokens)).Ends current (.ok tokens[current]?) current := by
  have hget : (get : Reading Nat).Ends current (.ok current) current := rfl
  have haccess : ∀ {α : Type} (a : α), (liftM (some a) : Reading α).Ends current (.ok a) current :=
    fun _ => rfl
  refine hget.bind ?_
  rw [minus?_length_vector]
  refine (haccess tokens.length).bind ?_
  rw [getElem?_vector h]
  exact haccess tokens[current]?

theorem advance_ends_none (h : current = tokens.length) :
    (advance (vector tokens)).Ends current (.ok none) current := by
  have hpeek := peek_ends (Nat.le_of_eq h)
  rw [List.getElem?_eq_none (Nat.le_of_eq h.symm)] at hpeek
  exact hpeek.bind rfl

theorem advance_ends_some {t : Token} (h : tokens[current]? = some t) :
    (advance (vector tokens)).Ends current (.ok (some t)) (current + 1) := by
  have hpeek := peek_ends (Nat.le_of_lt (List.getElem?_eq_some_iff.mp h).1)
  rw [h] at hpeek
  exact hpeek.bind rfl

end

/-! ## One stack for the other -/

/-- The position moves on, but not past the end, and a result takes a
token at least. -/
structure Moves {α : Type} (tokens : List Token) (start : Nat) (r : Except Diagnostic α)
    (next : Nat) : Prop where
  onward : start ≤ next
  bound : next ≤ tokens.length
  progress : ∀ a, r = .ok a → start < next

/-- Where a bracket is on top of the stack, the text goes on and does not
close it. -/
def Starts (stack : List Frame) (rest : List Token) : Prop :=
  ∀ b opener before below, stack = .bracket b opener before :: below →
    ∃ t later, rest = t :: later ∧ ∀ b', t.kind ≠ .closing b'

/-- What the machine does with the forms up to a closing bracket. -/
def close (stop : Nat) (b : Bracket) (opener : Token) (items : List Value) (below : List Frame)
    (rest : List Token) : Except Diagnostic (Value × List Token) :=
  match Form.enclosed b items with
  | .ok v => Form.resume stop v below rest
  | .error cause => .error ⟨cause, some opener.span⟩

variable {tokens : List Token} {stop start next fuel : Nat}

/-- A form is read at the position, and the machine delivers it. -/
def FormAgrees (tokens : List Token) (stop fuel start : Nat) : Prop :=
  ∃ r next, (form (vector tokens) stop fuel).Ends start r next ∧ Moves tokens start r next ∧
    ∀ stack, Starts stack (tokens.drop start) →
      parseWith stop stack (tokens.drop start) =
        r >>= fun v => Form.resume stop v stack (tokens.drop next)

/-- Forms up to a closing bracket are read at the position, and the
machine puts them into the bracket. -/
def SequenceAgrees (tokens : List Token) (stop fuel start : Nat) : Prop :=
  ∀ b opener, ∃ r next, (sequence (vector tokens) stop fuel b opener).Ends start r next ∧
    Moves tokens start r next ∧
      ∀ before below, parseWith stop (.bracket b opener before :: below) (tokens.drop start) =
        r >>= fun items => close stop b opener (before.reverse ++ items) below (tokens.drop next)

theorem drop_of_getElem? {t : Token} (h : tokens[start]? = some t) :
    tokens.drop start = t :: tokens.drop (start + 1) := by
  rw [List.drop_eq_getElem?_toList_append, h]
  rfl

theorem drop_of_end (h : tokens[start]? = none) : tokens.drop start = [] :=
  List.drop_eq_nil_of_le (List.getElem?_eq_none_iff.mp h)

theorem atEnd_of_starts {stack : List Frame} (h : Starts stack []) :
    Form.atEnd stop stack = ⟨.missingForm, some ⟨stop, stop⟩⟩ := by
  rcases stack with _ | ⟨⟨b, opener, before⟩ | m, below⟩
  · rfl
  · obtain ⟨t, later, hnil, -⟩ := h b opener before below rfl
    cases hnil
  · rfl

theorem formAgrees_end (h : tokens[start]? = none) (hstart : start ≤ tokens.length) :
    FormAgrees tokens stop (fuel + 1) start := by
  have hend : start = tokens.length :=
    Nat.le_antisymm hstart (List.getElem?_eq_none_iff.mp h)
  refine ⟨.error ⟨.missingForm, some ⟨stop, stop⟩⟩, start, ?_, ⟨le_refl _, hstart, nofun⟩, ?_⟩
  · rw [form]
    exact (advance_ends_none hend).bind rfl
  · intro stack hstarts
    rw [drop_of_end h] at hstarts ⊢
    rw [Form.parseWith, atEnd_of_starts hstarts]
    rfl

theorem formAgrees_opening {t : Token} {b : Bracket} (h : tokens[start]? = some t)
    (hkind : t.kind = .opening b) (ih : SequenceAgrees tokens stop fuel (start + 1)) :
    FormAgrees tokens stop (fuel + 1) start := by
  obtain ⟨r, next, hends, hmoves, hmachine⟩ := ih b t
  have honward := hmoves.onward
  have hparse : ∀ stack, parseWith stop stack (tokens.drop start) =
      r >>= fun items => close stop b t items stack (tokens.drop next) := by
    intro stack
    rw [drop_of_getElem? h, Form.parseWith_opening hkind]
    exact hmachine [] stack
  have hform : ∀ r', (do match Form.enclosed b (← sequence (vector tokens) stop fuel b t) with
        | .ok v => return v
        | .error cause => throw ⟨cause, some t.span⟩ : Reading Value).Ends (start + 1) r' next →
      (form (vector tokens) stop (fuel + 1)).Ends start r' next := by
    intro r' h'
    rw [form]
    refine (advance_ends_some h).bind ?_
    simp only [hkind]
    exact h'
  cases r with
  | error d =>
    refine ⟨.error d, next, hform _ hends.bind_error, ⟨by omega, hmoves.bound, nofun⟩, ?_⟩
    exact fun stack _ => hparse stack
  | ok items =>
    cases henclosed : Form.enclosed b items with
    | error cause =>
      refine ⟨.error ⟨cause, some t.span⟩, next, hform _ (hends.bind ?_),
        ⟨by omega, hmoves.bound, nofun⟩, fun stack _ => ?_⟩
      · rw [henclosed]
        rfl
      · rw [hparse stack]
        change close stop b t items stack (tokens.drop next) = _
        rw [close, henclosed]
        rfl
    | ok v =>
      refine ⟨.ok v, next, hform _ (hends.bind ?_), ⟨by omega, hmoves.bound, fun _ _ => by omega⟩,
        fun stack _ => ?_⟩
      · rw [henclosed]
        rfl
      · rw [hparse stack]
        change close stop b t items stack (tokens.drop next) = _
        rw [close, henclosed]
        rfl

/-- After a mark a form is due, wherever the mark stands. -/
theorem starts_mark (m : Mark) (stack : List Frame) (rest : List Token) :
    Starts (.mark m :: stack) rest := fun _ _ _ _ heq => nomatch heq

theorem formAgrees_mark {t : Token} {m : Mark} (h : tokens[start]? = some t)
    (hkind : t.kind = .mark m) (ih : FormAgrees tokens stop fuel (start + 1)) :
    FormAgrees tokens stop (fuel + 1) start := by
  obtain ⟨r, next, hends, hmoves, hmachine⟩ := ih
  have honward := hmoves.onward
  refine ⟨r.map (Form.marked m), next, ?_, ⟨by omega, hmoves.bound, fun _ _ => by omega⟩, ?_⟩
  · rw [form]
    refine (advance_ends_some h).bind ?_
    simp only [hkind]
    cases r with
    | error d => exact hends.bind_error
    | ok v => exact hends.bind rfl
  · intro stack _
    rw [drop_of_getElem? h, Form.parseWith_mark hkind, hmachine _ (starts_mark m stack _)]
    cases r <;> rfl

theorem formAgrees_literal {t : Token} (h : tokens[start]? = some t)
    (hopening : ∀ b, t.kind ≠ .opening b) (hmark : ∀ m, t.kind ≠ .mark m)
    (hliteral : literal t = some (Form.ofToken t)) : FormAgrees tokens stop (fuel + 1) start := by
  have hbound : start + 1 ≤ tokens.length := (List.getElem?_eq_some_iff.mp h).1
  have hform : ∀ r, (do match ← literal t with
        | .ok v => return v
        | .error cause => throw ⟨cause, some t.span⟩ : Reading Value).Ends (start + 1) r
          (start + 1) →
      (form (vector tokens) stop (fuel + 1)).Ends start r (start + 1) := by
    intro r h'
    rw [form]
    refine (advance_ends_some h).bind ?_
    cases hkind : t.kind with
    | opening b => exact absurd hkind (hopening b)
    | mark m => exact absurd hkind (hmark m)
    | _ => simpa only [hkind] using h'
  rw [hliteral] at hform
  cases htoken : Form.ofToken t with
  | ok v =>
    rw [htoken] at hform
    refine ⟨.ok v, start + 1, hform _ rfl, ⟨by omega, hbound, fun _ _ => by omega⟩, ?_⟩
    intro stack _
    rw [drop_of_getElem? h]
    exact Form.parseWith_literal htoken
  | error cause =>
    rw [htoken] at hform
    refine ⟨.error ⟨cause, some t.span⟩, start + 1, hform _ rfl, ⟨by omega, hbound, nofun⟩, ?_⟩
    intro stack hstarts
    rw [drop_of_getElem? h] at hstarts ⊢
    refine Form.parseWith_fault htoken hopening hmark fun b hclosing b' opener before below heq => ?_
    obtain ⟨t', later, hrest, hnot⟩ := hstarts b' opener before below heq
    obtain ⟨rfl, -⟩ := List.cons.inj hrest
    exact hnot b hclosing

theorem sequenceAgrees_end (h : tokens[start]? = none) (hstart : start ≤ tokens.length) :
    SequenceAgrees tokens stop (fuel + 1) start := by
  intro b opener
  have hpeek := peek_ends hstart
  rw [h] at hpeek
  refine ⟨.error ⟨.unclosed b, some opener.span⟩, start, ?_, ⟨le_refl _, hstart, nofun⟩, ?_⟩
  · rw [sequence]
    exact hpeek.bind rfl
  · intro before below
    rw [drop_of_end h]
    rfl

theorem sequenceAgrees_closing {t : Token} {b' : Bracket} (h : tokens[start]? = some t)
    (hkind : t.kind = .closing b') : SequenceAgrees tokens stop (fuel + 1) start := by
  intro b opener
  have hbound : start + 1 ≤ tokens.length := (List.getElem?_eq_some_iff.mp h).1
  have hpeek := peek_ends (Nat.le_of_succ_le hbound)
  rw [h] at hpeek
  by_cases hb : b' = b
  · subst hb
    refine ⟨.ok [], start + 1, ?_, ⟨by omega, hbound, fun _ _ => by omega⟩, ?_⟩
    · rw [sequence]
      refine hpeek.bind ?_
      simp only [hkind, if_true]
      exact (advance_ends_some h).bind rfl
    · intro before below
      rw [drop_of_getElem? h]
      change _ = close stop b' opener (before.reverse ++ []) below (tokens.drop (start + 1))
      rw [List.append_nil, close]
      cases hform : Form.enclosed b' before.reverse with
      | ok v => exact Form.parseWith_closing hkind hform
      | error cause => exact Form.parseWith_misshapen hkind hform
  · refine ⟨.error ⟨.mismatched b' b, some t.span⟩, start, ?_, ⟨le_refl _, by omega, nofun⟩, ?_⟩
    · rw [sequence]
      refine hpeek.bind ?_
      simp only [hkind, if_neg hb]
      rfl
    · intro before below
      rw [drop_of_getElem? h]
      exact Form.parseWith_mismatched hkind hb

theorem sequenceAgrees_item {t : Token} (h : tokens[start]? = some t)
    (hkind : ∀ b, t.kind ≠ .closing b) (ihForm : FormAgrees tokens stop fuel start)
    (ih : ∀ next, start < next → next ≤ tokens.length → SequenceAgrees tokens stop fuel next) :
    SequenceAgrees tokens stop (fuel + 1) start := by
  intro b opener
  have hbound : start + 1 ≤ tokens.length := (List.getElem?_eq_some_iff.mp h).1
  have hpeek := peek_ends (Nat.le_of_succ_le hbound)
  rw [h] at hpeek
  have hsequence : ∀ r next, (do
        let v ← form (vector tokens) stop fuel
        return v :: (← sequence (vector tokens) stop fuel b opener) :
          Reading (List Value)).Ends start r next →
      (sequence (vector tokens) stop (fuel + 1) b opener).Ends start r next := by
    intro r next h'
    rw [sequence]
    refine hpeek.bind ?_
    cases hkind' : t.kind with
    | closing b' => exact absurd hkind' (hkind b')
    | _ => simpa only [hkind'] using h'
  obtain ⟨r, next, hends, hmoves, hmachine⟩ := ihForm
  have hstarts : ∀ before below, Starts (.bracket b opener before :: below) (tokens.drop start) :=
    fun before below _ _ _ _ _ => ⟨t, _, drop_of_getElem? h, hkind⟩
  have hparse := fun before below => hmachine _ (hstarts before below)
  cases r with
  | error d =>
    refine ⟨.error d, next, hsequence _ _ hends.bind_error, ⟨hmoves.onward, hmoves.bound, nofun⟩,
      hparse⟩
  | ok v =>
    have hprogress := hmoves.progress v rfl
    obtain ⟨r', next', hends', hmoves', hmachine'⟩ := ih next hprogress hmoves.bound b opener
    have honward := hmoves'.onward
    refine ⟨r'.map (v :: ·), next', hsequence _ _ (hends.bind ?_),
      ⟨by omega, hmoves'.bound, fun _ _ => by omega⟩, fun before below => ?_⟩
    · cases r' with
      | error d => exact hends'.bind_error
      | ok items => exact hends'.bind rfl
    · rw [hparse before below]
      change parseWith stop (.bracket b opener (v :: before) :: below) (tokens.drop next) = _
      rw [hmachine']
      cases r' with
      | error d => rfl
      | ok items =>
        change close stop b opener ((v :: before).reverse ++ items) below _ =
          close stop b opener (before.reverse ++ v :: items) below _
        rw [List.reverse_cons, List.append_assoc]
        rfl

/-! ## Reading -/

/-- Two calls for each token that is left, and one more, are enough: a
call of `sequence` uses up no token before it calls `form`, but every
call of `form` does. -/
theorem agrees (htokens : ∀ t ∈ tokens, literal t = some (Form.ofToken t)) (fuel : Nat) :
    (∀ start, start ≤ tokens.length → 2 * (tokens.length - start) < fuel →
      FormAgrees tokens stop fuel start) ∧
    ∀ start, start ≤ tokens.length → 2 * (tokens.length - start) + 1 < fuel →
      SequenceAgrees tokens stop fuel start := by
  induction fuel with
  | zero => exact ⟨fun _ _ h => absurd h (Nat.not_lt_zero _), fun _ _ h => absurd h (Nat.not_lt_zero _)⟩
  | succ fuel ih =>
    obtain ⟨ihForm, ihSequence⟩ := ih
    constructor
    · intro start hstart hfuel
      cases h : tokens[start]? with
      | none => exact formAgrees_end h hstart
      | some t =>
        have hbound : start + 1 ≤ tokens.length := (List.getElem?_eq_some_iff.mp h).1
        cases hkind : t.kind with
        | opening b => exact formAgrees_opening h hkind (ihSequence _ hbound (by omega))
        | mark m => exact formAgrees_mark h hkind (ihForm _ hbound (by omega))
        | _ =>
          exact formAgrees_literal h (by simp [hkind]) (by simp [hkind])
            (htokens t (List.mem_of_getElem? h))
    · intro start hstart hfuel
      cases h : tokens[start]? with
      | none => exact sequenceAgrees_end h hstart
      | some t =>
        have hitem : (∀ b, t.kind ≠ .closing b) → SequenceAgrees tokens stop (fuel + 1) start :=
          fun hkind => sequenceAgrees_item h hkind (ihForm _ hstart (by omega))
            fun next hnext hbound => ihSequence next hbound (by omega)
        cases hkind : t.kind with
        | closing b => exact sequenceAgrees_closing h hkind
        | _ => exact hitem (by simp [hkind])

theorem literal_eq {source : String} {t : Token} (ht : t ∈ (Lisp.tokenize source).tokens) :
    literal t = some (Form.ofToken t) := by
  have hat : TokenAt source t := (tokenize_lexed source).tokenAt (List.nil_append _).symm rfl t ht
  rw [literal]
  split
  · next hkind =>
    rw [readString_eq hkind hat.shape, Form.ofToken, hkind]
    rfl
  · rfl

/-- Reading by descent is reading, with every access in range. -/
theorem read_eq (source : String) : read source = some (Lisp.read source) := by
  have hliteral : ∀ t ∈ (Lisp.tokenize source).tokens, literal t = some (Form.ofToken t) :=
    fun _ => literal_eq
  rw [read, tokenize_eq, Lisp.read]
  generalize Lisp.tokenize source = stream at hliteral
  obtain ⟨tokens, stop⟩ := stream
  cases tokens with
  | nil => rfl
  | cons t rest =>
    have hagrees : FormAgrees (t :: rest) stop (2 * (t :: rest).length + 1) 0 :=
      (agrees hliteral _).1 0 (Nat.zero_le _) (Nat.lt_succ_self _)
    obtain ⟨r, next, hends, -, hmachine⟩ := hagrees
    have hparse := hmachine [] fun _ _ _ _ heq => nomatch heq
    have hread : form (vector (t :: rest)) stop (2 * (t :: rest).length + 1) 0 = some (r, next) := hends
    change (do
      let (result, _) ← form (vector (t :: rest)) stop (2 * (t :: rest).length + 1) 0
      return result : Option (Except Diagnostic Value)) = some ((parseWith stop [] (t :: rest)).map _)
    rw [hread]
    rw [List.drop_zero] at hparse
    rw [hparse]
    cases r <;> rfl

end Lisp.Indexed
