import Lisp.Form.Parse

/-!
# Parsing

Three views of the machine that builds forms. What it does with the next
token is said for each kind of token. Tokens *spell* a form if the
machine, whatever its stack and whatever follows, reads them and delivers
the form (`Spell`), and spellings compose as the notation does. And a
property of forms that literals have, and that marks and brackets keep,
is a property of every form that is read (`parseWith_preserves`).
-/

namespace Lisp

namespace Form

/-! ## Spellings -/

/-- How the machine goes on from a complete form. -/
def resume (stop : Nat) (form : Value) (stack : List Frame) (rest : List Token) :
    Except Diagnostic (Value × List Token) :=
  match deliver form stack with
  | .inl form => .ok (form, rest)
  | .inr stack => parseWith stop stack rest

def Spell (tokens : List Token) (form : Value) : Prop :=
  ∀ stop stack rest, parseWith stop stack (tokens ++ rest) = resume stop form stack rest

/-- The tokens spell the forms one after the other, inside a bracket. -/
def SpellEach (tokens : List Token) (forms : List Value) : Prop :=
  ∀ stop b opener before below rest,
    parseWith stop (.bracket b opener before :: below) (tokens ++ rest) =
      parseWith stop (.bracket b opener (forms.reverse ++ before) :: below) rest

theorem spell_literal {t : Token} {form : Value} (h : ofToken t = .ok form) :
    Spell [t] form := by
  intro stop stack rest
  obtain ⟨kind, lexeme, start⟩ := t
  cases kind with
  | opening b | closing b | mark b | openString => cases h
  | caret | string | atom =>
    rw [List.singleton_append, parseWith.eq_def]
    simp only [h]
    rfl

theorem spellEach_nil : SpellEach [] [] := fun _ _ _ _ _ _ => rfl

theorem SpellEach.cons {ts ts' : List Token} {form : Value} {forms : List Value}
    (h : Spell ts form) (h' : SpellEach ts' forms) : SpellEach (ts ++ ts') (form :: forms) := by
  intro stop b opener before below rest
  rw [List.append_assoc, h, resume]
  simp only [deliver]
  rw [h' stop b opener (form :: before) below rest]
  simp

theorem SpellEach.enclose {ts : List Token} {forms : List Value} {form : Value} {b : Bracket}
    {opener closer : Token} (h : SpellEach ts forms) (hopener : opener.kind = .opening b)
    (hcloser : closer.kind = .closing b) (hform : enclosed b forms = .ok form) :
    Spell (opener :: ts ++ [closer]) form := by
  intro stop stack rest
  rw [List.append_assoc, List.cons_append, parseWith.eq_def]
  simp only [hopener]
  rw [h stop b opener [] stack ([closer] ++ rest), List.singleton_append, parseWith.eq_def]
  simp only [hcloser, if_true, List.append_nil, List.reverse_reverse, hform]
  rfl

/-- A spelling that is a whole text is read. -/
theorem Spell.ofTokens {stream : TokenStream} {form : Value} (h : Spell stream.tokens form) :
    ofTokens stream = .ok (form, []) := by
  have hparse : parseWith stream.stop [] stream.tokens = .ok (form, []) := by
    simpa [resume, deliver] using h stream.stop [] []
  unfold Form.ofTokens
  split
  · next hnil =>
    rw [hnil] at hparse
    cases hparse
  · exact hparse

/-! ## The machine, token by token -/

section

variable {stop : Nat} {stack below : List Frame} {rest : List Token} {t opener : Token}
  {form : Value} {before : List Value} {b b' : Bracket}

theorem parseWith_opening (h : t.kind = .opening b) :
    parseWith stop stack (t :: rest) = parseWith stop (.bracket b t [] :: stack) rest := by
  rw [parseWith.eq_def]
  simp only [h]

theorem parseWith_mark {m : Mark} (h : t.kind = .mark m) :
    parseWith stop stack (t :: rest) = parseWith stop (.mark m :: stack) rest := by
  rw [parseWith.eq_def]
  simp only [h]

theorem parseWith_closing (h : t.kind = .closing b) (hform : enclosed b before.reverse = .ok form) :
    parseWith stop (.bracket b opener before :: below) (t :: rest) =
      resume stop form below rest := by
  rw [parseWith.eq_def]
  simp only [h, if_true, hform]
  rfl

theorem parseWith_misshapen (h : t.kind = .closing b) {cause : Cause}
    (hform : enclosed b before.reverse = .error cause) :
    parseWith stop (.bracket b opener before :: below) (t :: rest) =
      .error ⟨cause, some opener.span⟩ := by
  rw [parseWith.eq_def]
  simp only [h, if_true, hform]

theorem parseWith_mismatched (h : t.kind = .closing b) (hb : b ≠ b') :
    parseWith stop (.bracket b' opener before :: below) (t :: rest) =
      .error ⟨.mismatched b b', some t.span⟩ := by
  rw [parseWith.eq_def]
  simp only [h, if_neg hb]

theorem parseWith_literal (h : ofToken t = .ok form) :
    parseWith stop stack (t :: rest) = resume stop form stack rest :=
  spell_literal h stop stack rest

/-- A token that is no literal is at fault, unless it opens something, or
closes a bracket on top of the stack. -/
theorem parseWith_fault {cause : Cause} (h : ofToken t = .error cause)
    (hopening : ∀ b, t.kind ≠ .opening b) (hmark : ∀ m, t.kind ≠ .mark m)
    (hclosing : ∀ b, t.kind = .closing b → ∀ b' opener before below,
      stack ≠ .bracket b' opener before :: below) :
    parseWith stop stack (t :: rest) = .error ⟨cause, some t.span⟩ := by
  rw [parseWith.eq_def]
  split
  · next heq => cases heq
  · next heq =>
    obtain ⟨rfl, rfl⟩ := List.cons.inj heq
    split
    · next hkind => exact absurd hkind (hopening _)
    · next hkind => exact absurd hkind (hmark _)
    · next hkind => exact absurd rfl (hclosing _ hkind _ _ _ _)
    · rw [h]

end

/-! ## What reading preserves -/

/-- `P` passes from the forms inside marks and brackets to the whole. -/
structure Preserved (P : Value → Prop) : Prop where
  mark : ∀ m form, P form → P (marked m form)
  bracket : ∀ b forms form, (∀ f ∈ forms, P f) → enclosed b forms = .ok form → P form

/-- `P` holds of the forms that wait on a stack. -/
def StackAll (P : Value → Prop) (stack : List Frame) : Prop :=
  ∀ b opener forms, Frame.bracket b opener forms ∈ stack → ∀ form ∈ forms, P form

theorem stackAll_nil {P : Value → Prop} : StackAll P [] := fun _ _ _ hmem => nomatch hmem

theorem StackAll.push_bracket {P : Value → Prop} {stack : List Frame} (h : StackAll P stack)
    {b : Bracket} {opener : Token} {forms : List Value} (hforms : ∀ form ∈ forms, P form) :
    StackAll P (.bracket b opener forms :: stack) := by
  intro b' opener' forms' hmem
  rcases List.mem_cons.mp hmem with heq | hmem
  · cases heq
    exact hforms
  · exact h b' opener' forms' hmem

theorem StackAll.push_mark {P : Value → Prop} {stack : List Frame} (h : StackAll P stack)
    (m : Mark) : StackAll P (.mark m :: stack) := by
  intro b opener forms hmem
  rcases List.mem_cons.mp hmem with heq | hmem
  · cases heq
  · exact h b opener forms hmem

theorem StackAll.below {P : Value → Prop} {frame : Frame} {stack : List Frame}
    (h : StackAll P (frame :: stack)) : StackAll P stack :=
  fun b opener forms hmem => h b opener forms (List.mem_cons_of_mem _ hmem)

/-- What a closing bracket makes of the forms that wait for it. -/
theorem StackAll.enclosed {P : Value → Prop} {stack : List Frame} {b : Bracket} {opener : Token}
    {forms : List Value} {form : Value} (h : StackAll P (.bracket b opener forms :: stack))
    (hP : Preserved P) (hform : enclosed b forms.reverse = .ok form) : P form := by
  have hforms := h b opener forms (List.mem_cons_self ..)
  exact hP.bracket b _ form (fun f hf => hforms f (List.mem_reverse.mp hf)) hform

theorem deliver_preserves {P : Value → Prop} (hP : Preserved P) {form : Value}
    {stack : List Frame} (hform : P form) (hstack : StackAll P stack) :
    (∀ whole, deliver form stack = .inl whole → P whole) ∧
      ∀ stack', deliver form stack = .inr stack' → StackAll P stack' := by
  induction stack generalizing form with
  | nil => exact ⟨fun _ heq => Sum.inl.inj heq ▸ hform, fun _ heq => (nomatch heq)⟩
  | cons frame below ih =>
    cases frame with
    | mark m => exact ih (hP.mark m form hform) hstack.below
    | bracket b opener forms =>
      refine ⟨fun _ heq => (nomatch heq), fun stack' heq => ?_⟩
      rw [← Sum.inr.inj heq]
      refine hstack.below.push_bracket fun f hf => ?_
      rcases List.mem_cons.mp hf with rfl | hf
      · exact hform
      · exact hstack b opener forms (List.mem_cons_self ..) f hf

theorem parseWith_preserves {P : Value → Prop} (hP : Preserved P) {stop : Nat}
    {stack : List Frame} {tokens : List Token}
    (hliteral : ∀ t ∈ tokens, ∀ form, ofToken t = .ok form → P form)
    (hstack : StackAll P stack) {form : Value} {rest : List Token}
    (h : parseWith stop stack tokens = .ok (form, rest)) : P form := by
  -- the cases of the machine: a text that ends, the two openers, a closer
  -- below its bracket, and a literal; the faults deliver nothing
  fun_induction parseWith stop stack tokens with
  | case1 | case4 | case7 | case8 => cases h
  | case2 t tokens b stack _ ih =>
    have hrest := (List.forall_mem_cons.mp hliteral).2
    have hempty : ∀ f ∈ ([] : List Value), P f := fun f hf => absurd hf List.not_mem_nil
    exact ih hrest (hstack.push_bracket hempty) h
  | case3 t tokens m stack _ ih =>
    have hrest := (List.forall_mem_cons.mp hliteral).2
    exact ih hrest (hstack.push_mark m) h
  | case5 t tokens b opener forms below inner whole hdeliver _ hinner =>
    have hinner := hstack.enclosed hP hinner
    rw [← (Prod.mk.inj (Except.ok.inj h)).1]
    exact (deliver_preserves hP hinner hstack.below).1 whole hdeliver
  | case6 t tokens b opener forms below inner stack hdeliver _ hinner ih =>
    have hrest := (List.forall_mem_cons.mp hliteral).2
    have hinner := hstack.enclosed hP hinner
    exact ih hrest ((deliver_preserves hP hinner hstack.below).2 stack hdeliver) h
  | case9 t tokens stack inner hinner whole hdeliver =>
    have hinner := hliteral t (List.mem_cons_self ..) inner hinner
    rw [← (Prod.mk.inj (Except.ok.inj h)).1]
    exact (deliver_preserves hP hinner hstack).1 whole hdeliver
  | case10 t tokens stack inner hinner stack' hdeliver _ _ _ ih =>
    obtain ⟨hfirst, hrest⟩ := List.forall_mem_cons.mp hliteral
    have hinner := hfirst inner hinner
    exact ih hrest ((deliver_preserves hP hinner hstack).2 stack' hdeliver) h

end Form

theorem read_eq_ok_iff {source : String} {v : Value} :
    read source = .ok v ↔ ∃ rest, Form.ofTokens (tokenize source) = .ok (v, rest) := by
  have hread : read source = (Form.ofTokens (tokenize source)).map Prod.fst := rfl
  rw [hread]
  cases Form.ofTokens (tokenize source) with
  | error e =>
    constructor
    · intro h
      cases h
    · rintro ⟨rest, h⟩
      cases h
  | ok result =>
    constructor
    · intro h
      obtain rfl := Except.ok.inj h
      exact ⟨result.2, rfl⟩
    · rintro ⟨rest, h⟩
      obtain rfl := Except.ok.inj h
      rfl

/-- What literals have, and marks and brackets keep, is had by all that
is read. -/
theorem read_preserves {P : Value → Prop} (hP : Form.Preserved P) {source : String} {v : Value}
    (hliteral : ∀ t ∈ (tokenize source).tokens, ∀ form, Form.ofToken t = .ok form → P form)
    (h : read source = .ok v) : P v := by
  obtain ⟨rest, hform⟩ := read_eq_ok_iff.mp h
  unfold Form.ofTokens at hform
  split at hform
  · cases hform
  · exact Form.parseWith_preserves hP hliteral Form.stackAll_nil hform

end Lisp
