import Lisp.Proofs.Parsing

/-!
# The machine, step by step

What one token does to the stack is said once, with all that it depends
on: the machine goes on with another stack, or it ends, with the form
looked for or with an error (`Form.Step`). There is a step for every
stack and token (`Form.exists_step`), and the machine takes it
(`Form.Step.parseWith`).

So a text is read by a run of steps, from left to right. The run comes to
the end of the text, with something on its stack, or to a token that
settles what is read. What comes after this token is never looked at,
since the equations of a run hold for all tokens that follow
(`Form.Run.parseWith`, `Form.Settles.parseWith`). Reading is one of three
things, then (`Form.read_cases`): there is no token, the run is left
unfinished, or some token settles it.
-/

namespace Lisp

namespace Form

/-! ## One token -/

/-- What becomes of the machine when it takes a token. -/
inductive Effect where
  /-- It goes on with this stack. -/
  | next (stack : List Frame)
  | ends (result : Except Diagnostic Value)

/-- What becomes of it when a form is complete. -/
def delivery (form : Value) (stack : List Frame) : Effect :=
  match deliver form stack with
  | .inl form => .ends (.ok form)
  | .inr stack => .next stack

/-- How the machine goes on with the tokens that are left. -/
def Effect.proceed (stop : Nat) (rest : List Token) :
    Effect → Except Diagnostic (Value × List Token)
  | .next stack => parseWith stop stack rest
  | .ends result => result.map (·, rest)

/-- A form has to come next: there is no bracket on top of the stack that
could be closed instead. -/
def Due : List Frame → Prop
  | .bracket .. :: _ => False
  | _ => True

/-- What a token does to a stack. -/
inductive Step : List Frame → Token → Effect → Prop
  | opening {stack : List Frame} {t : Token} {b : Bracket} (hkind : t.kind = .opening b) :
      Step stack t (.next (.bracket b t [] :: stack))
  | mark {stack : List Frame} {t : Token} {m : Mark} (hkind : t.kind = .mark m) :
      Step stack t (.next (.mark m :: stack))
  | literal {stack : List Frame} {t : Token} {form : Value} (h : ofToken t = .ok form) :
      Step stack t (delivery form stack)
  | closing {b : Bracket} {opener t : Token} {before : List Value} {below : List Frame}
      {form : Value} (hkind : t.kind = .closing b) (hform : enclosed b before.reverse = .ok form) :
      Step (.bracket b opener before :: below) t (delivery form below)
  | misshapen {b : Bracket} {opener t : Token} {before : List Value} {below : List Frame}
      {cause : Cause} (hkind : t.kind = .closing b)
      (hform : enclosed b before.reverse = .error cause) :
      Step (.bracket b opener before :: below) t (.ends (.error ⟨cause, some opener.span⟩))
  | mismatched {b b' : Bracket} {opener t : Token} {before : List Value} {below : List Frame}
      (hkind : t.kind = .closing b) (hb : b ≠ b') :
      Step (.bracket b' opener before :: below) t (.ends (.error ⟨.mismatched b b', some t.span⟩))
  | unexpected {stack : List Frame} {t : Token} {b : Bracket} (hkind : t.kind = .closing b)
      (hdue : Due stack) : Step stack t (.ends (.error ⟨.unexpectedCloser, some t.span⟩))
  | openString {stack : List Frame} {t : Token} (hkind : t.kind = .openString) :
      Step stack t (.ends (.error ⟨.openString, some t.span⟩))
  | outOfRange {stack : List Frame} {t : Token} {cause : Cause} (hkind : t.kind = .atom)
      (h : Literal.ofAtom t.lexeme = .error cause) :
      Step stack t (.ends (.error ⟨cause, some t.span⟩))

theorem exists_step (stack : List Frame) (t : Token) : ∃ effect, Step stack t effect := by
  cases hkind : t.kind with
  | opening b => exact ⟨_, .opening hkind⟩
  | mark m => exact ⟨_, .mark hkind⟩
  | caret | string =>
    have hform : ∃ form, ofToken t = .ok form := by
      rw [ofToken, hkind]
      exact ⟨_, rfl⟩
    obtain ⟨form, hform⟩ := hform
    exact ⟨_, .literal hform⟩
  | openString => exact ⟨_, .openString hkind⟩
  | atom =>
    cases hatom : Literal.ofAtom t.lexeme with
    | ok form =>
      have hform : ofToken t = .ok form := by rw [ofToken, hkind, ← hatom]
      exact ⟨_, .literal hform⟩
    | error cause => exact ⟨_, .outOfRange hkind hatom⟩
  | closing b =>
    rcases stack with _ | ⟨⟨b', opener, before⟩ | m, below⟩
    · exact ⟨_, .unexpected hkind trivial⟩
    · by_cases hb : b = b'
      · subst hb
        cases hform : enclosed b before.reverse with
        | ok form => exact ⟨_, .closing hkind hform⟩
        | error cause => exact ⟨_, .misshapen hkind hform⟩
      · exact ⟨_, .mismatched hkind hb⟩
    · exact ⟨_, .unexpected hkind trivial⟩

theorem resume_eq_proceed (stop : Nat) (form : Value) (stack : List Frame) (rest : List Token) :
    resume stop form stack rest = (delivery form stack).proceed stop rest := by
  rw [resume, delivery]
  cases deliver form stack <;> rfl

variable {stack stack' middle : List Frame} {tokens rest : List Token} {t : Token}
  {effect : Effect} {result : Except Diagnostic Value}

theorem Step.parseWith (h : Step stack t effect) (stop : Nat) (rest : List Token) :
    parseWith stop stack (t :: rest) = effect.proceed stop rest := by
  cases h with
  | opening hkind => exact parseWith_opening hkind
  | mark hkind => exact parseWith_mark hkind
  | literal h =>
    rw [parseWith_literal h]
    exact resume_eq_proceed ..
  | closing hkind hform =>
    rw [parseWith_closing hkind hform]
    exact resume_eq_proceed ..
  | misshapen hkind hform => exact parseWith_misshapen hkind hform
  | mismatched hkind hb => exact parseWith_mismatched hkind hb
  | unexpected hkind hdue =>
    have hfault : ofToken t = .error .unexpectedCloser := by rw [ofToken, hkind]
    refine parseWith_fault hfault (by simp [hkind]) (by simp [hkind]) ?_
    intro _ _ _ _ _ _ hstack
    rw [hstack] at hdue
    exact hdue
  | openString hkind =>
    have hfault : ofToken t = .error .openString := by rw [ofToken, hkind]
    exact parseWith_fault hfault (by simp [hkind]) (by simp [hkind]) (by simp [hkind])
  | @outOfRange _ _ cause hkind h =>
    have hfault : ofToken t = .error cause := by rw [ofToken, hkind, ← h]
    exact parseWith_fault hfault (by simp [hkind]) (by simp [hkind]) (by simp [hkind])

/-! ## Runs -/

/-- The tokens lead from one stack to another. -/
inductive Run : List Frame → List Token → List Frame → Prop
  | nil {stack : List Frame} : Run stack [] stack
  | cons {stack middle stack' : List Frame} {t : Token} {tokens : List Token}
      (h : Step stack t (.next middle)) (hrest : Run middle tokens stack') :
      Run stack (t :: tokens) stack'

/-- Some token settles what is read, and `rest` is left. -/
inductive Settles (stack : List Frame) : List Token → Except Diagnostic Value → List Token → Prop
  | intro {middle : List Frame} {before rest : List Token} {t : Token}
      {result : Except Diagnostic Value} (hrun : Run stack before middle)
      (hstep : Step middle t (.ends result)) : Settles stack (before ++ t :: rest) result rest

theorem Run.parseWith (h : Run stack tokens stack') (stop : Nat) (rest : List Token) :
    parseWith stop stack (tokens ++ rest) = parseWith stop stack' rest := by
  induction h with
  | nil => rfl
  | cons h _ ih =>
    rw [List.cons_append, h.parseWith]
    exact ih

theorem Run.snoc (h : Run stack tokens middle) (hstep : Step middle t (.next stack')) :
    Run stack (tokens ++ [t]) stack' := by
  induction h with
  | nil => exact .cons hstep .nil
  | cons h _ ih => exact .cons h (ih hstep)

/-- A run that is not finished fails at the end of the text. -/
theorem Run.parseWith_end (h : Run stack tokens stack') (stop : Nat) :
    Form.parseWith stop stack tokens = .error (atEnd stop stack') := by
  have hrun := h.parseWith stop []
  rwa [List.append_nil, Form.parseWith] at hrun

/-- What is settled stays settled, whatever follows. -/
theorem Settles.parseWith (h : Settles stack tokens result rest) (stop : Nat)
    (more : List Token) :
    parseWith stop stack (tokens ++ more) = result.map (·, rest ++ more) := by
  obtain ⟨hrun, hstep⟩ := h
  rw [List.append_assoc, List.cons_append, hrun.parseWith, hstep.parseWith]
  rfl

theorem Settles.append (h : Settles stack tokens result rest) (more : List Token) :
    Settles stack (tokens ++ more) result (rest ++ more) := by
  obtain ⟨hrun, hstep⟩ := h
  rw [List.append_assoc, List.cons_append]
  exact .intro hrun hstep

theorem Settles.cons (h : Step stack t (.next middle)) (hrest : Settles middle tokens result rest) :
    Settles stack (t :: tokens) result rest := by
  obtain ⟨hrun, hstep⟩ := hrest
  exact .intro (.cons h hrun) hstep

theorem run_or_settled (stack : List Frame) (tokens : List Token) :
    (∃ stack', Run stack tokens stack') ∨ ∃ result rest, Settles stack tokens result rest := by
  induction tokens generalizing stack with
  | nil => exact Or.inl ⟨stack, .nil⟩
  | cons t tokens ih =>
    obtain ⟨effect, hstep⟩ := exists_step stack t
    cases effect with
    | ends result => exact Or.inr ⟨result, tokens, .intro .nil hstep⟩
    | next middle =>
      rcases ih middle with ⟨stack', hrun⟩ | ⟨result, rest, hsettles⟩
      · exact Or.inl ⟨stack', .cons hstep hrun⟩
      · exact Or.inr ⟨result, rest, hsettles.cons hstep⟩

/-! ## Reading -/

section

variable {source : String}

theorem read_of_nil (h : (tokenize source).tokens = []) : read source = .error ⟨.noForm, none⟩ := by
  rw [read, ofTokens, h]
  rfl

theorem read_of_ne_nil (h : (tokenize source).tokens ≠ []) :
    read source =
      (Form.parseWith (tokenize source).stop [] (tokenize source).tokens).map Prod.fst := by
  rw [read, ofTokens]
  split
  · next hnil => exact absurd hnil h
  · rfl

theorem read_of_run (h : Run [] (tokenize source).tokens stack)
    (hne : (tokenize source).tokens ≠ []) :
    read source = .error (atEnd (tokenize source).stop stack) := by
  rw [read_of_ne_nil hne, h.parseWith_end]
  rfl

theorem read_of_settles (h : Settles [] (tokenize source).tokens result rest) :
    read source = result := by
  have hne : (tokenize source).tokens ≠ [] := by
    intro hnil
    rw [hnil] at h
    generalize htokens : ([] : List Token) = tokens at h
    cases h with
    | intro => simp at htokens
  have hparse := h.parseWith (tokenize source).stop []
  rw [List.append_nil] at hparse
  rw [read_of_ne_nil hne, hparse]
  cases result <;> rfl

/-- Some tokens at the front may settle it already. -/
theorem read_of_settled_front {front later : List Token}
    (htokens : (tokenize source).tokens = front ++ later) (h : Settles [] front result rest) :
    read source = result := by
  have hsettles := h.append later
  rw [← htokens] at hsettles
  exact read_of_settles hsettles

/-- Reading ends without a token, at the end of the text, or at a token
that settles what is read. -/
theorem read_cases (source : String) :
    (tokenize source).tokens = [] ∨
      ((tokenize source).tokens ≠ [] ∧ ∃ stack, Run [] (tokenize source).tokens stack) ∨
      ∃ result rest, Settles [] (tokenize source).tokens result rest := by
  by_cases hnil : (tokenize source).tokens = []
  · exact Or.inl hnil
  · rcases run_or_settled [] (tokenize source).tokens with hrun | hsettles
    · exact Or.inr (Or.inl ⟨hnil, hrun⟩)
    · exact Or.inr (Or.inr hsettles)

end

end Form

end Lisp
