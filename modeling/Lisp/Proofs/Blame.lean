import Lisp.Proofs.Grammar
import Lisp.Proofs.Steps

/-!
# The token at fault

Which token an error of reading names is said here without forms, by a
scan of the tokens from left to right. Its stack has the brackets that
are open, each with the number of forms inside it so far, and the marks
that wait for a form (`Scanned`). The scan stops at the first token that
does not fit, or at the end, and each error is a way in which this can
happen (`Blames`).

The scan forgets what the machine builds and nothing else: its stack is
the shape of the machine's (`shape`). So every run is a scan
(`Scanned.of_run`), and every scan is the shape of a run
(`Scanned.exists_run`), since there is a form for each token that the
scan takes for one. A step that ends with an error is then a failure of
the scan, and the other way around.
-/

namespace Lisp

namespace Form

/-! ## The scan -/

/-- What the scan keeps on its stack. -/
inductive Open where
  /-- A bracket, its token, and the number of forms inside. -/
  | bracket (b : Bracket) (opener : Token) (count : Nat)
  | mark

/-- What is open after a complete form: the marks on top are complete
with it, and the bracket below them has one form more. If there is none,
this is the form looked for. -/
def counted : List Open → Option (List Open)
  | [] => none
  | .mark :: below => counted below
  | .bracket b opener count :: below => some (.bracket b opener (count + 1) :: below)

/-- The token is a form of its own. -/
def IsLiteral (t : Token) : Prop :=
  t.kind = .caret ∨ t.kind = .string ∨ (t.kind = .atom ∧ ¬Literal.OutOfRange t.lexeme)

/-- The scan goes past these tokens without a failure, inside the first
form, and then has this on its stack. -/
inductive Scanned : List Token → List Open → Prop
  | nil : Scanned [] []
  | opening {before : List Token} {stack : List Open} {t : Token} {b : Bracket}
      (h : Scanned before stack) (hkind : t.kind = .opening b) :
      Scanned (before ++ [t]) (.bracket b t 0 :: stack)
  | mark {before : List Token} {stack : List Open} {t : Token} {m : Mark}
      (h : Scanned before stack) (hkind : t.kind = .mark m) :
      Scanned (before ++ [t]) (.mark :: stack)
  | literal {before : List Token} {stack stack' : List Open} {t : Token}
      (h : Scanned before stack) (ht : IsLiteral t) (hcount : counted stack = some stack') :
      Scanned (before ++ [t]) stack'
  | closing {before : List Token} {below stack' : List Open} {t opener : Token} {b : Bracket}
      {count : Nat} (h : Scanned before (.bracket b opener count :: below))
      (hkind : t.kind = .closing b) (heven : b = .curly → count % 2 = 0)
      (hcount : counted below = some stack') : Scanned (before ++ [t]) stack'

/-- The last of these tokens is a mark. -/
def AfterMark (before : List Token) : Prop := ∃ t m, before.getLast? = some t ∧ t.kind = .mark m

/-- The first failure of the scan, and the place that is blamed for
it. -/
inductive Blames (s : TokenStream) : Diagnostic → Prop
  /-- There is no token. -/
  | noForm (h : s.tokens = []) : Blames s ⟨.noForm, none⟩
  /-- A string without an end. -/
  | openString {before rest : List Token} {t : Token} {stack : List Open}
      (htokens : s.tokens = before ++ t :: rest) (h : Scanned before stack)
      (hkind : t.kind = .openString) : Blames s ⟨.openString, some t.span⟩
  /-- A closing bracket that comes first, or right after a mark. -/
  | unexpectedCloser {before rest : List Token} {t : Token} {stack : List Open} {b : Bracket}
      (htokens : s.tokens = before ++ t :: rest) (h : Scanned before stack)
      (hkind : t.kind = .closing b) (hdue : before = [] ∨ AfterMark before) :
      Blames s ⟨.unexpectedCloser, some t.span⟩
  /-- A closing bracket of another kind than the innermost open one. -/
  | mismatched {before rest : List Token} {t opener : Token} {below : List Open} {b b' : Bracket}
      {count : Nat} (htokens : s.tokens = before ++ t :: rest)
      (h : Scanned before (.bracket b' opener count :: below)) (hkind : t.kind = .closing b)
      (hb : b ≠ b') : Blames s ⟨.mismatched b b', some t.span⟩
  /-- An open brace whose closing one comes after an odd number of
  forms. -/
  | oddItems {before rest : List Token} {t opener : Token} {below : List Open} {count : Nat}
      (htokens : s.tokens = before ++ t :: rest)
      (h : Scanned before (.bracket .curly opener count :: below))
      (hkind : t.kind = .closing .curly) (hodd : count % 2 = 1) :
      Blames s ⟨.oddItems count, some opener.span⟩
  /-- A number that fits into no word. -/
  | outOfRange {before rest : List Token} {t : Token} {stack : List Open}
      (htokens : s.tokens = before ++ t :: rest) (h : Scanned before stack)
      (hkind : t.kind = .atom) (hrange : Literal.OutOfRange t.lexeme) :
      Blames s ⟨.wholeOutOfRange t.lexeme, some t.span⟩
  /-- The innermost bracket that is open at the end. -/
  | unclosed {opener : Token} {below : List Open} {b : Bracket} {count : Nat}
      (h : Scanned s.tokens (.bracket b opener count :: below)) :
      Blames s ⟨.unclosed b, some opener.span⟩
  /-- The end, if a mark waits there. -/
  | missingForm {below : List Open} (h : Scanned s.tokens (.mark :: below)) :
      Blames s ⟨.missingForm, some s.endSpan⟩

/-! ## What the stack of the scan says -/

theorem bracket_of_counted {stack stack' : List Open} (h : counted stack = some stack') :
    ∃ b opener count below, stack' = .bracket b opener count :: below := by
  induction stack with
  | nil => cases h
  | cons entry stack ih =>
    cases entry with
    | mark => exact ih h
    | bracket b opener count =>
      obtain rfl := Option.some.inj h
      exact ⟨_, _, _, _, rfl⟩

/-- The brackets that are counted up were open before. -/
theorem mem_of_counted {stack stack' : List Open} (h : counted stack = some stack') {b : Bracket}
    {opener : Token} {count : Nat} (hmem : Open.bracket b opener count ∈ stack') :
    ∃ count', Open.bracket b opener count' ∈ stack := by
  induction stack with
  | nil => cases h
  | cons entry stack ih =>
    cases entry with
    | mark =>
      obtain ⟨count', hmem⟩ := ih h
      exact ⟨count', List.mem_cons_of_mem _ hmem⟩
    | bracket b' opener' count' =>
      obtain rfl := Option.some.inj h
      rcases List.mem_cons.mp hmem with heq | hmem
      · cases heq
        exact ⟨count', List.mem_cons_self ..⟩
      · exact ⟨count, List.mem_cons_of_mem _ hmem⟩

theorem Scanned.opener_mem {before : List Token} {stack : List Open} (h : Scanned before stack)
    {b : Bracket} {opener : Token} {count : Nat} (hmem : Open.bracket b opener count ∈ stack) :
    opener ∈ before := by
  induction h generalizing count with
  | nil => cases hmem
  | opening _ _ ih =>
    rcases List.mem_cons.mp hmem with heq | hmem
    · cases heq
      simp
    · exact List.mem_append_left _ (ih hmem)
  | mark _ _ ih =>
    rcases List.mem_cons.mp hmem with heq | hmem
    · cases heq
    · exact List.mem_append_left _ (ih hmem)
  | literal _ _ hcount ih =>
    obtain ⟨count', hmem⟩ := mem_of_counted hcount hmem
    exact List.mem_append_left _ (ih hmem)
  | closing _ _ _ hcount ih =>
    obtain ⟨count', hmem⟩ := mem_of_counted hcount hmem
    exact List.mem_append_left _ (ih (List.mem_cons_of_mem _ hmem))

/-- The stack is empty before the first token, a mark is on top right
after it, and otherwise a bracket. -/
theorem Scanned.top {before : List Token} {stack : List Open} (h : Scanned before stack) :
    (before = [] ∧ stack = []) ∨ (AfterMark before ∧ ∃ below, stack = .mark :: below) ∨
      (¬(before = [] ∨ AfterMark before) ∧
        ∃ b opener count below, stack = .bracket b opener count :: below) := by
  have hlast : ∀ {before : List Token} {t : Token}, (∀ m, t.kind ≠ .mark m) →
      ¬(before ++ [t] = [] ∨ AfterMark (before ++ [t])) := by
    rintro before t ht (hnil | ⟨t', m, hlast, hkind⟩)
    · simp at hnil
    · rw [List.getLast?_concat] at hlast
      rw [← Option.some.inj hlast] at hkind
      exact ht m hkind
  cases h with
  | nil => exact Or.inl ⟨rfl, rfl⟩
  | opening _ hkind => exact Or.inr (Or.inr ⟨hlast (by simp [hkind]), _, _, _, _, rfl⟩)
  | @mark _ _ t m _ hkind =>
    exact Or.inr (Or.inl ⟨⟨t, m, List.getLast?_concat, hkind⟩, _, rfl⟩)
  | literal _ ht hcount =>
    refine Or.inr (Or.inr ⟨hlast fun m hkind => ?_, bracket_of_counted hcount⟩)
    rcases ht with h | h | ⟨h, -⟩ <;> rw [hkind] at h <;> cases h
  | closing _ hkind _ hcount =>
    exact Or.inr (Or.inr ⟨hlast (by simp [hkind]), bracket_of_counted hcount⟩)

theorem Scanned.ne_nil {before : List Token} {entry : Open} {below : List Open}
    (h : Scanned before (entry :: below)) : before ≠ [] := by
  rintro rfl
  rcases h.top with ⟨-, hstack⟩ | ⟨⟨t, m, hlast, -⟩, -⟩ | ⟨hnot, -⟩
  · cases hstack
  · cases hlast
  · exact hnot (Or.inl rfl)

/-! ## Shapes of stacks -/

/-- What the scan sees of a frame. -/
def shape : Frame → Open
  | .bracket b opener forms => .bracket b opener forms.length
  | .mark _ => .mark

theorem isLiteral_iff {t : Token} : IsLiteral t ↔ ∃ form, ofToken t = .ok form := by
  obtain ⟨kind, lexeme, start⟩ := t
  cases kind with
  | caret | string =>
    constructor
    · intro _
      exact ⟨_, rfl⟩
    · intro _
      simp [IsLiteral]
  | opening b | closing b | mark m | openString =>
    constructor
    · rintro (h | h | ⟨h, -⟩) <;> cases h
    · rintro ⟨form, h⟩
      cases h
  | atom =>
    have hatom : ofToken ⟨.atom, lexeme, start⟩ = Literal.ofAtom lexeme := rfl
    simp only [IsLiteral, hatom, reduceCtorEq, true_and, false_or]
    constructor
    · intro hrange
      obtain ⟨v, hmeans⟩ := (Literal.means_or_outOfRange lexeme).resolve_right hrange
      exact ⟨v, Literal.ofAtom_of_means hmeans⟩
    · rintro ⟨form, hform⟩ hrange
      rw [Literal.ofAtom_of_outOfRange hrange] at hform
      cases hform

theorem exists_enclosed_iff {b : Bracket} {forms : List Value} :
    (∃ form, enclosed b forms = .ok form) ↔ (b = .curly → forms.length % 2 = 0) := by
  cases b with
  | round | square =>
    constructor
    · intro _ hb
      cases hb
    · intro _
      exact ⟨_, rfl⟩
  | curly =>
    rw [enclosed, Value.mapOf]
    split
    · next heven =>
      constructor
      · intro _ _
        exact heven
      · intro _
        exact ⟨_, rfl⟩
    · next hodd =>
      constructor
      · rintro ⟨_, h⟩
        cases h
      · intro heven
        exact absurd (heven rfl) hodd

/-- Only braces make nothing of the forms between them. -/
theorem enclosed_eq_error_iff {b : Bracket} {forms : List Value} {cause : Cause} :
    enclosed b forms = .error cause ↔
      b = .curly ∧ forms.length % 2 = 1 ∧ cause = .oddItems forms.length := by
  cases b with
  | round | square =>
    constructor
    · intro h
      cases h
    · rintro ⟨hb, -⟩
      cases hb
  | curly =>
    rw [enclosed, Value.mapOf]
    split
    · next heven =>
      constructor
      · intro h
        cases h
      · rintro ⟨-, hodd, -⟩
        omega
    · next hodd =>
      constructor
      · intro h
        exact ⟨rfl, by omega, (Except.error.inj h).symm⟩
      · rintro ⟨-, -, rfl⟩
        rfl

/-- The frame of an open bracket. -/
theorem bracket_of_shape {stack : List Frame} {b : Bracket} {opener : Token} {count : Nat}
    {opened : List Open} (h : stack.map shape = .bracket b opener count :: opened) :
    ∃ forms below, stack = .bracket b opener forms :: below ∧ forms.length = count ∧
      below.map shape = opened := by
  obtain ⟨frame, below, rfl, hframe, hbelow⟩ := List.map_eq_cons_iff.mp h
  cases frame with
  | mark m => cases hframe
  | bracket b' opener' forms =>
    cases hframe
    exact ⟨forms, below, rfl, rfl, hbelow⟩

/-- The frame of a mark that waits. -/
theorem mark_of_shape {stack : List Frame} {opened : List Open}
    (h : stack.map shape = .mark :: opened) : ∃ m below, stack = .mark m :: below := by
  obtain ⟨frame, below, rfl, hframe, -⟩ := List.map_eq_cons_iff.mp h
  cases frame with
  | bracket b opener forms => cases hframe
  | mark m => exact ⟨m, below, rfl⟩

/-- A form that is delivered is counted, or is the one looked for. -/
theorem delivery_cases (form : Value) (stack : List Frame) :
    (∃ stack', delivery form stack = .next stack' ∧
      counted (stack.map shape) = some (stack'.map shape)) ∨
    ((∃ whole, delivery form stack = .ends (.ok whole)) ∧ counted (stack.map shape) = none) := by
  induction stack generalizing form with
  | nil => exact Or.inr ⟨⟨form, rfl⟩, rfl⟩
  | cons frame below ih =>
    cases frame with
    | mark m => exact ih (marked m form)
    | bracket b opener forms => exact Or.inl ⟨_, rfl, rfl⟩

theorem counted_of_delivery {form : Value} {stack stack' : List Frame}
    (h : delivery form stack = .next stack') :
    counted (stack.map shape) = some (stack'.map shape) := by
  rcases delivery_cases form stack with ⟨_, hnext, hcount⟩ | ⟨⟨_, hends⟩, -⟩
  · rw [h] at hnext
    cases hnext
    exact hcount
  · rw [h] at hends
    cases hends

theorem delivery_of_counted {stack : List Frame} {opened : List Open}
    (h : counted (stack.map shape) = some opened) (form : Value) :
    ∃ stack', delivery form stack = .next stack' ∧ stack'.map shape = opened := by
  rcases delivery_cases form stack with ⟨stack', hnext, hcount⟩ | ⟨-, hnone⟩
  · rw [h] at hcount
    exact ⟨stack', hnext, (Option.some.inj hcount).symm⟩
  · rw [h] at hnone
    cases hnone

theorem delivery_ne_error {form : Value} {stack : List Frame} {d : Diagnostic} :
    delivery form stack ≠ .ends (.error d) := by
  intro h
  rcases delivery_cases form stack with ⟨_, hnext, -⟩ | ⟨⟨_, hends⟩, -⟩
  · rw [h] at hnext
    cases hnext
  · rw [h] at hends
    cases hends

/-! ## Runs and scans -/

theorem Scanned.step {before : List Token} {stack stack' : List Frame} {t : Token}
    (h : Scanned before (stack.map shape)) (hstep : Step stack t (.next stack')) :
    Scanned (before ++ [t]) (stack'.map shape) := by
  generalize heffect : Effect.next stack' = effect at hstep
  cases hstep with
  | opening hkind =>
    cases heffect
    exact .opening h hkind
  | mark hkind =>
    cases heffect
    exact .mark h hkind
  | literal hform =>
    exact .literal h (isLiteral_iff.mpr ⟨_, hform⟩) (counted_of_delivery heffect.symm)
  | closing hkind hform =>
    have heven := exists_enclosed_iff.mp ⟨_, hform⟩
    rw [List.length_reverse] at heven
    exact .closing h hkind heven (counted_of_delivery heffect.symm)
  | misshapen | mismatched | unexpected | openString | outOfRange => cases heffect

/-- What a run goes past, the scan goes past. -/
theorem Scanned.run {before tokens : List Token} {stack stack' : List Frame}
    (h : Scanned before (stack.map shape)) (hrun : Run stack tokens stack') :
    Scanned (before ++ tokens) (stack'.map shape) := by
  induction hrun generalizing before with
  | nil => rwa [List.append_nil]
  | cons hstep _ ih =>
    rw [List.append_cons]
    exact ih (h.step hstep)

theorem scanned_of_run {tokens : List Token} {stack : List Frame} (h : Run [] tokens stack) :
    Scanned tokens (stack.map shape) := by
  have hnone : Scanned [] (List.map shape []) := .nil
  exact hnone.run h

/-- And the other way around. -/
theorem Scanned.exists_run {tokens : List Token} {opened : List Open} (h : Scanned tokens opened) :
    ∃ stack, Run [] tokens stack ∧ stack.map shape = opened := by
  induction h with
  | nil => exact ⟨[], .nil, rfl⟩
  | opening _ hkind ih =>
    obtain ⟨stack, hrun, rfl⟩ := ih
    exact ⟨_, hrun.snoc (.opening hkind), rfl⟩
  | mark _ hkind ih =>
    obtain ⟨stack, hrun, rfl⟩ := ih
    exact ⟨_, hrun.snoc (.mark hkind), rfl⟩
  | literal _ ht hcount ih =>
    obtain ⟨stack, hrun, rfl⟩ := ih
    obtain ⟨form, hform⟩ := isLiteral_iff.mp ht
    obtain ⟨stack', hnext, hshape⟩ := delivery_of_counted hcount form
    exact ⟨stack', hrun.snoc (hnext ▸ .literal hform), hshape⟩
  | @closing _ _ _ _ _ b count _ hkind heven hcount ih =>
    obtain ⟨stack, hrun, hshape⟩ := ih
    obtain ⟨forms, below, rfl, rfl, rfl⟩ := bracket_of_shape hshape
    rw [← List.length_reverse] at heven
    obtain ⟨form, hform⟩ := exists_enclosed_iff.mpr heven
    obtain ⟨stack', hnext, hshape⟩ := delivery_of_counted hcount form
    exact ⟨stack', hrun.snoc (hnext ▸ .closing hkind hform), hshape⟩

/-! ## Errors and failures -/

section

variable {source : String} {before rest : List Token} {t : Token} {stack : List Frame}
  {d : Diagnostic}

/-- Where a form is due, no bracket is on top. -/
theorem due_iff (h : Run [] before stack) : Due stack ↔ before = [] ∨ AfterMark before := by
  rcases (scanned_of_run h).top with ⟨hnil, hstack⟩ | ⟨hmark, below, hstack⟩ |
    ⟨hnot, b, opener, count, below, hstack⟩
  · rw [List.map_eq_nil_iff.mp hstack]
    exact iff_of_true trivial (Or.inl hnil)
  · obtain ⟨m, below, rfl⟩ := mark_of_shape hstack
    exact iff_of_true trivial (Or.inr hmark)
  · obtain ⟨forms, below, rfl, -, -⟩ := bracket_of_shape hstack
    exact iff_of_false id hnot

/-- A step that ends with an error is a failure of the scan. -/
theorem blames_of_step (htokens : (tokenize source).tokens = before ++ t :: rest)
    (hrun : Run [] before stack) (hstep : Step stack t (.ends (.error d))) :
    Blames (tokenize source) d := by
  have hscanned := scanned_of_run hrun
  generalize heffect : Effect.ends (.error d) = effect at hstep
  cases hstep with
  | opening | mark => cases heffect
  | literal | closing => exact absurd heffect.symm delivery_ne_error
  | misshapen hkind hform =>
    cases heffect
    obtain ⟨rfl, hodd, rfl⟩ := enclosed_eq_error_iff.mp hform
    rw [List.length_reverse] at hodd ⊢
    exact .oddItems htokens hscanned hkind hodd
  | mismatched hkind hb =>
    cases heffect
    exact .mismatched htokens hscanned hkind hb
  | unexpected hkind hdue =>
    cases heffect
    exact .unexpectedCloser htokens hscanned hkind ((due_iff hrun).mp hdue)
  | openString hkind =>
    cases heffect
    exact .openString htokens hscanned hkind
  | outOfRange hkind h =>
    cases heffect
    obtain ⟨hrange, rfl⟩ := Literal.ofAtom_eq_error_iff.mp h
    exact .outOfRange htokens hscanned hkind hrange

/-- A run up to the end is a failure of the scan there. -/
theorem blames_atEnd (hrun : Run [] (tokenize source).tokens stack)
    (hne : (tokenize source).tokens ≠ []) :
    Blames (tokenize source) (atEnd (tokenize source).stop stack) := by
  have hscanned := scanned_of_run hrun
  rcases stack with _ | ⟨⟨b, opener, forms⟩ | m, below⟩
  · rcases hscanned.top with ⟨hnil, -⟩ | ⟨-, _, heq⟩ | ⟨-, _, _, _, _, heq⟩
    · exact absurd hnil hne
    · cases heq
    · cases heq
  · exact .unclosed hscanned
  · exact .missingForm hscanned

theorem blames_of_read (h : read source = .error d) : Blames (tokenize source) d := by
  rcases read_cases source with hnil | ⟨hne, stack, hrun⟩ | ⟨result, rest, hsettles⟩
  · rw [read_of_nil hnil] at h
    cases h
    exact .noForm hnil
  · rw [read_of_run hrun hne] at h
    cases h
    exact blames_atEnd hrun hne
  · rw [read_of_settles hsettles] at h
    subst h
    generalize htokens : (tokenize source).tokens = tokens at hsettles
    obtain ⟨hrun, hstep⟩ := hsettles
    exact blames_of_step htokens hrun hstep

/-- A run and a step that fails after it. -/
theorem read_of_step (htokens : (tokenize source).tokens = before ++ t :: rest)
    (hrun : Run [] before stack) (hstep : Step stack t (.ends (.error d))) :
    read source = .error d := by
  have hsettles : Settles [] (before ++ t :: rest) (.error d) rest := .intro hrun hstep
  rw [← htokens] at hsettles
  exact read_of_settles hsettles

theorem read_of_blames (h : Blames (tokenize source) d) : read source = .error d := by
  cases h with
  | noForm h => exact read_of_nil h
  | openString htokens h hkind =>
    obtain ⟨stack, hrun, -⟩ := h.exists_run
    exact read_of_step htokens hrun (.openString hkind)
  | unexpectedCloser htokens h hkind hdue =>
    obtain ⟨stack, hrun, -⟩ := h.exists_run
    exact read_of_step htokens hrun (.unexpected hkind ((due_iff hrun).mpr hdue))
  | mismatched htokens h hkind hb =>
    obtain ⟨stack, hrun, hshape⟩ := h.exists_run
    obtain ⟨forms, below, rfl, -, -⟩ := bracket_of_shape hshape
    exact read_of_step htokens hrun (.mismatched hkind hb)
  | oddItems htokens h hkind hodd =>
    obtain ⟨stack, hrun, hshape⟩ := h.exists_run
    obtain ⟨forms, below, rfl, rfl, -⟩ := bracket_of_shape hshape
    rw [← List.length_reverse] at hodd ⊢
    exact read_of_step htokens hrun
      (.misshapen hkind (enclosed_eq_error_iff.mpr ⟨rfl, hodd, rfl⟩))
  | outOfRange htokens h hkind hrange =>
    obtain ⟨stack, hrun, -⟩ := h.exists_run
    have hatom := Literal.ofAtom_eq_error_iff.mpr ⟨hrange, rfl⟩
    exact read_of_step htokens hrun (.outOfRange hkind hatom)
  | unclosed h =>
    obtain ⟨stack, hrun, hshape⟩ := h.exists_run
    obtain ⟨forms, below, rfl, -, -⟩ := bracket_of_shape hshape
    exact read_of_run hrun h.ne_nil
  | missingForm h =>
    obtain ⟨stack, hrun, hshape⟩ := h.exists_run
    obtain ⟨m, below, rfl⟩ := mark_of_shape hshape
    exact read_of_run hrun h.ne_nil

end

/-! ## Places -/

theorem span_mem_spans {s : TokenStream} {t : Token} (ht : t ∈ s.tokens) : t.span ∈ s.spans :=
  List.mem_append_left _ (List.mem_map_of_mem ht)

/-- What is blamed is one of the tokens, or the end, unless there are no
tokens. -/
theorem Blames.place {s : TokenStream} {d : Diagnostic} (h : Blames s d) :
    (d.cause.kind = .emptyInput ∧ s.tokens = [] ∧ d.span = none) ∨
      (d.cause.kind ≠ .emptyInput ∧ s.tokens ≠ [] ∧ ∃ span ∈ s.spans, d.span = some span) := by
  have hfault : ∀ {t : Token} {cause : Cause}, t ∈ s.tokens → cause.kind ≠ .emptyInput →
      cause.kind ≠ .emptyInput ∧ s.tokens ≠ [] ∧
        ∃ span ∈ s.spans, some t.span = some span := by
    intro t cause ht hkind
    exact ⟨hkind, List.ne_nil_of_mem ht, t.span, span_mem_spans ht, rfl⟩
  cases h with
  | noForm h => exact Or.inl ⟨rfl, h, rfl⟩
  | openString htokens | unexpectedCloser htokens | mismatched htokens | outOfRange htokens =>
    exact Or.inr (hfault (by simp [htokens]) nofun)
  | oddItems htokens h =>
    have hopener := h.opener_mem (List.mem_cons_self ..)
    exact Or.inr (hfault (by simp [htokens, hopener]) nofun)
  | unclosed h => exact Or.inr (hfault (h.opener_mem (List.mem_cons_self ..)) nofun)
  | missingForm h =>
    have hend : s.endSpan ∈ s.spans := List.mem_append_right _ (List.mem_singleton_self _)
    exact Or.inr ⟨nofun, h.ne_nil, s.endSpan, hend, rfl⟩

end Form

/-- Reading fails with an error just if the scan of the tokens blames it
on the place that the error names. There is no place if there are no
tokens; otherwise it is that of a token, or the end. A string without an
end reaches the end of the text. -/
theorem read_error_blames (source : String) :
    (∀ d, read source = .error d ↔ Form.Blames (tokenize source) d) ∧
    (∀ d, read source = .error d →
      (d.cause.kind = .emptyInput ↔ (tokenize source).tokens = []) ∧
      (d.cause.kind = .emptyInput → d.span = none) ∧
      (d.cause.kind ≠ .emptyInput → ∃ span ∈ (tokenize source).spans, d.span = some span)) ∧
    ∀ t ∈ (tokenize source).tokens, t.kind = .openString → t.stop = source.utf8ByteSize := by
  refine ⟨?_, ?_, ?_⟩
  · intro d
    exact ⟨Form.blames_of_read, Form.read_of_blames⟩
  · intro d h
    rcases (Form.blames_of_read h).place with ⟨hkind, hnil, hspan⟩ | ⟨hkind, hne, hspan⟩
    · exact ⟨iff_of_true hkind hnil, fun _ => hspan, fun h => absurd hkind h⟩
    · exact ⟨iff_of_false hkind hne, fun h => absurd h hkind, fun _ => hspan⟩
  · intro t ht hkind
    rw [utf8ByteSize_eq, ← Nat.zero_add (String.utf8Len _)]
    exact ((tokenize_lexed source).getLast?_of_openString t ht hkind).2

/-- Braces around one form, inside a list that is left open. -/
theorem read_error_blames_braces :
    read "(a {:k} ~" = .error ⟨.oddItems 1, some ⟨3, 4⟩⟩ ∧
    Form.Blames (tokenize "(a {:k} ~") ⟨.oddItems 1, some ⟨3, 4⟩⟩ ∧
    (⟨3, 4⟩ : Span) ∈ (tokenize "(a {:k} ~").spans ∧
    (tokenize "(a {:k} ~").tokens ≠ [] := by
  have hread : read "(a {:k} ~" = .error ⟨.oddItems 1, some ⟨3, 4⟩⟩ := by rfl
  have hblames := ((read_error_blames _).1 _).mp hread
  obtain ⟨hempty, -, hplace⟩ := (read_error_blames _).2.1 _ hread
  obtain ⟨span, hmem, hspan⟩ := hplace nofun
  cases hspan
  exact ⟨hread, hblames, hmem, mt hempty.mpr nofun⟩

end Lisp
