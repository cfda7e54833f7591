import Lisp.Proofs.Lexing

/-!
# The only split of a text

That the tokens of a text, as they come out of the automaton, are a split
of the text in the sense of the grammar is one half. The other one is
here: no text has a second split, so to know the tokens of a text it is
enough to show one (`tokens_eq_iff_lexed`).

The automaton keeps a token pending until the next character shows that
it is complete. `Scan.Ends` says of the text ahead that it does so; what
is pending may then be completed at once (`Scan.finish_foldl`). So the
text of a split can be read piece by piece, each piece from a state in
which nothing is pending. A gap adds no token (`Scan.foldl_feed_gap`), a
lexeme adds its own (`Scan.foldl_feed_lexeme`), and after both what is
pending ends before the rest.
-/

namespace Lisp

open String (utf8Len)

namespace Scan

/-! ## Where a token ends -/

/-- What is pending is complete before this text. -/
def Ends (s : Scan) (text : List Char) : Prop :=
  match s.pending with
  | .gap => True
  | .comment => ComesTo (· = '\n') text
  | .tilde _ => text.head? ≠ some '@'
  | .atom _ _ => ComesTo (endsAtom · = true) text
  | .string _ _ | .escape _ _ => text = []

theorem ends_of_gap {s : Scan} (h : s.pending = .gap) (text : List Char) : s.Ends text := by
  rw [Ends, h]
  trivial

theorem Settled.ends {s : Scan} (h : s.Settled) {text : List Char}
    (htext : ComesTo (endsAtom · = true) text) : s.Ends text := by
  rcases h with h | ⟨origin, read, h⟩
  · exact ends_of_gap h text
  · rw [Ends, h]
    exact htext

theorem feed_finish {s : Scan} {c : Char} {rest : List Char} (h : s.Ends (c :: rest)) :
    s.feed c = s.finish.feed c := by
  obtain ⟨position, pending, tokens⟩ := s
  cases pending with
  | gap => rfl
  | comment =>
    obtain rfl : c = '\n' := h c rfl
    rfl
  | tilde origin =>
    have hc : c ≠ '@' := fun heq => h (congrArg some heq)
    simp [feed, finish, emit, hc]
  | atom origin read =>
    have hc : endsAtom c = true := h c rfl
    simp [feed, finish, emit, hc]
  | string origin read | escape origin read => cases h

/-- What is complete may be completed before the text goes on. -/
theorem finish_foldl {s : Scan} {text : List Char} (h : s.Ends text) :
    (text.foldl feed s).finish = (text.foldl feed s.finish).finish := by
  cases text with
  | nil => exact (finish_of_gap (pending_finish s)).symm
  | cons c rest => rw [List.foldl_cons, List.foldl_cons, feed_finish h]

/-! ## Gaps -/

theorem feed_gap {s : Scan} (h : s.pending = .gap) (c : Char) : s.feed c = s.enter c := by
  rw [feed, h]

theorem foldl_feed_comment {s : Scan} (h : s.pending = .comment) {body : List Char}
    (hbody : '\n' ∉ body) :
    (body.foldl feed s).pending = .comment ∧ (body.foldl feed s).tokens = s.tokens := by
  induction body generalizing s with
  | nil => exact ⟨h, rfl⟩
  | cons c rest ih =>
    obtain ⟨hc, hrest⟩ := not_or.mp (mt List.mem_cons.mpr hbody)
    have hfeed : s.feed c = { s with position := s.position + c.utf8Size } := by
      simp [feed, h, Ne.symm hc]
    rw [List.foldl_cons, hfeed]
    exact ih h hrest

/-- A gap leaves the tokens as they are. -/
theorem foldl_feed_gap {gap following : List Char} (h : Gap gap following) {s : Scan}
    (hs : s.pending = .gap) :
    (gap.foldl feed s).finish.tokens = s.tokens ∧ (gap.foldl feed s).Ends following := by
  induction h generalizing s with
  | @nil following =>
    rw [List.foldl_nil, finish_of_gap hs]
    exact ⟨rfl, ends_of_gap hs following⟩
  | @blank c text following hc _ ih =>
    have hblank : isBlank c = true := by
      rw [isBlank, Bool.or_eq_true, beq_iff_eq]
      exact hc
    have henter : s.enter c = ⟨s.position + c.utf8Size, .gap, s.tokens⟩ := by
      simp [enter, wait, hblank]
    rw [List.foldl_cons, feed_gap hs, henter]
    exact ih rfl
  | @comment body text following hbody hend _ ih =>
    obtain ⟨s', hcomment, htokens, hs'⟩ : ∃ s' : Scan, s'.pending = .comment ∧
        s'.tokens = s.tokens ∧ body.foldl feed (s.feed ';') = s' := by
      have hopen : (s.feed ';').pending = .comment ∧ (s.feed ';').tokens = s.tokens := by
        rw [feed_gap hs]
        exact ⟨rfl, rfl⟩
      obtain ⟨hcomment, htokens⟩ := foldl_feed_comment hopen.1 hbody
      exact ⟨_, hcomment, htokens.trans hopen.2, rfl⟩
    have hends : s'.Ends (text ++ following) := by
      rw [Ends, hcomment]
      exact hend
    have hfinish : s'.finish.tokens = s.tokens := by
      rw [finish, hcomment]
      exact htokens
    rw [List.foldl_cons, List.foldl_append, hs']
    cases text with
    | nil => exact ⟨hfinish, hends⟩
    | cons c text =>
      -- the line break that ends the comment is a blank of the gap
      rw [List.foldl_cons, feed_finish hends, ← List.foldl_cons, ← hfinish]
      exact ih (pending_finish s')

/-! ## Lexemes -/

theorem foldl_feed_body {body : List Char} (h : StringBody body) (position origin : Nat)
    (read : List Char) (tokens : List Token) :
    ∃ position', body.foldl feed ⟨position, .string origin read, tokens⟩ =
      ⟨position', .string origin (body.reverse ++ read), tokens⟩ := by
  induction h generalizing position read with
  | nil => exact ⟨position, rfl⟩
  | @plain c text hc _ ih =>
    obtain ⟨position', h⟩ := ih (position + c.utf8Size) (c :: read)
    refine ⟨position', ?_⟩
    simpa [feed, wait, hc] using h
  | @escape c text _ ih =>
    obtain ⟨position', h⟩ := ih (position + '\\'.utf8Size + c.utf8Size) (c :: '\\' :: read)
    refine ⟨position', ?_⟩
    simpa [feed, wait] using h

/-- A string that starts where nothing is pending is pending after its
inside. -/
theorem foldl_feed_quoted {body : List Char} (h : StringBody body) {s : Scan}
    (hs : s.pending = .gap) :
    ∃ position', ('\x22' :: body).foldl feed s =
      ⟨position', .string s.position (body.reverse ++ ['\x22']), s.tokens⟩ := by
  have hopen : s.feed '\x22' =
      ⟨s.position + '\x22'.utf8Size, .string s.position ['\x22'], s.tokens⟩ := by
    rw [feed_gap hs]
    rfl
  rw [List.foldl_cons, hopen]
  exact foldl_feed_body h ..

/-- A string with both its quotation marks is one token. -/
theorem foldl_feed_string {body : List Char} (h : StringBody body) {s : Scan}
    (hs : s.pending = .gap) :
    (('\x22' :: (body ++ ['\x22'])).foldl feed s).pending = .gap ∧
      (('\x22' :: (body ++ ['\x22'])).foldl feed s).tokens =
        ⟨.string, String.ofList ('\x22' :: (body ++ ['\x22'])), s.position⟩ :: s.tokens := by
  obtain ⟨position', hbody⟩ := foldl_feed_quoted h hs
  rw [← List.cons_append, List.foldl_append, hbody]
  exact ⟨rfl, by simp [feed, emit]⟩

/-- The token of the lexeme that was read is complete, or will be before
the rest. -/
def Adds (s s' : Scan) (kind : TokenKind) (lexeme following : List Char) : Prop :=
  s'.finish.tokens = ⟨kind, String.ofList lexeme, s.position⟩ :: s.tokens ∧ s'.Ends following

theorem adds_of_gap {s s' : Scan} {kind : TokenKind} {lexeme : List Char}
    (h : s'.pending = .gap ∧ s'.tokens = ⟨kind, String.ofList lexeme, s.position⟩ :: s.tokens)
    (following : List Char) : s.Adds s' kind lexeme following := by
  refine ⟨?_, ends_of_gap h.1 following⟩
  rw [finish_of_gap h.1]
  exact h.2

/-- A lexeme is read as its token. -/
theorem foldl_feed_lexeme {kind : TokenKind} {lexeme following : List Char}
    (h : LexemeOf kind lexeme following) {s : Scan} (hs : s.pending = .gap) :
    s.Adds (lexeme.foldl feed s) kind lexeme following := by
  cases h with
  | opening b | closing b => cases b <;> exact adds_of_gap (feed_single hs rfl) following
  | quote | quasiquote | deref | caret => exact adds_of_gap (feed_single hs rfl) following
  | unquote h =>
    rw [List.foldl_cons, feed_gap hs]
    exact ⟨rfl, h⟩
  | spliceUnquote =>
    rw [List.foldl_cons, feed_gap hs]
    exact ⟨rfl, trivial⟩
  | string h => exact adds_of_gap (foldl_feed_string h hs) following
  | @openString body h =>
    obtain ⟨position', hbody⟩ := foldl_feed_quoted h hs
    rw [hbody]
    exact ⟨by simp [emit, finish], rfl⟩
  | @openEscape body h =>
    obtain ⟨position', hbody⟩ := foldl_feed_quoted h hs
    rw [← List.cons_append, List.foldl_append, hbody]
    exact ⟨by simp [feed, wait, emit, finish], rfl⟩
  | atom h hend =>
    obtain ⟨hsettled, htokens⟩ := foldl_feed_bare hs h
    exact ⟨htokens, hsettled.ends hend⟩

/-! ## Texts -/

/-- A gap and a lexeme are read, and the token is complete. -/
theorem foldl_feed_piece {gap lexeme rest : List Char} {kind : TokenKind}
    (hgap : Gap gap (lexeme ++ rest)) (hlexeme : LexemeOf kind lexeme rest) {s : Scan}
    (hs : s.pending = .gap) :
    ∃ s' : Scan, s'.pending = .gap ∧ s'.position = s.position + utf8Len gap + utf8Len lexeme ∧
      s'.tokens = ⟨kind, String.ofList lexeme, s.position + utf8Len gap⟩ :: s.tokens ∧
      ((gap ++ (lexeme ++ rest)).foldl feed s).finish = (rest.foldl feed s').finish := by
  obtain ⟨htokens₁, hends₁⟩ := foldl_feed_gap hgap hs
  have hposition₁ : (gap.foldl feed s).finish.position = s.position + utf8Len gap := by
    rw [position_finish, position_foldl]
  obtain ⟨htokens₂, hends₂⟩ := foldl_feed_lexeme hlexeme (pending_finish (gap.foldl feed s))
  refine ⟨(lexeme.foldl feed (gap.foldl feed s).finish).finish, pending_finish _, ?_, ?_, ?_⟩
  · rw [position_finish, position_foldl, hposition₁]
  · rw [htokens₂, htokens₁, hposition₁]
  · rw [List.foldl_append, finish_foldl hends₁, List.foldl_append, finish_foldl hends₂]

/-- From a state in which nothing is pending, a text is read as any split
of it says. -/
theorem foldl_feed_lexed {p : Nat} {text : List Char} {tokens : List Token}
    (h : Lexed p text tokens) {s : Scan} (hs : s.pending = .gap) (hp : s.position = p) :
    (text.foldl feed s).finish.tokens = tokens.reverse ++ s.tokens := by
  induction h generalizing s with
  | done hgap => exact (foldl_feed_gap hgap hs).1
  | @token p gap lexeme rest kind tokens hgap hlexeme _ ih =>
    obtain ⟨s', hs', hposition, htokens, hfinish⟩ := foldl_feed_piece hgap hlexeme hs
    rw [hp] at hposition htokens
    rw [hfinish, ih hs' hposition, htokens, List.reverse_cons, List.append_assoc,
      List.singleton_append]

end Scan

/-- The tokens of a text are its only split. -/
theorem tokens_eq_iff_lexed {source : String} {tokens : List Token} :
    (tokenize source).tokens = tokens ↔ Lexed 0 source.toList tokens := by
  constructor
  · rintro rfl
    exact tokenize_lexed source
  · intro h
    have hscan := Scan.foldl_feed_lexed (s := Scan.initial) h rfl rfl
    rw [tokenize, Scan.stream, hscan]
    simp [Scan.initial]

end Lisp
