import Lisp.Proofs.Splitting
import Lisp.Proofs.Steps
import Lisp.Proofs.Wrapping
import Mathlib.Data.List.Forall2

/-!
# Layout

Blanks, line breaks and comments separate tokens and do nothing else. One
side of this is about texts: the lexemes of a text with single spaces
between them split into the same lexemes again (`Lexed.respaced`), since
no lexeme needs more after it than a space, and a string without an end
is the last one.

The other side is about reading. The machine looks at where tokens are
only to say where an error is, and at the lexeme of an open string not
at all. So for two runs on alike tokens, the stacks stay the same but for
the places of the brackets in them (`Form.Step.sameAt`), and the results
are the same but for the places of errors (`Form.sameResult_parseWith`).
-/

namespace Lisp

open List (Forall₂)

/-- What a token is, without its place. -/
def Token.word (t : Token) : TokenKind × String := (t.kind, t.lexeme)

def TokenStream.words (s : TokenStream) : List (TokenKind × String) := s.tokens.map Token.word

/-- The lexemes of a text with single spaces between them. -/
def respaced (source : String) : String :=
  " ".intercalate ((tokenize source).tokens.map Token.lexeme)

/-! ## Respacing -/

/-- A lexeme may stand before a space or the end as well, a string
without an end before the end only. -/
theorem LexemeOf.before_space {kind : TokenKind} {lexeme following rest : List Char}
    (h : LexemeOf kind lexeme following) (hrest : ComesTo (· = ' ') rest)
    (hopen : kind = .openString → rest = []) : LexemeOf kind lexeme rest := by
  cases h with
  | opening b => exact .opening b
  | closing b => exact .closing b
  | quote => exact .quote
  | quasiquote => exact .quasiquote
  | unquote => exact .unquote fun hat => absurd (hrest '@' hat) (by decide)
  | spliceUnquote => exact .spliceUnquote
  | deref => exact .deref
  | caret => exact .caret
  | string h => exact .string h
  | openString h =>
    obtain rfl := hopen rfl
    exact .openString h
  | openEscape h =>
    obtain rfl := hopen rfl
    exact .openEscape h
  | atom h =>
    refine .atom h fun c hc => ?_
    rw [hrest c hc]
    rfl

/-- The lexemes of a split, with spaces between them, split into the same
lexemes. -/
theorem Lexed.respaced {p : Nat} {text : List Char} {tokens : List Token}
    (h : Lexed p text tokens) (q : Nat) :
    ∃ tokens', Lexed q ([' '].intercalate (tokens.map (·.lexeme.toList))) tokens' ∧
      tokens'.map Token.word = tokens.map Token.word := by
  induction h generalizing q with
  | done => exact ⟨[], .done .nil, rfl⟩
  | @token p gap lexeme rest kind tokens _ hlexeme hrest ih =>
    cases tokens with
    | nil =>
      refine ⟨[⟨kind, String.ofList lexeme, q⟩], ?_, rfl⟩
      have hlast := Lexed.lexeme (p := q) (hlexeme.before_space comesTo_nil fun _ => rfl) (.done .nil)
      simpa using hlast
    | cons t later =>
      have hkind : kind ≠ .openString := by
        intro hkind
        obtain rfl := hlexeme.following_eq_nil hkind
        cases hrest.tokens_eq_nil
      have hspaced : ∀ rest, LexemeOf kind lexeme (' ' :: rest) := fun rest =>
        hlexeme.before_space (comesTo_cons rfl) fun h => absurd h hkind
      obtain ⟨tokens', hlexed, hwords⟩ := ih (q + String.utf8Len lexeme + ' '.utf8Size)
      refine ⟨⟨kind, String.ofList lexeme, q⟩ :: tokens', ?_, ?_⟩
      · have hfirst := Lexed.lexeme (hspaced _) (.blank (Or.inl rfl) hlexed)
        simpa [List.intercalate_cons_cons] using hfirst
      · rw [List.map_cons, hwords]
        rfl

theorem words_respaced (source : String) :
    (tokenize (respaced source)).words = (tokenize source).words := by
  obtain ⟨tokens', hlexed, hwords⟩ := (tokenize_lexed source).respaced 0
  have htext : (respaced source).toList =
      [' '].intercalate ((tokenize source).tokens.map (·.lexeme.toList)) := by
    rw [respaced, String.toList_intercalate, List.map_map]
    rfl
  rw [← htext] at hlexed
  rw [TokenStream.words, tokens_eq_iff_lexed.mpr hlexed, hwords]
  rfl

/-! ## Reading at other places -/

section

variable (Same : Span → Span → Prop)

/-- The tokens differ in their places only, and these are related. -/
structure Token.SameAt (t t' : Token) : Prop where
  kind : t.kind = t'.kind
  lexeme : t.lexeme = t'.lexeme
  span : Same t.span t'.span

/-- The tokens are alike, and their places are related. -/
structure Token.AlikeAt (t t' : Token) : Prop where
  alike : t.Alike t'
  span : Same t.span t'.span

/-- The frames differ in the places of the opening tokens only. -/
inductive Frame.SameAt : Frame → Frame → Prop
  | bracket {b : Bracket} {opener opener' : Token} {forms : List Value}
      (h : Same opener.span opener'.span) :
      SameAt (.bracket b opener forms) (.bracket b opener' forms)
  | mark {m : Mark} : SameAt (.mark m) (.mark m)

/-- Reading has the same result, and if it is an error, at related
places. -/
inductive SameResult : Except Diagnostic Value → Except Diagnostic Value → Prop
  | ok {form : Value} : SameResult (.ok form) (.ok form)
  | error {cause : Cause} {span span' : Option Span} (h : Option.Rel Same span span') :
      SameResult (.error ⟨cause, span⟩) (.error ⟨cause, span'⟩)

end

namespace Form

/-- The machine goes on with the same stack, or ends with the same
result. -/
inductive Effect.SameAt (Same : Span → Span → Prop) : Effect → Effect → Prop
  | next {stack stack' : List Frame} (h : Forall₂ (Frame.SameAt Same) stack stack') :
      SameAt Same (.next stack) (.next stack')
  | ends {result result' : Except Diagnostic Value} (h : SameResult Same result result') :
      SameAt Same (.ends result) (.ends result')

variable {Same : Span → Span → Prop} {stack stack' : List Frame} {t t' : Token}
  {tokens tokens' : List Token} {effect : Effect} {stop stop' : Nat}

theorem sameAt_fault {cause : Cause} {span span' : Span} (h : Same span span') :
    Effect.SameAt Same (.ends (.error ⟨cause, some span⟩)) (.ends (.error ⟨cause, some span'⟩)) :=
  .ends (.error (.some h))

theorem sameAt_delivery (form : Value) (h : Forall₂ (Frame.SameAt Same) stack stack') :
    Effect.SameAt Same (delivery form stack) (delivery form stack') := by
  induction h generalizing form with
  | nil => exact .ends .ok
  | @cons frame frame' below below' hframe hbelow ih =>
    cases hframe with
    | bracket hopener => exact .next (.cons (.bracket hopener) hbelow)
    | @mark m => exact ih (marked m form)

theorem sameAt_atEnd (h : Forall₂ (Frame.SameAt Same) stack stack')
    (hstop : Same ⟨stop, stop⟩ ⟨stop', stop'⟩) :
    SameResult Same (.error (atEnd stop stack)) (.error (atEnd stop' stack')) := by
  cases h with
  | nil => exact .error (.some hstop)
  | cons hframe _ =>
    cases hframe with
    | bracket hopener => exact .error (.some hopener)
    | mark => exact .error (.some hstop)

theorem due_sameAt (h : Forall₂ (Frame.SameAt Same) stack stack') (hdue : Due stack) :
    Due stack' := by
  cases h with
  | nil => trivial
  | cons hframe _ =>
    cases hframe with
    | bracket => exact hdue
    | mark => trivial

theorem ofToken_alike (ht : t.Alike t') : ofToken t' = ofToken t := by
  rw [ofToken, ofToken, ← ht.kind]
  by_cases hkind : t.kind = .openString
  · rw [hkind]
  · rw [ht.lexeme hkind]

/-- A step does the same on an alike token at another place. -/
theorem Step.sameAt (h : Step stack t effect) (ht : t.AlikeAt Same t')
    (hstack : Forall₂ (Frame.SameAt Same) stack stack') :
    ∃ effect', Step stack' t' effect' ∧ effect.SameAt Same effect' := by
  cases h with
  | opening hkind =>
    exact ⟨_, .opening (ht.alike.kind ▸ hkind), .next (.cons (.bracket ht.span) hstack)⟩
  | mark hkind => exact ⟨_, .mark (ht.alike.kind ▸ hkind), .next (.cons .mark hstack)⟩
  | @literal _ _ form h =>
    rw [← ofToken_alike ht.alike] at h
    exact ⟨_, .literal h, sameAt_delivery form hstack⟩
  | @closing _ _ _ _ _ form hkind hform =>
    obtain _ | ⟨⟨hopener⟩, hbelow⟩ := hstack
    exact ⟨_, .closing (ht.alike.kind ▸ hkind) hform, sameAt_delivery form hbelow⟩
  | misshapen hkind hform =>
    obtain _ | ⟨⟨hopener⟩, hbelow⟩ := hstack
    exact ⟨_, .misshapen (ht.alike.kind ▸ hkind) hform, sameAt_fault hopener⟩
  | mismatched hkind hb =>
    obtain _ | ⟨⟨hopener⟩, hbelow⟩ := hstack
    exact ⟨_, .mismatched (ht.alike.kind ▸ hkind) hb, sameAt_fault ht.span⟩
  | unexpected hkind hdue =>
    exact ⟨_, .unexpected (ht.alike.kind ▸ hkind) (due_sameAt hstack hdue), sameAt_fault ht.span⟩
  | openString hkind => exact ⟨_, .openString (ht.alike.kind ▸ hkind), sameAt_fault ht.span⟩
  | outOfRange hkind h =>
    rw [ht.alike.lexeme (by simp [hkind])] at h
    exact ⟨_, .outOfRange (ht.alike.kind ▸ hkind) h, sameAt_fault ht.span⟩

/-- A run does the same on alike tokens at other places. -/
theorem sameResult_parseWith (htokens : Forall₂ (Token.AlikeAt Same) tokens tokens')
    (hstack : Forall₂ (Frame.SameAt Same) stack stack')
    (hstop : Same ⟨stop, stop⟩ ⟨stop', stop'⟩) :
    SameResult Same ((parseWith stop stack tokens).map Prod.fst)
      ((parseWith stop' stack' tokens').map Prod.fst) := by
  induction htokens generalizing stack stack' with
  | nil =>
    rw [parseWith, parseWith]
    exact sameAt_atEnd hstack hstop
  | @cons t t' rest rest' ht _ ih =>
    obtain ⟨effect, hstep⟩ := exists_step stack t
    obtain ⟨effect', hstep', heffect⟩ := hstep.sameAt ht hstack
    rw [hstep.parseWith, hstep'.parseWith]
    cases heffect with
    | next hstack => exact ih hstack
    | ends hresult =>
      cases hresult with
      | ok => exact .ok
      | error h => exact .error h

theorem sameResult_read {source source' : String}
    (htokens : Forall₂ (Token.AlikeAt Same) (tokenize source).tokens (tokenize source').tokens)
    (hstop : Same (tokenize source).endSpan (tokenize source').endSpan) :
    SameResult Same (read source) (read source') := by
  by_cases hnil : (tokenize source).tokens = []
  · rw [hnil, List.forall₂_nil_left_iff] at htokens
    rw [read_of_nil hnil, read_of_nil htokens]
    exact .error .none
  · have hne : (tokenize source').tokens ≠ [] := by
      intro hnil'
      rw [hnil', List.forall₂_nil_right_iff] at htokens
      exact hnil htokens
    rw [read_of_ne_nil hnil, read_of_ne_nil hne]
    exact sameResult_parseWith htokens .nil hstop

end Form

/-! ## The same tokens in two texts -/

/-- The places are those at the same index. -/
def SameIndex (s s' : TokenStream) (span span' : Span) : Prop :=
  ∃ i : Nat, s.spans[i]? = some span ∧ s'.spans[i]? = some span'

theorem TokenStream.spans_getElem? (s : TokenStream) {i : Nat} (hi : i < s.tokens.length) :
    s.spans[i]? = some s.tokens[i].span := by
  rw [spans, List.getElem?_append_left (by rwa [List.length_map])]
  simp [hi]

theorem TokenStream.spans_getElem?_length (s : TokenStream) :
    s.spans[s.tokens.length]? = some s.endSpan := by
  simp [spans]

section

variable {s s' : TokenStream} (h : s.words = s'.words)

include h

theorem length_tokens_of_words : s.tokens.length = s'.tokens.length := by
  simpa [TokenStream.words] using congrArg List.length h

theorem sameAt_tokens : Forall₂ (Token.SameAt (SameIndex s s')) s.tokens s'.tokens := by
  refine List.forall₂_iff_get.mpr ⟨length_tokens_of_words h, fun i hi hi' => ?_⟩
  have hword : s.tokens[i].word = s'.tokens[i].word := by
    have hget := congrArg (fun words => words[i]?) h
    simpa [TokenStream.words, hi, hi'] using hget
  have hspan : SameIndex s s' s.tokens[i].span s'.tokens[i].span :=
    ⟨i, s.spans_getElem? hi, s'.spans_getElem? hi'⟩
  exact ⟨congrArg Prod.fst hword, congrArg Prod.snd hword, hspan⟩

theorem sameIndex_end : SameIndex s s' s.endSpan s'.endSpan := by
  refine ⟨s.tokens.length, s.spans_getElem?_length, ?_⟩
  rw [length_tokens_of_words h]
  exact s'.spans_getElem?_length

end

/-- Texts with the same words read alike. -/
theorem sameResult_of_words {source source' : String}
    (h : (tokenize source).words = (tokenize source').words) :
    SameResult (SameIndex (tokenize source) (tokenize source')) (read source) (read source') :=
  Form.sameResult_read ((sameAt_tokens h).imp fun _ _ ht =>
    ⟨⟨ht.kind, fun _ => ht.lexeme⟩, ht.span⟩)
    (sameIndex_end h)

/-- The lexemes of a text with single spaces between them are its tokens
again. And texts with the same kinds and lexemes of tokens read as the
same form, or fail with the same error at the token of the same index. -/
theorem layout_irrelevant :
    (∀ source : String, (tokenize (respaced source)).words = (tokenize source).words) ∧
    ∀ source source' : String, (tokenize source).words = (tokenize source').words →
      SameResult (SameIndex (tokenize source) (tokenize source')) (read source) (read source') := by
  constructor
  · exact words_respaced
  · intro source source' h
    exact sameResult_of_words h

/-- A tilde and an at sign that stay apart, and a fault that moves. -/
theorem layout_irrelevant_tildes :
    respaced "~;\n@a(b,]" = "~ @ a ( b ]" ∧
    (tokenize "~ @ a ( b ]").words = (tokenize "~;\n@a(b,]").words ∧
    (tokenize "(b,]").words = (tokenize "( b ]").words ∧
    SameResult (SameIndex (tokenize "(b,]") (tokenize "( b ]")) (read "(b,]") (read "( b ]") ∧
    read "(b,]" = .error ⟨.mismatched .square .round, some ⟨3, 4⟩⟩ ∧
    read "( b ]" = .error ⟨.mismatched .square .round, some ⟨4, 5⟩⟩ := by
  have hspaced : respaced "~;\n@a(b,]" = "~ @ a ( b ]" := by rfl
  have hwords := layout_irrelevant.1 "~;\n@a(b,]"
  have hsame : (tokenize "(b,]").words = (tokenize "( b ]").words := by rfl
  rw [hspaced] at hwords
  exact ⟨hspaced, hwords, hsame, layout_irrelevant.2 _ _ hsame, rfl, rfl⟩

end Lisp
