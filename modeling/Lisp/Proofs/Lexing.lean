import Lisp.Proofs.Scanning
import Mathlib.Data.String.Basic

/-!
# A text is tokens and gaps

What tokens look like, and what may stand between them, is said here
without the automaton: `Gap` and `LexemeOf` are a grammar of texts. Both
may depend on the text that follows, since a comment runs to the end of
its line, an atom to the next delimiter, and a tilde is a token only if
no at sign comes after it.

`Lexed` puts them together: the text at a position is a gap, a lexeme, a
gap, and so on. What is pending in the automaton says what the next
characters may make of it (`Pending.Ahead`). Reading a character leads
from what was ahead of the state before to what is ahead of the state
after (`leads_feed`), so the text before the automaton falls into the
tokens that come out of it (`tokenize_lexed`).
-/

namespace Lisp

open String (utf8Len)

/-! ## The grammar of texts -/

/-- The text ends here, or goes on with such a character. -/
def ComesTo (P : Char → Prop) (text : List Char) : Prop := ∀ c, text.head? = some c → P c

/-- Text that separates tokens and belongs to none, before what
follows. -/
inductive Gap : (text following : List Char) → Prop
  | nil {following : List Char} : Gap [] following
  | blank {c : Char} {text following : List Char} (h : isWhite c = true ∨ c = ',')
      (hrest : Gap text following) : Gap (c :: text) following
  /-- A comment runs up to the next line break, or to the end. -/
  | comment {body text following : List Char} (hbody : '\n' ∉ body)
      (hend : ComesTo (· = '\n') (text ++ following)) (hrest : Gap text following) :
      Gap (';' :: (body ++ text)) following

/-- The inside of a string: a backslash takes the next character with
it, and no quotation mark is left. -/
inductive StringBody : List Char → Prop
  | nil : StringBody []
  | plain {c : Char} {text : List Char} (h : c ≠ '\x22' ∧ c ≠ '\\') (hrest : StringBody text) :
      StringBody (c :: text)
  | escape {c : Char} {text : List Char} (hrest : StringBody text) :
      StringBody ('\\' :: c :: text)

/-- The lexemes of each kind, before what follows. -/
inductive LexemeOf : TokenKind → (lexeme following : List Char) → Prop
  | opening (b : Bracket) {following : List Char} :
      LexemeOf (.opening b) b.opener.toList following
  | closing (b : Bracket) {following : List Char} :
      LexemeOf (.closing b) b.closer.toList following
  | quote {following : List Char} : LexemeOf (.mark .quote) ['\x27'] following
  | quasiquote {following : List Char} : LexemeOf (.mark .quasiquote) ['\x60'] following
  | unquote {following : List Char} (h : following.head? ≠ some '@') :
      LexemeOf (.mark .unquote) ['~'] following
  | spliceUnquote {following : List Char} : LexemeOf (.mark .spliceUnquote) ['~', '@'] following
  | deref {following : List Char} : LexemeOf (.mark .deref) ['@'] following
  | caret {following : List Char} : LexemeOf .caret ['^'] following
  | string {body following : List Char} (h : StringBody body) :
      LexemeOf .string ('\x22' :: (body ++ ['\x22'])) following
  /-- A string without an end is followed by nothing. -/
  | openString {body : List Char} (h : StringBody body) : LexemeOf .openString ('\x22' :: body) []
  /-- The same, if the text ends after a backslash. -/
  | openEscape {body : List Char} (h : StringBody body) :
      LexemeOf .openString ('\x22' :: (body ++ ['\\'])) []
  | atom {lexeme following : List Char} (h : Bare lexeme)
      (hend : ComesTo (Scan.endsAtom · = true) following) : LexemeOf .atom lexeme following

/-- The text that starts at a position falls into these tokens. -/
inductive Lexed : (position : Nat) → List Char → List Token → Prop
  | done {p : Nat} {gap : List Char} (h : Gap gap []) : Lexed p gap []
  | token {p : Nat} {gap lexeme rest : List Char} {kind : TokenKind} {tokens : List Token}
      (hgap : Gap gap (lexeme ++ rest)) (hlexeme : LexemeOf kind lexeme rest)
      (hrest : Lexed (p + utf8Len gap + utf8Len lexeme) rest tokens) :
      Lexed p (gap ++ (lexeme ++ rest))
        (⟨kind, String.ofList lexeme, p + utf8Len gap⟩ :: tokens)

theorem comesTo_nil {P : Char → Prop} : ComesTo P [] := fun _ h => nomatch h

theorem comesTo_cons {P : Char → Prop} {c : Char} {text : List Char} (h : P c) :
    ComesTo P (c :: text) := fun x hx => by
  rwa [← Option.some.inj hx]

/-! ## Growing a split text at its front -/

theorem Lexed.blank {p : Nat} {c : Char} {text : List Char} {tokens : List Token}
    (hc : isWhite c = true ∨ c = ',') (h : Lexed (p + c.utf8Size) text tokens) :
    Lexed p (c :: text) tokens := by
  cases h with
  | done h => exact .done (.blank hc h)
  | @token _ gap lexeme rest kind tokens hgap hlexeme hrest =>
    have hlength : p + utf8Len (c :: gap) = p + c.utf8Size + utf8Len gap := by
      rw [String.utf8Len_cons]
      omega
    rw [← hlength] at hrest ⊢
    rw [← List.cons_append]
    exact .token (.blank hc hgap) hlexeme hrest

theorem Lexed.comment {p : Nat} {body text : List Char} {tokens : List Token}
    (hbody : '\n' ∉ body) (hend : ComesTo (· = '\n') text)
    (h : Lexed (p + utf8Len (';' :: body)) text tokens) :
    Lexed p (';' :: (body ++ text)) tokens := by
  cases h with
  | done h => exact .done (.comment hbody (by rwa [List.append_nil]) h)
  | @token _ gap lexeme rest kind tokens hgap hlexeme hrest =>
    have hlength : p + utf8Len (';' :: (body ++ gap)) = p + utf8Len (';' :: body) + utf8Len gap := by
      rw [String.utf8Len_cons, String.utf8Len_cons, String.utf8Len_append]
      omega
    rw [← hlength] at hrest ⊢
    rw [← List.append_assoc, ← List.cons_append]
    exact .token (.comment hbody hend hgap) hlexeme hrest

theorem Lexed.lexeme {p : Nat} {lexeme rest : List Char} {kind : TokenKind} {tokens : List Token}
    (hlexeme : LexemeOf kind lexeme rest) (hrest : Lexed (p + utf8Len lexeme) rest tokens) :
    Lexed p (lexeme ++ rest) (⟨kind, String.ofList lexeme, p⟩ :: tokens) :=
  @Lexed.token p [] lexeme rest kind tokens .nil hlexeme hrest

/-! ## What is pending -/

/-- What the inside of a string and the text after it become, when
`read` was read of its token, in reverse. -/
inductive StringAhead (origin : Nat) (read : List Char) (position : Nat) :
    List Char → List Token → Prop
  | closed {body rest : List Char} {tokens : List Token} (h : StringBody body)
      (hrest : Lexed (position + utf8Len (body ++ ['\x22'])) rest tokens) :
      StringAhead origin read position (body ++ '\x22' :: rest)
        (⟨.string, String.ofList (read.reverse ++ (body ++ ['\x22'])), origin⟩ :: tokens)
  | left {body : List Char} (h : StringBody body) :
      StringAhead origin read position body
        [⟨.openString, String.ofList (read.reverse ++ body), origin⟩]
  | leftEscape {body : List Char} (h : StringBody body) :
      StringAhead origin read position (body ++ ['\\'])
        [⟨.openString, String.ofList (read.reverse ++ (body ++ ['\\'])), origin⟩]

/-- What the text becomes after what is pending, and the tokens that
come out. -/
def Pending.Ahead : Pending → (position : Nat) → List Char → List Token → Prop
  | .gap, p, text, tokens => Lexed p text tokens
  | .comment, p, text, tokens => ∃ body rest, text = body ++ rest ∧ '\n' ∉ body ∧
      ComesTo (· = '\n') rest ∧ Lexed (p + utf8Len body) rest tokens
  | .tilde origin, p, text, tokens =>
      (∃ rest later, text = '@' :: rest ∧
        tokens = ⟨.mark .spliceUnquote, "~@", origin⟩ :: later ∧ Lexed (p + 1) rest later) ∨
      (text.head? ≠ some '@' ∧
        ∃ later, tokens = ⟨.mark .unquote, "~", origin⟩ :: later ∧ Lexed p text later)
  | .atom origin read, p, text, tokens => ∃ more rest later, text = more ++ rest ∧
      (∀ c ∈ more, Scan.endsAtom c = false) ∧ ComesTo (Scan.endsAtom · = true) rest ∧
      tokens = ⟨.atom, String.ofList (read.reverse ++ more), origin⟩ :: later ∧
      Lexed (p + utf8Len more) rest later
  | .string origin read, p, text, tokens => StringAhead origin read p text tokens
  | .escape origin read, p, text, tokens =>
      (text = [] ∧ tokens = [⟨.openString, String.ofList read.reverse, origin⟩]) ∨
      ∃ c rest, text = c :: rest ∧ StringAhead origin (c :: read) (p + c.utf8Size) rest tokens

theorem utf8Len_cons_add (p : Nat) (c : Char) (text : List Char) :
    p + utf8Len (c :: text) = p + c.utf8Size + utf8Len text := by
  rw [String.utf8Len_cons]
  omega

namespace StringAhead

variable {origin p : Nat} {read text : List Char} {tokens : List Token}

/-- What was read last is the front of what is ahead of the state
before, if it may stand in a string. -/
theorem prepend (front : List Char) (hfront : ∀ body, StringBody body → StringBody (front ++ body))
    (h : StringAhead origin (front.reverse ++ read) (p + utf8Len front) text tokens) :
    StringAhead origin read p (front ++ text) tokens := by
  have hread : ∀ body, (front.reverse ++ read).reverse ++ body = read.reverse ++ (front ++ body) :=
    fun body => by simp
  cases h with
  | @closed body rest tokens hbody hrest =>
    have hlength : p + utf8Len ((front ++ body) ++ ['\x22']) =
        p + utf8Len front + utf8Len (body ++ ['\x22']) := by
      simp only [String.utf8Len_append]
      omega
    rw [← hlength] at hrest
    rw [hread, ← List.append_assoc, ← List.append_assoc front]
    exact closed (hfront body hbody) hrest
  | left hbody =>
    rw [hread]
    exact left (hfront _ hbody)
  | @leftEscape body hbody =>
    rw [hread, ← List.append_assoc front]
    exact leftEscape (hfront body hbody)

theorem plain {c : Char} (hc : c ≠ '\x22' ∧ c ≠ '\\')
    (h : StringAhead origin (c :: read) (p + c.utf8Size) text tokens) :
    StringAhead origin read p (c :: text) tokens :=
  prepend [c] (fun _ => .plain hc) (by rwa [utf8Len_cons_add])

theorem escape {c : Char}
    (h : StringAhead origin (c :: '\\' :: read) (p + '\\'.utf8Size + c.utf8Size) text tokens) :
    StringAhead origin read p ('\\' :: c :: text) tokens :=
  prepend ['\\', c] (fun _ => .escape)
    (by rwa [utf8Len_cons_add, utf8Len_cons_add])

end StringAhead

namespace Scan

/-- Reading `read` leads from one state to the other: some tokens are
completed, and what the second state makes of the text after it, the
first makes of `read` and this text. -/
def Leads (s s' : Scan) (read : List Char) : Prop :=
  ∃ completed, s'.tokens = completed.reverse ++ s.tokens ∧
    ∀ text tokens, s'.pending.Ahead s'.position text tokens →
      s.pending.Ahead s.position (read ++ text) (completed ++ tokens)

theorem Leads.refl (s : Scan) : s.Leads s [] := ⟨[], rfl, fun _ _ h => h⟩

theorem Leads.trans {s₁ s₂ s₃ : Scan} {read read' : List Char} (h : s₁.Leads s₂ read)
    (h' : s₂.Leads s₃ read') : s₁.Leads s₃ (read ++ read') := by
  obtain ⟨completed, htokens, hahead⟩ := h
  obtain ⟨completed', htokens', hahead'⟩ := h'
  refine ⟨completed ++ completed', by simp [htokens, htokens'], fun text tokens h => ?_⟩
  rw [List.append_assoc, List.append_assoc]
  exact hahead _ _ (hahead' _ _ h)

/-! ## One character -/

theorem lexemeOf_single {c : Char} {kind : TokenKind} (h : single? c = some kind)
    (following : List Char) : LexemeOf kind [c] following := by
  unfold single? at h
  split at h <;> cases h
  · exact .opening .round
  · exact .closing .round
  · exact .opening .square
  · exact .closing .square
  · exact .opening .curly
  · exact .closing .curly
  · exact .quote
  · exact .quasiquote
  · exact .deref
  · exact .caret

/-- A string that starts here. -/
theorem lexed_string {p : Nat} {text : List Char} {tokens : List Token}
    (h : StringAhead p ['\x22'] (p + '\x22'.utf8Size) text tokens) :
    Lexed p ('\x22' :: text) tokens := by
  cases h with
  | @closed body rest tokens hbody hrest =>
    rw [← utf8Len_cons_add] at hrest
    have h := Lexed.lexeme (.string hbody) hrest
    rwa [List.cons_append, List.append_assoc] at h
  | left hbody =>
    have h := Lexed.lexeme (p := p) (.openString hbody) (.done .nil)
    rwa [List.append_nil] at h
  | leftEscape hbody =>
    have h := Lexed.lexeme (p := p) (.openEscape hbody) (.done .nil)
    rwa [List.append_nil] at h

/-- A character that no pending token claims starts a token, or is in a
gap. -/
theorem lexed_enter (s : Scan) (c : Char) :
    ∃ completed, (s.enter c).tokens = completed.reverse ++ s.tokens ∧
      ∀ text tokens, (s.enter c).pending.Ahead (s.enter c).position text tokens →
        Lexed s.position (c :: text) (completed ++ tokens) := by
  unfold enter
  split
  · next hblank =>
    refine ⟨[], rfl, fun text tokens h => ?_⟩
    rw [isBlank, Bool.or_eq_true, beq_iff_eq] at hblank
    exact .blank hblank h
  split
  · next hcomment =>
    obtain rfl := eq_of_beq hcomment
    refine ⟨[], rfl, fun text tokens h => ?_⟩
    obtain ⟨body, rest, rfl, hbody, hend, hrest⟩ := h
    exact .comment hbody hend (by rwa [utf8Len_cons_add])
  split
  · next htilde =>
    obtain rfl := eq_of_beq htilde
    refine ⟨[], rfl, fun text tokens h => ?_⟩
    obtain ⟨rest, later, rfl, rfl, hrest⟩ | ⟨hhead, later, rfl, hrest⟩ := h
    · exact .lexeme .spliceUnquote hrest
    · exact .lexeme (.unquote hhead) hrest
  split
  · next hquote =>
    obtain rfl := eq_of_beq hquote
    exact ⟨[], rfl, fun text tokens h => lexed_string h⟩
  split
  · next kind hsingle =>
    refine ⟨[⟨kind, String.ofList [c], s.position⟩], rfl, fun text tokens h => ?_⟩
    exact .lexeme (lexemeOf_single hsingle text) (by rwa [utf8Len_cons_add])
  · next hblank hcomment htilde hquote _ hsingle =>
    refine ⟨[], rfl, fun text tokens h => ?_⟩
    obtain ⟨hc, hmark⟩ := ordinary_of_enter (by simpa using hblank) (by simpa using hcomment)
      (by simpa using htilde) (by simpa using hquote) hsingle
    obtain ⟨more, rest, later, rfl, hmore, hend, rfl, hrest⟩ := h
    have hbare : Bare (c :: more) := by
      refine bare_cons (fun x hx => ?_) hmark
      rcases List.mem_cons.mp hx with rfl | hx
      · exact hc
      · exact hmore x hx
    exact .lexeme (.atom hbare hend) (by rwa [utf8Len_cons_add])

theorem leads_feed_comment (position : Nat) (tokens : List Token) (c : Char) :
    Leads ⟨position, .comment, tokens⟩ (feed ⟨position, .comment, tokens⟩ c) [c] := by
  simp only [feed]
  split
  · next hbreak =>
    obtain ⟨completed, htokens, hlexed⟩ := lexed_enter ⟨position, .comment, tokens⟩ c
    refine ⟨completed, htokens, fun text later h => ?_⟩
    exact ⟨[], c :: text, rfl, List.not_mem_nil, comesTo_cons (eq_of_beq hbreak), hlexed text later h⟩
  · next hc =>
    refine ⟨[], rfl, fun text later h => ?_⟩
    obtain ⟨body, rest, rfl, hbody, hend, hrest⟩ := h
    refine ⟨c :: body, rest, rfl, ?_, hend, by rwa [utf8Len_cons_add]⟩
    rw [beq_iff_eq] at hc
    simp [Ne.symm hc, hbody]

theorem leads_feed_tilde (position origin : Nat) (tokens : List Token) (c : Char) :
    Leads ⟨position, .tilde origin, tokens⟩ (feed ⟨position, .tilde origin, tokens⟩ c) [c] := by
  simp only [feed]
  split
  · next hat =>
    obtain rfl := eq_of_beq hat
    refine ⟨[⟨.mark .spliceUnquote, "~@", origin⟩], rfl, fun text later h => ?_⟩
    exact Or.inl ⟨text, later, rfl, rfl, h⟩
  · next hc =>
    obtain ⟨completed, htokens, hlexed⟩ :=
      lexed_enter (emit ⟨position, .tilde origin, tokens⟩ (.mark .unquote) origin ['~']) c
    refine ⟨⟨.mark .unquote, "~", origin⟩ :: completed, ?_, fun text later h => ?_⟩
    · rw [htokens, List.reverse_cons, List.append_assoc]
      rfl
    · rw [beq_iff_eq] at hc
      exact Or.inr ⟨fun heq => hc (Option.some.inj heq), completed ++ later, rfl, hlexed text later h⟩

theorem leads_feed_atom (position origin : Nat) (read : List Char) (tokens : List Token)
    (c : Char) : Leads ⟨position, .atom origin read, tokens⟩
      (feed ⟨position, .atom origin read, tokens⟩ c) [c] := by
  simp only [feed]
  split
  · next hends =>
    obtain ⟨completed, htokens, hlexed⟩ :=
      lexed_enter (emit ⟨position, .atom origin read, tokens⟩ .atom origin read) c
    refine ⟨⟨.atom, String.ofList read.reverse, origin⟩ :: completed, ?_, fun text later h => ?_⟩
    · rw [htokens, List.reverse_cons, List.append_assoc]
      rfl
    · refine ⟨[], c :: text, completed ++ later, rfl, fun _ h => ?_, comesTo_cons hends, ?_,
        hlexed text later h⟩
      · cases h
      · rw [List.append_nil, List.cons_append]
  · next hc =>
    refine ⟨[], rfl, fun text later h => ?_⟩
    obtain ⟨more, rest, later, rfl, hmore, hend, rfl, hrest⟩ := h
    refine ⟨c :: more, rest, later, rfl, ?_, hend, by simp, by rwa [utf8Len_cons_add]⟩
    exact List.forall_mem_cons.mpr ⟨by simpa using hc, hmore⟩

theorem leads_feed_string (position origin : Nat) (read : List Char) (tokens : List Token)
    (c : Char) : Leads ⟨position, .string origin read, tokens⟩
      (feed ⟨position, .string origin read, tokens⟩ c) [c] := by
  simp only [feed]
  split
  · next hquote =>
    obtain rfl := eq_of_beq hquote
    refine ⟨[⟨.string, String.ofList ('\x22' :: read).reverse, origin⟩], rfl, fun text later h => ?_⟩
    rw [List.reverse_cons]
    exact .closed .nil h
  split
  · next hquote hescape =>
    obtain rfl := eq_of_beq hescape
    refine ⟨[], rfl, fun text later h => ?_⟩
    obtain ⟨rfl, rfl⟩ | ⟨c, rest, rfl, h⟩ := h
    · rw [List.reverse_cons]
      exact .leftEscape .nil
    · exact .escape h
  · next hquote hescape =>
    rw [beq_iff_eq] at hquote hescape
    exact ⟨[], rfl, fun text later h => .plain ⟨hquote, hescape⟩ h⟩

/-- What one more character does, whatever is pending. -/
theorem leads_feed (s : Scan) (c : Char) : s.Leads (s.feed c) [c] := by
  obtain ⟨position, pending, tokens⟩ := s
  cases pending with
  | gap => exact lexed_enter ⟨position, .gap, tokens⟩ c
  | comment => exact leads_feed_comment position tokens c
  | tilde origin => exact leads_feed_tilde position origin tokens c
  | atom origin read => exact leads_feed_atom position origin read tokens c
  | string origin read => exact leads_feed_string position origin read tokens c
  | escape origin read => exact ⟨[], rfl, fun text tokens h => Or.inr ⟨c, text, rfl, h⟩⟩

/-! ## A whole text -/

theorem leads_foldl (s : Scan) (text : List Char) : s.Leads (text.foldl feed s) text := by
  induction text generalizing s with
  | nil => exact .refl s
  | cons c rest ih => exact (leads_feed s c).trans (ih (s.feed c))

/-- What is pending at the end of the text becomes the last token, if
any. -/
theorem ahead_finish (s : Scan) : ∃ completed, s.finish.tokens = completed.reverse ++ s.tokens ∧
    s.pending.Ahead s.position [] completed := by
  obtain ⟨position, pending, tokens⟩ := s
  cases pending with
  | gap => exact ⟨[], rfl, .done .nil⟩
  | comment => exact ⟨[], rfl, [], [], rfl, List.not_mem_nil, comesTo_nil, .done .nil⟩
  | tilde origin =>
    exact ⟨[⟨.mark .unquote, "~", origin⟩], rfl, Or.inr ⟨nofun, [], rfl, .done .nil⟩⟩
  | atom origin read =>
    refine ⟨[⟨.atom, String.ofList read.reverse, origin⟩], rfl,
      [], [], [], rfl, fun _ hmem => ?_, comesTo_nil, by rw [List.append_nil], .done .nil⟩
    cases hmem
  | string origin read =>
    refine ⟨[⟨.openString, String.ofList read.reverse, origin⟩], rfl, ?_⟩
    have h := @StringAhead.left origin read position [] .nil
    rwa [List.append_nil] at h
  | escape origin read =>
    exact ⟨[⟨.openString, String.ofList read.reverse, origin⟩], rfl, Or.inl ⟨rfl, rfl⟩⟩

theorem position_enter (s : Scan) (c : Char) : (s.enter c).position = s.position + c.utf8Size := by
  unfold enter
  repeat' split
  all_goals rfl

theorem position_feed (s : Scan) (c : Char) : (s.feed c).position = s.position + c.utf8Size := by
  unfold feed
  repeat' split
  all_goals first | exact position_enter _ c | rfl

theorem position_foldl (s : Scan) (text : List Char) :
    (text.foldl feed s).position = s.position + utf8Len text := by
  induction text generalizing s with
  | nil => rfl
  | cons c rest ih =>
    rw [List.foldl_cons, ih, position_feed, utf8Len_cons_add]

theorem position_finish (s : Scan) : s.finish.position = s.position := by
  unfold finish
  split <;> rfl

end Scan

theorem tokenize_lexed (source : String) : Lexed 0 source.toList (tokenize source).tokens := by
  obtain ⟨before, hbefore, hahead⟩ := Scan.leads_foldl Scan.initial source.toList
  obtain ⟨last, hlast, hend⟩ := Scan.ahead_finish (source.toList.foldl Scan.feed Scan.initial)
  have htokens : (tokenize source).tokens = before ++ last := by
    rw [tokenize, Scan.stream, hlast, hbefore]
    simp [Scan.initial]
  have h := hahead [] last hend
  rw [List.append_nil] at h
  rwa [htokens]

theorem utf8ByteSize_eq (source : String) : source.utf8ByteSize = utf8Len source.toList := by
  rw [← String.utf8ByteSize_ofList, String.ofList_toList]

theorem tokenize_stop (source : String) : (tokenize source).stop = source.utf8ByteSize := by
  rw [tokenize, Scan.stream, Scan.position_finish, Scan.position_foldl, utf8ByteSize_eq]
  exact Nat.zero_add _

/-! ## The text between two offsets -/

/-- The part of a source that a span covers. -/
def Span.textOf (span : Span) (source : String) : String :=
  String.Pos.Raw.extract source ⟨span.start⟩ ⟨span.stop⟩

/-- The span lies between characters of the source, in order. -/
structure Span.Fits (span : Span) (source : String) : Prop where
  start : String.Pos.Raw.IsValid source ⟨span.start⟩
  stop : String.Pos.Raw.IsValid source ⟨span.stop⟩
  ordered : span.start ≤ span.stop

theorem isValid_of_append {source : String} {before rest : List Char}
    (h : source.toList = before ++ rest) :
    String.Pos.Raw.IsValid source ⟨utf8Len before⟩ := by
  rw [String.Pos.Raw.isValid_iff_exists_append]
  refine ⟨String.ofList before, String.ofList rest, ?_, ?_⟩
  · rw [← String.ofList_append, ← h, String.ofList_toList]
  · rw [← String.utf8ByteSize_ofList]
    rfl

section Cut

variable {source : String} {before text following : List Char}
  (h : source.toList = before ++ (text ++ following))

include h

theorem fits_of_append :
    Span.Fits ⟨utf8Len before, utf8Len before + utf8Len text⟩ source := by
  refine ⟨isValid_of_append h, ?_, Nat.le_add_right _ _⟩
  rw [← String.utf8Len_append]
  exact isValid_of_append (by rwa [List.append_assoc])

theorem textOf_of_append :
    Span.textOf ⟨utf8Len before, utf8Len before + utf8Len text⟩ source = String.ofList text := by
  rw [← List.append_assoc] at h
  rw [Span.textOf, ← String.extract_of_valid before text following, ← h, String.ofList_toList]

theorem utf8ByteSize_of_append :
    source.utf8ByteSize = utf8Len before + utf8Len text + utf8Len following := by
  rw [utf8ByteSize_eq, h, String.utf8Len_append, String.utf8Len_append, Nat.add_assoc]

theorem textOf_following :
    Span.textOf ⟨utf8Len before + utf8Len text, source.utf8ByteSize⟩ source =
      String.ofList following := by
  rw [utf8ByteSize_of_append h, ← String.utf8Len_append]
  refine @textOf_of_append source (before ++ text) following [] ?_
  rw [List.append_nil, h, List.append_assoc]

end Cut

/-! ## Tokens and gaps in a source -/

/-- The source has this token under its span, and what follows lets it
be one. -/
structure TokenAt (source : String) (t : Token) : Prop where
  fits : t.span.Fits source
  nonempty : t.start < t.stop
  lexeme : t.span.textOf source = t.lexeme
  shape : LexemeOf t.kind t.lexeme.toList
    (Span.textOf ⟨t.stop, source.utf8ByteSize⟩ source).toList

/-- The source has nothing but a gap under this span. -/
structure GapAt (source : String) (gap : Span) : Prop where
  fits : gap.Fits source
  shape : Gap (gap.textOf source).toList
    (Span.textOf ⟨gap.stop, source.utf8ByteSize⟩ source).toList

/-- What tokens leave of a text from a position to its end: a span
before each of them, and one after the last. -/
def gapsFrom (stop : Nat) : (position : Nat) → List Token → List Span
  | position, [] => [⟨position, stop⟩]
  | position, t :: rest => ⟨position, t.start⟩ :: gapsFrom stop t.stop rest

def TokenStream.gaps (s : TokenStream) : List Span := gapsFrom s.stop 0 s.tokens

/-- The places that an error can name: those of the tokens, and the
end. -/
def TokenStream.spans (s : TokenStream) : List Span := s.tokens.map Token.span ++ [s.endSpan]

theorem LexemeOf.utf8Len_pos {kind : TokenKind} {lexeme following : List Char}
    (h : LexemeOf kind lexeme following) : 0 < utf8Len lexeme := by
  have hne : lexeme ≠ [] := by
    cases h with
    | opening b | closing b => cases b <;> decide
    | atom h => exact h.nonempty
    | _ => exact List.cons_ne_nil _ _
  obtain ⟨c, rest, rfl⟩ := List.exists_cons_of_ne_nil hne
  have hc := c.utf8Size_pos
  rw [String.utf8Len_cons]
  omega

theorem LexemeOf.following_eq_nil {kind : TokenKind} {lexeme following : List Char}
    (h : LexemeOf kind lexeme following) (hkind : kind = .openString) : following = [] := by
  cases h <;> first | rfl | cases hkind

theorem stop_ofList (kind : TokenKind) (lexeme : List Char) (start : Nat) :
    Token.stop ⟨kind, String.ofList lexeme, start⟩ = start + utf8Len lexeme := by
  rw [Token.stop, String.utf8ByteSize_ofList]

section Place

variable {source : String} {before text following : List Char}
  (h : source.toList = before ++ (text ++ following))

include h

theorem tokenAt_of_append {kind : TokenKind} (hshape : LexemeOf kind text following) :
    TokenAt source ⟨kind, String.ofList text, utf8Len before⟩ := by
  have hspan : Token.span ⟨kind, String.ofList text, utf8Len before⟩ =
      ⟨utf8Len before, utf8Len before + utf8Len text⟩ := by
    rw [Token.span, stop_ofList]
  constructor
  · rw [hspan]
    exact fits_of_append h
  · have hpos := hshape.utf8Len_pos
    rw [stop_ofList]
    exact Nat.lt_add_of_pos_right hpos
  · rw [hspan]
    exact textOf_of_append h
  · rw [stop_ofList, textOf_following h, String.toList_ofList, String.toList_ofList]
    exact hshape

theorem gapAt_of_append (hshape : Gap text following) :
    GapAt source ⟨utf8Len before, utf8Len before + utf8Len text⟩ := by
  refine ⟨fits_of_append h, ?_⟩
  rw [textOf_of_append h, textOf_following h, String.toList_ofList, String.toList_ofList]
  exact hshape

end Place

namespace Lexed

variable {source : String} {p : Nat} {before text : List Char} {tokens : List Token}

theorem start_le (h : Lexed p text tokens) : ∀ t ∈ tokens, p ≤ t.start := by
  induction h with
  | done => exact fun _ hmem => nomatch hmem
  | token _ _ _ ih =>
    intro t ht
    rcases List.mem_cons.mp ht with rfl | ht
    · exact Nat.le_add_right _ _
    · have hlater := ih t ht
      omega

theorem ordered (h : Lexed p text tokens) :
    tokens.Pairwise (fun t t' => t.stop ≤ t'.start) := by
  induction h with
  | done => exact .nil
  | token _ _ hrest ih =>
    refine .cons (fun t ht => ?_) ih
    rw [stop_ofList]
    exact hrest.start_le t ht

theorem tokenAt (h : Lexed p text tokens) (hsource : source.toList = before ++ text)
    (hp : p = utf8Len before) : ∀ t ∈ tokens, TokenAt source t := by
  induction h generalizing before with
  | done => exact fun _ hmem => nomatch hmem
  | @token p gap lexeme rest kind tokens hgap hlexeme hrest ih =>
    have hlexed : source.toList = (before ++ gap) ++ (lexeme ++ rest) := by
      rw [hsource, List.append_assoc]
    intro t ht
    rcases List.mem_cons.mp ht with rfl | ht
    · rw [hp, ← String.utf8Len_append]
      exact tokenAt_of_append hlexed hlexeme
    · have hlater : source.toList = before ++ (gap ++ lexeme) ++ rest := by
        rw [hsource, List.append_assoc, List.append_assoc]
      refine ih hlater ?_ t ht
      rw [String.utf8Len_append, String.utf8Len_append, hp, Nat.add_assoc]

theorem gapAt (h : Lexed p text tokens) (hsource : source.toList = before ++ text)
    (hp : p = utf8Len before) : ∀ g ∈ gapsFrom source.utf8ByteSize p tokens, GapAt source g := by
  induction h generalizing before with
  | @done p gap hgap =>
    have hend : source.toList = before ++ (gap ++ []) := by rw [hsource, List.append_nil]
    intro g hg
    rw [gapsFrom, List.mem_singleton] at hg
    rw [hg, utf8ByteSize_of_append hend, hp]
    exact gapAt_of_append hend hgap
  | @token p gap lexeme rest kind tokens hgap hlexeme hrest ih =>
    intro g hg
    rw [gapsFrom, stop_ofList] at hg
    rcases List.mem_cons.mp hg with rfl | hg
    · rw [hp]
      exact gapAt_of_append hsource hgap
    · have hlater : source.toList = before ++ (gap ++ lexeme) ++ rest := by
        rw [hsource, List.append_assoc, List.append_assoc]
      refine ih hlater ?_ g hg
      rw [String.utf8Len_append, String.utf8Len_append, hp, Nat.add_assoc]

theorem tokens_eq_nil (h : Lexed p [] tokens) : tokens = [] := by
  generalize htext : ([] : List Char) = text at h
  cases h with
  | done => rfl
  | token _ hlexeme _ =>
    have hpos := hlexeme.utf8Len_pos
    simp only [List.nil_eq, List.append_eq_nil_iff] at htext
    rw [htext.2.1] at hpos
    exact absurd hpos (by decide)

/-- After a string without an end there is no text, so no token. -/
theorem getLast?_of_openString (h : Lexed p text tokens) :
    ∀ t ∈ tokens, t.kind = .openString →
      tokens.getLast? = some t ∧ t.stop = p + utf8Len text := by
  induction h with
  | done => exact fun _ hmem => nomatch hmem
  | @token p gap lexeme rest kind tokens hgap hlexeme hrest ih =>
    intro t ht hkind
    rcases List.mem_cons.mp ht with rfl | ht
    · obtain rfl := hlexeme.following_eq_nil hkind
      refine ⟨by rw [hrest.tokens_eq_nil]; rfl, ?_⟩
      rw [stop_ofList, List.append_nil, String.utf8Len_append, Nat.add_assoc]
    · obtain ⟨hlast, hstop⟩ := ih t ht hkind
      refine ⟨?_, ?_⟩
      · rw [List.getLast?_cons, hlast]
        rfl
      · rw [hstop, String.utf8Len_append, String.utf8Len_append]
        omega

end Lexed

/-- Every text falls into tokens, each the text under its span and of
the shape of its kind, with nothing but blanks and comments before,
between and after them; the end is at the size of the text. Only the
last token can be a string without an end, and it reaches the end. -/
theorem tokenize_partitions (source : String) :
    (tokenize source).endSpan = ⟨source.utf8ByteSize, source.utf8ByteSize⟩ ∧
    (∀ t ∈ (tokenize source).tokens, TokenAt source t) ∧
    (tokenize source).tokens.Pairwise (fun t t' => t.stop ≤ t'.start) ∧
    (∀ gap ∈ (tokenize source).gaps, GapAt source gap) ∧
    ∀ t ∈ (tokenize source).tokens, t.kind = .openString →
      (tokenize source).tokens.getLast? = some t ∧ t.stop = source.utf8ByteSize := by
  have hlexed := tokenize_lexed source
  have hsource : source.toList = [] ++ source.toList := rfl
  refine ⟨?_, hlexed.tokenAt hsource rfl, hlexed.ordered, ?_, ?_⟩
  · rw [TokenStream.endSpan, tokenize_stop]
  · rw [TokenStream.gaps, tokenize_stop]
    exact hlexed.gapAt hsource rfl
  · rw [utf8ByteSize_eq, ← Nat.zero_add (utf8Len _)]
    exact hlexed.getLast?_of_openString

end Lisp
