import Lisp.Proofs.Grammar

/-!
# A text inside another one

A program that builds a text around another one, and reads it, relies on
two things: that scanning has no memory, and that what a form means does
not depend on where it stands.

The first is a symmetry of the automaton. From a state in which nothing
is pending it runs as from the start, with positions moved and the
tokens before kept below (`Scan.after`). A line break brings it back to
such a state, unless a string is open (`Scan.feed_break`): an atom and a
tilde end there, and so does a comment. Hence a text on lines of its own
has the tokens it has alone (`tokenize_wrapped`), and an open string
swallows all that follows it (`tokenize_openString`).

The second is that the grammar looks at the kinds and lexemes of tokens
only, and not at the lexeme of an open string (`Token.Alike`).
-/

namespace Lisp

/-! ## Moving tokens -/

/-- The token, `n` bytes further on. -/
def Token.moved (n : Nat) (t : Token) : Token := { t with start := n + t.start }

namespace Pending

def moved (n : Nat) : Pending → Pending
  | gap => gap
  | comment => comment
  | tilde origin => tilde (n + origin)
  | atom origin text => atom (n + origin) text
  | string origin text => string (n + origin) text
  | escape origin text => escape (n + origin) text

/-- A string is open. -/
def InString : Pending → Prop
  | string _ _ | escape _ _ => True
  | _ => False

instance (p : Pending) : Decidable p.InString := by
  cases p <;> unfold InString <;> infer_instance

end Pending

namespace Scan

/-- The state that a text leads to from `base`, if it leads to `s` from
the start. -/
def after (base s : Scan) : Scan :=
  ⟨base.position + s.position, s.pending.moved base.position,
    s.tokens.map (Token.moved base.position) ++ base.tokens⟩

theorem after_initial {base : Scan} (h : base.pending = .gap) : base.after initial = base := by
  obtain ⟨position, pending, tokens⟩ := base
  obtain rfl : pending = .gap := h
  rfl

variable (base s : Scan)

theorem after_enter (c : Char) : base.after (s.enter c) = (base.after s).enter c := by
  unfold enter
  repeat' split
  all_goals simp_all [after, wait, emit, Pending.moved, Token.moved, Nat.add_assoc]

/-- The automaton runs from `base` as it runs from the start. -/
theorem after_feed (c : Char) : base.after (s.feed c) = (base.after s).feed c := by
  obtain ⟨position, pending, tokens⟩ := s
  cases pending with
  | gap => exact after_enter base _ c
  | comment =>
    simp only [feed, after, Pending.moved]
    split
    · exact after_enter base _ c
    · simp [Nat.add_assoc]
  | tilde origin =>
    simp only [feed, after, Pending.moved]
    split
    · simp [emit, Token.moved, Nat.add_assoc]
    · exact after_enter base (emit _ (.mark .unquote) origin ['~']) c
  | atom origin text =>
    simp only [feed, after, Pending.moved]
    split
    · exact after_enter base (emit _ .atom origin text) c
    · simp [wait, Nat.add_assoc]
  | string origin text =>
    simp only [feed, after, Pending.moved]
    split
    · simp [emit, Token.moved, Nat.add_assoc]
    split
    · simp [wait, Nat.add_assoc]
    · simp [wait, Nat.add_assoc]
  | escape origin text => simp [feed, after, wait, Pending.moved, Nat.add_assoc]

theorem after_foldl (text : List Char) :
    base.after (text.foldl feed s) = text.foldl feed (base.after s) := by
  induction text generalizing s with
  | nil => rfl
  | cons c rest ih => rw [List.foldl_cons, List.foldl_cons, ih, after_feed]

theorem after_finish : base.after s.finish = (base.after s).finish := by
  obtain ⟨position, pending, tokens⟩ := s
  cases pending <;> rfl

/-- A line break completes what is pending, but for a string. -/
theorem feed_break {s : Scan} (h : ¬s.pending.InString) :
    s.feed '\n' = { s.finish with position := s.position + 1 } := by
  obtain ⟨position, pending, tokens⟩ := s
  cases pending with
  | string origin text | escape origin text => exact absurd trivial h
  | _ => rfl

/-- An open string stays open up to a quotation mark. -/
theorem inString_feed {s : Scan} (h : s.pending.InString) {c : Char} (hc : c ≠ '\x22') :
    (s.feed c).pending.InString ∧ (s.feed c).tokens = s.tokens := by
  obtain ⟨position, pending, tokens⟩ := s
  cases pending with
  | string origin text =>
    simp only [feed]
    rw [if_neg (by simpa using hc)]
    split <;> exact ⟨trivial, rfl⟩
  | escape origin text => exact ⟨trivial, rfl⟩
  | _ => exact h.elim

theorem inString_foldl {s : Scan} (h : s.pending.InString) (text : List Char)
    (htext : '\x22' ∉ text) :
    (text.foldl feed s).pending.InString ∧ (text.foldl feed s).tokens = s.tokens := by
  induction text generalizing s with
  | nil => exact ⟨h, rfl⟩
  | cons c rest ih =>
    obtain ⟨hc, hrest⟩ := not_or.mp (mt List.mem_cons.mpr htext)
    obtain ⟨hopen, htokens⟩ := inString_feed h (Ne.symm hc)
    obtain ⟨hopen', htokens'⟩ := ih hopen hrest
    exact ⟨hopen', htokens'.trans htokens⟩

/-- At the end an open string is the last token. -/
theorem finish_inString {s : Scan} (h : s.pending.InString) :
    ∃ t : Token, t.kind = .openString ∧ s.finish.tokens = t :: s.tokens := by
  obtain ⟨position, pending, tokens⟩ := s
  cases pending with
  | string origin text | escape origin text => exact ⟨_, rfl, rfl⟩
  | _ => exact h.elim

/-- The state that a text leads to. -/
def ofText (source : String) : Scan := source.toList.foldl feed initial

theorem ofText_append (source more : String) :
    ofText (source ++ more) = more.toList.foldl feed (ofText source) := by
  rw [ofText, String.toList_append, List.foldl_append]
  rfl

/-- After a text that leaves nothing pending, another one is scanned as
it is alone. -/
theorem ofText_append_of_gap {front : String} (h : (ofText front).pending = .gap)
    (source : String) : ofText (front ++ source) = (ofText front).after (ofText source) := by
  rw [ofText_append, ← after_initial h, ← after_foldl, after_initial h]
  rfl

theorem inString_ofText_append {front source : String} (h : (ofText front).pending = .gap) :
    (ofText (front ++ source)).pending.InString ↔ (ofText source).pending.InString := by
  rw [ofText_append_of_gap h, after]
  cases (ofText source).pending <;> rfl

theorem position_ofText (source : String) : (ofText source).position = source.utf8ByteSize := by
  rw [ofText, position_foldl, utf8ByteSize_eq]
  exact Nat.zero_add _

end Scan

theorem tokens_tokenize (source : String) :
    (tokenize source).tokens = (Scan.ofText source).finish.tokens.reverse := rfl

/-! ## Texts one after the other -/

/-- The tokens that are complete before the end of a text stay, whatever
follows. -/
theorem exists_tokens_append (source more : String) :
    ∃ later, (tokenize (source ++ more)).tokens =
      (Scan.ofText source).tokens.reverse ++ later := by
  obtain ⟨completed, hcompleted, -⟩ := Scan.leads_foldl (Scan.ofText source) more.toList
  obtain ⟨last, hlast, -⟩ := Scan.ahead_finish (Scan.ofText (source ++ more))
  rw [Scan.ofText_append] at hlast
  refine ⟨completed ++ last, ?_⟩
  rw [tokens_tokenize, Scan.ofText_append, hlast, hcompleted]
  simp

/-- A text after which nothing is pending does not mix with what
follows. -/
theorem tokenize_append {front : String} (h : (Scan.ofText front).pending = .gap)
    (source : String) :
    (tokenize (front ++ source)).tokens =
      (tokenize front).tokens ++ (tokenize source).tokens.map (Token.moved front.utf8ByteSize) := by
  rw [tokens_tokenize, Scan.ofText_append_of_gap h, ← Scan.after_finish, Scan.after,
    Scan.position_ofText, tokens_tokenize, tokens_tokenize, Scan.finish_of_gap h]
  simp

/-- A line break leaves nothing pending, unless a string is open, and
adds no token. -/
theorem ofText_line {source : String} (h : ¬(Scan.ofText source).pending.InString) :
    (Scan.ofText (source ++ "\n")).pending = .gap ∧
      (tokenize (source ++ "\n")).tokens = (tokenize source).tokens := by
  have hbreak : Scan.ofText (source ++ "\n") =
      { (Scan.ofText source).finish with position := (Scan.ofText source).position + 1 } := by
    rw [Scan.ofText_append]
    exact Scan.feed_break h
  have hgap : (Scan.ofText (source ++ "\n")).pending = .gap := by
    rw [hbreak]
    exact Scan.pending_finish _
  refine ⟨hgap, ?_⟩
  rw [tokens_tokenize, Scan.finish_of_gap hgap, hbreak]
  rfl

/-! ## Tokens that mean the same -/

/-- The tokens have the same kind, and the same lexeme unless it is that
of an open string. -/
structure Token.Alike (t t' : Token) : Prop where
  kind : t.kind = t'.kind
  lexeme : t.kind ≠ .openString → t.lexeme = t'.lexeme

theorem Token.Alike.symm {t t' : Token} (h : t.Alike t') : t'.Alike t :=
  ⟨h.kind.symm, fun hkind => (h.lexeme (h.kind ▸ hkind)).symm⟩

theorem Token.alike_moved (n : Nat) (t : Token) : t.Alike (t.moved n) := ⟨rfl, fun _ => rfl⟩

theorem alike_map_moved (n : Nat) (tokens : List Token) :
    List.Forall₂ Token.Alike tokens (tokens.map (Token.moved n)) := by
  rw [List.forall₂_map_right_iff]
  exact List.forall₂_same.mpr fun t _ => t.alike_moved n

section

variable {front back : String} (hfront : (Scan.ofText front).pending = .gap)

include hfront

/-- A text on lines of its own has the tokens that it has alone. -/
theorem tokenize_wrapped (back : String) {source : String}
    (hsource : ¬(Scan.ofText source).pending.InString) :
    ∃ n m, (tokenize (front ++ source ++ "\n" ++ back)).tokens =
      (tokenize front).tokens ++ ((tokenize source).tokens.map (Token.moved n) ++
        (tokenize back).tokens.map (Token.moved m)) := by
  have hopen := mt (Scan.inString_ofText_append hfront).mp hsource
  obtain ⟨hgap, hline⟩ := ofText_line hopen
  refine ⟨front.utf8ByteSize, (front ++ source ++ "\n").utf8ByteSize, ?_⟩
  rw [tokenize_append hgap, hline, tokenize_append hfront, List.append_assoc]

/-- An open string takes all the text that follows, if there is no
quotation mark in it. -/
theorem tokenize_openString {source : String} (hsource : (Scan.ofText source).pending.InString)
    {rest : String} (hrest : '\x22' ∉ rest.toList) :
    ∃ n complete, ∃ t t' : Token, t.kind = .openString ∧ t'.kind = .openString ∧
      (tokenize source).tokens = complete ++ [t] ∧
      (tokenize (front ++ source ++ rest)).tokens =
        (tokenize front).tokens ++ (complete.map (Token.moved n) ++ [t']) := by
  have hopen := (Scan.inString_ofText_append hfront).mpr hsource
  obtain ⟨hopen', htokens⟩ := Scan.inString_foldl hopen rest.toList hrest
  obtain ⟨t, hkind, ht⟩ := Scan.finish_inString hsource
  obtain ⟨t', hkind', ht'⟩ := Scan.finish_inString hopen'
  refine ⟨(Scan.ofText front).position, (Scan.ofText source).tokens.reverse, t, t', hkind, hkind',
    ?_, ?_⟩
  · rw [tokens_tokenize, ht, List.reverse_cons]
  · rw [tokens_tokenize, Scan.ofText_append, ht', htokens, Scan.ofText_append_of_gap hfront,
      tokens_tokenize, Scan.finish_of_gap hfront, Scan.after]
    simp

/-- The tokens of a text between two others: it ends where the second
one starts, or in a string that swallows it. -/
theorem tokenize_between (hback : '\x22' ∉ back.toList) (source : String) :
    ∃ inner, List.Forall₂ Token.Alike (tokenize source).tokens inner ∧
      ((∃ later, List.Forall₂ Token.Alike (tokenize back).tokens later ∧
          (tokenize (front ++ source ++ "\n" ++ back)).tokens =
            (tokenize front).tokens ++ (inner ++ later)) ∨
        ((∃ t ∈ inner, t.kind = .openString) ∧
          (tokenize (front ++ source ++ "\n" ++ back)).tokens =
            (tokenize front).tokens ++ inner)) := by
  by_cases hsource : (Scan.ofText source).pending.InString
  · have hrest : '\x22' ∉ ("\n" ++ back).toList := by
      rw [String.toList_append, List.mem_append, not_or]
      exact ⟨by decide, hback⟩
    obtain ⟨n, complete, t, t', hkind, hkind', htokens, hwhole⟩ :=
      tokenize_openString hfront hsource hrest
    have hlast : t.Alike t' := ⟨hkind.trans hkind'.symm, fun h => absurd hkind h⟩
    refine ⟨complete.map (Token.moved n) ++ [t'], ?_, Or.inr ⟨⟨t', by simp, hkind'⟩, ?_⟩⟩
    · rw [htokens]
      exact List.rel_append (alike_map_moved n complete) (.cons hlast .nil)
    · rwa [← String.append_assoc] at hwhole
  · obtain ⟨n, m, hwhole⟩ := tokenize_wrapped hfront back hsource
    exact ⟨_, alike_map_moved n _, Or.inl ⟨_, alike_map_moved m _, hwhole⟩⟩

end

/-! ## What alike tokens denote -/

namespace Form

section

open List (Forall₂)

variable {tokens tokens' rest : List Token} {form : Value} {forms : List Value}

/-- A closing bracket after forms, and its like. -/
theorem closer_alike {closer : Token} {after : List Token}
    (h : Forall₂ Token.Alike (closer :: rest) after) :
    ∃ closer' rest', after = closer' :: rest' ∧ closer'.kind = closer.kind ∧
      Forall₂ Token.Alike rest rest' := by
  cases h with
  | cons hcloser hrest => exact ⟨_, _, rfl, hcloser.kind.symm, hrest⟩

mutual

theorem Denotes.alike {tokens tokens' rest : List Token} {form : Value} :
    Denotes tokens form rest → Forall₂ Token.Alike tokens tokens' →
      ∃ rest', Forall₂ Token.Alike rest rest' ∧ Denotes tokens' form rest'
  | .atom hkind h, .cons ht hrest => by
    have hlexeme := ht.lexeme (by rw [hkind]; nofun)
    exact ⟨_, hrest, .atom (ht.kind ▸ hkind) (hlexeme ▸ h)⟩
  | .string hkind h, .cons ht hrest => by
    have hlexeme := ht.lexeme (by rw [hkind]; nofun)
    exact ⟨_, hrest, .string (ht.kind ▸ hkind) (hlexeme ▸ h)⟩
  | .caret hkind h, .cons ht hrest => by
    have hlexeme := ht.lexeme (by rw [hkind]; nofun)
    exact ⟨_, hrest, .caret (ht.kind ▸ hkind) (hlexeme ▸ h)⟩
  | .mark hkind h, .cons ht htokens => by
    obtain ⟨rest', hrest, h⟩ := h.alike htokens
    exact ⟨rest', hrest, .mark (ht.kind ▸ hkind) h⟩
  | .list hopener h hcloser, .cons ht htokens => by
    obtain ⟨after, hafter, h⟩ := h.alike htokens
    obtain ⟨closer', rest', rfl, hkind, hrest⟩ := closer_alike hafter
    exact ⟨rest', hrest, .list (ht.kind ▸ hopener) h (hkind.trans hcloser)⟩
  | .vector hopener h hcloser, .cons ht htokens => by
    obtain ⟨after, hafter, h⟩ := h.alike htokens
    obtain ⟨closer', rest', rfl, hkind, hrest⟩ := closer_alike hafter
    exact ⟨rest', hrest, .vector (ht.kind ▸ hopener) h (hkind.trans hcloser)⟩
  | .map hopener h hcloser, .cons ht htokens => by
    obtain ⟨after, hafter, h⟩ := h.alike htokens
    obtain ⟨closer', rest', rfl, hkind, hrest⟩ := closer_alike hafter
    exact ⟨rest', hrest, .map (ht.kind ▸ hopener) h (hkind.trans hcloser)⟩

theorem DenoteEach.alike {tokens tokens' rest : List Token} {forms : List Value} :
    DenoteEach tokens forms rest → Forall₂ Token.Alike tokens tokens' →
      ∃ rest', Forall₂ Token.Alike rest rest' ∧ DenoteEach tokens' forms rest'
  | .nil, h => ⟨_, h, .nil⟩
  | .cons h hrest, htokens => by
    obtain ⟨middle, hmiddle, h⟩ := h.alike htokens
    obtain ⟨rest', hrest', hrest⟩ := hrest.alike hmiddle
    exact ⟨rest', hrest', .cons h hrest⟩

end

end

/-! ## What tokens denote in front of others -/

/-- The tokens are all of a text that is complete: no string is open. -/
def Complete (tokens : List Token) : Prop := ∀ t ∈ tokens, t.kind ≠ .openString

theorem complete_of_mark {t : Token} {m : Mark} {tokens : List Token} (hkind : t.kind = .mark m)
    (h : Complete tokens) : Complete (t :: tokens) :=
  List.forall_mem_cons.mpr ⟨by rw [hkind]; nofun, h⟩

theorem complete_of_brackets {opener closer : Token} {b : Bracket} {tokens : List Token}
    (hopener : opener.kind = .opening b) (h : Complete tokens)
    (hcloser : closer.kind = .closing b) : Complete (opener :: tokens ++ [closer]) := by
  intro t ht
  rcases List.mem_append.mp ht with ht | ht
  · rcases List.mem_cons.mp ht with rfl | ht
    · rw [hopener]
      nofun
    · exact h t ht
  · rw [List.mem_singleton.mp ht, hcloser]
    nofun

mutual

/-- A form uses up complete tokens, whatever comes after them. -/
theorem Denotes.used {tokens rest : List Token} {form : Value} : Denotes tokens form rest →
    ∃ used, tokens = used ++ rest ∧ Complete used ∧ ∀ later, Denotes (used ++ later) form later
  | @Denotes.atom t _ _ hkind h =>
    ⟨[t], rfl, List.forall_mem_singleton.mpr (by rw [hkind]; nofun), fun _ => .atom hkind h⟩
  | @Denotes.string t _ _ hkind h =>
    ⟨[t], rfl, List.forall_mem_singleton.mpr (by rw [hkind]; nofun), fun _ => .string hkind h⟩
  | @Denotes.caret t _ hkind h =>
    ⟨[t], rfl, List.forall_mem_singleton.mpr (by rw [hkind]; nofun), fun _ => .caret hkind h⟩
  | @Denotes.mark t _ _ _ _ hkind h => by
    obtain ⟨used, rfl, hcomplete, h⟩ := h.used
    exact ⟨t :: used, rfl, complete_of_mark hkind hcomplete, fun later => .mark hkind (h later)⟩
  | @Denotes.list opener closer _ _ _ hopener h hcloser => by
    obtain ⟨used, rfl, hcomplete, h⟩ := h.used
    refine ⟨opener :: used ++ [closer], by simp, complete_of_brackets hopener hcomplete hcloser,
      fun later => ?_⟩
    rw [List.append_assoc, List.cons_append]
    exact .list hopener (h _) hcloser
  | @Denotes.vector opener closer _ _ _ hopener h hcloser => by
    obtain ⟨used, rfl, hcomplete, h⟩ := h.used
    refine ⟨opener :: used ++ [closer], by simp, complete_of_brackets hopener hcomplete hcloser,
      fun later => ?_⟩
    rw [List.append_assoc, List.cons_append]
    exact .vector hopener (h _) hcloser
  | @Denotes.map opener closer _ _ _ hopener h hcloser => by
    obtain ⟨used, rfl, hcomplete, h⟩ := h.used
    refine ⟨opener :: used ++ [closer], by simp, complete_of_brackets hopener hcomplete hcloser,
      fun later => ?_⟩
    rw [List.append_assoc, List.cons_append]
    exact .map hopener (h _) hcloser

theorem DenoteEach.used {tokens rest : List Token} {forms : List Value} :
    DenoteEach tokens forms rest →
      ∃ used, tokens = used ++ rest ∧ Complete used ∧
        ∀ later, DenoteEach (used ++ later) forms later
  | .nil => ⟨[], rfl, List.forall_mem_nil _, fun _ => .nil⟩
  | .cons h hrest => by
    obtain ⟨used, rfl, hcomplete, hform⟩ := h.used
    obtain ⟨more, rfl, hcomplete', hforms⟩ := hrest.used
    refine ⟨used ++ more, (List.append_assoc ..).symm,
      List.forall_mem_append.mpr ⟨hcomplete, hcomplete'⟩, fun later => ?_⟩
    rw [List.append_assoc]
    exact .cons (hform _) (hforms later)

end

section

variable {tokens middle rest : List Token} {forms more : List Value}

theorem DenoteEach.complete (h : DenoteEach tokens forms []) : Complete tokens := by
  obtain ⟨used, rfl, hcomplete, -⟩ := h.used
  rwa [List.append_nil]

/-- Tokens that denote forms to their end denote them in front of other
tokens. -/
theorem DenoteEach.before (h : DenoteEach tokens forms []) (later : List Token) :
    DenoteEach (tokens ++ later) forms later := by
  obtain ⟨used, rfl, -, h⟩ := h.used
  rw [List.append_nil]
  exact h later

theorem DenoteEach.append (h : DenoteEach tokens forms middle)
    (h' : DenoteEach middle more rest) : DenoteEach tokens (forms ++ more) rest := by
  induction forms generalizing tokens with
  | nil =>
    cases h
    exact h'
  | cons form forms ih =>
    cases h with
    | cons h hrest => exact .cons h (ih hrest)

theorem DenoteEach.alike_end {tokens' : List Token} (h : DenoteEach tokens forms [])
    (htokens : List.Forall₂ Token.Alike tokens tokens') : DenoteEach tokens' forms [] := by
  obtain ⟨rest', hrest, h⟩ := h.alike htokens
  cases hrest
  exact h

end

/-! ## Wrappers -/

/-- Two texts that put a bracket around what stands between them, with
some forms of their own before and after it. -/
structure Wraps (front back : String) (b : Bracket) (before after : List Value) : Prop where
  settled : (Scan.ofText front).pending = .gap
  unquoted : '\x22' ∉ back.toList
  front : ∃ opener first, (tokenize front).tokens = opener :: first ∧ opener.kind = .opening b ∧
    DenoteEach first before []
  back : ∃ closer : Token, closer.kind = .closing b ∧ DenoteEach (tokenize back).tokens after [closer]

section

variable {front back source : String} {b : Bracket} {before after forms : List Value}

/-- A text of complete forms, wrapped, is one form. -/
theorem Wraps.denotes (h : Wraps front back b before after) {form : Value}
    (hsource : DenoteEach (tokenize source).tokens forms [])
    (hform : enclosed b (before ++ (forms ++ after)) = .ok form) :
    Denotes (tokenize (front ++ source ++ "\n" ++ back)).tokens form [] := by
  obtain ⟨opener, first, hfront, hopener, hbefore⟩ := h.front
  obtain ⟨closer, hcloser, hback⟩ := h.back
  obtain ⟨inner, halike, hends⟩ := tokenize_between h.settled h.unquoted source
  have hinner : DenoteEach inner forms [] := hsource.alike_end halike
  obtain ⟨later, hlater, htokens⟩ | ⟨⟨t, ht, hkind⟩, -⟩ := hends
  · obtain ⟨end', hend, hafter⟩ := hback.alike hlater
    obtain ⟨closer', rest, rfl, hcloser', hrest⟩ := closer_alike hend
    cases hrest
    have hforms : DenoteEach (first ++ (inner ++ later)) (before ++ (forms ++ after)) [closer'] :=
      (hbefore.before _).append ((hinner.before _).append hafter)
    rw [htokens, hfront, List.cons_append]
    exact denotes_of_enclosed hopener hforms (hcloser'.trans hcloser) hform
  · exact absurd hkind (hinner.complete t ht)

theorem Wraps.read (h : Wraps front back b before after) {form : Value}
    (hsource : DenoteEach (tokenize source).tokens forms [])
    (hform : enclosed b (before ++ (forms ++ after)) = .ok form) :
    read (front ++ source ++ "\n" ++ back) = .ok form :=
  read_of_denotes (h.denotes hsource hform)

end

end Form

end Lisp
