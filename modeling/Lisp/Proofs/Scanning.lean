import Lisp.Text.Quoted
import Lisp.Token.Scan

/-!
# Scanning

What the automaton does with a text is said for the texts that stand
for one token: a bare atom, or a character of its own. After an atom the
automaton waits, and only the next delimiter or the end of the text
completes the token (`Scan.Settled`).

The other way around, whatever the text was, every atom that comes out
is bare (`tokenize_wellFormed`).
-/

namespace Lisp

/-- Text that scans as one atom: a run of ordinary characters, not
empty, that no mark starts. -/
structure Bare (text : List Char) : Prop where
  nonempty : text ≠ []
  ordinary : ∀ c ∈ text, Scan.endsAtom c = false
  start : ∀ c, text.head? = some c → c ≠ '~' ∧ c ≠ '@' ∧ c ≠ '^'

theorem bare_cons {c : Char} {rest : List Char}
    (h : ∀ x ∈ c :: rest, Scan.endsAtom x = false) (hc : c ≠ '~' ∧ c ≠ '@' ∧ c ≠ '^') :
    Bare (c :: rest) := by
  refine ⟨List.cons_ne_nil c rest, h, fun x hx => ?_⟩
  rw [← Option.some.inj hx]
  exact hc

/-- The same, in a form that computes. -/
theorem bare_of_all {c : Char} {rest : List Char}
    (h : (c :: rest).all (fun x => !Scan.endsAtom x) = true) (hc : c ≠ '~' ∧ c ≠ '@' ∧ c ≠ '^') :
    Bare (c :: rest) := by
  refine bare_cons (fun x hx => ?_) hc
  simpa using List.all_eq_true.mp h x hx

namespace Scan

/-! ## Characters -/

theorem single?_eq_none_iff {c : Char} :
    single? c = none ↔
      c ∉ ['(', ')', '[', ']', '{', '}', '\x27', '\x60', '@', '^'] := by
  unfold single?
  split <;> simp_all

theorem isBlank_of_endsAtom_false {c : Char} (h : endsAtom c = false) : isBlank c = false := by
  rw [endsAtom, Bool.or_eq_false_iff] at h
  exact h.1

/-- A character enters as the start of an atom if it may stand in one
and is no mark. -/
theorem enter_ordinary (s : Scan) {c : Char} (hc : endsAtom c = false)
    (hmark : c ≠ '~' ∧ c ≠ '@' ∧ c ≠ '^') :
    s.enter c = ⟨s.position + c.utf8Size, .atom s.position [c], s.tokens⟩ := by
  have hblank := isBlank_of_endsAtom_false hc
  have hc' : c ∉ ['(', ')', '[', ']', '{', '}', '\x27', '\x22', '\x60', ';'] := by
    rw [endsAtom, Bool.or_eq_false_iff] at hc
    simpa using hc.2
  have hsingle : single? c = none := by
    rw [single?_eq_none_iff]
    simp_all
  simp only [List.mem_cons, not_or] at hc'
  simp [enter, wait, hblank, hsingle, hmark.1, hc']

/-- If an atom starts with a character, it may stand in one and is no
mark. -/
theorem ordinary_of_enter {c : Char} (hblank : isBlank c = false) (hcomment : c ≠ ';')
    (htilde : c ≠ '~') (hquote : c ≠ '\x22') (hsingle : single? c = none) :
    endsAtom c = false ∧ c ≠ '~' ∧ c ≠ '@' ∧ c ≠ '^' := by
  rw [single?_eq_none_iff] at hsingle
  simp_all [endsAtom]

/-! ## The end of a token -/

/-- Nothing is pending but an atom, perhaps, that may end here. -/
def Settled (s : Scan) : Prop :=
  s.pending = .gap ∨ ∃ origin text, s.pending = .atom origin text

theorem settled_of_gap {s : Scan} (h : s.pending = .gap) : s.Settled := Or.inl h

theorem pending_finish (s : Scan) : s.finish.pending = .gap := by
  unfold finish
  split
  · assumption
  all_goals rfl

theorem finish_of_gap {s : Scan} (h : s.pending = .gap) : s.finish = s := by
  simp [finish, h]

/-! ## The texts of single tokens -/

theorem foldl_feed_atom (position origin : Nat) (tokens : List Token) (text : List Char) :
    ∀ rest : List Char, (∀ c ∈ rest, endsAtom c = false) →
      ∃ position', rest.foldl feed ⟨position, .atom origin text, tokens⟩ =
        ⟨position', .atom origin (rest.reverse ++ text), tokens⟩ := by
  intro rest
  induction rest generalizing position text with
  | nil => exact fun _ => ⟨position, rfl⟩
  | cons c rest ih =>
    intro hall
    obtain ⟨hc, hrest⟩ := List.forall_mem_cons.mp hall
    obtain ⟨position', h⟩ := ih (position + c.utf8Size) (c :: text) hrest
    refine ⟨position', ?_⟩
    simpa [feed, wait, hc] using h

/-- A bare text between delimiters is one atom. -/
theorem foldl_feed_bare {s : Scan} (h : s.pending = .gap) {text : List Char} (ht : Bare text) :
    (text.foldl feed s).Settled ∧
      (text.foldl feed s).finish.tokens = ⟨.atom, String.ofList text, s.position⟩ :: s.tokens := by
  obtain ⟨c, rest, rfl⟩ := List.exists_cons_of_ne_nil ht.nonempty
  obtain ⟨hc, hordinary⟩ := List.forall_mem_cons.mp ht.ordinary
  have hfirst : s.feed c = ⟨s.position + c.utf8Size, .atom s.position [c], s.tokens⟩ := by
    rw [← enter_ordinary s hc (ht.start c rfl)]
    simp [feed, h]
  obtain ⟨position', hrest⟩ :=
    foldl_feed_atom (s.position + c.utf8Size) s.position s.tokens [c] rest hordinary
  rw [List.foldl_cons, hfirst, hrest]
  exact ⟨Or.inr ⟨_, _, rfl⟩, by simp [finish, emit]⟩

/-- A character that makes a token of its own, between delimiters. -/
theorem feed_single {s : Scan} (h : s.pending = .gap) {c : Char} {kind : TokenKind}
    (hc : single? c = some kind) :
    (s.feed c).pending = .gap ∧
      (s.feed c).tokens = ⟨kind, String.ofList [c], s.position⟩ :: s.tokens := by
  have hne : isBlank c = false ∧ c ≠ ';' ∧ c ≠ '~' ∧ c ≠ '\x22' := by
    unfold single? at hc
    split at hc <;> cases hc
    all_goals exact ⟨rfl, by decide, by decide, by decide⟩
  simp [feed, h, enter, hne, hc, emit]

end Scan

/-! ## What comes out -/

/-- Atoms are bare, and the caret is written as one. -/
def Token.WellFormed (t : Token) : Prop :=
  match t.kind with
  | .atom => Bare t.lexeme.toList
  | .caret => t.lexeme = "^"
  | _ => True

namespace Scan

/-- What the automaton keeps true: complete tokens are well formed, and
a pending atom is bare so far. -/
structure Sound (s : Scan) : Prop where
  complete : ∀ t ∈ s.tokens, t.WellFormed
  pending : ∀ origin text, s.pending = .atom origin text → Bare text.reverse

theorem Sound.wait {s : Scan} (h : s.Sound) {pending : Pending}
    (hpending : ∀ origin text, pending = .atom origin text → Bare text.reverse) :
    (s.wait pending).Sound :=
  ⟨h.complete, hpending⟩

theorem Sound.emit {s : Scan} (h : s.Sound) {kind : TokenKind} {start : Nat} {text : List Char}
    (ht : Token.WellFormed ⟨kind, String.ofList text.reverse, start⟩) :
    (s.emit kind start text).Sound := by
  refine ⟨fun t hmem => ?_, fun _ _ heq => nomatch heq⟩
  rcases List.mem_cons.mp hmem with rfl | hmem
  · exact ht
  · exact h.complete t hmem

theorem Sound.move {s : Scan} (h : s.Sound) (position : Nat) :
    Sound { s with position } :=
  ⟨h.complete, h.pending⟩

theorem wellFormed_single {c : Char} {kind : TokenKind} (hc : single? c = some kind)
    (start : Nat) : Token.WellFormed ⟨kind, String.ofList [c], start⟩ := by
  unfold single? at hc
  split at hc <;> cases hc <;> trivial

theorem Bare.snoc {text : List Char} (h : Bare text) {c : Char} (hc : endsAtom c = false) :
    Bare (text ++ [c]) := by
  constructor
  · simp
  · intro x hx
    rcases List.mem_append.mp hx with hx | hx
    · exact h.ordinary x hx
    · rw [List.mem_singleton.mp hx]
      exact hc
  · intro x hx
    obtain ⟨first, rest, rfl⟩ := List.exists_cons_of_ne_nil h.nonempty
    exact h.start x hx

theorem Sound.enter {s : Scan} (h : s.Sound) (c : Char) : (s.enter c).Sound := by
  have hmove := h.move (s.position + c.utf8Size)
  unfold Scan.enter
  split
  · exact hmove.wait fun _ _ heq => nomatch heq
  split
  · exact hmove.wait fun _ _ heq => nomatch heq
  split
  · exact hmove.wait fun _ _ heq => nomatch heq
  split
  · exact hmove.wait fun _ _ heq => nomatch heq
  split
  · next hsingle => exact hmove.emit (wellFormed_single hsingle _)
  · next hblank hcomment htilde hquote _ hsingle =>
    obtain ⟨hc, hmark⟩ := ordinary_of_enter (by simpa using hblank) (by simpa using hcomment)
      (by simpa using htilde) (by simpa using hquote) hsingle
    refine hmove.wait fun origin text heq => ?_
    cases heq
    refine bare_cons (fun x hx => ?_) hmark
    rwa [List.mem_singleton.mp hx]

theorem Sound.emit_pending {s : Scan} (h : s.Sound) {origin : Nat} {text : List Char}
    (hpending : s.pending = .atom origin text) : (s.emit .atom origin text).Sound := by
  refine h.emit ?_
  simpa [Token.WellFormed] using h.pending origin text hpending

theorem Sound.feed {s : Scan} (h : s.Sound) (c : Char) : (s.feed c).Sound := by
  have hmove := h.move (s.position + c.utf8Size)
  unfold Scan.feed
  split
  · exact h.enter c
  · split
    · exact h.enter c
    · exact hmove
  · split
    · exact hmove.emit (by trivial)
    · exact (h.emit (by trivial)).enter c
  · next origin text hpending =>
    split
    · exact (h.emit_pending hpending).enter c
    · next hc =>
      refine hmove.wait fun origin' text' heq => ?_
      cases heq
      rw [List.reverse_cons]
      exact Bare.snoc (h.pending origin text hpending) (by simpa using hc)
  · split
    · exact hmove.emit (by trivial)
    · split <;> exact hmove.wait fun _ _ heq => nomatch heq
  · exact hmove.wait fun _ _ heq => nomatch heq

theorem Sound.finish {s : Scan} (h : s.Sound) : s.finish.Sound := by
  unfold Scan.finish
  split
  · exact h
  · exact h.wait fun _ _ heq => nomatch heq
  · exact h.emit (by trivial)
  · next hpending => exact h.emit_pending hpending
  · exact h.emit (by trivial)
  · exact h.emit (by trivial)

theorem sound_initial : initial.Sound :=
  ⟨fun _ hmem => (nomatch hmem), fun _ _ heq => (nomatch heq)⟩

theorem Sound.foldl {s : Scan} (h : s.Sound) (text : List Char) :
    (text.foldl Scan.feed s).Sound := by
  induction text generalizing s with
  | nil => exact h
  | cons c rest ih => exact ih (h.feed c)

end Scan

theorem tokenize_wellFormed (source : String) : ∀ t ∈ (tokenize source).tokens, t.WellFormed := by
  intro t ht
  rw [tokenize, Scan.stream, List.mem_reverse] at ht
  exact (Scan.sound_initial.foldl source.toList).finish.complete t ht

end Lisp
