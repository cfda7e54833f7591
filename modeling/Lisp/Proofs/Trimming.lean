import Lisp.Proofs.Actions
import Lisp.Proofs.Layout
import Lisp.Session
import Lisp.Text.Blank
import Mathlib.Data.List.TakeWhile

/-!
# White space around a text

White space at the two ends of a text does nothing, whatever the text
is. At the front it leaves nothing pending. At the end it completes what
is pending as the end of the text would (`Scan.feed_white`), unless a
string is open, which takes it in, and stays open. So the trimmed text
has the tokens of the whole but for their places and for the lexeme of an
open string (`alike_tokenize_trimWhite`), reads as the same form or fails
with the same cause (`sameResult_trimWhite`), and from there on there is
no difference at all (`Session.reply_trimWhite`).
-/

namespace Lisp

open List (Forall₂)

/-! ## Trimming -/

theorem exists_trimWhite (s : String) :
    ∃ front back : String, s = front ++ trimWhite s ++ back ∧
      (∀ c ∈ front.toList, isWhite c = true) ∧ ∀ c ∈ back.toList, isWhite c = true := by
  set inner := s.toList.dropWhile isWhite
  refine ⟨String.ofList (s.toList.takeWhile isWhite),
    String.ofList (inner.reverse.takeWhile isWhite).reverse, ?_, ?_, ?_⟩
  · rw [← String.toList_inj, trimWhite]
    simp only [String.toList_append, String.toList_ofList]
    rw [List.append_assoc, ← List.reverse_append, List.takeWhile_append_dropWhile,
      List.reverse_reverse, List.takeWhile_append_dropWhile]
  · rw [String.toList_ofList]
    exact fun c hc => List.mem_takeWhile_imp hc
  · rw [String.toList_ofList]
    exact fun c hc => List.mem_takeWhile_imp (List.mem_reverse.mp hc)

/-! ## Scanning white space -/

theorem ne_of_isWhite {c d : Char} (hc : isWhite c = true) (hd : isWhite d = false) : c ≠ d := by
  rintro rfl
  rw [hd] at hc
  cases hc

namespace Scan

variable {s : Scan} {c : Char}

theorem isBlank_of_isWhite (hc : isWhite c = true) : isBlank c = true := by
  rw [isBlank, hc, Bool.true_or]

theorem enter_white (hc : isWhite c = true) (s : Scan) :
    s.enter c = ⟨s.position + c.utf8Size, .gap, s.tokens⟩ := by
  rw [enter, if_pos (isBlank_of_isWhite hc)]
  rfl

/-- White space completes what is pending as the end of the text does,
but for a string. -/
theorem feed_white (h : ¬s.pending.InString) (hc : isWhite c = true) :
    ¬(s.feed c).pending.InString ∧ (s.feed c).finish.tokens = s.finish.tokens := by
  obtain ⟨position, pending, tokens⟩ := s
  cases pending with
  | gap =>
    simp only [feed, enter_white hc]
    exact ⟨not_false, rfl⟩
  | comment =>
    simp only [feed, enter_white hc]
    split <;> exact ⟨not_false, rfl⟩
  | tilde origin =>
    have hat : (c == '@') = false := beq_false_of_ne (ne_of_isWhite hc rfl)
    simp only [feed, hat, enter_white hc]
    exact ⟨not_false, rfl⟩
  | atom origin text =>
    have hend : endsAtom c = true := by rw [endsAtom, isBlank_of_isWhite hc, Bool.true_or]
    simp only [feed, hend, enter_white hc]
    exact ⟨not_false, rfl⟩
  | string origin text | escape origin text => exact absurd trivial h

theorem foldl_feed_white (h : ¬s.pending.InString) {text : List Char}
    (htext : ∀ c ∈ text, isWhite c = true) :
    (text.foldl feed s).finish.tokens = s.finish.tokens := by
  induction text generalizing s with
  | nil => rfl
  | cons c rest ih =>
    obtain ⟨hc, hrest⟩ := List.forall_mem_cons.mp htext
    obtain ⟨hopen, htokens⟩ := feed_white h hc
    rw [List.foldl_cons, ih hopen hrest, htokens]

theorem foldl_feed_white_gap (h : s.pending = .gap) {text : List Char}
    (htext : ∀ c ∈ text, isWhite c = true) : (text.foldl feed s).pending = .gap := by
  induction text generalizing s with
  | nil => exact h
  | cons c rest ih =>
    obtain ⟨hc, hrest⟩ := List.forall_mem_cons.mp htext
    refine ih ?_ hrest
    rw [feed, h]
    exact congrArg Scan.pending (enter_white hc s)

end Scan

/-! ## Tokens -/

theorem tokens_tokenize_white {front : String} (h : ∀ c ∈ front.toList, isWhite c = true) :
    (tokenize front).tokens = [] := by
  have hinitial : ¬Scan.initial.pending.InString := not_false
  rw [tokens_tokenize, Scan.ofText, Scan.foldl_feed_white hinitial h]
  rfl

theorem alike_refl (tokens : List Token) : Forall₂ Token.Alike tokens tokens :=
  List.forall₂_same.mpr fun _ _ => ⟨rfl, fun _ => rfl⟩

theorem alike_append_white {back : String} (h : ∀ c ∈ back.toList, isWhite c = true)
    (source : String) :
    Forall₂ Token.Alike (tokenize source).tokens (tokenize (source ++ back)).tokens := by
  by_cases hopen : (Scan.ofText source).pending.InString
  · have hquote : '\x22' ∉ back.toList := fun hmem => ne_of_isWhite (h _ hmem) rfl rfl
    obtain ⟨hopen', htokens⟩ := Scan.inString_foldl hopen back.toList hquote
    obtain ⟨t, hkind, ht⟩ := Scan.finish_inString hopen
    obtain ⟨t', hkind', ht'⟩ := Scan.finish_inString hopen'
    rw [tokens_tokenize, tokens_tokenize, Scan.ofText_append, ht, ht', htokens]
    refine List.rel_reverse (.cons ⟨hkind.trans hkind'.symm, fun hne => absurd hkind hne⟩ ?_)
    exact alike_refl _
  · have htokens : (tokenize (source ++ back)).tokens = (tokenize source).tokens := by
      rw [tokens_tokenize, Scan.ofText_append, Scan.foldl_feed_white hopen h, tokens_tokenize]
    rw [htokens]
    exact alike_refl _

theorem alike_tokenize_trimWhite (source : String) :
    Forall₂ Token.Alike (tokenize (trimWhite source)).tokens (tokenize source).tokens := by
  obtain ⟨front, back, heq, hfront, hback⟩ := exists_trimWhite source
  have hgap : (Scan.ofText front).pending = .gap := Scan.foldl_feed_white_gap rfl hfront
  have halike := alike_append_white hback (trimWhite source)
  have htokens : (tokenize source).tokens =
      (tokenize (trimWhite source ++ back)).tokens.map (Token.moved front.utf8ByteSize) := by
    conv_lhs => rw [heq]
    rw [String.append_assoc, tokenize_append hgap, tokens_tokenize_white hfront, List.nil_append]
  rw [htokens, List.forall₂_map_right_iff]
  exact halike.imp fun _ _ ht => ⟨ht.kind, ht.lexeme⟩

/-! ## Forms -/

/-- Any two places. -/
def Anywhere (_ _ : Span) : Prop := True

theorem sameResult_trimWhite (source : String) :
    SameResult Anywhere (read (trimWhite source)) (read source) :=
  Form.sameResult_read ((alike_tokenize_trimWhite source).imp fun _ _ ht => ⟨ht, trivial⟩) trivial

/-! ## Answers -/

/-- The error without its place. -/
def Error.placeless : Error → Error
  | .diagnostic d => .diagnostic { d with span := none }
  | .file e => .file e

/-- The outcome, but for the place of an error. -/
def Outcome.placeless {α : Type} : Outcome α → Outcome α
  | .failure e w => .failure e.placeless w
  | outcome => outcome

theorem readForm_trimWhite {α : Type} (f : Value → Action α) (source : String) (w : World) :
    ((Primitive.readForm (trimWhite source) >>= f) w).placeless =
      ((Primitive.readForm source >>= f) w).placeless := by
  have hsame := sameResult_trimWhite source
  simp only [Action.bind_apply, Primitive.readForm]
  generalize read (trimWhite source) = trimmed at hsame ⊢
  generalize read source = whole at hsame ⊢
  cases hsame with
  | ok => rfl
  | error => rfl

namespace Session

/-- What a text comes to does not depend on the white space around it,
and no more does what becomes of the world. -/
theorem eval_trimWhite (b : Budget) (source : String) (w : World) :
    (eval b (trimWhite source) w).placeless = (eval b source w).placeless :=
  readForm_trimWhite (evalForm b) source w

theorem reply_trimWhite (b : Budget) (source : String) (w : World) :
    (reply b (trimWhite source) w).placeless = (reply b source w).placeless := by
  rw [reply, reply, eval, eval, bind_assoc, bind_assoc]
  exact readForm_trimWhite _ source w

end Session

end Lisp
