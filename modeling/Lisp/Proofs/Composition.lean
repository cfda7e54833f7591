import Lisp.Proofs.Splitting
import Lisp.Proofs.Steps
import Lisp.Proofs.Wrapping

/-!
# Texts put together

A program that writes forms writes one text around others: the parts of a
sequence on lines of their own between two brackets (`bracketed`), or a
mark in front of a form. What is read of the whole is then made of what
is read of the parts.

Between brackets nothing is lost at the line breaks. A text that holds a
form has no open string, so a line break ends what is pending there, a
comment as well, and the tokens of the lines stand one after the other
(`tokenize_lines`). A mark does not mix with what follows it either, but
for a tilde before an at sign, and the tokens of the text behind it stay
(`tokenize_mark`). The grammar does the rest.
-/

namespace Lisp

/-- The characters of a mark. -/
def Mark.lexeme : Mark → String
  | .quote => "\x27"
  | .quasiquote => "\x60"
  | .unquote => "~"
  | .spliceUnquote => "~@"
  | .deref => "@"

/-- The text holds one complete form, and no token is left after it. -/
def HoldsForm (source : String) (form : Value) : Prop :=
  Form.ofTokens (tokenize source) = .ok (form, [])

/-- The texts on lines of their own. -/
def lines (sources : List String) : String := String.join (sources.map (· ++ "\n"))

/-- The texts on lines of their own between brackets. -/
def bracketed (b : Bracket) (sources : List String) : String :=
  b.opener ++ lines sources ++ b.closer

/-! ## Lines -/

theorem lines_cons (source : String) (sources : List String) :
    lines (source :: sources) = source ++ "\n" ++ lines sources := by
  rw [lines, List.map_cons, String.join_cons]
  rfl

theorem HoldsForm.denotes {source : String} {form : Value} (h : HoldsForm source form) :
    Form.Denotes (tokenize source).tokens form [] :=
  (Form.ofTokens_eq_ok_iff (Form.delimited_of_tokenize source)).mp h

/-- A text whose tokens are complete leaves no string open. -/
theorem not_inString_of_complete {source : String}
    (h : Form.Complete (tokenize source).tokens) : ¬(Scan.ofText source).pending.InString := by
  intro hopen
  obtain ⟨t, hkind, htokens⟩ := Scan.finish_inString hopen
  have ht : t ∈ (tokenize source).tokens := by
    rw [tokens_tokenize, htokens]
    simp
  exact h t ht hkind

/-- Lines that hold forms leave nothing pending, and their tokens denote
the forms. -/
theorem tokenize_lines {front : String} (hfront : (Scan.ofText front).pending = .gap)
    {sources : List String} {forms : List Value} (h : List.Forall₂ HoldsForm sources forms) :
    ∃ inner, (Scan.ofText (front ++ lines sources)).pending = .gap ∧
      (tokenize (front ++ lines sources)).tokens = (tokenize front).tokens ++ inner ∧
      Form.DenoteEach inner forms [] := by
  induction h generalizing front with
  | nil =>
    have hnone : front ++ lines [] = front := String.append_empty
    refine ⟨[], ?_, ?_, .nil⟩
    · rwa [hnone]
    · rw [hnone, List.append_nil]
  | @cons source form sources forms hform _ ih =>
    have hdenotes : Form.DenoteEach (tokenize source).tokens [form] [] := .cons hform.denotes .nil
    have hclosed : ¬(Scan.ofText (front ++ source)).pending.InString :=
      mt (Scan.inString_ofText_append hfront).mp (not_inString_of_complete hdenotes.complete)
    obtain ⟨hgap, hline⟩ := ofText_line hclosed
    obtain ⟨inner, hgap', htokens, hinner⟩ := ih hgap
    rw [lines_cons, ← String.append_assoc, ← String.append_assoc]
    refine ⟨(tokenize source).tokens.map (Token.moved front.utf8ByteSize) ++ inner, hgap', ?_, ?_⟩
    · rw [htokens, hline, tokenize_append hfront, List.append_assoc]
    · have hmoved := hdenotes.alike_end (alike_map_moved front.utf8ByteSize _)
      exact (hmoved.before inner).append hinner

theorem tokenize_opener (b : Bracket) :
    (Scan.ofText b.opener).pending = .gap ∧
      (tokenize b.opener).tokens = [⟨.opening b, b.opener, 0⟩] := by
  cases b <;> exact ⟨rfl, rfl⟩

theorem tokenize_closer (b : Bracket) : (tokenize b.closer).tokens = [⟨.closing b, b.closer, 0⟩] := by
  cases b <;> rfl

theorem span_opener (b : Bracket) : Token.span ⟨.opening b, b.opener, 0⟩ = ⟨0, 1⟩ := by
  cases b <;> rfl

/-! ## Sequences -/

/-- A sequence is what its bracket makes of the forms in it. Where it
makes nothing of them, the bracket is at fault. -/
theorem read_bracketed (b : Bracket) {sources : List String} {forms : List Value}
    (h : List.Forall₂ HoldsForm sources forms) :
    read (bracketed b sources) = (Form.enclosed b forms).mapError (⟨·, some ⟨0, 1⟩⟩) := by
  obtain ⟨hopener, htokens⟩ := tokenize_opener b
  obtain ⟨inner, hgap, hlines, hinner⟩ := tokenize_lines hopener h
  obtain ⟨closer, hkind, hwhole⟩ : ∃ closer : Token, closer.kind = .closing b ∧
      (tokenize (bracketed b sources)).tokens =
        ⟨.opening b, b.opener, 0⟩ :: (inner ++ [closer]) := by
    refine ⟨Token.moved (b.opener ++ lines sources).utf8ByteSize ⟨.closing b, b.closer, 0⟩, rfl, ?_⟩
    rw [bracketed, tokenize_append hgap, hlines, htokens, tokenize_closer, List.append_assoc]
    rfl
  have hne : (tokenize (bracketed b sources)).tokens ≠ [] := by
    rw [hwhole]
    exact List.cons_ne_nil _ _
  have hall : (forms.reverse ++ []).reverse = forms := by
    rw [List.append_nil, List.reverse_reverse]
  rw [Form.read_of_ne_nil hne, hwhole, Form.parseWith_opening rfl,
    (hinner.before [closer]).parseWith]
  cases hform : Form.enclosed b forms with
  | ok form =>
    rw [Form.parseWith_closing hkind (by rw [hall, hform])]
    rfl
  | error cause =>
    rw [Form.parseWith_misshapen hkind (by rw [hall, hform]), span_opener]
    rfl

/-! ## Marks -/

/-- A mark is a token, and the text behind it keeps its tokens. -/
theorem tokenize_mark (m : Mark) {source : String}
    (h : m = .unquote → source.toList.head? ≠ some '@') :
    ∃ t : Token, t.kind = .mark m ∧ (tokenize (m.lexeme ++ source)).tokens =
      t :: (tokenize source).tokens.map (Token.moved m.lexeme.utf8ByteSize) := by
  by_cases hm : m = .unquote
  · subst hm
    refine ⟨⟨.mark .unquote, "~", 0⟩, rfl, ?_⟩
    have hends : (Scan.ofText "~").Ends source.toList := h rfl
    have hbase : (Scan.ofText "~").finish.pending = .gap := rfl
    rw [Mark.lexeme, tokens_tokenize, Scan.ofText_append, Scan.finish_foldl hends,
      ← Scan.after_initial hbase, ← Scan.after_foldl, ← Scan.after_finish, Scan.after,
      List.reverse_append, ← List.map_reverse]
    rfl
  · have hmark : (Scan.ofText m.lexeme).pending = .gap ∧
        (tokenize m.lexeme).tokens = [⟨.mark m, m.lexeme, 0⟩] := by
      cases m with
      | unquote => exact absurd rfl hm
      | _ => exact ⟨rfl, rfl⟩
    obtain ⟨hgap, htokens⟩ := hmark
    refine ⟨⟨.mark m, m.lexeme, 0⟩, rfl, ?_⟩
    rw [tokenize_append hgap, htokens, List.singleton_append]

/-- What is read behind a mark is what is read without it, marked. -/
theorem read_mark (m : Mark) {source : String} {v : Value} (hv : read source = .ok v)
    (h : m = .unquote → source.toList.head? ≠ some '@') :
    read (m.lexeme ++ source) = .ok (.list [.symbol m.symbol, v]) := by
  obtain ⟨rest, hform⟩ := read_eq_ok_iff.mp hv
  have hdenotes := (Form.ofTokens_eq_ok_iff (Form.delimited_of_tokenize source)).mp hform
  obtain ⟨rest', -, hmoved⟩ := hdenotes.alike (alike_map_moved m.lexeme.utf8ByteSize _)
  obtain ⟨t, hkind, htokens⟩ := tokenize_mark m h
  have hmarked : Form.Denotes (tokenize (m.lexeme ++ source)).tokens
      (.list [.symbol m.symbol, v]) rest' := by
    rw [htokens]
    exact .mark hkind hmoved
  exact Form.read_of_denotes hmarked

/-! ## Reading what was put together -/

/-- Texts that hold a form each, on lines of their own between brackets,
are read as a list, a vector or a map of these forms; a map of an odd
number of them is the fault of its bracket. And a form that is read of a
text is read as marked behind any mark, where a tilde does not meet an at
sign. -/
theorem read_composed :
    (∀ (sources : List String) (forms : List Value), List.Forall₂ HoldsForm sources forms →
      read (bracketed .round sources) = .ok (.list forms) ∧
      read (bracketed .square sources) = .ok (.vector forms) ∧
      read (bracketed .curly sources) = (Value.mapOf forms).mapError (⟨·, some ⟨0, 1⟩⟩) ∧
      (forms.length % 2 = 1 →
        read (bracketed .curly sources) = .error ⟨.oddItems forms.length, some ⟨0, 1⟩⟩)) ∧
    ∀ (m : Mark) (source : String) (v : Value), read source = .ok v →
      (m = .unquote → source.toList.head? ≠ some '@') →
      read (m.lexeme ++ source) = .ok (.list [.symbol m.symbol, v]) := by
  constructor
  · intro sources forms h
    have hcurly : read (bracketed .curly sources) =
        (Value.mapOf forms).mapError (⟨·, some ⟨0, 1⟩⟩) := read_bracketed .curly h
    refine ⟨read_bracketed .round h, read_bracketed .square h, hcurly, ?_⟩
    intro hodd
    rw [hcurly, Value.mapOf, if_neg (by omega)]
    rfl
  · intro m source v hv h
    exact read_mark m hv h

/-- A comment at the end of a line, a mark at the start of another, and a
tilde in front of both. -/
theorem read_composed_map :
    HoldsForm ":k ; ]" (.keyword "k") ∧
    HoldsForm " @^" (.list [.symbol "deref", .symbol "^"]) ∧
    read (bracketed .curly [":k ; ]", " @^"]) =
      .ok (.map [(.keyword "k", .list [.symbol "deref", .symbol "^"])]) ∧
    read (bracketed .curly [":k ; ]"]) = .error ⟨.oddItems 1, some ⟨0, 1⟩⟩ ∧
    read (Mark.unquote.lexeme ++ " @^") =
      .ok (.list [.symbol "unquote", .list [.symbol "deref", .symbol "^"]]) := by
  have hkey : HoldsForm ":k ; ]" (.keyword "k") := by rfl
  have hvalue : HoldsForm " @^" (.list [.symbol "deref", .symbol "^"]) := by rfl
  have hread : read " @^" = .ok (.list [.symbol "deref", .symbol "^"]) := by rfl
  obtain ⟨-, -, hmap, -⟩ := read_composed.1 _ _ (.cons hkey (.cons hvalue .nil))
  obtain ⟨-, -, -, hodd⟩ := read_composed.1 _ _ (.cons hkey .nil)
  have hmark := read_composed.2 .unquote _ _ hread (by decide)
  exact ⟨hkey, hvalue, hmap, hodd rfl, hmark⟩

end Lisp
