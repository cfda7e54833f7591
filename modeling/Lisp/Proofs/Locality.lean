import Lisp.Proofs.Steps
import Lisp.Proofs.Wrapping

/-!
# Reading looks at the first form only

A text is scanned to its end before its first form is read, and what
stands on the lines after it changes the scan: a string that is left open
runs on into these lines. Reading does not notice. The tokens of a text
stay as they are when lines follow, except for an open string at the end
(`tokenize_shared`), and an open string is at fault wherever the machine
comes to it. So if the machine does not come to the end of the text, it
has settled what is read before it, on tokens that stay
(`Form.settled_or_fromEnd`).
-/

namespace Lisp

/-- The error comes from the end of the text: there is no form before it,
a string is open at it, or a mark or a bracket still waits for something
when it is reached. -/
inductive Diagnostic.FromEnd (source : String) (d : Diagnostic) : Prop
  | noForm (h : d.cause.kind = .emptyInput)
  | openString (h : d.cause.kind = .unbalancedString)
  | missingForm (h : d.cause.kind = .malformed) (hspan : d.span = some (tokenize source).endSpan)
  | unclosed (h : d.cause.kind = .unbalancedCollection)
      (hnote : "reached end of input" ∈ d.cause.notes)

/-- What comes after a line break changes nothing but an open string. -/
theorem tokenize_shared (source more : String) :
    ∃ front last later, (tokenize source).tokens = front ++ last ∧
      (tokenize (source ++ "\n" ++ more)).tokens = front ++ later ∧
      ∀ t ∈ last, t.kind = .openString := by
  by_cases hopen : (Scan.ofText source).pending.InString
  · obtain ⟨t, hkind, htokens⟩ := Scan.finish_inString hopen
    obtain ⟨later, hlater⟩ := exists_tokens_append source ("\n" ++ more)
    refine ⟨(Scan.ofText source).tokens.reverse, [t], later, ?_, ?_, ?_⟩
    · rw [tokens_tokenize, htokens, List.reverse_cons]
    · rw [String.append_assoc, hlater]
    · simpa using hkind
  · obtain ⟨hgap, hline⟩ := ofText_line hopen
    refine ⟨(tokenize source).tokens, [],
      (tokenize more).tokens.map (Token.moved (source ++ "\n").utf8ByteSize), by simp, ?_, by simp⟩
    rw [tokenize_append hgap, hline]

namespace Form

theorem fromEnd_atEnd (source : String) (stack : List Frame) :
    (atEnd (tokenize source).stop stack).FromEnd source := by
  unfold atEnd
  split
  · exact .unclosed rfl (List.mem_singleton_self _)
  · exact .missingForm rfl rfl

/-- Some of the tokens before an open string settle what is read, or
reading fails at the end of the text. -/
theorem settled_or_fromEnd {source : String} {front last : List Token}
    (htokens : (tokenize source).tokens = front ++ last) (hlast : ∀ t ∈ last, t.kind = .openString) :
    (∃ result rest, Settles [] front result rest) ∨
      ∃ d, read source = .error d ∧ d.FromEnd source := by
  rcases run_or_settled [] front with ⟨stack, hrun⟩ | hsettles
  · refine Or.inr ?_
    cases last with
    | cons t last =>
      have hopen : Step stack t (.ends (.error ⟨.openString, some t.span⟩)) :=
        .openString (hlast t (List.mem_cons_self ..))
      have hsettles : Settles [] (front ++ t :: last) _ last := .intro hrun hopen
      rw [← htokens] at hsettles
      exact ⟨_, read_of_settles hsettles, .openString rfl⟩
    | nil =>
      rw [List.append_nil] at htokens
      by_cases hnil : (tokenize source).tokens = []
      · exact ⟨_, read_of_nil hnil, .noForm rfl⟩
      · rw [← htokens] at hrun
        exact ⟨_, read_of_run hrun hnil, fromEnd_atEnd source stack⟩
  · exact Or.inl hsettles

end Form

/-- What is read of a text, a form or an error that does not come from
its end, is read of it with any lines after it. -/
theorem read_before_lines (source more : String) :
    (∀ v, read source = .ok v → read (source ++ "\n" ++ more) = .ok v) ∧
    ∀ d, read source = .error d → ¬d.FromEnd source → read (source ++ "\n" ++ more) = .error d := by
  obtain ⟨front, last, later, htokens, htokens', hlast⟩ := tokenize_shared source more
  rcases Form.settled_or_fromEnd htokens hlast with ⟨result, rest, hsettles⟩ | ⟨d, hread, hend⟩
  · rw [Form.read_of_settled_front htokens hsettles, Form.read_of_settled_front htokens' hsettles]
    exact ⟨fun _ h => h, fun _ h _ => h⟩
  · rw [hread]
    constructor
    · intro v h
      cases h
    · intro d' h hend'
      cases h
      exact absurd hend hend'

/-- A form and a fault, each with a string behind it that the lines after
it go on with. -/
theorem read_before_lines_openString :
    read "[:k] \"x" = .ok (.vector [.keyword "k"]) ∧
    read ("[:k] \"x" ++ "\n" ++ ") \" ]") = .ok (.vector [.keyword "k"]) ∧
    read "(:k] \"x" = .error ⟨.mismatched .square .round, some ⟨3, 4⟩⟩ ∧
    ¬Diagnostic.FromEnd "(:k] \"x" ⟨.mismatched .square .round, some ⟨3, 4⟩⟩ ∧
    read ("(:k] \"x" ++ "\n" ++ ") \" ]") = .error ⟨.mismatched .square .round, some ⟨3, 4⟩⟩ := by
  have hform : read "[:k] \"x" = .ok (.vector [.keyword "k"]) := by rfl
  have hfault : read "(:k] \"x" = .error ⟨.mismatched .square .round, some ⟨3, 4⟩⟩ := by rfl
  have hend : ¬Diagnostic.FromEnd "(:k] \"x" ⟨.mismatched .square .round, some ⟨3, 4⟩⟩ := by
    intro h
    cases h with
    | noForm h | openString h | missingForm h _ => cases h
    | unclosed h hnote => cases hnote
  exact ⟨hform, (read_before_lines _ ") \" ]").1 _ hform, hfault, hend,
    (read_before_lines _ ") \" ]").2 _ hfault hend⟩

end Lisp
