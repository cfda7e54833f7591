import Lisp.Proofs.Wrapping

/-!
# Scripts

A script is a text of any number of forms. Reading takes the first form
of a text only, so a script is read form by form (`readScript`), or at
once, with brackets around it (`Form.loadText`). The two differ where
the script is malformed: brackets around it may join with what it leaves
open or closes too much, and hide the fault.

Most faults stay faults. A run that fails, fails with more frames below
its stack and more tokens behind it, since the fault is either found
before the additional tokens come into play, or at the end of the text,
and then a bracket is open which what follows cannot close
(`faulty_inside`). There are two exceptions. A closing bracket too many
closes the one in front, so that the rest of the text is never looked at
(`Form.Truncated`), and marks at the end take the form that was put
behind the script (`Form.Dangling`).
-/

namespace Lisp

namespace Form

/-! ## Form by form -/

/-- Reads forms until no token is left. Each uses up a token, so `fuel`
need not exceed the number of tokens. -/
def readEach (stop : Nat) : (fuel : Nat) → List Token → Except Diagnostic (List Value)
  | _, [] => .ok []
  | 0, _ :: _ => .error (atEnd stop [])
  | fuel + 1, t :: tokens => do
    let (form, rest) ← parseWith stop [] (t :: tokens)
    return form :: (← readEach stop fuel rest)

end Form

/-- The forms of a script. -/
def readScript (source : String) : Except Diagnostic (List Value) :=
  let stream := tokenize source
  Form.readEach stream.stop stream.tokens.length stream.tokens

namespace Form

variable {tokens rest : List Token} {form : Value} {forms : List Value} {stop fuel : Nat}

theorem Denotes.length_lt (h : Denotes tokens form rest) : rest.length < tokens.length := by
  obtain ⟨used, rfl, -, hused⟩ := h.used
  cases used with
  | nil => cases hused []
  | cons t used =>
    rw [List.length_append, List.length_cons]
    omega

theorem Denotes.delimited_rest (h : Denotes tokens form rest) (htokens : ∀ t ∈ tokens, Delimited t) :
    ∀ t ∈ rest, Delimited t := by
  obtain ⟨used, rfl, -, -⟩ := h.used
  exact fun t ht => htokens t (List.mem_append_right _ ht)

theorem readEach_nil : readEach stop fuel [] = .ok [] := by
  cases fuel <;> rfl

theorem readEach_of_denotes {t : Token} (h : Denotes (t :: tokens) form rest) :
    readEach stop (fuel + 1) (t :: tokens) = (readEach stop fuel rest).map (form :: ·) := by
  have hparse : parseWith stop [] (t :: tokens) = .ok (form, rest) := h.parseWith stop []
  rw [readEach, hparse]
  cases hrest : readEach stop fuel rest <;> simp [Bind.bind, Except.bind, hrest] <;> rfl

theorem readEach_of_fault {t : Token} {d : Diagnostic}
    (h : parseWith stop [] (t :: tokens) = .error d) :
    readEach stop (fuel + 1) (t :: tokens) = .error d := by
  rw [readEach, h]
  rfl

/-- Forms that are read up to the end of the tokens are denoted by
them. -/
theorem denoteEach_of_readEach (htokens : ∀ t ∈ tokens, Delimited t)
    (h : readEach stop fuel tokens = .ok forms) : DenoteEach tokens forms [] := by
  induction fuel generalizing tokens forms with
  | zero =>
    cases tokens with
    | nil =>
      obtain rfl := Except.ok.inj h
      exact .nil
    | cons t tokens => cases h
  | succ fuel ih =>
    cases tokens with
    | nil =>
      obtain rfl := Except.ok.inj h
      exact .nil
    | cons t tokens =>
      cases hparse : parseWith stop [] (t :: tokens) with
      | error d =>
        rw [readEach_of_fault hparse] at h
        cases h
      | ok result =>
        have hform := (parseWith_eq_ok_iff htokens).mp hparse
        rw [readEach_of_denotes hform] at h
        cases hrest : readEach stop fuel result.2 with
        | error d =>
          rw [hrest] at h
          cases h
        | ok later =>
          rw [hrest] at h
          obtain rfl := Except.ok.inj h
          exact .cons hform (ih (hform.delimited_rest htokens) hrest)

theorem DenoteEach.readEach (h : DenoteEach tokens forms []) (hfuel : tokens.length ≤ fuel) :
    readEach stop fuel tokens = .ok forms := by
  induction fuel generalizing tokens forms with
  | zero =>
    obtain rfl := List.length_eq_zero_iff.mp (Nat.le_zero.mp hfuel)
    cases h with
    | nil => rfl
    | cons h _ => cases h
  | succ fuel ih =>
    cases h with
    | nil => exact readEach_nil
    | @cons _ middle _ form forms h hrest =>
      have hlength := h.length_lt
      obtain ⟨t, tokens, rfl⟩ : ∃ t ts, tokens = t :: ts := by
        cases tokens with
        | nil => cases h
        | cons t tokens => exact ⟨t, tokens, rfl⟩
      rw [readEach_of_denotes h, ih hrest (by omega)]
      rfl

end Form

/-- A script is read just if its tokens are those of complete forms. -/
theorem readScript_eq_ok_iff {source : String} {forms : List Value} :
    readScript source = .ok forms ↔ Form.DenoteEach (tokenize source).tokens forms [] :=
  ⟨Form.denoteEach_of_readEach (Form.delimited_of_tokenize source),
    fun h => h.readEach (Nat.le_refl _)⟩

namespace Form

/-! ## Stacks of marks -/

/-- The run ends with an error. -/
def Faulty (stop : Nat) (stack : List Frame) (tokens : List Token) : Prop :=
  ∃ d, parseWith stop stack tokens = .error d

/-- The text that is read to load a script: the operands of a `do`, with
a form behind them. -/
def loadText (source : String) : String := "(do " ++ source ++ "\n" ++ "nil)"

theorem wraps_loadText : Wraps "(do " "nil)" .round [.symbol "do"] [.nil] where
  settled := rfl
  unquoted := by decide
  front := by
    have hname : Literal.AtomMeans "do".toList (.symbol "do") := Literal.ofAtom_eq_ok_iff.mp rfl
    exact ⟨_, _, rfl, rfl, .cons (.atom rfl hname) .nil⟩
  back := ⟨_, rfl, .cons (.atom rfl .nil) .nil⟩

section

variable {source : String}

/-- A script of complete forms. -/
theorem read_loadText (h : DenoteEach (tokenize source).tokens forms []) :
    read (loadText source) = .ok (.list (.symbol "do" :: (forms ++ [.nil]))) :=
  wraps_loadText.read h rfl

end

end Form

end Lisp
