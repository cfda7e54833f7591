import Lisp.Conversation
import Lisp.Proofs.Prelude
import Lisp.Proofs.Trimming

/-!
# Conversations are replies

A conversation trims each line, passes over blank ones and goes on after
errors. What it comes to is what the replies to the lines as they are
come to (`Conversation.Replies`), in one world and up to the first
farewell. The reason is that a line is answered as its reply says
(`Conversation.answer_of_ends`): trimming changes at most the place of
an error, which is not printed, and the reply to a blank line is an error
that nobody complains about.
-/

namespace Lisp

namespace Conversation

/-! ## Replies -/

/-- The replies to lines, one after the other: what was written
meanwhile, which is taken away after each line, and the result. -/
inductive Replies (b : Budget) :
    World → List String → List (String × Except Error String) → World → Prop
  | done {w : World} : Replies b w [] [] w
  | reply {w w₁ w' : World} {line : String} {result : Except Error String} {rest : List String}
      {replies : List (String × Except Error String)} (h : (Session.reply b line).Ends w result w₁)
      (hrest : Replies b w₁.takeOutput.2 rest replies w') :
      Replies b w (line :: rest) ((w₁.output, result) :: replies) w'

/-- What a reply adds to the stream of the answers. -/
def printed : String × Except Error String → String
  | (written, .ok shown) => written ++ shown ++ "\n"
  | (written, .error _) => written

/-- What a reply adds to the stream of the complaints. -/
def complained : String × Except Error String → String
  | (_, .ok _) => ""
  | (_, .error (.diagnostic d)) =>
    if d.cause.kind = .emptyInput then ""
    else d.cause.kind.name ++ ": " ++ d.cause.message ++ "\n"
  | (_, .error (.file e)) => "error: " ++ e.report ++ "\n"

/-- The lines before the first farewell. -/
def heard (lines : List String) : List String :=
  lines.takeWhile fun line => !isFarewell (trimWhite line)

/-- The state after some more replies. -/
def after (c : Conversation) (replies : List (String × Except Error String)) (w : World) :
    Conversation :=
  ⟨w, c.stdout ++ String.join (replies.map printed),
    c.stderr ++ String.join (replies.map complained)⟩

/-! ## One line -/

theorem noForm_iff {cause : Cause} : cause = .noForm ↔ cause.kind = .emptyInput := by
  cases cause <;> simp [Cause.kind]

theorem complaint_eq (written : String) (e : Error) :
    complaint e = complained (written, .error e) := by
  cases e with
  | file e => rfl
  | diagnostic d =>
    rw [complaint, complained]
    by_cases h : d.cause = .noForm
    · rw [if_pos h, if_pos (noForm_iff.mp h)]
    · rw [if_neg h, if_neg (mt noForm_iff.mpr h)]
      rfl

theorem complaint_placeless (e : Error) : complaint e.placeless = complaint e := by
  cases e <;> rfl

theorem after_nil (c : Conversation) : c.after [] c.world = c := by
  obtain ⟨world, stdout, stderr⟩ := c
  simp [after]

theorem after_cons (c : Conversation) (reply : String × Except Error String)
    (replies : List (String × Except Error String)) (w w' : World) :
    c.after (reply :: replies) w' = (c.after [reply] w).after replies w' := by
  simp [after, String.append_assoc]

section

variable {b : Budget} {c : Conversation} {line : String} {w : World}

theorem record_value (shown : String) :
    c.record w (shown ++ "\n") "" = c.after [(w.output, .ok shown)] w.takeOutput.2 := by
  simp [record, after, World.takeOutput, printed, complained, String.append_assoc]

theorem record_failure (e : Error) :
    c.record w "" (complaint e) = c.after [(w.output, .error e)] w.takeOutput.2 := by
  simp [record, after, World.takeOutput, printed, complaint_eq w.output]

theorem answer_blank (h : trimWhite line = "") : c.answer b line = .ok c := by
  rw [answer]
  simp only [h, if_true]

/-- What is replied to a blank line. -/
theorem reply_blank (h : trimWhite line = "") :
    ∃ e, (Session.reply b line).Ends w (.error e) w ∧ complaint e = "" := by
  have hsame := Session.reply_trimWhite b line w
  have hempty : Session.reply b "" w = .failure (.diagnostic ⟨.noForm, none⟩) w := rfl
  rw [h, hempty] at hsame
  cases hreply : Session.reply b line w with
  | value shown w' =>
    rw [hreply] at hsame
    cases hsame
  | halted why =>
    rw [hreply] at hsame
    cases hsame
  | failure e w' =>
    rw [hreply] at hsame
    obtain ⟨he, rfl⟩ := Outcome.failure.inj hsame
    refine ⟨e, hreply, ?_⟩
    rw [← complaint_placeless, ← he]
    rfl

/-- A line is answered as its reply says. -/
theorem answer_of_ends {result : Except Error String} (hc : c.world.output = "")
    (h : (Session.reply b line).Ends c.world result w) :
    c.answer b line = .ok (c.after [(w.output, result)] w.takeOutput.2) := by
  by_cases hblank : trimWhite line = ""
  · obtain ⟨e, hends, he⟩ := reply_blank (b := b) (w := c.world) hblank
    obtain ⟨rfl, rfl⟩ := h.unique hends
    rw [answer_blank hblank, ← record_failure, he]
    obtain ⟨world, stdout, stderr⟩ := c
    obtain ⟨scopes, cells, objects, output, files⟩ := world
    obtain rfl : output = "" := hc
    simp [record, World.takeOutput]
  · have hsame := Session.reply_trimWhite b line c.world
    rw [answer]
    simp only [hblank, if_false]
    cases htrimmed : Session.reply b (trimWhite line) c.world with
    | value shown w' =>
      cases result with
      | ok shown' =>
        rw [h, htrimmed] at hsame
        obtain ⟨rfl, rfl⟩ := Outcome.value.inj hsame
        simp only [record_value]
      | error e =>
        rw [h, htrimmed] at hsame
        cases hsame
    | failure e w' =>
      cases result with
      | ok shown =>
        rw [h, htrimmed] at hsame
        cases hsame
      | error e' =>
        rw [h, htrimmed] at hsame
        obtain ⟨he, rfl⟩ := Outcome.failure.inj hsame
        simp only []
        rw [← complaint_placeless, he, complaint_placeless, record_failure]
    | halted why =>
      rw [h, htrimmed] at hsame
      cases result <;> cases hsame

theorem answer_of_halted {why : Halt} (h : Session.reply b line c.world = .halted why) :
    c.answer b line = .error why := by
  have hblank : trimWhite line ≠ "" := by
    intro hblank
    obtain ⟨e, hends, -⟩ := reply_blank (b := b) (w := c.world) hblank
    cases h.symm.trans hends
  have hsame := Session.reply_trimWhite b line c.world
  rw [h] at hsame
  rw [answer]
  simp only [hblank, if_false]
  cases htrimmed : Session.reply b (trimWhite line) c.world with
  | halted why' =>
    rw [htrimmed] at hsame
    cases hsame
    rfl
  | value shown w' | failure e w' =>
    rw [htrimmed] at hsame
    cases hsame

/-! ## All lines -/

theorem heard_of_farewell {rest : List String} (h : isFarewell (trimWhite line) = true) :
    heard (line :: rest) = [] := by
  rw [heard, List.takeWhile_cons_of_neg (by simp [h])]

theorem heard_cons {rest : List String} (h : isFarewell (trimWhite line) = false) :
    heard (line :: rest) = line :: heard rest := by
  rw [heard, List.takeWhile_cons_of_pos (by simp [h])]
  rfl

theorem run_of_farewell {rest : List String} (h : isFarewell (trimWhite line) = true) :
    run b c (line :: rest) = .ok c := by
  rw [run, if_pos h]

theorem run_cons {rest : List String} (h : isFarewell (trimWhite line) = false) :
    run b c (line :: rest) = c.answer b line >>= fun c => run b c rest := by
  rw [run, if_neg (by simp [h])]
  cases c.answer b line <;> rfl

theorem output_takeOutput (w : World) : w.takeOutput.2.output = "" := rfl

/-- A conversation is over if all lines have a reply. -/
theorem Replies.run {lines : List String} {replies : List (String × Except Error String)}
    {w' : World} (hc : c.world.output = "") (h : Replies b c.world (heard lines) replies w') :
    run b c lines = .ok (c.after replies w') := by
  induction lines generalizing c replies with
  | nil =>
    cases h
    rw [after_nil]
    rfl
  | cons line rest ih =>
    cases hfarewell : isFarewell (trimWhite line) with
    | true =>
      rw [heard_of_farewell hfarewell] at h
      cases h
      rw [run_of_farewell hfarewell, after_nil]
    | false =>
      rw [heard_cons hfarewell] at h
      cases h with
      | @reply _ w₁ _ _ result _ replies h hrest =>
        rw [run_cons hfarewell, answer_of_ends hc h, ok_bind]
        refine (ih ?_ hrest).trans ?_
        · exact output_takeOutput w₁
        · rw [after_cons c (w₁.output, result) replies w₁.takeOutput.2]

/-- A conversation that is halted is halted at a line. -/
theorem run_of_halted {lines before later : List String}
    {replies : List (String × Except Error String)}
    {why : Halt} (hc : c.world.output = "") (hlines : heard lines = before ++ line :: later)
    (h : Replies b c.world before replies w) (hhalted : Session.reply b line w = .halted why) :
    run b c lines = .error why := by
  induction before generalizing c lines replies with
  | nil =>
    cases h
    cases lines with
    | nil => cases hlines
    | cons first rest =>
      cases hfarewell : isFarewell (trimWhite first) with
      | true =>
        rw [heard_of_farewell hfarewell] at hlines
        cases hlines
      | false =>
        rw [heard_cons hfarewell] at hlines
        obtain ⟨rfl, -⟩ := List.cons.inj hlines
        rw [run_cons hfarewell, answer_of_halted hhalted]
        rfl
  | cons first before ih =>
    cases lines with
    | nil => cases hlines
    | cons first' rest =>
      cases hfarewell : isFarewell (trimWhite first') with
      | true =>
        rw [heard_of_farewell hfarewell] at hlines
        cases hlines
      | false =>
        rw [heard_cons hfarewell, List.cons_append] at hlines
        obtain ⟨rfl, hrest⟩ := List.cons.inj hlines
        cases h with
        | @reply _ w₁ _ _ result _ replies h hbefore =>
          rw [run_cons hfarewell, answer_of_ends hc h, ok_bind]
          exact ih (output_takeOutput w₁) hrest hbefore

/-- All lines have a reply, or one of them is halted. -/
theorem replies_or_halted (b : Budget) (w : World) (lines : List String) :
    (∃ replies w', Replies b w lines replies w') ∨
      ∃ before line later replies w' why, lines = before ++ line :: later ∧
        Replies b w before replies w' ∧ Session.reply b line w' = .halted why := by
  induction lines generalizing w with
  | nil => exact Or.inl ⟨[], w, .done⟩
  | cons line rest ih =>
    by_cases hhalted : ∃ why, Session.reply b line w = .halted why
    · obtain ⟨why, hhalted⟩ := hhalted
      exact Or.inr ⟨[], line, rest, [], w, why, rfl, .done, hhalted⟩
    · obtain ⟨result, w₁, h⟩ : ∃ result w₁, (Session.reply b line).Ends w result w₁ := by
        by_contra hends
        exact hhalted (Action.halted_iff.mpr fun result w₁ h => hends ⟨result, w₁, h⟩)
      rcases ih w₁.takeOutput.2 with ⟨replies, w', hrest⟩ |
        ⟨before, line', later, replies, w', why, rfl, hrest, hhalted⟩
      · exact Or.inl ⟨_, w', .reply h hrest⟩
      · exact Or.inr ⟨line :: before, line', later, _, w', why, rfl, .reply h hrest, hhalted⟩

end

/-! ## Conversations -/

section

variable {b : Budget} {w₀ : World} (hw : w₀.output = "") {lines : List String}

include hw

theorem run_eq_ok_iff {c : Conversation} :
    run b ⟨w₀, "", ""⟩ lines = .ok c ↔
      ∃ replies w, Replies b w₀ (heard lines) replies w ∧
        c = ⟨w, String.join (replies.map printed), String.join (replies.map complained)⟩ := by
  have hafter (replies : List (String × Except Error String)) (w : World) :
      after ⟨w₀, "", ""⟩ replies w =
        ⟨w, String.join (replies.map printed), String.join (replies.map complained)⟩ := by
    simp [after]
  constructor
  · intro hrun
    rcases replies_or_halted b w₀ (heard lines) with ⟨replies, w, h⟩ |
      ⟨before, line, later, replies, w, why, hlines, h, hhalted⟩
    · cases hrun.symm.trans (h.run (c := ⟨w₀, "", ""⟩) hw)
      exact ⟨replies, w, h, hafter replies w⟩
    · cases hrun.symm.trans (run_of_halted (c := ⟨w₀, "", ""⟩) hw hlines h hhalted)
  · rintro ⟨replies, w, h, rfl⟩
    rw [← hafter]
    exact h.run (c := ⟨w₀, "", ""⟩) hw

theorem run_eq_error_iff {why : Halt} :
    run b ⟨w₀, "", ""⟩ lines = .error why ↔
      ∃ before line later replies w, heard lines = before ++ line :: later ∧
        Replies b w₀ before replies w ∧ Session.reply b line w = .halted why := by
  constructor
  · intro hrun
    rcases replies_or_halted b w₀ (heard lines) with ⟨replies, w, h⟩ |
      ⟨before, line, later, replies, w, why', hlines, h, hhalted⟩
    · cases hrun.symm.trans (h.run (c := ⟨w₀, "", ""⟩) hw)
    · cases hrun.symm.trans (run_of_halted (c := ⟨w₀, "", ""⟩) hw hlines h hhalted)
      exact ⟨before, line, later, replies, w, hlines, h, hhalted⟩
  · rintro ⟨before, line, later, replies, w, hlines, h, hhalted⟩
    exact run_of_halted (c := ⟨w₀, "", ""⟩) hw hlines h hhalted

end

theorem output_start (files : Files) : (Session.start files []).output = "" := by
  obtain ⟨negated, expanded, heq⟩ := Session.start_eq_prelude files []
  rw [heq]
  rfl

/-- A conversation is the replies to its lines before the farewell, as
they are, in one world: it ends if they all end, whatever they are, and
what was written and replied is what is printed. Trimming a line changes
nothing but the place of an error. -/
theorem run_iff_replies (b : Budget) (files : Files) (lines : List String) :
    (∀ c, run b (start files) lines = .ok c ↔
      ∃ replies w, Replies b (Session.start files []) (heard lines) replies w ∧
        c = ⟨w, String.join (replies.map printed), String.join (replies.map complained)⟩) ∧
    (∀ why, run b (start files) lines = .error why ↔
      ∃ before line later replies w, heard lines = before ++ line :: later ∧
        Replies b (Session.start files []) before replies w ∧
        Session.reply b line w = .halted why) ∧
    ∀ line w, (Session.eval b (trimWhite line) w).placeless = (Session.eval b line w).placeless ∧
      (Session.reply b (trimWhite line) w).placeless = (Session.reply b line w).placeless := by
  have hstart := output_start files
  rw [start]
  exact ⟨fun c => run_eq_ok_iff hstart, fun why => run_eq_error_iff hstart,
    fun line w => ⟨Session.eval_trimWhite b line w, Session.reply_trimWhite b line w⟩⟩

end Conversation

end Lisp
