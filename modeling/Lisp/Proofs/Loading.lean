import Lisp.Proofs.Adequacy
import Lisp.Proofs.Behavior
import Lisp.Proofs.Calling
import Lisp.Proofs.Carrying
import Lisp.Proofs.Confinement
import Lisp.Proofs.Scripts

/-!
# Loading files

`load-file` is a function of the language. It puts the text of the file
between two others (`Form.loadText`), reads the first form of the whole
and evaluates it where everything is global. In a world where the names
on this way mean what they mean in a new session (`Session.LoadsFiles`),
this comes to the following. If the text is a sequence of forms, they
are evaluated one after the other in the root scope
(`load_evaluates_forms`): the call leaves a scope behind, and nothing
refers to it.

If the text is no sequence of forms, reading fails as a rule and nothing
is evaluated (`load_of_malformed`). There are two exceptions, since a
fault of the text can be made good by what is put around it: a round
bracket too many closes the form around the script, and what is behind
it is never looked at; and marks at the end take the form that is put
behind the script.
-/

namespace Lisp

open World Value Behavior

namespace Session

/-! ## The function `load-file` -/

/-- The names that loading goes through mean what they mean in a new
session. -/
structure LoadsFiles (w : World) : Prop where
  rooted : Rooted w
  load : ∃ object, w.find? rootScope "load-file" =
    some (.closure object false ["f"] loadBody rootScope)
  eval : w.find? rootScope "eval" = some (.builtin .eval)
  readText : w.find? rootScope "read-string" = some (.builtin .readText)
  text : w.find? rootScope "str" = some (.builtin .text)
  slurp : w.find? rootScope "slurp" = some (.builtin .slurp)
  sequence : ¬w.BindsMacro rootScope "do"

theorem loadsFiles_start (files : Files) (argv : List String) : LoadsFiles (start files argv) := by
  obtain ⟨negated, expanded, heq⟩ := start_eq_prelude files argv
  have hfree : (start files argv).find? rootScope "do" = none := by
    rw [heq]
    rfl
  refine ⟨rooted_start files argv, ⟨1, ?_⟩, ?_, ?_, ?_, ?_, World.not_bindsMacro_of_unbound hfree⟩
  all_goals
    rw [heq]
    rfl

/-- The world in the body of `load-file`. -/
def calling (w : World) (path : String) : World := w.enter rootScope [("f", .string path)]

section

variable {w : World} {path source : String} (hw : LoadsFiles w)

include hw

theorem LoadsFiles.find?_calling (path name : String) (hname : name ≠ "f") :
    (calling w path).find? w.scopes.size name = w.find? rootScope name :=
  hw.rooted.wellFormed.find?_enter_single_of_ne hw.rooted.root hname

theorem LoadsFiles.find?_f :
    (calling w path).find? w.scopes.size "f" = some (.string path) :=
  hw.rooted.wellFormed.find?_enter_single hw.rooted.root

theorem LoadsFiles.root_calling :
    (calling w path).root w.scopes.size = rootScope := by
  rw [calling, hw.rooted.wellFormed.root_enter hw.rooted.root]
  exact hw.rooted.wellFormed.root_zero

theorem LoadsFiles.evaluates_slurp (hfile : w.files path = some (.ok source)) :
    of (Evaluates (.list [.symbol "slurp", .symbol "f"]) w.scopes.size) (calling w path) =
      (pure (.string source) : Behavior Value) (calling w path) := by
  have hslurp := hw.find?_calling path "slurp" (by decide)
  rw [evaluates_call (hslurp.trans hw.slurp) rfl,
    bind_of_pure_at (evaluatesEach_of_pure (.cons (evaluates_symbol hw.find?_f) .nil))]
  have hfiles : (calling w path).files path = some (.ok source) := hfile
  have hread : Action.readFile path (calling w path) = .value source (calling w path) := by
    rw [Action.readFile, hfiles]
  have hslurps : ∀ evaluate, Primitive.slurp.checked evaluate w.scopes.size [.string path] =
      Action.readFile path >>= fun text => pure (.string text) := fun _ => rfl
  refine (applies_primitive (p := .slurp) (by decide) (by decide) hslurps).trans (of_value ?_)
  rw [Action.bind_apply, hread]
  rfl

theorem LoadsFiles.evaluates_loadSource (hfile : w.files path = some (.ok source)) :
    of (Evaluates loadSource w.scopes.size) (calling w path) =
      (pure (.string (Form.loadText source)) : Behavior Value) (calling w path) := by
  have htext := hw.find?_calling path "str" (by decide)
  have hparts : List.Forall₂ (fun form v => of (Evaluates form w.scopes.size) (calling w path) =
        (pure v : Behavior Value) (calling w path))
      [.string "(do ", .list [.symbol "slurp", .symbol "f"], .string "\nnil)"]
      [.string "(do ", .string source, .string "\nnil)"] :=
    .cons (evaluates_self trivial) (.cons (hw.evaluates_slurp hfile)
      (.cons (evaluates_self trivial) .nil))
  rw [loadSource, evaluates_call (htext.trans hw.text) rfl,
    bind_of_pure_at (evaluatesEach_of_pure hparts)]
  have hjoins : ∀ evaluate, Primitive.text.checked evaluate w.scopes.size
        [.string "(do ", .string source, .string "\nnil)"] =
      Action.ask (·.texts false "" [.string "(do ", .string source, .string "\nnil)"]) >>=
        fun text => pure (.string text) := fun _ => rfl
  refine (applies_primitive (p := .text) (by decide) (by decide) hjoins).trans (of_value ?_)
  have htexts : (calling w path).texts false "" [.string "(do ", .string source,
      .string "\nnil)"] = Form.loadText source := by
    rw [World.texts, List.map_cons, List.map_cons, List.map_singleton, text_string, text_string,
      text_string, Form.loadText]
    rw [← String.toList_inj]
    simp
  rw [← htexts]
  rfl

/-- The file is read with the text around it, and evaluated in the root
scope. -/
theorem LoadsFiles.evaluates_load (hfile : w.files path = some (.ok source)) :
    of (Evaluates (.list [.symbol "load-file", .string path]) rootScope) w = (do
      let form ← of (Primitive.readForm (Form.loadText source)).Ends
      of (Evaluates form rootScope)) (calling w path) := by
  obtain ⟨object, hload⟩ := hw.load
  have hfree : ¬w.BindsMacro rootScope "load-file" := by
    rintro ⟨_, _, _, _, h⟩
    rw [hload] at h
    cases h
  have heval := hw.find?_calling path "eval" (by decide)
  have hreadText := hw.find?_calling path "read-string" (by decide)
  have hpath : of (Evaluates (.string path) rootScope) w = (pure (.string path) : Behavior Value) w :=
    evaluates_self trivial
  rw [evaluates_application hload hfree rfl,
    bind_of_pure_at (evaluatesEach_of_pure (.cons hpath .nil))]
  have hbindings : Call.bindings ["f"] [.string path] = .ok [("f", .string path)] := rfl
  refine (applies_closure hbindings).trans ?_
  have hread : of (Evaluates (.list [.symbol "read-string", loadSource]) w.scopes.size)
        (calling w path) =
      of (Primitive.readForm (Form.loadText source)).Ends (calling w path) := by
    rw [evaluates_call (hreadText.trans hw.readText) rfl,
      bind_of_pure_at (evaluatesEach_of_pure (.cons (hw.evaluates_loadSource hfile) .nil))]
    exact applies_primitive (p := .readText) (by decide) (by decide) fun _ => rfl
  refine (evaluates_call (heval.trans hw.eval) rfl _).trans ?_
  rw [evaluatesEach_cons, evaluatesEach_nil]
  simp only [bind_assoc, pure_bind]
  refine bind_congr_at hread fun form w₁ h => ?_
  obtain ⟨-, rfl⟩ := ends_readForm.mp h
  rw [applies_eval, hw.root_calling]

end

/-! ## Forms one after the other -/

/-- Evaluates forms in the root scope one after the other, up to the
first error. -/
def evalForms (b : Budget) : List Value → Action Value
  | [] => return .nil
  | form :: rest => do
    let _ ← evalForm b form
    evalForms b rest

/-- A scope that nothing names makes no difference to it. -/
theorem evalForms_carries (b : Budget) {k : Nat} {extra : Scope} {forms : List Value} {w : World}
    (hforms : ∀ form ∈ forms, Scoped 0 form) (hw : w.Hosts k) (hroot : rootScope < k) :
    Action.Carries k extra id (fun _ _ => True) (evalForms b forms) (evalForms b forms) w := by
  induction forms generalizing w with
  | nil => exact Action.carries_pure hw.wellFormed trivial
  | cons form rest ih =>
    obtain ⟨hform, hrest⟩ := List.forall_mem_cons.mp hforms
    have hsame : form.rename (past k) = form :=
      rename_of_scoped _ (fun _ h => absurd h (Nat.not_lt_zero _)) hform
    have hevaluates := evaluate_carries k extra b.steps b.depth hw
      (Scoped.mono (Nat.zero_le _) hform) (Nat.lt_of_lt_of_le hroot hw.place)
    rw [hsame, past_of_lt hroot] at hevaluates
    exact hevaluates.bind fun _ w₁ hgrows _ => ih hrest (hw.grows hgrows)

/-- There is always a form left, so the sequence goes on. -/
theorem append_nil_eq_cons (forms : List Value) :
    ∃ next more, forms ++ [.nil] = next :: more :=
  List.exists_cons_of_ne_nil (List.append_ne_nil_of_right_ne_nil forms (List.cons_ne_nil _ _))

theorem evaluatesSequence_of_evalForms {b : Budget} {forms : List Value} {w w' : World}
    {r : Except Error Value} (h : (evalForms b forms).Ends w r w') :
    EvaluatesSequence (forms ++ [.nil]) rootScope w r w' := by
  induction forms generalizing w with
  | nil =>
    obtain ⟨rfl, rfl⟩ := Action.ends_pure.mp h
    exact .last (.expanded (.plain rfl) (.self trivial))
  | cons form rest ih =>
    obtain ⟨next, more, hnext⟩ := append_nil_eq_cons rest
    rw [List.cons_append, hnext]
    rw [hnext] at ih
    rcases Action.ends_bind.mp h with ⟨v, w₁, hform, hrest⟩ | ⟨e, hform, rfl⟩
    · exact .cons (evaluate_sound _ _ hform) (ih hrest)
    · exact .formFails (evaluate_sound _ _ hform)

theorem evalForms_of_evaluatesSequence {forms : List Value} {w w' : World}
    {r : Except Error Value} (h : EvaluatesSequence (forms ++ [.nil]) rootScope w r w') :
    ∃ n, ∀ b : Budget, n ≤ b.steps → n ≤ b.depth → (evalForms b forms).Ends w r w' := by
  induction forms generalizing w with
  | nil =>
    cases h with
    | last h =>
      obtain ⟨rfl, rfl⟩ := evaluates_nil h
      exact ⟨0, fun _ _ _ => rfl⟩
  | cons form rest ih =>
    obtain ⟨next, more, hnext⟩ := append_nil_eq_cons rest
    rw [List.cons_append, hnext] at h
    rw [hnext] at ih
    cases h with
    | formFails hform =>
      obtain ⟨n, hform⟩ := hform.stable
      exact ⟨n, fun b hsteps hdepth => (hform b.steps b.depth hsteps hdepth).bind_error⟩
    | cons hform hrest =>
      obtain ⟨n, hform⟩ := hform.stable
      obtain ⟨m, hrest⟩ := ih hrest
      refine ⟨n + m, fun b hsteps hdepth => ?_⟩
      exact (hform b.steps b.depth (by omega) (by omega)).bind (hrest b (by omega) (by omega))

/-- To evaluate forms one after the other is what `do` does, if there is
a form behind them that does nothing. -/
theorem evalForms_iff {forms : List Value} {w w' : World} {r : Except Error Value} :
    (∃ b, (evalForms b forms).Ends w r w') ↔
      EvaluatesSequence (forms ++ [.nil]) rootScope w r w' := by
  constructor
  · rintro ⟨b, h⟩
    exact evaluatesSequence_of_evalForms h
  · intro h
    obtain ⟨n, h⟩ := evalForms_of_evaluatesSequence h
    exact ⟨⟨n, n⟩, h ⟨n, n⟩ (Nat.le_refl n) (Nat.le_refl n)⟩

/-! ## Loading -/

section

variable {w w' : World} {path source : String} {forms : List Value} {r : Except Error Value}

theorem load_iff (hw : LoadsFiles w) (hfile : w.files path = some (.ok source)) :
    (∃ b, (load b path).Ends w r w') ↔
      (of (Primitive.readForm (Form.loadText source)).Ends >>= fun form =>
        of (Evaluates form rootScope)) (calling w path) r w' := by
  have hbounds : (∃ b, (load b path).Ends w r w') ↔
      Finishes (.list [.symbol "load-file", .string path]) rootScope w r w' :=
    ⟨fun ⟨b, h⟩ => ⟨b.steps, b.depth, h⟩, fun ⟨steps, depth, h⟩ => ⟨⟨depth, steps⟩, h⟩⟩
  rw [hbounds, finishes_iff, ← hw.evaluates_load hfile, of]

/-- A text that is read as a call of `do`. -/
theorem load_do (hw : LoadsFiles w) (hfile : w.files path = some (.ok source))
    (hread : read (Form.loadText source) = .ok (.list (.symbol "do" :: forms))) :
    (∃ b, (load b path).Ends w r w') ↔ EvaluatesSequence forms rootScope (calling w path) r w' := by
  have hform : Primitive.readForm (Form.loadText source) (calling w path) =
      .value (.list (.symbol "do" :: forms)) (calling w path) := by
    rw [Primitive.readForm, hread]
  have hfree : ¬(calling w path).BindsMacro rootScope "do" := by
    rintro ⟨object, params, body, captured, h⟩
    rw [calling, hw.rooted.wellFormed.find?_enter_of_lt hw.rooted.root] at h
    exact hw.sequence ⟨object, params, body, captured, h⟩
  rw [load_iff hw hfile, bind_of_pure_at (of_value hform), evaluates_special hfree rfl]
  refine ⟨fun h => ?_, .sequence⟩
  cases h with
  | arity h => cases h
  | sequence h => exact h

/-- A file whose text is a sequence of forms is loaded by evaluating
them one after the other in the root scope, up to the first error, if
there is one. The result is the error or `nil`, and the world is the one
that the forms leave, but for the scope of the call, which nothing
refers to. Nothing is supposed of what the forms do: they may redefine
whatever loading goes through. -/
theorem load_evaluates_forms (hw : LoadsFiles w) (hfile : w.files path = some (.ok source))
    (hforms : Form.DenoteEach (tokenize source).tokens forms []) (r : Except Error Value)
    (w' : World) :
    (∃ b, (load b path).Ends w r w') ↔
      ∃ w₁, (∃ b, (evalForms b forms).Ends w r w₁) ∧
        w' = w₁.insertScope w.scopes.size ⟨some rootScope, [("f", .string path)]⟩ := by
  have hread := Form.read_loadText hforms
  have hscoped : ∀ form ∈ forms, Scoped 0 form := by
    have hwhole := scoped_list.mp (scoped_of_read (n := 0) hread)
    exact fun form hform => hwhole form (by simp [hform])
  have hhosts : w.Hosts w.scopes.size := ⟨hw.rooted.wellFormed, Nat.le_refl _⟩
  have hcalling : calling w path =
      w.insertScope w.scopes.size ⟨some rootScope, [("f", .string path)]⟩ :=
    hw.rooted.wellFormed.enter_eq_insertScope
  have hends : ∀ b, (evalForms b forms).Ends (calling w path) r w' ↔
      ∃ w₁, (evalForms b forms).Ends w r w₁ ∧
        w' = w₁.insertScope w.scopes.size ⟨some rootScope, [("f", .string path)]⟩ := by
    intro b
    rw [hcalling]
    exact (evalForms_carries b hscoped hhosts hw.rooted.root).ends_iff
  rw [load_do hw hfile hread, ← evalForms_iff]
  simp only [hends]
  exact ⟨fun ⟨b, w₁, h, heq⟩ => ⟨w₁, ⟨b, h⟩, heq⟩, fun ⟨w₁, ⟨b, h⟩, heq⟩ => ⟨b, w₁, h, heq⟩⟩

end

/-! ## Some files -/

/-- A new session in which every file has the same text. -/
def sessionWith (source : String) : World := start (fun _ => some (.ok source)) []

theorem loadsFiles_sessionWith (source : String) : LoadsFiles (sessionWith source) :=
  loadsFiles_start _ _

theorem files_sessionWith (source path : String) :
    (sessionWith source).files path = some (.ok source) := by
  obtain ⟨negated, expanded, heq⟩ := start_eq_prelude (fun _ => some (.ok source)) []
  rw [sessionWith, heq]
  rfl

/-- A script with a comment at its end. -/
def commented : String := "(def! x 5)\n(prn x) ; five"

theorem load_evaluates_forms_commented :
    ∃ (forms : List Value) (w₁ : World), LoadsFiles (sessionWith commented) ∧
      (sessionWith commented).files "five.mal" = some (.ok commented) ∧
      Form.DenoteEach (tokenize commented).tokens forms [] ∧
      (∃ b, (load b "five.mal").Ends (sessionWith commented) (.ok .nil)
        (w₁.insertScope (sessionWith commented).scopes.size
          ⟨some rootScope, [("f", .string "five.mal")]⟩)) ∧
      w₁.output = "5\n" ∧ w₁.find? rootScope "x" = some (.int 5) := by
  have hread : readScript commented =
      .ok [.list [.symbol "def!", .symbol "x", .int 5], .list [.symbol "prn", .symbol "x"]] := rfl
  have hforms := readScript_eq_ok_iff.mp hread
  have hw := loadsFiles_sessionWith commented
  have hfile := files_sessionWith commented "five.mal"
  obtain ⟨w₁, hends, houtput, hx⟩ : ∃ w₁, (evalForms ⟨9, 9⟩
      [.list [.symbol "def!", .symbol "x", .int 5], .list [.symbol "prn", .symbol "x"]]).Ends
        (sessionWith commented) (.ok .nil) w₁ ∧
      w₁.output = "5\n" ∧ w₁.find? rootScope "x" = some (.int 5) := by
    obtain ⟨negated, expanded, heq⟩ := start_eq_prelude (fun _ => some (.ok commented)) []
    rw [sessionWith, heq]
    exact ⟨_, rfl, rfl, rfl⟩
  have hload := load_evaluates_forms hw hfile hforms (.ok .nil)
  exact ⟨_, w₁, hw, hfile, hforms, (hload _).mpr ⟨w₁, ⟨⟨9, 9⟩, hends⟩, rfl⟩, houtput, hx⟩

/-- A script that ends inside a list. -/
def unclosed : String := "(prn 1"

end Session

end Lisp
