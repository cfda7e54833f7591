import Lisp.Proofs.Insertion
import Lisp.Proofs.Soundness

/-!
# Evaluation around a scope that nothing names

The evaluator does the same, with the same bounds, in a world with a
scope put in (`evaluate_carries`). The proof goes through the evaluator
function by function: what is nested carries, so a turn does, so the
loop does. Nothing is said about the scope that is put in, so it may be
any.
-/

namespace Lisp

open World Value Lisp.Action

/-- What a turn leads to, renamed. -/
def Turn.rename (σ : ScopeId → ScopeId) : Turn → Turn
  | .done v => .done (v.rename σ)
  | .next form scope => .next (form.rename σ) (σ scope)

/-- The world has what a turn leads to. -/
def World.HoldsTurn (w : World) : Turn → Prop
  | .done v => w.Holds v
  | .next form scope => w.Holds form ∧ scope < w.scopes.size

/-- The evaluator does the same with a scope put in. -/
def CarriesFor (k : Nat) (extra : Scope) (evaluator : Evaluator) : Prop :=
  ∀ {form : Value} {scope : ScopeId} {w : World}, w.Hosts k → w.Holds form →
    w.HasScope scope →
      Carries k extra (rename (past k)) World.Holds (evaluator form scope)
        (evaluator (form.rename (past k)) (past k scope)) w

section

variable {k : Nat} {extra : Scope} {nested expandAll expandAll' : Evaluator}
  {scope : ScopeId} {w : World}

/-! ## Results -/

theorem carries_ok (hw : w.WellFormed) {v : Value} (hv : w.Holds v) :
    Carries k extra (rename (past k)) World.Holds (pure v) (pure (v.rename (past k))) w :=
  carries_pure hw hv

theorem carries_leaf (hw : w.WellFormed) {v : Value} (hv : v.Leaf) :
    Carries k extra (rename (past k)) World.Holds (pure v) (pure v) w := by
  have h : Carries k extra (rename (past k)) World.Holds (pure v) (pure (v.rename (past k))) w :=
    carries_ok hw (scoped_leaf hv)
  rwa [rename_leaf _ hv] at h

theorem carries_list (hw : w.WellFormed) {items : List Value} (hitems : w.HoldsAll items) :
    Carries k extra (rename (past k)) World.Holds (pure (.list items))
      (pure (.list (items.map (rename (past k))))) w := by
  rw [← rename_list]
  exact carries_ok hw (scoped_list.mpr hitems)

theorem carries_vector (hw : w.WellFormed) {items : List Value} (hitems : w.HoldsAll items) :
    Carries k extra (rename (past k)) World.Holds (pure (.vector items))
      (pure (.vector (items.map (rename (past k))))) w := by
  rw [← rename_vector]
  exact carries_ok hw (scoped_vector.mpr hitems)

/-- What is computed is a value that the world has. -/
theorem carries_computed (hw : w.WellFormed) {x x' : Except Cause Value}
    (hx : x' = x.map (rename (past k))) (h : ∀ v, x = .ok v → w.Holds v) :
    Carries k extra (rename (past k)) World.Holds (ofExcept x) (ofExcept x') w :=
  carries_ofExcept hw hx h

/-- The same computation on both sides, and what goes on from it. -/
theorem carries_same {α β : Type} {g : β → β} {Q : World → β → Prop} {x x' : Except Cause α}
    {y y' : α → Action β} (hw : w.WellFormed) (hx : x' = x)
    (hy : ∀ a, x = .ok a → Carries k extra g Q (y a) (y' a) w) :
    Carries k extra g Q (ofExcept x >>= y) (ofExcept x' >>= y') w := by
  subst hx
  cases x' with
  | ok a => exact hy a rfl
  | error cause => exact carries_fail hw cause

theorem carries_done {x x' : Action Value}
    (h : Carries k extra (rename (past k)) World.Holds x x' w) :
    Carries k extra (Turn.rename (past k)) World.HoldsTurn
      (x >>= fun v => pure (.done v)) (x' >>= fun v => pure (.done v)) w :=
  h.bind fun _ _ hgrows hv =>
    carries_pure hgrows.wellFormed hv

theorem carries_next (hw : w.WellFormed) {form : Value} (hform : w.Holds form) {s : ScopeId}
    (hs : w.HasScope s) :
    Carries k extra (Turn.rename (past k)) World.HoldsTurn (pure (.next form s))
      (pure (.next (form.rename (past k)) (past k s))) w :=
  carries_pure hw ⟨hform, hs⟩

/-! ## Several forms -/

section

variable (hnested : CarriesFor k extra nested)

include hnested

theorem evaluateEach_carries {forms : List Value} {w : World} (hw : w.Hosts k)
    (hscope : w.HasScope scope) (hforms : w.HoldsAll forms) :
    Carries k extra (List.map (rename (past k))) World.HoldsAll
      (evaluateEach nested scope forms)
      (evaluateEach nested (past k scope) (forms.map (rename (past k)))) w := by
  induction forms generalizing w with
  | nil =>
    exact carries_pure hw.wellFormed (List.forall_mem_nil _)
  | cons form rest ih =>
    obtain ⟨hform, hrest⟩ := List.forall_mem_cons.mp hforms
    refine (hnested hw hform hscope).bind fun v w₁ hgrows hv => ?_
    refine (ih (hw.grows hgrows) (hgrows.hasScope hscope) (hgrows.holdsAll hrest)).bind
      fun vs w₂ hgrows' hvs => ?_
    exact carries_pure hgrows'.wellFormed
      (List.forall_mem_cons.mpr ⟨hgrows'.holds hv, hvs⟩)

theorem bindEach_carries {items : List Value} {w : World} (hw : w.Hosts k)
    (hscope : w.HasScope scope) (hitems : w.HoldsAll items) :
    Carries k extra id (fun _ _ => True) (bindEach nested scope items)
      (bindEach nested (past k scope) (items.map (rename (past k)))) w := by
  fun_induction bindEach nested scope items generalizing w with
  | case1 target form rest ih =>
    obtain ⟨-, hitems⟩ := List.forall_mem_cons.mp hitems
    obtain ⟨hform, hrest⟩ := List.forall_mem_cons.mp hitems
    rw [List.map_cons, List.map_cons, bindEach]
    refine carries_same hw.wellFormed (SpecialForm.nameOf_rename (past k) _ target) fun name _ => ?_
    refine (hnested hw hform hscope).bind fun v w₁ hgrows hv => ?_
    refine (carries_define (hw.grows hgrows) scope name hv).bind fun _ w₂ hgrows' _ => ?_
    have hgrows := hgrows.trans hgrows'
    exact ih (hw.grows hgrows) (hgrows.hasScope hscope) (hgrows.holdsAll hrest)
  | case2 items hitems' =>
    have hstop : bindEach nested (past k scope) (items.map (rename (past k))) = pure () := by
      obtain _ | ⟨target, _ | ⟨form, rest⟩⟩ := items
      · rfl
      · rfl
      · exact absurd rfl (hitems' target form rest)
    rw [hstop]
    exact carries_pure hw.wellFormed trivial

theorem runSequence_carries {forms : List Value} {w : World} (hw : w.Hosts k)
    (hscope : w.HasScope scope) (hforms : w.HoldsAll forms) :
    Carries k extra (Turn.rename (past k)) World.HoldsTurn
      (runSequence nested scope forms)
      (runSequence nested (past k scope) (forms.map (rename (past k)))) w := by
  fun_induction runSequence nested scope forms generalizing w with
  | case1 => exact carries_done (carries_leaf hw.wellFormed (v := .nil) trivial)
  | case2 last => exact carries_next hw.wellFormed (hforms last (List.mem_singleton_self _)) hscope
  | case3 form rest hrest ih =>
    obtain ⟨following, rest, rfl⟩ := List.exists_cons_of_ne_nil hrest
    obtain ⟨hform, hforms⟩ := List.forall_mem_cons.mp hforms
    rw [List.map_cons, List.map_cons, runSequence_cons]
    refine (hnested hw hform hscope).bind fun v w₁ hgrows hv => ?_
    exact ih (hw.grows hgrows) (hgrows.hasScope hscope) (hgrows.holdsAll hforms)

end

/-! ## Primitives -/

theorem carries_number (hw : w.WellFormed) {x x' : Except Cause Number} (hx : x' = x) :
    Carries k extra (rename (past k)) World.Holds (Primitive.computed x)
      (Primitive.computed x') w := by
  refine carries_same hw hx fun n _ => ?_
  obtain n | _ | x := n
  · exact carries_leaf hw (v := .int n) trivial
  · refine (carries_freshObject hw).bind fun object w₁ hgrows _ => ?_
    exact carries_leaf hgrows.wellFormed (v := .nan object) trivial
  · exact carries_leaf hw (v := .float x) trivial

theorem carries_truth (hw : w.WellFormed) {x x' : Except Cause Bool} (hx : x' = x) :
    Carries k extra (rename (past k)) World.Holds (Primitive.decided x)
      (Primitive.decided x') w :=
  carries_same hw hx fun b _ => carries_leaf hw (v := .bool b) trivial

theorem carries_line (hw : w.Hosts k) (readably : Bool) (separator : String) (args : List Value) :
    Carries k extra (rename (past k)) World.Holds
      (ask (·.texts readably separator args) >>= fun text => writeLine text >>= fun _ => pure .nil)
      (ask (·.texts readably separator (args.map (rename (past k)))) >>= fun text =>
        writeLine text >>= fun _ => pure .nil) w := by
  refine carries_ask (World.texts_insertScope readably separator args) ?_
  exact (carries_writeLine hw.wellFormed _).bind fun _ w₁ hgrows _ =>
    carries_leaf hgrows.wellFormed (v := .nil) trivial

theorem carries_texts (hw : w.Hosts k) (readably : Bool) (separator : String) (args : List Value) :
    Carries k extra (rename (past k)) World.Holds
      (ask (·.texts readably separator args) >>= fun text => pure (.string text))
      (ask (·.texts readably separator (args.map (rename (past k)))) >>= fun text =>
        pure (.string text)) w :=
  carries_ask (World.texts_insertScope readably separator args)
    (carries_leaf hw.wellFormed (v := .string _) trivial)

/-- The root scope is where it was, and `eval` evaluates in it. -/
theorem eval_carries (hnested : CarriesFor k extra nested) {form : Value} (hw : w.Hosts k)
    (hscope : w.HasScope scope) (hform : w.Holds form) :
    Carries k extra (rename (past k)) World.Holds
      (ask (·.root scope) >>= fun root => nested form root)
      (ask (·.root (past k scope)) >>= fun root => nested (form.rename (past k)) root) w := by
  obtain ⟨root, hroot, -⟩ := hw.wellFormed.parentless_root hscope
  exact carries_ask (World.root_insertScope hw.wellFormed hw.place scope)
    (hnested hw hform (World.lt_size_of_getElem? hroot))

theorem basic_carries (hnested : CarriesFor k extra nested) (p : Primitive) {args : List Value}
    (hw : w.Hosts k) (hscope : w.HasScope scope) (hargs : w.HoldsAll args) :
    Carries k extra (rename (past k)) World.Holds
      (Primitive.basic nested scope p args)
      (Primitive.basic nested (past k scope) p (args.map (rename (past k)))) w := by
  have hwell := hw.wellFormed
  fun_cases Primitive.basic nested scope p args with
  | case1 => exact carries_number hwell (Number.sum_rename _ args)
  | case2 => exact carries_number hwell (Number.difference_rename _ args)
  | case3 => exact carries_number hwell (Number.product_rename _ args)
  | case4 => exact carries_number hwell (Number.quotient_rename _ args)
  | case5 a b =>
    exact carries_truth hwell (congrArg Except.ok (beq_rename (past k) a b))
  | case6 a b | case7 a b | case8 a b | case9 a b =>
    exact carries_truth hwell (Number.compares_rename _ _ _ a b)
  | case10 => exact carries_list hwell hargs
  | case11 => exact carries_vector hwell hargs
  | case12 =>
    exact carries_computed hwell (mapOf_rename _ args) fun v hv => hereditary_scoped.mapOf hv hargs
  | case13 v =>
    exact carries_truth hwell (congrArg _ (Sequence.count_rename _ _ v))
  | case14 v =>
    exact carries_same hwell (Sequence.count_rename _ _ v) fun n _ => carries_leaf hwell trivial
  | case15 head tail =>
    obtain ⟨hhead, htail⟩ : w.Holds head ∧ w.Holds tail := by simpa [HoldsAll] using hargs
    exact carries_computed hwell (Sequence.cons_rename _ head tail) fun v hv =>
      Sequence.hereditary_cons hereditary_scoped hv hhead htail
  | case16 =>
    have hconcat : Carries k extra (List.map (rename (past k))) World.HoldsAll
        (ofExcept (Sequence.concat args))
        (ofExcept (Sequence.concat (args.map (rename (past k))))) w :=
      carries_ofExcept hwell (Sequence.concat_rename _ args) fun elements h =>
        Sequence.hereditary_concat hereditary_scoped h hargs
    exact hconcat.bind fun elements w₁ hgrows h => carries_list hgrows.wellFormed h
  | case17 v =>
    exact carries_computed hwell (Sequence.vec_rename _ v) fun made h =>
      Sequence.hereditary_vec hereditary_scoped h (hargs v (List.mem_cons_self ..))
  | case18 v index =>
    exact carries_computed hwell (Sequence.nth_rename _ v index) fun element h =>
      Sequence.hereditary_nth hereditary_scoped h (hargs v (List.mem_cons_self ..))
  | case19 v =>
    exact carries_computed hwell (Sequence.first_rename _ v) fun element h =>
      Sequence.hereditary_first hereditary_scoped h (hargs v (List.mem_cons_self ..))
  | case20 v =>
    exact carries_computed hwell (Sequence.rest_rename _ v) fun left h =>
      Sequence.hereditary_rest hereditary_scoped h (hargs v (List.mem_cons_self ..))
  | case21 v =>
    exact carries_same hwell (Primitive.stringOf_rename _ _ v) fun text _ =>
      carries_leaf hwell trivial
  | case22 v =>
    exact carries_computed hwell (Primitive.keywordOf_rename _ v) fun made h =>
      scoped_leaf (Primitive.leaf_keywordOf h)
  | case23 => exact carries_texts hw true " " args
  | case24 => exact carries_texts hw false "" args
  | case25 => exact carries_line hw true " " args
  | case26 => exact carries_line hw false " " args
  | case27 v =>
    exact carries_same hwell (Primitive.stringOf_rename _ _ v) fun source _ =>
      carries_readForm hwell source
  | case28 v =>
    refine carries_same hwell (Primitive.stringOf_rename _ _ v) fun path _ => ?_
    exact (carries_readFile hwell path).bind fun text w₁ hgrows _ =>
      carries_leaf hgrows.wellFormed trivial
  | case29 v =>
    have hv := hargs v (List.mem_cons_self ..)
    exact (carries_newCell hwell hv).bind fun cell w₁ hgrows _ =>
      carries_leaf hgrows.wellFormed trivial
  | case30 v =>
    exact carries_same hwell (Primitive.cellOf_rename _ _ v) fun cell _ =>
      carries_contents hwell cell
  | case31 target v =>
    have hv : w.Holds v := hargs v (by simp)
    refine carries_same hwell (Primitive.cellOf_rename _ _ target) fun cell _ => ?_
    exact (carries_store hwell cell hv).bind fun _ w₁ hgrows _ =>
      carries_ok hgrows.wellFormed (hgrows.holds hv)
  | case32 form =>
    exact eval_carries hnested hw hscope (hargs form (List.mem_cons_self ..))
  | case33 v =>
    exact carries_ask (World.text_insertScope false v) (carries_fail hwell _)
  | case34 | case35 =>
    -- What is left of the primitives with one argument asks for a kind.
    rw [List.map_cons, List.map_nil, Primitive.basic, Primitive.test?_rename]
    · simp only [*]
      first | exact carries_leaf hwell trivial | exact carries_halt _
    all_goals assumption
  | case36 =>
    have hfault : Primitive.basic nested (past k scope) p (args.map (rename (past k))) =
        halt .fault := by
      rcases args with _ | ⟨a, _ | ⟨b, _ | ⟨c, more⟩⟩⟩ <;> cases p <;> first | rfl | simp_all
    rw [hfault]
    exact carries_halt _

theorem checked_carries (hnested : CarriesFor k extra nested) (p : Primitive) {args : List Value}
    (hw : w.Hosts k) (hscope : w.HasScope scope) (hargs : w.HoldsAll args) :
    Carries k extra (rename (past k)) World.Holds (p.checked nested scope args)
      (p.checked nested (past k scope) (args.map (rename (past k)))) w := by
  rw [Primitive.checked, Primitive.checked, List.length_map]
  split
  · split
    · exact basic_carries hnested p hw hscope hargs
    · exact carries_fail hw.wellFormed _
  · exact basic_carries hnested p hw hscope hargs

/-! ## Application -/

theorem closure_carries {evaluator : Evaluator} (h : CarriesFor k extra evaluator)
    {params : List String} {body : Value} {captured : ScopeId} {args : List Value}
    (hw : w.Hosts k) (hcaptured : w.HasScope captured) (hbody : w.Holds body)
    (hargs : w.HoldsAll args) :
    Carries k extra (rename (past k)) World.Holds
      (enterCall captured params args >>= evaluator body)
      (enterCall (past k captured) params (args.map (rename (past k))) >>=
        evaluator (body.rename (past k))) w :=
  (carries_enterCall hw hcaptured params hargs).bind fun _ _ hgrows hinner =>
    h (hw.grows hgrows) (hgrows.holds hbody) hinner

theorem callable_rename (σ : ScopeId → ScopeId) (v : Value) :
    (v.rename σ).Callable ↔ v.Callable := by
  cases v <;> exact Iff.rfl

/-- `swap!` takes one argument off and applies, so the induction is on
the number of arguments. -/
theorem apply_carries (hnested : CarriesFor k extra nested) {f : Value} {args : List Value}
    {w : World} (hw : w.Hosts k) (hscope : w.HasScope scope) (hf : w.Holds f)
    (hargs : w.HoldsAll args) :
    Carries k extra (rename (past k)) World.Holds (apply nested scope f args)
      (apply nested (past k scope) (f.rename (past k)) (args.map (rename (past k)))) w := by
  induction hlength : args.length using Nat.strongRecOn generalizing f args w with
  | ind n ih =>
  by_cases hcallable : f.Callable
  · cases f with
    | closure object expander params body captured =>
      obtain ⟨hcaptured, hbody⟩ := scoped_closure.mp hf
      rw [rename_closure, apply_closure, apply_closure]
      exact closure_carries hnested hw hcaptured hbody hargs
    | builtin p =>
      by_cases hswap : p = .swap
      · subst hswap
        rw [rename]
        obtain _ | ⟨target, _ | ⟨g, more⟩⟩ := args
        · exact carries_fail hw.wellFormed _
        · exact carries_fail hw.wellFormed _
        · obtain ⟨-, hargs⟩ := List.forall_mem_cons.mp hargs
          obtain ⟨hg, hmore⟩ := List.forall_mem_cons.mp hargs
          rw [List.map_cons, List.map_cons, apply_swap, apply_swap]
          refine carries_same hw.wellFormed (Primitive.cellOf_rename _ _ target) fun cell _ => ?_
          refine (carries_contents hw.wellFormed cell).bind fun v w₁ hgrows hv => ?_
          have hshorter : (v :: more).length < n := by
            rw [← hlength]
            exact Nat.lt_succ_self _
          have hcall := ih _ hshorter (hw.grows hgrows) (hgrows.hasScope hscope)
            (hgrows.holds hg) (List.forall_mem_cons.mpr ⟨hv, hgrows.holdsAll hmore⟩) rfl
          refine hcall.bind fun updated w₂ hgrows' hupdated => ?_
          refine (carries_store hgrows'.wellFormed cell hupdated).bind fun _ w₃ hgrows'' _ => ?_
          exact carries_ok hgrows''.wellFormed (hgrows''.holds hupdated)
      · rw [rename, apply_builtin hswap, apply_builtin hswap]
        exact checked_carries hnested p hw hscope hargs
    | _ => exact hcallable.elim
  · rw [apply_uncallable hcallable, apply_uncallable ((callable_rename _ f).not.mpr hcallable)]
    exact carries_uncallable hw.wellFormed f

/-! ## Turns -/

theorem expandTurn_carries (hnested : CarriesFor k extra nested) {form : Value}
    (hw : w.Hosts k) (hscope : w.HasScope scope) (hform : w.Holds form) :
    Carries k extra (Turn.rename (past k)) World.HoldsTurn (expandTurn nested form scope)
      (expandTurn nested (form.rename (past k)) (past k scope)) w := by
  refine carries_ask (World.macroCall?_insertScope hw.wellFormed hw.place scope form) ?_
  cases hcall : w.macroCall? scope form with
  | none => exact carries_pure hw.wellFormed hform
  | some call =>
    obtain ⟨params, body, captured, args⟩ := call
    obtain ⟨hcaptured, hbody, hargs⟩ := hw.wellFormed.holds_macroCall? hform hcall
    refine (carries_enterCall hw hcaptured params hargs).bind fun inner w₁ hgrows hinner => ?_
    refine (hnested (hw.grows hgrows) (hgrows.holds hbody) hinner).bind
      fun expansion w₂ hgrows' hexpansion => ?_
    exact carries_next hgrows'.wellFormed hexpansion ((hgrows.trans hgrows').hasScope hscope)

theorem evaluateData_carries (hnested : CarriesFor k extra nested) {form : Value}
    (hw : w.Hosts k) (hscope : w.HasScope scope) (hform : w.Holds form) :
    Carries k extra (rename (past k)) World.Holds (evaluateData nested scope form)
      (evaluateData nested (past k scope) (form.rename (past k))) w := by
  fun_cases evaluateData nested scope form with
  | case1 name => exact carries_lookup hw scope name
  | case2 items =>
    rw [rename_vector, evaluateData]
    exact (evaluateEach_carries hnested hw hscope (scoped_vector.mp hform)).bind
      fun vs w₁ hgrows hvs => carries_vector hgrows.wellFormed hvs
  | case3 entries =>
    rw [rename_map, evaluateData]
    have hitems : Carries k extra (List.map (rename (past k))) World.HoldsAll
        (evaluateEach nested scope (alternating entries))
        (evaluateEach nested (past k scope) (alternating (entries.map (renameEntry (past k))))) w := by
      rw [← map_alternating]
      exact evaluateEach_carries hnested hw hscope (scoped_map.mp hform)
    refine hitems.bind fun vs w₁ hgrows hvs => ?_
    exact carries_computed hgrows.wellFormed (mapOf_rename _ vs) fun v hv => hereditary_scoped.mapOf hv hvs
  | case4 _ hsymbol hvector hmap =>
    have hself : evaluateData nested (past k scope) (form.rename (past k)) =
        pure (form.rename (past k)) := by
      cases form with
      | symbol name => exact absurd rfl (hsymbol name)
      | vector items => exact absurd rfl (hvector items)
      | map entries => exact absurd rfl (hmap entries)
      | _ => rfl
    rw [hself]
    exact carries_ok hw.wellFormed hform

theorem asMacro_carries {v : Value} (hw : w.WellFormed) (hv : w.Holds v) :
    Carries k extra (rename (past k)) World.Holds (asMacro v) (asMacro (v.rename (past k))) w := by
  cases v with
  | closure object expander params body captured =>
    refine (carries_freshObject hw).bind fun fresh w₁ hgrows _ => ?_
    exact carries_ok hgrows.wellFormed (scoped_closure.mpr (scoped_closure.mp (hgrows.holds hv)))
  | _ => exact carries_fail hw _

/-! ### Special forms -/

section

variable (hnested : CarriesFor k extra nested) (hw : w.Hosts k) (hscope : w.HasScope scope)

include hnested hw hscope

theorem define_carries {target form : Value} (hform : w.Holds form) :
    Carries k extra (Turn.rename (past k)) World.HoldsTurn
      (specialTurn nested expandAll scope .define [target, form])
      (specialTurn nested expandAll' (past k scope) .define
        [target.rename (past k), form.rename (past k)]) w := by
  refine carries_same hw.wellFormed (SpecialForm.nameOf_rename _ _ target) fun name _ => ?_
  refine (hnested hw hform hscope).bind fun v w₁ hgrows hv => ?_
  refine (carries_define (hw.grows hgrows) scope name hv).bind fun _ w₂ hgrows' _ => ?_
  exact carries_pure hgrows'.wellFormed (hgrows'.holds hv)

theorem letIn_carries {bindings body : Value} (hbindings : w.Holds bindings)
    (hbody : w.Holds body) :
    Carries k extra (Turn.rename (past k)) World.HoldsTurn
      (specialTurn nested expandAll scope .letIn [bindings, body])
      (specialTurn nested expandAll' (past k scope) .letIn
        [bindings.rename (past k), body.rename (past k)]) w := by
  have hpairs := letPairs?_rename (past k) bindings
  cases hitems : bindings.letPairs? with
  | none =>
    rw [hitems] at hpairs
    rw [specialTurn_letIn_misshapen hitems, specialTurn_letIn_misshapen hpairs]
    exact carries_fail hw.wellFormed _
  | some items =>
    rw [hitems] at hpairs
    have hholds : w.HoldsAll items :=
      hereditary_scoped.items hbindings (Option.filter_eq_some_iff.mp hitems).1
    rw [specialTurn_letIn hitems, specialTurn_letIn hpairs]
    refine (carries_enter hw hscope (List.forall_mem_nil _)).bind fun inner w₁ hgrows hinner => ?_
    refine (bindEach_carries hnested (hw.grows hgrows) hinner (hgrows.holdsAll hholds)).bind
      fun _ w₂ hgrows' _ => ?_
    exact carries_next hgrows'.wellFormed (hgrows'.holds (hgrows.holds hbody))
      (hgrows'.hasScope hinner)

theorem branch_carries {condition yes : Value} {no : List Value} (hno : no.length ≤ 1)
    (hcondition : w.Holds condition) (hyes : w.Holds yes) (hnoHolds : w.HoldsAll no) :
    Carries k extra (Turn.rename (past k)) World.HoldsTurn
      (specialTurn nested expandAll scope .branch (condition :: yes :: no))
      (specialTurn nested expandAll' (past k scope) .branch
        (condition.rename (past k) :: yes.rename (past k) :: no.map (rename (past k)))) w := by
  rw [specialTurn, specialTurn, List.length_map, if_pos hno, if_pos hno]
  refine (hnested hw hcondition hscope).bind fun v w₁ hgrows _ => ?_
  have hno : (no.map (rename (past k))).head?.getD .nil =
      (no.head?.getD .nil).rename (past k) := by
    cases no <;> rfl
  have hnoHolds : w₁.Holds (no.head?.getD .nil) := by
    cases no with
    | nil => exact scoped_leaf trivial
    | cons form rest => exact hgrows.holds (hnoHolds form (List.mem_cons_self ..))
  rw [isTruthy_rename, hno]
  split
  · exact carries_next hgrows.wellFormed (hgrows.holds hyes) (hgrows.hasScope hscope)
  · exact carries_next hgrows.wellFormed hnoHolds (hgrows.hasScope hscope)

theorem defineMacro_carries {target form : Value} (hform : w.Holds form) :
    Carries k extra (Turn.rename (past k)) World.HoldsTurn
      (specialTurn nested expandAll scope .defineMacro [target, form])
      (specialTurn nested expandAll' (past k scope) .defineMacro
        [target.rename (past k), form.rename (past k)]) w := by
  refine carries_same hw.wellFormed (SpecialForm.nameOf_rename _ _ target) fun name _ => ?_
  refine (hnested hw hform hscope).bind fun v w₁ hgrows hv => ?_
  refine (asMacro_carries hgrows.wellFormed hv).bind fun expander w₂ hgrows' hexpander => ?_
  have hw₂ := (hw.grows hgrows).grows hgrows'
  refine (carries_define hw₂ scope name hexpander).bind fun _ w₃ hgrows'' _ => ?_
  exact carries_pure hgrows''.wellFormed (hgrows''.holds hexpander)

end

theorem function_carries {params body : Value} (hw : w.Hosts k)
    (hscope : w.HasScope scope) (hbody : w.Holds body) :
    Carries k extra (Turn.rename (past k)) World.HoldsTurn
      (specialTurn nested expandAll scope .function [params, body])
      (specialTurn nested expandAll' (past k scope) .function
        [params.rename (past k), body.rename (past k)]) w := by
  refine carries_same hw.wellFormed (parameterNames_rename _ params) fun names _ => ?_
  refine (carries_freshObject hw.wellFormed).bind fun object w₁ hgrows _ => ?_
  exact carries_pure hgrows.wellFormed
    (scoped_closure.mpr ⟨hgrows.hasScope hscope, hgrows.holds hbody⟩)

theorem quasiquote_carries {template : Value} (hw : w.WellFormed) (htemplate : w.Holds template) :
    Carries k extra (rename (past k)) World.Holds (ofExcept (Quasiquote.expand template))
      (ofExcept (Quasiquote.expand (template.rename (past k)))) w :=
  carries_computed hw (Quasiquote.expand_rename _ template) fun _ h =>
    Quasiquote.hereditary_expand hereditary_scoped template htemplate _ h

theorem specialTurn_carries (hnested : CarriesFor k extra nested)
    (hexpand : CarriesFor k extra expandAll) (form : SpecialForm) {operands : List Value}
    (hw : w.Hosts k) (hscope : w.HasScope scope) (hoperands : w.HoldsAll operands) :
    Carries k extra (Turn.rename (past k)) World.HoldsTurn
      (specialTurn nested expandAll scope form operands)
      (specialTurn nested expandAll (past k scope) form (operands.map (rename (past k)))) w := by
  cases harity : form.takes operands.length with
  | false =>
    have harity' : form.takes (operands.map (rename (past k))).length = false := by
      rw [List.length_map, harity]
    rw [specialTurn_of_arity harity, specialTurn_of_arity harity', List.length_map]
    exact carries_fail hw.wellFormed _
  | true =>
    cases form with
    | sequence => exact runSequence_carries hnested hw hscope hoperands
    | branch =>
      obtain ⟨condition, yes, no, rfl, hno⟩ := branch_operands harity
      obtain ⟨hcondition, hoperands⟩ := List.forall_mem_cons.mp hoperands
      obtain ⟨hyes, hnoHolds⟩ := List.forall_mem_cons.mp hoperands
      exact branch_carries hnested hw hscope hno hcondition hyes hnoHolds
    | define =>
      obtain ⟨target, form, rfl⟩ := List.length_eq_two.mp (of_decide_eq_true harity)
      exact define_carries hnested hw hscope (hoperands form (by simp))
    | letIn =>
      obtain ⟨bindings, body, rfl⟩ := List.length_eq_two.mp (of_decide_eq_true harity)
      exact letIn_carries hnested hw hscope (hoperands bindings (by simp)) (hoperands body (by simp))
    | function =>
      obtain ⟨params, body, rfl⟩ := List.length_eq_two.mp (of_decide_eq_true harity)
      exact function_carries hw hscope (hoperands body (by simp))
    | defineMacro =>
      obtain ⟨target, form, rfl⟩ := List.length_eq_two.mp (of_decide_eq_true harity)
      exact defineMacro_carries hnested hw hscope (hoperands form (by simp))
    | quote =>
      obtain ⟨v, rfl⟩ := List.length_eq_one_iff.mp (of_decide_eq_true harity)
      exact carries_pure hw.wellFormed (hoperands v (by simp))
    | quasiquoteExpand =>
      obtain ⟨template, rfl⟩ := List.length_eq_one_iff.mp (of_decide_eq_true harity)
      exact carries_done (quasiquote_carries hw.wellFormed (hoperands template (by simp)))
    | quasiquote =>
      obtain ⟨template, rfl⟩ := List.length_eq_one_iff.mp (of_decide_eq_true harity)
      refine (quasiquote_carries hw.wellFormed (hoperands template (by simp))).bind
        fun form w₁ hgrows hform => ?_
      exact carries_next hgrows.wellFormed hform (hgrows.hasScope hscope)
    | expandMacros =>
      obtain ⟨form, rfl⟩ := List.length_eq_one_iff.mp (of_decide_eq_true harity)
      exact carries_done (hexpand hw (hoperands form (by simp)) hscope)

/-! ### Calls and other forms -/

theorem applyTurn_carries (hnested : CarriesFor k extra nested) {f : Value} {args : List Value}
    (hw : w.Hosts k) (hscope : w.HasScope scope) (hf : w.Holds f) (hargs : w.HoldsAll args) :
    Carries k extra (Turn.rename (past k)) World.HoldsTurn (applyTurn nested scope f args)
      (applyTurn nested (past k scope) (f.rename (past k)) (args.map (rename (past k)))) w := by
  by_cases hcallable : f.Callable
  · cases f with
    | closure object expander params body captured =>
      obtain ⟨hcaptured, hbody⟩ := scoped_closure.mp hf
      refine (carries_enterCall hw hcaptured params hargs).bind fun inner w₁ hgrows hinner => ?_
      exact carries_next hgrows.wellFormed (hgrows.holds hbody) hinner
    | builtin p => exact carries_done (apply_carries hnested hw hscope hf hargs)
    | _ => exact hcallable.elim
  · rw [applyTurn_uncallable hcallable,
      applyTurn_uncallable ((callable_rename _ f).not.mpr hcallable)]
    exact carries_uncallable hw.wellFormed f

theorem callTurn_carries (hnested : CarriesFor k extra nested) {operator : Value}
    {operands : List Value} (hw : w.Hosts k) (hscope : w.HasScope scope)
    (hoperator : w.Holds operator) (hoperands : w.HoldsAll operands) :
    Carries k extra (Turn.rename (past k)) World.HoldsTurn
      (callTurn nested scope operator operands)
      (callTurn nested (past k scope) (operator.rename (past k))
        (operands.map (rename (past k)))) w := by
  rw [callTurn_eq, callTurn_eq]
  refine (hnested hw hoperator hscope).bind fun callee w₁ hgrows hcallee => ?_
  have hw₁ := hw.grows hgrows
  refine (evaluateEach_carries hnested hw₁ (hgrows.hasScope hscope)
    (hgrows.holdsAll hoperands)).bind fun args w₂ hgrows' hargs => ?_
  exact applyTurn_carries hnested (hw₁.grows hgrows')
    ((hgrows.trans hgrows').hasScope hscope) (hgrows'.holds hcallee) hargs

theorem plainTurn_carries (hnested : CarriesFor k extra nested)
    (hexpand : CarriesFor k extra expandAll) {form : Value} (hw : w.Hosts k)
    (hscope : w.HasScope scope) (hform : w.Holds form) :
    Carries k extra (Turn.rename (past k)) World.HoldsTurn (plainTurn nested expandAll form scope)
      (plainTurn nested expandAll (form.rename (past k)) (past k scope)) w := by
  by_cases hlist : ∃ items, form = .list items
  · obtain ⟨items, rfl⟩ := hlist
    obtain _ | ⟨operator, operands⟩ := items
    · exact carries_pure hw.wellFormed hform
    · obtain ⟨hoperator, hoperands⟩ := List.forall_mem_cons.mp (scoped_list.mp hform)
      rw [rename_list, List.map_cons, plainTurn_list, plainTurn_list, special?_rename]
      split
      · exact specialTurn_carries hnested hexpand _ hw hscope hoperands
      · exact callTurn_carries hnested hw hscope hoperator hoperands
  · have hdata : ∀ items, form ≠ .list items := fun items h => hlist ⟨items, h⟩
    have hdata' : ∀ items, form.rename (past k) ≠ .list items := by
      cases form with
      | list items => exact absurd rfl (hdata items)
      | _ => exact nofun
    rw [plainTurn_data hdata, plainTurn_data hdata']
    exact carries_done (evaluateData_carries hnested hw hscope hform)

theorem turn_carries (hnested : CarriesFor k extra nested)
    (hexpand : CarriesFor k extra expandAll) {form : Value} (hw : w.Hosts k)
    (hscope : w.HasScope scope) (hform : w.Holds form) :
    Carries k extra (Turn.rename (past k)) World.HoldsTurn (turn nested expandAll form scope)
      (turn nested expandAll (form.rename (past k)) (past k scope)) w := by
  refine (expandTurn_carries hnested hw hscope hform).bind fun next w₁ hgrows hnext => ?_
  cases next with
  | next expansion scope => exact carries_pure hgrows.wellFormed hnext
  | done form =>
    exact plainTurn_carries hnested hexpand (hw.grows hgrows) (hgrows.hasScope hscope) hnext

/-! ## Evaluation -/

/-- If a turn carries, so do all the turns of a loop. -/
theorem loop_carries {turn : Value → ScopeId → Action Turn}
    (hturn : ∀ {form : Value} {scope : ScopeId} {w : World}, w.Hosts k → w.HasScope scope →
      w.Holds form → Carries k extra (Turn.rename (past k)) World.HoldsTurn (turn form scope)
        (turn (form.rename (past k)) (past k scope)) w) (steps : Nat) :
    CarriesFor k extra (loop turn steps) := by
  induction steps with
  | zero => exact fun _ _ _ => carries_halt .steps
  | succ steps ih =>
    intro form scope w hw hform hscope
    rw [loop_succ, loop_succ]
    refine (hturn hw hscope hform).bind fun next w₁ hgrows hnext => ?_
    cases next with
    | done v => exact carries_ok hgrows.wellFormed hnext
    | next form scope => exact ih (hw.grows hgrows) hnext.1 hnext.2

theorem expandMacros_carries (hnested : CarriesFor k extra nested) (steps : Nat) :
    CarriesFor k extra (expandMacros nested steps) :=
  loop_carries (expandTurn_carries hnested) steps

theorem evaluate_carries (k : Nat) (extra : Scope) (steps depth : Nat) :
    CarriesFor k extra (evaluate steps depth) := by
  induction depth with
  | zero => exact fun _ _ _ => carries_halt .depth
  | succ depth ih =>
    exact loop_carries (turn_carries ih (expandMacros_carries ih steps)) steps

end

end Lisp
