import Lisp.Proofs.Confinement
import Lisp.Proofs.Journal

/-!
# Journals of evaluations

`Moment.Passes` says which worlds a moment passes through, and which
journal it has written by then. The journal is made up where the rules
open a scope or define a name: in the calls of closures and macros, in
`let*`, `def!` and `defmacro!`. In between, a moment passes through what
its parts pass through, and nothing is asked of its end. So this is also
about evaluations that go on for ever.

An evaluation that ends has come to its end (`Evaluates.arrives`, an
induction over the rules). In a world that is ready for the moment, all
that the journal says is possible, and it leads to the scopes of the
world that is passed through (`Moment.Passes.replays`).
-/

namespace Lisp

open World Value

namespace Moment

/-- The moment comes to the world, with this journal. -/
inductive Passes : Moment → List Event → World → Prop
  | start {m : Moment} : Passes m [] m.world
  /-- What is done to the atoms and the output is not in the journal. -/
  | quiet {m : Moment} {journal : List Event} {w w' : World} (h : Passes m journal w)
      (hbecomes : w.Becomes w') (hscopes : w'.scopes = w.scopes) : Passes m journal w'
  /-- What a part passes through, when its turn has come. -/
  | part {m m' : Moment} {journal more : List Event} {w : World}
      (h : Passes m journal m'.world) (hpart : Part m m') (hinner : Passes m' more w) :
      Passes m (journal ++ more) w
  | macroCall {form body : Value} {scope captured : ScopeId} {w w' : World}
      {params : List String} {args : List Value} {bindings : List (String × Value)}
      {more : List Event} (h : w.macroCall? scope form = some (params, body, captured, args))
      (hargs : Call.bindings params args = .ok bindings)
      (hbody : Passes ⟨.evaluate body, w.scopes.size, w.enter captured bindings⟩ more w') :
      Passes ⟨.expand form, scope, w⟩ (Event.call captured w.scopes.size params args ++ more) w'
  | call {object : ObjectId} {expander : Bool} {params : List String} {body : Value}
      {args : List Value} {bindings : List (String × Value)} {scope captured : ScopeId}
      {w w' : World} {more : List Event} (hargs : Call.bindings params args = .ok bindings)
      (hbody : Passes ⟨.evaluate body, w.scopes.size, w.enter captured bindings⟩ more w') :
      Passes ⟨.apply (.closure object expander params body captured) args, scope, w⟩
        (Event.call captured w.scopes.size params args ++ more) w'
  | letIn {bindings body : Value} {items : List Value} {scope : ScopeId} {w w' : World}
      {more : List Event} (h : bindings.letPairs? = some items)
      (hbindings : Passes ⟨.bind items, w.scopes.size, w.enter scope []⟩ more w') :
      Passes ⟨.special .letIn [bindings, body], scope, w⟩ (.opened (some scope) :: more) w'
  /-- A binding of a `let*`, and the ones after it. -/
  | bind {target form v : Value} {rest : List Value} {name : String} {scope : ScopeId}
      {w w₁ w' : World} {journal more : List Event}
      (hname : SpecialForm.letIn.nameOf target = .ok name)
      (hform : Evaluates form scope w (.ok v) w₁)
      (h : Passes ⟨.bind (target :: form :: rest), scope, w⟩ journal w₁)
      (hrest : Passes ⟨.bind rest, scope, w₁.define scope name v⟩ more w') :
      Passes ⟨.bind (target :: form :: rest), scope, w⟩
        (journal ++ .defined scope name v :: more) w'
  | define {target form v : Value} {name : String} {scope : ScopeId} {w w₁ : World}
      {journal : List Event} (hname : SpecialForm.define.nameOf target = .ok name)
      (hform : Evaluates form scope w (.ok v) w₁)
      (h : Passes ⟨.special .define [target, form], scope, w⟩ journal w₁) :
      Passes ⟨.special .define [target, form], scope, w⟩ (journal ++ [.defined scope name v])
        (w₁.define scope name v)
  | defineMacro {target form body : Value} {name : String} {object : ObjectId}
      {expander : Bool} {params : List String} {scope captured : ScopeId} {w w₁ : World}
      {journal : List Event} (hname : SpecialForm.defineMacro.nameOf target = .ok name)
      (hform : Evaluates form scope w (.ok (.closure object expander params body captured)) w₁)
      (h : Passes ⟨.special .defineMacro [target, form], scope, w⟩ journal w₁) :
      Passes ⟨.special .defineMacro [target, form], scope, w⟩
        (journal ++ [.defined scope name (.closure w₁.objects true params body captured)])
        (w₁.count.define scope name (.closure w₁.objects true params body captured))

/-- A part whose turn is at once. -/
theorem Passes.first {m m' : Moment} {more : List Event} {w : World} (hpart : Part m m')
    (hworld : m'.world = m.world) (hinner : m'.Passes more w) : m.Passes more w := by
  have hstart : m.Passes [] m'.world := hworld ▸ .start
  exact hstart.part hpart hinner

/-- The moment comes to the world, with some journal. -/
def ArrivesAt (m : Moment) (w : World) : Prop := ∃ journal, m.Passes journal w

namespace ArrivesAt

variable {m m' : Moment} {w w' : World}

theorem start : m.ArrivesAt m.world := ⟨[], .start⟩

theorem quiet (h : m.ArrivesAt w) (hbecomes : w.Becomes w') (hscopes : w'.scopes = w.scopes) :
    m.ArrivesAt w' := by
  obtain ⟨journal, h⟩ := h
  exact ⟨journal, h.quiet hbecomes hscopes⟩

theorem part (h : m.ArrivesAt m'.world) (hpart : Part m m') (hinner : m'.ArrivesAt w) :
    m.ArrivesAt w := by
  obtain ⟨journal, h⟩ := h
  obtain ⟨more, hinner⟩ := hinner
  exact ⟨journal ++ more, h.part hpart hinner⟩

theorem first (hpart : Part m m') (hworld : m'.world = m.world) (hinner : m'.ArrivesAt w) :
    m.ArrivesAt w := by
  obtain ⟨more, hinner⟩ := hinner
  exact ⟨more, hinner.first hpart hworld⟩

end ArrivesAt

end Moment

open Moment

/-- A primitive that evaluates nothing leaves the scopes as they are. -/
theorem Primitive.scopes_of_ends {p : Primitive} {args : List Value} {scope : ScopeId}
    {w w' : World} {r : Except Error Value}
    (h : ∀ evaluate, (p.checked evaluate scope args).Ends w r w') : w'.scopes = w.scopes := by
  have hany : Hereditary fun _ => True :=
    ⟨fun _ => trivial, by simp, by simp, by simp⟩
  exact ((Primitive.keeps_checked hany (fun _ _ => Action.keeps_halt) fun _ _ => trivial).ends
    (fun _ _ => trivial) (h fun _ _ => Action.halt .fault)).1

/-! ## To the end -/

mutual

theorem Evaluates.arrives {form : Value} {scope : ScopeId} {w w' : World}
    {r : Except Error Value} : Evaluates form scope w r w' → ArrivesAt ⟨.evaluate form, scope, w⟩ w'
  | .expansionFails h => .first .expansion rfl h.arrives
  | .expanded h h' => (ArrivesAt.first .expansion rfl h.arrives).part (.expanded h) h'.arrives

theorem Expands.arrives {form : Value} {scope : ScopeId} {w w' : World}
    {r : Except Error Value} : Expands form scope w r w' → ArrivesAt ⟨.expand form, scope, w⟩ w'
  | .plain _ | .misfit _ _ => .start
  | .bodyFails h hargs hbody =>
    have ⟨_, hpasses⟩ := hbody.arrives
    ⟨_, .macroCall h hargs hpasses⟩
  | .step h hargs hbody hrest =>
    have ⟨_, hpasses⟩ := hbody.arrives
    ArrivesAt.part ⟨_, .macroCall h hargs hpasses⟩ (.macroRest h hargs hbody) hrest.arrives

theorem EvaluatesPlain.arrives {form : Value} {scope : ScopeId} {w w' : World}
    {r : Except Error Value} :
    EvaluatesPlain form scope w r w' → ArrivesAt ⟨.plain form, scope, w⟩ w'
  | .bound _ | .unbound _ | .self _ | .emptyList => .start
  | .vector h => .first .elements rfl h.arrives
  | .map h => .first .entries rfl h.arrives
  | .special h h' => .first (.special h) rfl h'.arrives
  | .operatorFails h hoperator => .first (.operator h) rfl hoperator.arrives
  | .operandFails h hoperator hoperands =>
    (ArrivesAt.first (.operator h) rfl hoperator.arrives).part (.operands h hoperator)
      hoperands.arrives
  | .call h hoperator hoperands hcall =>
    ((ArrivesAt.first (.operator h) rfl hoperator.arrives).part (.operands h hoperator)
      hoperands.arrives).part (.call h hoperator hoperands) hcall.arrives

theorem EvaluatesSpecial.arrives {form : SpecialForm} {operands : List Value} {scope : ScopeId}
    {w w' : World} {r : Except Error Value} :
    EvaluatesSpecial form operands scope w r w' → ArrivesAt ⟨.special form operands, scope, w⟩ w'
  | .arity _ | .defineMisnamed _ | .letMisshapen _ | .functionMisshapen _ | .quote
  | .quasiquoteExpand | .quasiquoteMisshapen _ | .macroMisnamed _ => .start
  | .defineFails h hform => .first (.define h) rfl hform.arrives
  | .define h hform =>
    have ⟨_, hpasses⟩ := ArrivesAt.first (.define h) rfl hform.arrives
    ⟨_, .define h hform hpasses⟩
  | .letFails h hbindings =>
    have ⟨_, hpasses⟩ := hbindings.arrives
    ⟨_, .letIn h hpasses⟩
  | .letIn h hbindings hbody =>
    have ⟨_, hpasses⟩ := hbindings.arrives
    ArrivesAt.part ⟨_, .letIn h hpasses⟩ (.letBody h hbindings) hbody.arrives
  | .conditionFails h hcondition => .first (.condition h) rfl hcondition.arrives
  | .yes h hcondition hv hyes =>
    (ArrivesAt.first (.condition h) rfl hcondition.arrives).part (.yes h hcondition hv) hyes.arrives
  | .no hcondition hv hno =>
    (ArrivesAt.first (.condition (by simp)) rfl hcondition.arrives).part (.no hcondition hv)
      hno.arrives
  | .noElse hcondition _ => .first (.condition (by simp)) rfl hcondition.arrives
  | .sequence h => .first .sequence rfl h.arrives
  | .function _ => ArrivesAt.start.quiet (.single (.count _)) rfl
  | .quasiquote h hform => .first (.quasiquote h) rfl hform.arrives
  | .macroFails h hform | .macroNoFunction h hform _ => .first (.defineMacro h) rfl hform.arrives
  | .defineMacro h hform =>
    have ⟨_, hpasses⟩ := ArrivesAt.first (.defineMacro h) rfl hform.arrives
    ⟨_, .defineMacro h hform hpasses⟩
  | .expandMacros h => .first .expandMacros rfl h.arrives

theorem EvaluatesEach.arrives {forms : List Value} {scope : ScopeId} {w w' : World}
    {vs : Except Error (List Value)} :
    EvaluatesEach forms scope w vs w' → ArrivesAt ⟨.each forms, scope, w⟩ w'
  | .nil => .start
  | .headFails h => .first .eachFirst rfl h.arrives
  | .cons h hrest => (ArrivesAt.first .eachFirst rfl h.arrives).part (.eachRest h) hrest.arrives

theorem Binds.arrives {items : List Value} {scope : ScopeId} {w w' : World}
    {r : Except Error Unit} : Binds items scope w r w' → ArrivesAt ⟨.bind items, scope, w⟩ w'
  | .nil | .misnamed _ => .start
  | .formFails h hform => .first (.bindFirst h) rfl hform.arrives
  | .cons h hform hrest =>
    have ⟨_, hpasses⟩ := ArrivesAt.first (.bindFirst h) rfl hform.arrives
    have ⟨_, hmore⟩ := hrest.arrives
    ⟨_, .bind h hform hpasses hmore⟩

theorem EvaluatesSequence.arrives {forms : List Value} {scope : ScopeId} {w w' : World}
    {r : Except Error Value} :
    EvaluatesSequence forms scope w r w' → ArrivesAt ⟨.sequence forms, scope, w⟩ w'
  | .nil => .start
  | .last h | .formFails h => .first .sequenceFirst rfl h.arrives
  | .cons h hrest =>
    (ArrivesAt.first .sequenceFirst rfl h.arrives).part (.sequenceRest h) hrest.arrives

theorem Applies.arrives {f : Value} {args : List Value} {scope : ScopeId} {w w' : World}
    {r : Except Error Value} : Applies f args scope w r w' → ArrivesAt ⟨.apply f args, scope, w⟩ w'
  | .misfit _ | .swapTooFew _ | .swapNoAtom _ | .uncallable _ => .start
  | .closure h hbody =>
    have ⟨_, hpasses⟩ := hbody.arrives
    ⟨_, .call h hpasses⟩
  | .eval h => .first .eval rfl h.arrives
  | .swapFails h => .first .swap rfl h.arrives
  | .swap h => (ArrivesAt.first .swap rfl h.arrives).quiet (.single (.store ..)) rfl
  | .primitive h =>
    ArrivesAt.start.quiet ((Primitive.changing_checked fun _ _ => Action.changing_halt).ends
      (h fun _ _ => Action.halt .fault)) (Primitive.scopes_of_ends h)

end

/-- All that an evaluation does is to change the world. -/
theorem Moment.Passes.becomes {m : Moment} {journal : List Event} {w : World}
    (h : m.Passes journal w) : m.world.Becomes w := by
  induction h with
  | start => exact .refl
  | quiet _ hbecomes _ ih => exact ih.trans hbecomes
  | part _ _ _ ih ihinner => exact ih.trans ihinner
  | macroCall _ _ _ ih | call _ _ ih | letIn _ _ ih => exact .after (.enter ..) ih
  | bind _ _ _ _ ih ihrest => exact (ih.before (.define ..)).trans ihrest
  | define _ _ _ ih => exact ih.before (.define ..)
  | defineMacro _ _ _ ih => exact (ih.before (.count _)).before (.define ..)

theorem Moment.ArrivesAt.becomes {m : Moment} {w : World} (h : m.ArrivesAt w) :
    m.world.Becomes w := by
  obtain ⟨_, h⟩ := h
  exact h.becomes

/-! ## Parts of ready moments -/

theorem ready_operands {operator callee : Value} {operands : List Value} {scope : ScopeId}
    {w w₁ : World} (hready : Ready ⟨.plain (.list (operator :: operands)), scope, w⟩)
    (hoperator : Evaluates operator scope w (.ok callee) w₁) :
    Ready ⟨.each operands, scope, w₁⟩ ∧ w₁.Holds callee := by
  obtain ⟨hfirst, hrest⟩ := holds_operands hready
  have hcallee := hoperator.confined (hready.same hfirst)
  exact ⟨hready.later hcallee.evolves fun v hv => hcallee.evolves.holds (hrest v hv),
    hcallee.holds _ rfl⟩

theorem ready_call {operator callee : Value} {operands args : List Value} {scope : ScopeId}
    {w w₁ w₂ : World} (hready : Ready ⟨.plain (.list (operator :: operands)), scope, w⟩)
    (hoperator : Evaluates operator scope w (.ok callee) w₁)
    (hoperands : EvaluatesEach operands scope w₁ (.ok args) w₂) :
    Ready ⟨.apply callee args, scope, w₂⟩ := by
  obtain ⟨hready₁, hcallee⟩ := ready_operands hready hoperator
  obtain ⟨hevolves, hargs⟩ := hoperands.confined hready₁
  exact hready₁.later hevolves
    (List.forall_mem_cons.mpr ⟨hevolves.holds hcallee, hargs args rfl⟩)

theorem ready_bindRest {target form v : Value} {rest : List Value} {scope : ScopeId}
    {w w₁ : World} (name : String) (hready : Ready ⟨.bind (target :: form :: rest), scope, w⟩)
    (hform : Evaluates form scope w (.ok v) w₁) :
    Ready ⟨.bind rest, scope, w₁.define scope name v⟩ := by
  have hvalue := hform.confined (hready.form (by simp [Task.values]))
  have hdefine : Evolves (fun _ _ _ => True) w₁ (w₁.define scope name v) :=
    .define hvalue.evolves.wellFormed (hvalue.holds v rfl) trivial
  have hrest : ∀ x ∈ rest, w₁.Holds x := fun x hx => hvalue.evolves.holds
    (hready.holds x (List.mem_cons_of_mem _ (List.mem_cons_of_mem _ hx)))
  have hready₁ : Ready ⟨.bind rest, scope, w₁⟩ := hready.later hvalue.evolves hrest
  exact hready₁.later hdefine fun x hx => hdefine.holds (hrest x hx)

theorem ready_macroRest {form body expansion : Value} {scope captured : ScopeId} {w w₁ : World}
    {params : List String} {args : List Value} {bindings : List (String × Value)}
    (hready : Ready ⟨.expand form, scope, w⟩)
    (h : w.macroCall? scope form = some (params, body, captured, args))
    (hargs : Call.bindings params args = .ok bindings)
    (hbody : Evaluates body w.scopes.size (w.enter captured bindings) (.ok expansion) w₁) :
    Ready ⟨.expand expansion, scope, w₁⟩ := by
  obtain ⟨hcaptured, hbodyHolds, hargsHold⟩ :=
    hready.wellFormed.holds_macroCall? (hready.holds form (List.mem_singleton_self _)) h
  have hcall := sealed_body (.macroBody h hargs) hready.wellFormed hcaptured
    (Call.hereditary_bindings hereditary_scoped hargs hargsHold) hbodyHolds hbody.confined
  exact hready.later hcall.evolves (List.forall_mem_singleton.mpr (hcall.holds _ rfl))

/-- A part of a moment that its world is ready for. -/
theorem Part.ready {m m' : Moment} (h : Part m m') (hready : m.Ready) : m'.Ready := by
  cases h with
  | expansion | sequence | expandMacros => exact hready.same hready.holds
  | expanded h =>
    have hexpansion := h.sealed (hready.same hready.holds)
    exact hready.later hexpansion.evolves
      (List.forall_mem_singleton.mpr (hexpansion.holds _ rfl))
  | macroBody h hargs =>
    obtain ⟨hcaptured, hbody, hall⟩ :=
      hready.wellFormed.holds_macroCall? (hready.holds _ (List.mem_singleton_self _)) h
    exact ready_entered hready.wellFormed hcaptured
      (Call.hereditary_bindings hereditary_scoped hargs hall) (List.forall_mem_singleton.mpr hbody)
  | macroRest h hargs hbody => exact ready_macroRest hready h hargs hbody
  | elements => exact hready.same (scoped_vector.mp (hready.holds _ (List.mem_singleton_self _)))
  | entries => exact hready.same (scoped_map.mp (hready.holds _ (List.mem_singleton_self _)))
  | special h => exact hready.same (holds_operands hready).2
  | operator h => exact hready.same (holds_operands hready).1
  | operands h hoperator => exact (ready_operands hready hoperator).1
  | call h hoperator hoperands => exact ready_call hready hoperator hoperands
  | define h | defineMacro h | condition h | bindFirst h =>
    exact hready.form (by simp [Task.values])
  | eachFirst | sequenceFirst => exact hready.form (List.mem_cons_self ..)
  | letBindings h => exact ready_letBindings hready h
  | letBody h hbindings =>
    exact ready_letBody hready h (hbindings.confined (ready_letBindings hready h))
  | yes h hcondition hv =>
    have htest := hcondition.confined (hready.form (by simp [Task.values]))
    exact hready.formLater htest.evolves (by simp [Task.values])
  | no hcondition hv =>
    have htest := hcondition.confined (hready.form (by simp [Task.values]))
    exact hready.formLater htest.evolves (by simp [Task.values])
  | quasiquote h =>
    exact hready.same (List.forall_mem_singleton.mpr (Quasiquote.hereditary_expand
      hereditary_scoped _ (hready.holds _ (List.mem_singleton_self _)) _ h))
  | eachRest h | sequenceRest h =>
    have hfirst := h.confined (hready.form (List.mem_cons_self ..))
    exact hready.later hfirst.evolves fun x hx =>
      hfirst.evolves.holds (hready.holds x (List.mem_cons_of_mem _ hx))
  | bindRest h hform => exact ready_bindRest _ hready hform
  | closureBody h =>
    obtain ⟨hf, hargs⟩ := List.forall_mem_cons.mp hready.holds
    obtain ⟨hcaptured, hbody⟩ := scoped_closure.mp hf
    exact ready_entered hready.wellFormed hcaptured
      (Call.hereditary_bindings hereditary_scoped h hargs) (List.forall_mem_singleton.mpr hbody)
  | eval =>
    obtain ⟨root, hroot, -⟩ := hready.wellFormed.parentless_root hready.scope
    exact ⟨hready.wellFormed, lt_size_of_getElem? hroot,
      List.forall_mem_singleton.mpr (hready.holds _ (by simp [Task.values]))⟩
  | swap => exact ready_swap hready

/-! ## Replaying -/

/-- The journal of a moment leads to the scopes it comes to. -/
theorem Moment.Passes.replays {m : Moment} {journal : List Event} {w : World}
    (h : m.Passes journal w) (hready : m.Ready) : Replays m.world.scopes journal w.scopes := by
  induction h with
  | start => exact .nil
  | quiet _ _ hscopes ih =>
    rw [hscopes]
    exact ih hready
  | part _ hpart _ ih ihinner => exact (ih hready).trans (ihinner (hpart.ready hready))
  | macroCall h hargs _ ih =>
    have hcaptured :=
      (hready.wellFormed.holds_macroCall? (hready.holds _ (List.mem_singleton_self _)) h).1
    exact (replays_call hcaptured hargs).trans (ih ((Part.macroBody h hargs).ready hready))
  | call hargs _ ih =>
    have hcaptured := (scoped_closure.mp (List.forall_mem_cons.mp hready.holds).1).1
    exact (replays_call hcaptured hargs).trans (ih ((Part.closureBody hargs).ready hready))
  | letIn h _ ih =>
    exact .cons (Event.possible_opened hready.scope) (ih ((Part.letBindings h).ready hready))
  | bind hname hform _ _ ih ihrest =>
    have hbefore := ih hready
    exact hbefore.trans (.cons (hbefore.lt_size hready.scope)
      (ihrest ((Part.bindRest hname hform).ready hready)))
  | define _ _ _ ih | defineMacro _ _ _ ih =>
    have hbefore := ih hready
    exact .concat hbefore (hbefore.lt_size hready.scope)

end Lisp
