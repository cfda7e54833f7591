import Lisp.Proofs.Behavior
import Lisp.Proofs.Moments
import Lisp.Proofs.Prelude
import Lisp.Proofs.Soundness

/-!
# Evaluation writes where it is

An evaluation changes no scope but its own and the roots that `eval`
gets at, and there nothing but names that `def!` and `defmacro!` define,
evaluated directly in these scopes. What is evaluated in a scope of its
own, as the body of a `let*` or of a closure, is more confined still: it
leaves even the scope that it was entered from alone (`Moment.ByEval`).

One induction over the rules carries this together with what it needs:
worlds stay well formed, and results capture only scopes that are there.
-/

namespace Lisp

open World Value

namespace Moment

/-! ## Two kinds of changes -/

/-- The change is made directly in a root scope, by way of `eval`. -/
structure ByEval (m : Moment) (s : ScopeId) (name : String) (v : Value) : Prop where
  made : m.Makes s name v
  opened : m.OpenToEval s

/-- The change is made directly in the scope of the moment, or by way of
`eval`. -/
structure ByForms (m : Moment) (s : ScopeId) (name : String) (v : Value) : Prop where
  made : m.Makes s name v
  here : s = m.scope ∨ m.OpenToEval s

variable {m m₁ : Moment} {s : ScopeId} {name : String} {v : Value} {w' : World}

theorem ByEval.byForms (h : m.ByEval s name v) : m.ByForms s name v := ⟨h.made, Or.inr h.opened⟩

theorem ByEval.part (hpart : Part m m₁)
    (hparentless : m₁.world.Parentless s → m.world.Parentless s) (h : m₁.ByEval s name v) :
    m.ByEval s name v :=
  ⟨h.made.part hpart, h.opened.part hpart hparentless⟩

theorem ByForms.part (hpart : Part m m₁) (hscope : m₁.scope = m.scope)
    (hparentless : m₁.world.Parentless s → m.world.Parentless s) (h : m₁.ByForms s name v) :
    m.ByForms s name v := by
  refine ⟨h.made.part hpart, ?_⟩
  rcases h.here with hs | hopened
  · exact Or.inl (hs.trans hscope)
  · exact Or.inr (hopened.part hpart hparentless)

/-- In a scope that the moment does not have, a part can change only
what `eval` gets at. -/
theorem ByForms.entered (hpart : Part m m₁) (hs : s ≠ m₁.scope)
    (hparentless : m₁.world.Parentless s → m.world.Parentless s) (h : m₁.ByForms s name v) :
    m.ByEval s name v :=
  ⟨h.made.part hpart, (h.here.resolve_left hs).part hpart hparentless⟩

/-! ## Evolution through a part -/

theorem evolves_part (hpart : Part m m₁) (hscope : m₁.scope = m.scope)
    (hbefore : Evolves m.ByForms m.world m₁.world) (h : Evolves m₁.ByForms m₁.world w') :
    Evolves m.ByForms m.world w' :=
  hbefore.trans h fun _ hs _ _ hD => hD.part hpart hscope (hbefore.parentless hs)

theorem evolves_byEval (hpart : Part m m₁) (hbefore : Evolves m.ByEval m.world m₁.world)
    (h : Evolves m₁.ByEval m₁.world w') : Evolves m.ByEval m.world w' :=
  hbefore.trans h fun _ hs _ _ hD => hD.part hpart (hbefore.parentless hs)

theorem evolves_entered (hpart : Part m m₁) (hnew : m.world.scopes.size ≤ m₁.scope)
    (hbefore : Evolves m.ByEval m.world m₁.world) (h : Evolves m₁.ByForms m₁.world w') :
    Evolves m.ByEval m.world w' :=
  hbefore.trans h fun _ hs _ _ hD =>
    hD.entered hpart (Nat.ne_of_lt (Nat.lt_of_lt_of_le hs hnew)) (hbefore.parentless hs)

/-- The change is one in the scope of the moment, which is that of a
`let*`, or it is made by way of `eval`. -/
def Binding (m : Moment) (s : ScopeId) (name : String) (v : Value) : Prop :=
  s = m.scope ∨ m.ByEval s name v

theorem ByForms.binding (h : m.ByForms s name v) : m.Binding s name v :=
  h.here.imp_right fun hopened => ⟨h.made, hopened⟩

theorem evolves_binding (hpart : Part m m₁) (hscope : m₁.scope = m.scope)
    (hbefore : Evolves m.Binding m.world m₁.world) (h : Evolves m₁.Binding m₁.world w') :
    Evolves m.Binding m.world w' := by
  refine hbefore.trans h fun s hs name v hD => ?_
  rcases hD with hs' | hD
  · exact Or.inl (hs'.trans hscope)
  · exact Or.inr (hD.part hpart (hbefore.parentless hs))

theorem evolves_binding_entered (hpart : Part m m₁) (hnew : m.world.scopes.size ≤ m₁.scope)
    (hbefore : Evolves m.ByEval m.world m₁.world) (h : Evolves m₁.Binding m₁.world w') :
    Evolves m.ByEval m.world w' := by
  refine hbefore.trans h fun s hs name v hD => ?_
  rcases hD with hs' | hD
  · exact absurd hs' (Nat.ne_of_lt (Nat.lt_of_lt_of_le hs hnew))
  · exact hD.part hpart (hbefore.parentless hs)

/-! ## Confinement -/

/-- The task of the moment changes nothing outside but by `eval`, and
what it gives captures only scopes that are there. -/
structure Sealed (m : Moment) (r : Except Error Value) (w' : World) : Prop where
  evolves : Evolves m.ByEval m.world w'
  holds : ∀ v, r = .ok v → w'.Holds v

/-- The same, and changes in the scope of the moment are allowed. -/
structure Confined (m : Moment) (r : Except Error Value) (w' : World) : Prop where
  evolves : Evolves m.ByForms m.world w'
  holds : ∀ v, r = .ok v → w'.Holds v

variable {r : Except Error Value}

theorem Sealed.confined (h : m.Sealed r w') : m.Confined r w' :=
  ⟨h.evolves.mono fun _ _ _ _ hD => hD.byForms, h.holds⟩

theorem Sealed.unchanged (hready : m.Ready) (hr : ∀ v, r = .ok v → m.world.Holds v) :
    m.Sealed r m.world :=
  ⟨.refl hready.wellFormed, hr⟩

theorem Confined.unchanged (hready : m.Ready) (hr : ∀ v, r = .ok v → m.world.Holds v) :
    m.Confined r m.world :=
  ⟨.refl hready.wellFormed, hr⟩

theorem Confined.ok {v : Value} (h : Evolves m.ByForms m.world w') (hv : w'.Holds v) :
    m.Confined (.ok v) w' := by
  refine ⟨h, fun _ heq => ?_⟩
  obtain rfl := Except.ok.inj heq
  exact hv

theorem Confined.value {v : Value} (hready : m.Ready) (hv : m.world.Holds v) :
    m.Confined (.ok v) m.world :=
  .ok (.refl hready.wellFormed) hv

/-- The part in tail position gives the result of the whole. -/
theorem Confined.tail (hpart : Part m m₁) (hscope : m₁.scope = m.scope)
    (hbefore : Evolves m.ByForms m.world m₁.world) (h : m₁.Confined r w') : m.Confined r w' :=
  ⟨evolves_part hpart hscope hbefore h.evolves, h.holds⟩

theorem Sealed.tail (hpart : Part m m₁) (hbefore : Evolves m.ByEval m.world m₁.world)
    (h : m₁.Sealed r w') : m.Sealed r w' :=
  ⟨evolves_byEval hpart hbefore h.evolves, h.holds⟩

/-- The same for what is evaluated in a scope of its own. -/
theorem Sealed.entered (hpart : Part m m₁) (hnew : m.world.scopes.size ≤ m₁.scope)
    (hbefore : Evolves m.ByEval m.world m₁.world) (h : m₁.Confined r w') : m.Sealed r w' :=
  ⟨evolves_entered hpart hnew hbefore h.evolves, h.holds⟩

/-! ## Rules with changes -/

theorem ready_entered {w : World} {captured : ScopeId} (hw : w.WellFormed)
    (hcaptured : captured < w.scopes.size) {bindings : List (String × Value)}
    (hbindings : ∀ b ∈ bindings, w.Holds b.2) {task : Task}
    (hvalues : ∀ v ∈ task.values, w.Holds v) :
    Ready ⟨task, w.scopes.size, w.enter captured bindings⟩ := by
  have henter : Evolves (fun _ _ _ => True) w (w.enter captured bindings) :=
    .enter hw hcaptured hbindings
  refine ⟨henter.wellFormed, ?_, fun v hv => henter.holds (hvalues v hv)⟩
  rw [World.enter, Array.size_push]
  exact Nat.lt_succ_self _

/-- A body that is evaluated in a scope made for it. -/
theorem sealed_body {captured : ScopeId} {bindings : List (String × Value)} {body : Value}
    (hpart : Part m ⟨.evaluate body, m.world.scopes.size, m.world.enter captured bindings⟩)
    (hw : m.world.WellFormed) (hcaptured : captured < m.world.scopes.size)
    (hbindings : ∀ b ∈ bindings, m.world.Holds b.2) (hbody : m.world.Holds body)
    (h : Ready ⟨.evaluate body, m.world.scopes.size, m.world.enter captured bindings⟩ →
      Confined ⟨.evaluate body, m.world.scopes.size, m.world.enter captured bindings⟩ r w') :
    m.Sealed r w' := by
  have hready : Ready ⟨.evaluate body, m.world.scopes.size, m.world.enter captured bindings⟩ :=
    ready_entered hw hcaptured hbindings (List.forall_mem_singleton.mpr hbody)
  exact .entered hpart (Nat.le_refl _) (.enter hw hcaptured hbindings) (h hready)

/-- A definition in the scope of the moment, when its value is there. -/
theorem confined_define {w₁ : World} (hdefines : m.Defines name v)
    (hbefore : Evolves m.ByForms m.world w₁) (hv : w₁.Holds v) :
    m.Confined (.ok v) (w₁.define m.scope name v) := by
  have hmade : m.ByForms m.scope name v := ⟨⟨m, .refl, rfl, hdefines⟩, Or.inl rfl⟩
  have hdefine : Evolves m.ByForms w₁ (w₁.define m.scope name v) :=
    .define hbefore.wellFormed hv hmade
  exact .ok (hbefore.trans hdefine fun _ _ _ _ hD => hD) (hdefine.holds hv)

end Moment

open Moment

section LetIn

variable {bindings body : Value} {items : List Value} {scope : ScopeId} {w w₁ w' : World}
  {r : Except Error Value}

/-- The moment at which the bindings of a `let*` are evaluated. -/
theorem ready_letBindings (hready : Ready ⟨.special .letIn [bindings, body], scope, w⟩)
    (hitems : bindings.letPairs? = some items) :
    Ready ⟨.bind items, w.scopes.size, w.enter scope []⟩ := by
  have hbindings : w.Holds bindings := hready.holds bindings (List.mem_cons_self ..)
  have hpairs := (Option.filter_eq_some_iff.mp hitems).1
  exact ready_entered hready.wellFormed hready.scope (List.forall_mem_nil _)
    (hereditary_scoped.items hbindings hpairs)

/-- What the bindings of a `let*` do is confined to its scope. -/
theorem evolves_letBindings (hready : Ready ⟨.special .letIn [bindings, body], scope, w⟩)
    (hitems : bindings.letPairs? = some items)
    (h : Evolves (Binding ⟨.bind items, w.scopes.size, w.enter scope []⟩) (w.enter scope []) w₁) :
    Evolves (ByEval ⟨.special .letIn [bindings, body], scope, w⟩) w w₁ :=
  evolves_binding_entered (.letBindings hitems) (Nat.le_refl _)
    (.enter hready.wellFormed hready.scope (List.forall_mem_nil _)) h

theorem ready_letBody (hready : Ready ⟨.special .letIn [bindings, body], scope, w⟩)
    (hitems : bindings.letPairs? = some items)
    (h : Evolves (Binding ⟨.bind items, w.scopes.size, w.enter scope []⟩) (w.enter scope []) w₁) :
    Ready ⟨.evaluate body, w.scopes.size, w₁⟩ := by
  have hbody : w.Holds body := hready.holds body (by simp [Task.values])
  have hwhole := evolves_letBindings hready hitems h
  exact (ready_letBindings hready hitems).later h
    (List.forall_mem_singleton.mpr (hwhole.holds hbody))

theorem sealed_letBody (hready : Ready ⟨.special .letIn [bindings, body], scope, w⟩)
    (hitems : bindings.letPairs? = some items)
    (hbindings : Binds items w.scopes.size (w.enter scope []) (.ok ()) w₁)
    (h : Evolves (Binding ⟨.bind items, w.scopes.size, w.enter scope []⟩) (w.enter scope []) w₁)
    (hbody : Ready ⟨.evaluate body, w.scopes.size, w₁⟩ →
      Confined ⟨.evaluate body, w.scopes.size, w₁⟩ r w') :
    Sealed ⟨.special .letIn [bindings, body], scope, w⟩ r w' :=
  .entered (.letBody hitems hbindings) (Nat.le_refl _) (evolves_letBindings hready hitems h)
    (hbody (ready_letBody hready hitems h))

end LetIn

theorem holds_operands {operator : Value} {operands : List Value} {scope : ScopeId} {w : World}
    (hready : Ready ⟨.plain (.list (operator :: operands)), scope, w⟩) :
    (∀ v ∈ [operator], w.Holds v) ∧ ∀ v ∈ operands, w.Holds v := by
  have hform : w.Holds (.list (operator :: operands)) := hready.holds _ (List.mem_singleton_self _)
  obtain ⟨hfirst, hrest⟩ := List.forall_mem_cons.mp (scoped_list.mp hform)
  exact ⟨List.forall_mem_singleton.mpr hfirst, hrest⟩

section Applying

variable {args : List Value} {scope : ScopeId} {w w' : World} {r : Except Error Value}

/-- What `eval` does is open to it, since it does it in a root scope. -/
theorem sealed_eval {form : Value} (hready : Ready ⟨.apply (.builtin .eval) [form], scope, w⟩)
    (h : Ready ⟨.evaluate form, w.root scope, w⟩ →
      Confined ⟨.evaluate form, w.root scope, w⟩ r w') :
    Sealed ⟨.apply (.builtin .eval) [form], scope, w⟩ r w' := by
  have hroot : w.Parentless (w.root scope) := hready.wellFormed.parentless_root hready.scope
  have hsize : w.root scope < w.scopes.size := by
    obtain ⟨root, hfound, -⟩ := hroot
    exact lt_size_of_getElem? hfound
  have hform : w.Holds form := hready.holds form (by simp [Task.values])
  have hinner := h ⟨hready.wellFormed, hsize, List.forall_mem_singleton.mpr hform⟩
  refine ⟨hinner.evolves.mono fun s _ name v hD => ⟨hD.made.part .eval, ?_⟩, hinner.holds⟩
  rcases hD.here with rfl | hopened
  · exact ⟨hroot, _, form, .refl, rfl, rfl⟩
  · exact hopened.part .eval id

theorem ready_swap {f : Value} {more : List Value} {cell : CellId}
    (hready : Ready ⟨.apply (.builtin .swap) (.atom cell :: f :: more), scope, w⟩) :
    Ready ⟨.apply f (w.contents cell :: more), scope, w⟩ := by
  have hvalues : ∀ v ∈ f :: more, w.Holds v := fun v hv =>
    hready.holds v (List.mem_cons_of_mem _ (List.mem_cons_of_mem _ hv))
  obtain ⟨hf, hmore⟩ := List.forall_mem_cons.mp hvalues
  have hcontents : w.Holds (w.contents cell) :=
    Action.hereditary_contents hereditary_scoped cell hready.wellFormed.cells
  exact hready.same (List.forall_mem_cons.mpr ⟨hf, List.forall_mem_cons.mpr ⟨hcontents, hmore⟩⟩)

/-- A primitive that evaluates nothing changes no scope. -/
theorem sealed_primitive {p : Primitive} (hready : Ready ⟨.apply (.builtin p) args, scope, w⟩)
    (h : ∀ evaluate, (p.checked evaluate scope args).Ends w r w') :
    Sealed ⟨.apply (.builtin p) args, scope, w⟩ r w' := by
  have hargs := (List.forall_mem_cons.mp hready.holds).2
  obtain ⟨hscopes, hcells, hresult⟩ :=
    (Primitive.keeps_checked hereditary_scoped (fun _ _ => Action.keeps_halt) hargs).ends
      hready.wellFormed.cells (h fun _ _ => Action.halt .fault)
  refine ⟨.of_scopes hready.wellFormed hscopes hcells, fun v heq => ?_⟩
  rw [Holds, hscopes]
  exact hresult v heq

end Applying

/-! ## The induction -/

mutual

theorem Evaluates.confined {form : Value} {scope : ScopeId} {w w' : World}
    {r : Except Error Value} : Evaluates form scope w r w' → Ready ⟨.evaluate form, scope, w⟩ →
      Confined ⟨.evaluate form, scope, w⟩ r w'
  | .expansionFails h, hready =>
    .tail .expansion rfl (.refl hready.wellFormed) (h.sealed (hready.same hready.holds)).confined
  | .expanded h h', hready => by
    have hexpand := h.sealed (hready.same hready.holds)
    have hbefore := evolves_part .expansion rfl (.refl hready.wellFormed) hexpand.confined.evolves
    have hplain := h'.confined
      (hready.later hbefore (List.forall_mem_singleton.mpr (hexpand.holds _ rfl)))
    exact .tail (.expanded h) rfl hbefore hplain

theorem Expands.sealed {form : Value} {scope : ScopeId} {w w' : World}
    {r : Except Error Value} : Expands form scope w r w' → Ready ⟨.expand form, scope, w⟩ →
      Sealed ⟨.expand form, scope, w⟩ r w'
  | .plain h, hready => by
    refine .unchanged hready fun v heq => ?_
    obtain rfl := Except.ok.inj heq
    exact hready.holds form (List.mem_singleton_self _)
  | .misfit h hargs, hready => .unchanged hready nofun
  | .bodyFails h hargs hbody, hready => by
    have hform : w.Holds form := hready.holds form (List.mem_singleton_self _)
    obtain ⟨hcaptured, hbodyHolds, hargsHold⟩ := hready.wellFormed.holds_macroCall? hform h
    exact sealed_body (.macroBody h hargs) hready.wellFormed hcaptured
      (Call.hereditary_bindings hereditary_scoped hargs hargsHold) hbodyHolds hbody.confined
  | .step h hargs hbody hrest, hready => by
    have hform : w.Holds form := hready.holds form (List.mem_singleton_self _)
    obtain ⟨hcaptured, hbodyHolds, hargsHold⟩ := hready.wellFormed.holds_macroCall? hform h
    have hcall := sealed_body (.macroBody h hargs) hready.wellFormed hcaptured
      (Call.hereditary_bindings hereditary_scoped hargs hargsHold) hbodyHolds hbody.confined
    have hexpansion := List.forall_mem_singleton.mpr (hcall.holds _ rfl)
    exact .tail (.macroRest h hargs hbody) hcall.evolves
      (hrest.sealed (hready.later hcall.evolves hexpansion))

theorem EvaluatesPlain.confined {form : Value} {scope : ScopeId} {w w' : World}
    {r : Except Error Value} : EvaluatesPlain form scope w r w' → Ready ⟨.plain form, scope, w⟩ →
      Confined ⟨.plain form, scope, w⟩ r w'
  | .bound h, hready => .value hready (hready.wellFormed.holds_find? h)
  | .unbound h, hready => .unchanged hready nofun
  | @EvaluatesPlain.vector items _ _ _ vs h, hready => by
    have hform : w.Holds (.vector items) := hready.holds _ (List.mem_singleton_self _)
    obtain ⟨hevolves, hvs⟩ := h.confined (hready.same (scoped_vector.mp hform))
    refine ⟨evolves_part .elements rfl (.refl hready.wellFormed) hevolves, fun v heq => ?_⟩
    cases vs with
    | ok vs =>
      obtain rfl := Except.ok.inj heq
      exact scoped_vector.mpr (hvs vs rfl)
    | error e => cases heq
  | @EvaluatesPlain.map entries _ _ _ vs h, hready => by
    have hform : w.Holds (.map entries) := hready.holds _ (List.mem_singleton_self _)
    obtain ⟨hevolves, hvs⟩ := h.confined (hready.same (scoped_map.mp hform))
    refine ⟨evolves_part .entries rfl (.refl hready.wellFormed) hevolves, fun v heq => ?_⟩
    cases vs with
    | ok vs =>
      obtain rfl := Except.ok.inj heq
      exact hereditary_scoped.ofPairs (hvs vs rfl)
    | error e => cases heq
  | .self h, hready => .value hready (hready.holds form (List.mem_singleton_self _))
  | .emptyList, hready => .value hready (scoped_list.mpr nofun)
  | .special h h', hready =>
    .tail (.special h) rfl (.refl hready.wellFormed)
      (h'.confined (hready.same (holds_operands hready).2))
  | .operatorFails h hoperator, hready =>
    .tail (.operator h) rfl (.refl hready.wellFormed)
      (hoperator.confined (hready.same (holds_operands hready).1))
  | .operandFails h hoperator hoperands, hready => by
    obtain ⟨hfirst, hrest⟩ := holds_operands hready
    have hcallee := hoperator.confined (hready.same hfirst)
    have hbefore := evolves_part (.operator h) rfl (.refl hready.wellFormed) hcallee.evolves
    have hargs := hoperands.confined (hready.later hbefore fun v hv => hbefore.holds (hrest v hv))
    exact ⟨evolves_part (.operands h hoperator) rfl hbefore hargs.1, nofun⟩
  | .call h hoperator hoperands hcall, hready => by
    obtain ⟨hfirst, hrest⟩ := holds_operands hready
    have hcallee := hoperator.confined (hready.same hfirst)
    have hbefore := evolves_part (.operator h) rfl (.refl hready.wellFormed) hcallee.evolves
    have hargs := hoperands.confined (hready.later hbefore fun v hv => hbefore.holds (hrest v hv))
    have hbefore' := evolves_part (.operands h hoperator) rfl hbefore hargs.1
    have hvalues := List.forall_mem_cons.mpr
      ⟨hargs.1.holds (hcallee.holds _ rfl), hargs.2 _ rfl⟩
    exact .tail (.call h hoperator hoperands) rfl hbefore'
      (hcall.sealed (hready.later hbefore' hvalues)).confined

theorem EvaluatesSpecial.confined {form : SpecialForm} {operands : List Value} {scope : ScopeId}
    {w w' : World} {r : Except Error Value} : EvaluatesSpecial form operands scope w r w' →
      Ready ⟨.special form operands, scope, w⟩ → Confined ⟨.special form operands, scope, w⟩ r w'
  | .arity h, hready => .unchanged hready nofun
  | .defineMisnamed h, hready => .unchanged hready nofun
  | .defineFails h hform, hready =>
    .tail (.define h) rfl (.refl hready.wellFormed)
      (hform.confined (hready.form (by simp [Task.values])))
  | .define h hform, hready => by
    have hvalue := hform.confined (hready.form (by simp [Task.values]))
    have hbefore := evolves_part (.define h) rfl (.refl hready.wellFormed) hvalue.evolves
    exact confined_define (.define h hform) hbefore (hvalue.holds _ rfl)
  | .letMisshapen h, hready => .unchanged hready nofun
  | .letFails h hbindings, hready => by
    have hevolves := hbindings.confined (ready_letBindings hready h)
    exact Sealed.confined ⟨evolves_letBindings hready h hevolves, nofun⟩
  | .letIn h hbindings hbody, hready => by
    have hevolves := hbindings.confined (ready_letBindings hready h)
    exact (sealed_letBody hready h hbindings hevolves hbody.confined).confined
  | .conditionFails h hcondition, hready =>
    .tail (.condition h) rfl (.refl hready.wellFormed)
      (hcondition.confined (hready.form (by simp [Task.values])))
  | .yes h hcondition hv hyes, hready => by
    have htest := hcondition.confined (hready.form (by simp [Task.values]))
    have hbefore := evolves_part (.condition h) rfl (.refl hready.wellFormed) htest.evolves
    exact .tail (.yes h hcondition hv) rfl hbefore
      (hyes.confined (hready.formLater hbefore (by simp [Task.values])))
  | .no hcondition hv hno, hready => by
    have htest := hcondition.confined (hready.form (by simp [Task.values]))
    have hbefore := evolves_part (.condition (by simp)) rfl (.refl hready.wellFormed) htest.evolves
    exact .tail (.no hcondition hv) rfl hbefore
      (hno.confined (hready.formLater hbefore (by simp [Task.values])))
  | .noElse hcondition hv, hready => by
    have htest := hcondition.confined (hready.form (by simp [Task.values]))
    have hbefore := evolves_part (.condition (by simp)) rfl (.refl hready.wellFormed) htest.evolves
    exact .ok hbefore (scoped_leaf trivial)
  | .sequence h, hready =>
    .tail .sequence rfl (.refl hready.wellFormed) (h.confined (hready.same hready.holds))
  | .functionMisshapen h, hready => .unchanged hready nofun
  | @EvaluatesSpecial.function params body _ _ _ h, hready => by
    have hbody : w.Holds body := hready.holds body (by simp [Task.values])
    exact .ok (.count hready.wellFormed) (scoped_closure.mpr ⟨hready.scope, hbody⟩)
  | @EvaluatesSpecial.quote v _ _, hready =>
    .value hready (hready.holds v (List.mem_singleton_self _))
  | @EvaluatesSpecial.quasiquoteExpand template _ _, hready => by
    refine .unchanged hready fun v heq => ?_
    have htemplate : w.Holds template := hready.holds _ (List.mem_singleton_self _)
    cases hform : Quasiquote.expand template with
    | error cause =>
      rw [hform] at heq
      cases heq
    | ok form =>
      rw [hform] at heq
      obtain rfl := Except.ok.inj heq
      exact Quasiquote.hereditary_expand hereditary_scoped template htemplate form hform
  | .quasiquoteMisshapen h, hready => .unchanged hready nofun
  | @EvaluatesSpecial.quasiquote template form _ _ _ _ h hform, hready => by
    have htemplate : w.Holds template := hready.holds _ (List.mem_singleton_self _)
    have hexpanded := Quasiquote.hereditary_expand hereditary_scoped template htemplate form h
    exact .tail (.quasiquote h) rfl (.refl hready.wellFormed)
      (hform.confined (hready.same (List.forall_mem_singleton.mpr hexpanded)))
  | .macroMisnamed h, hready => .unchanged hready nofun
  | .macroFails h hform, hready =>
    .tail (.defineMacro h) rfl (.refl hready.wellFormed)
      (hform.confined (hready.form (by simp [Task.values])))
  | .macroNoFunction h hform hv, hready => by
    have hvalue := hform.confined (hready.form (by simp [Task.values]))
    exact ⟨evolves_part (.defineMacro h) rfl (.refl hready.wellFormed) hvalue.evolves, nofun⟩
  | .defineMacro h hform, hready => by
    have hvalue := hform.confined (hready.form (by simp [Task.values]))
    have hbefore := evolves_part (.defineMacro h) rfl (.refl hready.wellFormed) hvalue.evolves
    have hcount := hbefore.trans (.count hbefore.wellFormed) fun _ _ _ _ hD => hD
    have hclosure := scoped_closure.mp (hvalue.holds _ rfl)
    exact confined_define (.defineMacro h hform) hcount (scoped_closure.mpr hclosure)
  | .expandMacros h, hready =>
    .tail .expandMacros rfl (.refl hready.wellFormed) (h.sealed (hready.same hready.holds)).confined

theorem EvaluatesEach.confined {forms : List Value} {scope : ScopeId} {w w' : World}
    {r : Except Error (List Value)} : EvaluatesEach forms scope w r w' →
      Ready ⟨.each forms, scope, w⟩ →
      Evolves (ByForms ⟨.each forms, scope, w⟩) w w' ∧ ∀ vs, r = .ok vs → ∀ v ∈ vs, w'.Holds v
  | .nil, hready => by
    refine ⟨.refl hready.wellFormed, fun vs heq => ?_⟩
    obtain rfl := Except.ok.inj heq
    exact List.forall_mem_nil _
  | .headFails h, hready => by
    have hfirst := h.confined (hready.form (List.mem_cons_self ..))
    exact ⟨evolves_part .eachFirst rfl (.refl hready.wellFormed) hfirst.evolves, nofun⟩
  | @EvaluatesEach.cons form v rest _ _ _ _ vs h hrest, hready => by
    have hfirst := h.confined (hready.form (List.mem_cons_self ..))
    have hbefore := evolves_part .eachFirst rfl (.refl hready.wellFormed) hfirst.evolves
    have hlater := hrest.confined (hready.later hbefore fun x hx =>
      hbefore.holds (hready.holds x (List.mem_cons_of_mem _ hx)))
    refine ⟨evolves_part (.eachRest h) rfl hbefore hlater.1, fun us heq => ?_⟩
    cases vs with
    | ok vs =>
      obtain rfl := Except.ok.inj heq
      exact List.forall_mem_cons.mpr ⟨hlater.1.holds (hfirst.holds v rfl), hlater.2 vs rfl⟩
    | error e => cases heq

theorem Binds.confined {items : List Value} {scope : ScopeId} {w w' : World}
    {r : Except Error Unit} : Binds items scope w r w' → Ready ⟨.bind items, scope, w⟩ →
      Evolves (Binding ⟨.bind items, scope, w⟩) w w'
  | .nil, hready => .refl hready.wellFormed
  | .misnamed h, hready => .refl hready.wellFormed
  | .formFails h hform, hready => by
    have hvalue := hform.confined (hready.form (by simp [Task.values]))
    exact evolves_binding (.bindFirst h) rfl (.refl hready.wellFormed)
      (hvalue.evolves.mono fun _ _ _ _ hD => hD.binding)
  | @Binds.cons target form v rest name _ _ w₁ _ _ h hform hrest, hready => by
    have hvalue := hform.confined (hready.form (by simp [Task.values]))
    have hbefore := evolves_binding (.bindFirst h) rfl (.refl hready.wellFormed)
      (hvalue.evolves.mono fun _ _ _ _ hD => hD.binding)
    have hbound : Evolves (Binding ⟨.bind (target :: form :: rest), scope, w⟩) w₁
        (w₁.define scope name v) :=
      .define hbefore.wellFormed (hvalue.holds v rfl) (Or.inl rfl)
    have hdefine := hbefore.trans hbound fun _ _ _ _ hD => hD
    have hlater := hrest.confined (hready.later hdefine fun x hx =>
      hdefine.holds (hready.holds x (List.mem_cons_of_mem _ (List.mem_cons_of_mem _ hx))))
    exact evolves_binding (.bindRest h hform) rfl hdefine hlater

theorem EvaluatesSequence.confined {forms : List Value} {scope : ScopeId} {w w' : World}
    {r : Except Error Value} : EvaluatesSequence forms scope w r w' →
      Ready ⟨.sequence forms, scope, w⟩ → Confined ⟨.sequence forms, scope, w⟩ r w'
  | .nil, hready => .value hready (scoped_leaf trivial)
  | .last h, hready =>
    .tail .sequenceFirst rfl (.refl hready.wellFormed)
      (h.confined (hready.form (List.mem_cons_self ..)))
  | .formFails h, hready =>
    .tail .sequenceFirst rfl (.refl hready.wellFormed)
      (h.confined (hready.form (List.mem_cons_self ..)))
  | .cons h hrest, hready => by
    have hfirst := h.confined (hready.form (List.mem_cons_self ..))
    have hbefore := evolves_part .sequenceFirst rfl (.refl hready.wellFormed) hfirst.evolves
    exact .tail (.sequenceRest h) rfl hbefore (hrest.confined (hready.later hbefore fun x hx =>
      hbefore.holds (hready.holds x (List.mem_cons_of_mem _ hx))))

theorem Applies.sealed {f : Value} {args : List Value} {scope : ScopeId} {w w' : World}
    {r : Except Error Value} : Applies f args scope w r w' → Ready ⟨.apply f args, scope, w⟩ →
      Sealed ⟨.apply f args, scope, w⟩ r w'
  | .misfit h, hready => .unchanged hready nofun
  | .closure h hbody, hready => by
    obtain ⟨hf, hargs⟩ := List.forall_mem_cons.mp hready.holds
    obtain ⟨hcaptured, hbodyHolds⟩ := scoped_closure.mp hf
    exact sealed_body (.closureBody h) hready.wellFormed hcaptured
      (Call.hereditary_bindings hereditary_scoped h hargs) hbodyHolds hbody.confined
  | .eval h, hready => sealed_eval hready h.confined
  | .swapTooFew h, hready => .unchanged hready nofun
  | .swapNoAtom h, hready => .unchanged hready nofun
  | .swapFails h, hready =>
    .tail .swap (.refl hready.wellFormed) (h.sealed (ready_swap hready))
  | .swap h, hready => by
    have hcall := Sealed.tail .swap (.refl hready.wellFormed) (h.sealed (ready_swap hready))
    exact ⟨hcall.evolves.trans (.store hcall.evolves.wellFormed (hcall.holds _ rfl))
      fun _ _ _ _ hD => hD, hcall.holds⟩
  | .primitive h, hready => sealed_primitive hready h
  | .uncallable h, hready => .unchanged hready nofun

end

/-- Any `let*` leaves even its surroundings alone. -/
theorem EvaluatesSpecial.sealed_letIn {operands : List Value} {scope : ScopeId} {w w' : World}
    {r : Except Error Value} (h : EvaluatesSpecial .letIn operands scope w r w')
    (hready : Ready ⟨.special .letIn operands, scope, w⟩) :
    Sealed ⟨.special .letIn operands, scope, w⟩ r w' := by
  cases h with
  | arity h => exact .unchanged hready nofun
  | letMisshapen h => exact .unchanged hready nofun
  | letFails h hbindings =>
    have hevolves := hbindings.confined (ready_letBindings hready h)
    exact ⟨evolves_letBindings hready h hevolves, nofun⟩
  | letIn h hbindings hbody =>
    have hevolves := hbindings.confined (ready_letBindings hready h)
    exact sealed_letBody hready h hbindings hevolves hbody.confined

/-! ## The worlds of a session -/

namespace Session

/-- The world has its root scope and is well formed. -/
structure Rooted (w : World) : Prop where
  wellFormed : w.WellFormed
  root : rootScope < w.scopes.size

theorem rooted_of_evolves {D : ScopeId → String → Value → Prop} {w w' : World} (h : Rooted w)
    (hevolves : Evolves D w w') : Rooted w' :=
  ⟨hevolves.wellFormed, Nat.lt_of_lt_of_le h.root hevolves.size_le⟩

theorem rooted_bare (files : Files) (argv : List String) : Rooted (bare files argv) := by
  have hbindings : ∀ binding ∈ primitiveBindings argv, (bare files argv).Holds binding.2 := by
    intro binding hb
    rcases List.mem_append.mp hb with hb | hb
    · obtain ⟨p, -, rfl⟩ := List.mem_map.mp hb
      exact scoped_leaf trivial
    · obtain rfl := List.mem_singleton.mp hb
      refine scoped_list.mpr fun v hv => ?_
      obtain ⟨arg, -, rfl⟩ := List.mem_map.mp hv
      exact scoped_leaf trivial
  refine ⟨⟨?_, ?_, fun v hv => absurd hv (Array.not_mem_empty v)⟩, Nat.one_pos⟩
  · intro s scope parent h hparent
    cases s with
    | zero =>
      cases h
      cases hparent
    | succ s => cases h
  · intro s scope h
    cases s with
    | zero =>
      cases h
      exact hbindings
    | succ s => cases h

theorem rooted_eval {b : Budget} {source : String} {w w' : World} {r : Except Error Value}
    (hw : Rooted w) (h : (eval b source).Ends w r w') : Rooted w' := by
  rcases ends_eval.mp h with ⟨form, hread, hform⟩ | ⟨d, -, -, rfl⟩
  · have hready : Ready ⟨.evaluate form, rootScope, w⟩ :=
      ⟨hw.wellFormed, hw.root, List.forall_mem_singleton.mpr (scoped_of_read hread)⟩
    have hconfined := (evaluate_sound b.steps b.depth hform).confined hready
    exact rooted_of_evolves hw hconfined.evolves
  · exact hw

/-- A session starts in a well-formed world. -/
theorem rooted_start (files : Files) (argv : List String) : Rooted (start files argv) :=
  start_preserves (rooted_bare files argv) rooted_eval

end Session

/-! ## What is left behind -/

namespace Moment

/-- What became of a scope during a moment: its parent is the same, no
name is unbound in it, and its bindings differ by what `def!` and
`defmacro!` made that were evaluated directly in it. If it is not open,
nothing is different. -/
structure Succeeds (m : Moment) (s : ScopeId) (Open : Prop) (old new : Scope) : Prop where
  parent : new.parent = old.parent
  bound : ∀ name, (old.find? name).isSome = true → (new.find? name).isSome = true
  made : ∃ changes, new = old.defineAll changes ∧ ∀ c ∈ changes, m.Makes s c.1 c.2
  closed : ¬Open → new = old

/-- The scope is that of the moment, or `eval` gets at it. -/
def HereOrEval (m : Moment) (s : ScopeId) : Prop := s = m.scope ∨ m.OpenToEval s

/-- What a moment leaves behind, if only the scopes in `Open` may be
written to. -/
structure Leaves (m : Moment) (Open : Moment → ScopeId → Prop) (r : Except Error Value)
    (w' : World) : Prop where
  scopes : ∀ s old, m.world.scopes[s]? = some old →
    ∃ new, w'.scopes[s]? = some new ∧ m.Succeeds s (Open m s) old new
  wellFormed : w'.WellFormed
  result : ∀ v, r = .ok v → w'.Holds v

variable {m : Moment} {r : Except Error Value} {w' : World}

theorem leaves_of_evolves {D : ScopeId → String → Value → Prop}
    {Open : Moment → ScopeId → Prop} (h : Evolves D m.world w')
    (hmade : ∀ {s name v}, D s name v → m.Makes s name v)
    (hopen : ∀ {s name v}, D s name v → Open m s) (hr : ∀ v, r = .ok v → w'.Holds v) :
    m.Leaves Open r w' := by
  refine ⟨fun s old hold => ?_, h.wellFormed, hr⟩
  obtain ⟨changes, hnew, hchanges⟩ := h.scopes s old hold
  refine ⟨_, hnew, old.defineAll_parent changes, fun _ => Scope.find?_defineAll_isSome changes,
    ⟨changes, rfl, fun c hc => hmade (hchanges c hc)⟩, fun hclosed => ?_⟩
  have hnone : changes = [] := by
    rw [List.eq_nil_iff_forall_not_mem]
    exact fun c hc => hclosed (hopen (hchanges c hc))
  rw [hnone]
  rfl

theorem Confined.leaves (h : m.Confined r w') : m.Leaves HereOrEval r w' :=
  leaves_of_evolves h.evolves (fun hD => hD.made) (fun hD => hD.here) h.holds

theorem Sealed.leaves (h : m.Sealed r w') : m.Leaves OpenToEval r w' :=
  leaves_of_evolves h.evolves (fun hD => hD.made) (fun hD => hD.opened) h.holds

end Moment

/-- What a call of `let*` does, it does in the special form. -/
theorem sealed_letForm {operands : List Value} {scope : ScopeId} {w w' : World}
    {r : Except Error Value} (hfree : ¬w.BindsMacro scope "let*")
    (hready : Ready ⟨.evaluate (.list (.symbol "let*" :: operands)), scope, w⟩)
    (h : Evaluates (.list (.symbol "let*" :: operands)) scope w r w') :
    Sealed ⟨.evaluate (.list (.symbol "let*" :: operands)), scope, w⟩ r w' := by
  have hspecial : EvaluatesSpecial .letIn operands scope w r w' := by
    have hrules := evaluates_special hfree (SpecialForm.ofName?_name .letIn) operands
    exact (Behavior.at_iff hrules r w').mp h
  have hform : w.Holds (.list (.symbol "let*" :: operands)) :=
    hready.holds _ (List.mem_singleton_self _)
  have hoperands := (List.forall_mem_cons.mp (scoped_list.mp hform)).2
  have hexpand := Expands.plain (World.macroCall?_of_not_bindsMacro hfree operands)
  have hunchanged : ∀ {D}, Evolves D w w := .refl hready.wellFormed
  exact .tail (.expanded hexpand) hunchanged
    (.tail (.special (SpecialForm.ofName?_name .letIn)) hunchanged
      (hspecial.sealed_letIn (hready.same hoperands)))

/-- In a well-formed world, an evaluation leaves every scope that was
there with its parent and its names, and changes its bindings only if it
is the scope of the evaluation, or a root that `eval` gets at during the
evaluation; and then only by what is defined directly in this scope. A
`let*`, the application of a function and the expansion of macros do not
even write to the scope that they happen in. All this is so for values
and for errors, and the world that is left is well formed again. -/
theorem evaluate_confined {scope : ScopeId} {w : World} (hw : w.WellFormed)
    (hscope : scope < w.scopes.size) (steps depth : Nat) :
    (∀ form r w', w.Holds form → (evaluate steps depth form scope).Ends w r w' →
      Leaves ⟨.evaluate form, scope, w⟩ HereOrEval r w') ∧
    (∀ operands r w', w.Holds (.list (.symbol "let*" :: operands)) →
      ¬w.BindsMacro scope "let*" →
      (evaluate steps depth (.list (.symbol "let*" :: operands)) scope).Ends w r w' →
      Leaves ⟨.evaluate (.list (.symbol "let*" :: operands)), scope, w⟩ OpenToEval r w') ∧
    (∀ f args r w', w.Holds f → (∀ arg ∈ args, w.Holds arg) →
      (apply (evaluate steps depth) scope f args).Ends w r w' →
      Leaves ⟨.apply f args, scope, w⟩ OpenToEval r w') ∧
    ∀ form r w', w.Holds form →
      (expandMacros (evaluate steps depth) steps form scope).Ends w r w' →
      Leaves ⟨.expand form, scope, w⟩ OpenToEval r w' := by
  have hsound : SoundFor (evaluate steps depth) := evaluate_sound steps depth
  refine ⟨fun form r w' hform h => ?_, fun operands r w' hform hfree h => ?_,
    fun f args r w' hf hargs h => ?_, fun form r w' hform h => ?_⟩
  · have hready : Ready ⟨.evaluate form, scope, w⟩ :=
      ⟨hw, hscope, List.forall_mem_singleton.mpr hform⟩
    exact ((hsound h).confined hready).leaves
  · have hready : Ready ⟨.evaluate (.list (.symbol "let*" :: operands)), scope, w⟩ :=
      ⟨hw, hscope, List.forall_mem_singleton.mpr hform⟩
    exact (sealed_letForm hfree hready (hsound h)).leaves
  · have hready : Ready ⟨.apply f args, scope, w⟩ :=
      ⟨hw, hscope, List.forall_mem_cons.mpr ⟨hf, hargs⟩⟩
    exact ((apply_sound hsound h).sealed hready).leaves
  · have hready : Ready ⟨.expand form, scope, w⟩ :=
      ⟨hw, hscope, List.forall_mem_singleton.mpr hform⟩
    exact ((expandMacros_expands hsound steps h).sealed hready).leaves

/-- A root that binds `eval`, and an empty scope inside it. -/
def nestedWorld : World :=
  { World.empty fun _ => none with
    scopes := #[⟨none, [("eval", .builtin .eval)]⟩, ⟨some 0, []⟩] }

/-- The operands of a `let*` whose body defines one name where it is,
and one in the root. -/
def letOperands : List Value :=
  [.vector [.symbol "x", .int 1],
    .list [.symbol "do", .list [.symbol "def!", .symbol "z", .int 3],
      .list [.symbol "eval", .list [.symbol "quote",
        .list [.symbol "def!", .symbol "y", .int 2]]]]]

theorem wellFormed_nestedWorld : nestedWorld.WellFormed := by
  have hroot : World.WellFormed
      { World.empty fun _ => none with scopes := #[⟨none, [("eval", .builtin .eval)]⟩] } := by
    constructor
    · intro s scope parent h hparent
      cases s with
      | zero =>
        cases h
        cases hparent
      | succ s => cases h
    · intro s scope h binding hb
      cases s with
      | zero =>
        cases h
        obtain rfl := List.mem_singleton.mp hb
        exact scoped_leaf trivial
      | succ s => cases h
    · exact fun v hv => absurd hv (Array.not_mem_empty v)
  have henter : Evolves (fun _ _ _ => True) _ nestedWorld :=
    .enter hroot (by decide) (List.forall_mem_nil _)
  exact henter.wellFormed

theorem evaluate_letOperands :
    ∃ w', (evaluate 9 9 (.list (.symbol "let*" :: letOperands)) 1).Ends nestedWorld
        (.ok (.int 2)) w' ∧
      w'.scopes[1]? = some ⟨some 0, []⟩ ∧ w'.find? 0 "y" = some (.int 2) := by
  have hread : read "(let* [x 1] (do (def! z 3) (eval (quote (def! y 2)))))" =
      .ok (.list (.symbol "let*" :: letOperands)) := rfl
  have hholds : nestedWorld.Holds (.list (.symbol "let*" :: letOperands)) := scoped_of_read hread
  have hfree : ¬nestedWorld.BindsMacro 1 "let*" := by
    rintro ⟨_, _, _, _, h⟩
    cases h
  obtain ⟨w', hends, hy⟩ : ∃ w', (evaluate 9 9 (.list (.symbol "let*" :: letOperands)) 1).Ends
      nestedWorld (.ok (.int 2)) w' ∧ w'.find? 0 "y" = some (.int 2) := ⟨_, rfl, rfl⟩
  have hleaves := (evaluate_confined wellFormed_nestedWorld (by decide) 9 9).2.1 letOperands _ _
    hholds hfree hends
  obtain ⟨new, hnew, hsucceeds⟩ := hleaves.scopes 1 ⟨some 0, []⟩ rfl
  have hclosed : new = ⟨some 0, []⟩ := by
    refine hsucceeds.closed fun hopen => ?_
    obtain ⟨scope, hscope, hparent⟩ := hopen.parentless
    cases hscope
    cases hparent
  exact ⟨w', hends, by rw [hnew, hclosed], hy⟩

end Lisp
