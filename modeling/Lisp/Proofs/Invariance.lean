import Lisp.Proofs.Moments
import Lisp.Proofs.Prelude
import Lisp.Proofs.Soundness

/-!
# Invariants of values

What is true of all values of a world stays true, whatever is evaluated,
if it is a property that values hand on and that the two places where
closures come into being respect (`Value.Invariant`). `fn*` makes a
closure of names and a body, and `defmacro!` makes a copy of one with
another number.

The rules keep such a property (`Evaluates.kept`), hence all moments
that an evaluation goes through have it (`Part.all`, `Moment.Reaches.all`),
and all worlds of a session (`Session.Reachable.all`).
-/

namespace Lisp

open Value World

/-- A property of values that no evaluation breaks. -/
structure Value.Invariant (K : Value → Prop) : Prop extends Hereditary K where
  function : ∀ {object : ObjectId} {params body : Value} {names : List String}
    {captured : ScopeId}, parameterNames params = .ok names → K body →
      K (.closure object false names body captured)
  body : ∀ {object : ObjectId} {expander : Bool} {params : List String} {body : Value}
    {captured : ScopeId}, K (.closure object expander params body captured) → K body
  copy : ∀ {object object' : ObjectId} {expander : Bool} {params : List String} {body : Value}
    {captured : ScopeId}, K (.closure object expander params body captured) →
      K (.closure object' true params body captured)

variable {K : Value → Prop}

/-- The world that is left has the property, and so has the value. -/
structure Kept (K : Value → Prop) (r : Except Error Value) (w' : World) : Prop where
  world : w'.All K
  value : ∀ v, r = .ok v → K v

namespace Kept

variable {w : World}

theorem ok {v : Value} (hw : w.All K) (hv : K v) : Kept K (.ok v) w :=
  ⟨hw, fun _ heq => Except.ok.inj heq ▸ hv⟩

theorem error {e : Error} (hw : w.All K) : Kept K (.error e) w := 
  ⟨hw, fun _ h => by cases h⟩

end Kept

/-! ## Rules -/

theorem all_macroCall? (hK : Invariant K) {w : World} (hw : w.All K) {scope captured : ScopeId}
    {form body : Value} {params : List String} {args : List Value} (hform : K form)
    (h : w.macroCall? scope form = some (params, body, captured, args)) :
    (∃ object, K (.closure object true params body captured)) ∧ ∀ arg ∈ args, K arg := by
  unfold macroCall? at h
  split at h
  · split at h
    · next hfind =>
      cases h
      exact ⟨⟨_, hw.find? hfind⟩, (List.forall_mem_cons.mp (hK.list.mp hform)).2⟩
    · cases h
  · cases h

/-- What `swap!` applies its function to. -/
theorem all_swapped (hK : Invariant K) {w : World} (hw : w.All K) {cell : CellId} {f : Value}
    {more : List Value} (hall : ∀ v ∈ Value.atom cell :: f :: more, K v) :
    ∀ v ∈ w.contents cell :: more, K v :=
  List.forall_mem_cons.mpr ⟨Action.hereditary_contents hK.toHereditary cell hw.cells,
    fun v hv => hall v (List.mem_cons_of_mem _ (List.mem_cons_of_mem _ hv))⟩

mutual

theorem Evaluates.kept (hK : Invariant K) {form : Value} {scope : ScopeId} {w w' : World}
    {r : Except Error Value} :
    Evaluates form scope w r w' → w.All K → K form → Kept K r w'
  | .expansionFails h, hw, hform => h.kept hK hw hform
  | .expanded h h', hw, hform => by
    have hexpansion := h.kept hK hw hform
    exact h'.kept hK hexpansion.world (hexpansion.value _ rfl)

theorem Expands.kept (hK : Invariant K) {form : Value} {scope : ScopeId} {w w' : World}
    {r : Except Error Value} :
    Expands form scope w r w' → w.All K → K form → Kept K r w'
  | .plain _, hw, hform => .ok hw hform
  | .misfit _ _, hw, _ => .error hw
  | .bodyFails h hargs hbody, hw, hform => by
    obtain ⟨⟨object, hclosure⟩, hall⟩ := all_macroCall? hK hw hform h
    exact hbody.kept hK (hw.enter (Call.hereditary_bindings hK.toHereditary hargs hall))
      (hK.body hclosure)
  | .step h hargs hbody hrest, hw, hform => by
    obtain ⟨⟨object, hclosure⟩, hall⟩ := all_macroCall? hK hw hform h
    have hexpansion := hbody.kept hK
      (hw.enter (Call.hereditary_bindings hK.toHereditary hargs hall)) (hK.body hclosure)
    exact hrest.kept hK hexpansion.world (hexpansion.value _ rfl)

theorem EvaluatesPlain.kept (hK : Invariant K) {form : Value} {scope : ScopeId} {w w' : World}
    {r : Except Error Value} :
    EvaluatesPlain form scope w r w' → w.All K → K form → Kept K r w'
  | .bound h, hw, _ => .ok hw (hw.find? h)
  | .unbound _, hw, _ => .error hw
  | @EvaluatesPlain.vector items _ _ _ vs h, hw, hform => by
    obtain ⟨hw', hvs⟩ := h.kept hK hw (hK.vector.mp hform)
    refine ⟨hw', fun v heq => ?_⟩
    cases vs with
    | ok vs =>
      obtain rfl := Except.ok.inj heq
      exact hK.vector.mpr (hvs vs rfl)
    | error e => cases heq
  | @EvaluatesPlain.map entries _ _ _ vs h, hw, hform => by
    obtain ⟨hw', hvs⟩ := h.kept hK hw (hK.map.mp hform)
    refine ⟨hw', fun v heq => ?_⟩
    cases vs with
    | ok vs =>
      obtain rfl := Except.ok.inj heq
      exact hK.ofPairs (hvs vs rfl)
    | error e => cases heq
  | .self _, hw, hform => .ok hw hform
  | .emptyList, hw, hform => .ok hw hform
  | .special _ h', hw, hform => h'.kept hK hw (List.forall_mem_cons.mp (hK.list.mp hform)).2
  | .operatorFails _ hoperator, hw, hform =>
    hoperator.kept hK hw (List.forall_mem_cons.mp (hK.list.mp hform)).1
  | .operandFails _ hoperator hoperands, hw, hform => by
    obtain ⟨hfirst, hrest⟩ := List.forall_mem_cons.mp (hK.list.mp hform)
    have hcallee := hoperator.kept hK hw hfirst
    exact .error (hoperands.kept hK hcallee.world hrest).1
  | .call _ hoperator hoperands hcall, hw, hform => by
    obtain ⟨hfirst, hrest⟩ := List.forall_mem_cons.mp (hK.list.mp hform)
    have hcallee := hoperator.kept hK hw hfirst
    have hargs := hoperands.kept hK hcallee.world hrest
    exact hcall.kept hK hargs.1 (hcallee.value _ rfl) (hargs.2 _ rfl)

theorem EvaluatesSpecial.kept (hK : Invariant K) {form : SpecialForm} {operands : List Value}
    {scope : ScopeId} {w w' : World} {r : Except Error Value} :
    EvaluatesSpecial form operands scope w r w' → w.All K → (∀ v ∈ operands, K v) → Kept K r w'
  | .arity _, hw, _ | .defineMisnamed _, hw, _ | .letMisshapen _, hw, _
  | .functionMisshapen _, hw, _ | .quasiquoteMisshapen _, hw, _ | .macroMisnamed _, hw, _ =>
    .error hw
  | .defineFails _ hform, hw, hall | .macroFails _ hform, hw, hall =>
    hform.kept hK hw (hall _ (by simp))
  | .macroNoFunction _ hform _, hw, hall => .error (hform.kept hK hw (hall _ (by simp))).world
  | .define _ hform, hw, hall => by
    have hvalue := hform.kept hK hw (hall _ (by simp))
    exact .ok (hvalue.world.define (hvalue.value _ rfl)) (hvalue.value _ rfl)
  | .letFails h hbindings, hw, hall =>
    .error (hbindings.kept hK (hw.enter (List.forall_mem_nil _))
      (hK.items (hall _ (List.mem_cons_self ..)) (Option.filter_eq_some_iff.mp h).1))
  | .letIn h hbindings hbody, hw, hall =>
    hbody.kept hK (hbindings.kept hK (hw.enter (List.forall_mem_nil _))
      (hK.items (hall _ (List.mem_cons_self ..)) (Option.filter_eq_some_iff.mp h).1))
      (hall _ (by simp))
  | .conditionFails _ hcondition, hw, hall => hcondition.kept hK hw (hall _ (by simp))
  | .yes _ hcondition _ hyes, hw, hall =>
    hyes.kept hK (hcondition.kept hK hw (hall _ (by simp))).world (hall _ (by simp))
  | .no hcondition _ hno, hw, hall =>
    hno.kept hK (hcondition.kept hK hw (hall _ (by simp))).world (hall _ (by simp))
  | .noElse hcondition _, hw, hall =>
    .ok (hcondition.kept hK hw (hall _ (by simp))).world (hK.leaf trivial)
  | .sequence h, hw, hall => h.kept hK hw hall
  | .function h, hw, hall =>
    .ok (hw.of_scopes rfl hw.cells) (hK.function h (hall _ (by simp)))
  | .quote, hw, hall => .ok hw (hall _ (List.mem_singleton_self _))
  | @EvaluatesSpecial.quasiquoteExpand template _ _, hw, hall => by
    refine ⟨hw, fun v heq => ?_⟩
    cases hform : Quasiquote.expand template with
    | error cause =>
      rw [hform] at heq
      cases heq
    | ok form =>
      rw [hform] at heq
      obtain rfl := Except.ok.inj heq
      exact Quasiquote.hereditary_expand hK.toHereditary template
        (hall _ (List.mem_singleton_self _)) form hform
  | .quasiquote h hform, hw, hall =>
    hform.kept hK hw (Quasiquote.hereditary_expand hK.toHereditary _
      (hall _ (List.mem_singleton_self _)) _ h)
  | @EvaluatesSpecial.defineMacro _ _ body _ _ _ params _ captured _ w₁ _ hform, hw, hall => by
    have hvalue := hform.kept hK hw (hall _ (by simp))
    have hcopy : K (.closure w₁.objects true params body captured) := hK.copy (hvalue.value _ rfl)
    have hcount : w₁.count.All K := hvalue.world.of_scopes rfl hvalue.world.cells
    exact .ok (hcount.define hcopy) hcopy
  | .expandMacros h, hw, hall => h.kept hK hw (hall _ (List.mem_singleton_self _))

theorem EvaluatesEach.kept (hK : Invariant K) {forms : List Value} {scope : ScopeId} {w w' : World}
    {r : Except Error (List Value)} :
    EvaluatesEach forms scope w r w' → w.All K → (∀ v ∈ forms, K v) →
      w'.All K ∧ ∀ vs, r = .ok vs → ∀ v ∈ vs, K v
  | .nil, hw, _ => by
    refine ⟨hw, fun vs heq => ?_⟩
    obtain rfl := Except.ok.inj heq
    exact List.forall_mem_nil _
  | .headFails h, hw, hall => ⟨(h.kept hK hw (hall _ (List.mem_cons_self ..))).world, nofun⟩
  | @EvaluatesEach.cons form v rest _ _ _ _ vs h hrest, hw, hall => by
    obtain ⟨hform, hall⟩ := List.forall_mem_cons.mp hall
    have hfirst := h.kept hK hw hform
    obtain ⟨hw', hvs⟩ := hrest.kept hK hfirst.world hall
    refine ⟨hw', fun us heq => ?_⟩
    cases vs with
    | ok vs =>
      obtain rfl := Except.ok.inj heq
      exact List.forall_mem_cons.mpr ⟨hfirst.value v rfl, hvs vs rfl⟩
    | error e => cases heq

theorem Binds.kept (hK : Invariant K) {items : List Value} {scope : ScopeId} {w w' : World}
    {r : Except Error Unit} :
    Binds items scope w r w' → w.All K → (∀ v ∈ items, K v) → w'.All K
  | .nil, hw, _ | .misnamed _, hw, _ => hw
  | .formFails _ hform, hw, hall => (hform.kept hK hw (hall _ (by simp))).world
  | .cons _ hform hrest, hw, hall => by
    have hvalue := hform.kept hK hw (hall _ (by simp))
    exact hrest.kept hK (hvalue.world.define (hvalue.value _ rfl))
      fun v hv => hall v (List.mem_cons_of_mem _ (List.mem_cons_of_mem _ hv))

theorem EvaluatesSequence.kept (hK : Invariant K) {forms : List Value} {scope : ScopeId}
    {w w' : World} {r : Except Error Value} :
    EvaluatesSequence forms scope w r w' → w.All K → (∀ v ∈ forms, K v) → Kept K r w'
  | .nil, hw, _ => .ok hw (hK.leaf trivial)
  | .last h, hw, hall | .formFails h, hw, hall => h.kept hK hw (hall _ (List.mem_cons_self ..))
  | .cons h hrest, hw, hall =>
    hrest.kept hK (h.kept hK hw (hall _ (List.mem_cons_self ..))).world
      fun v hv => hall v (List.mem_cons_of_mem _ hv)

theorem Applies.kept (hK : Invariant K) {f : Value} {args : List Value} {scope : ScopeId}
    {w w' : World} {r : Except Error Value} :
    Applies f args scope w r w' → w.All K → K f → (∀ v ∈ args, K v) → Kept K r w'
  | .misfit _, hw, _, _ | .swapTooFew _, hw, _, _ | .swapNoAtom _, hw, _, _
  | .uncallable _, hw, _, _ => .error hw
  | .closure h hbody, hw, hf, hall =>
    hbody.kept hK (hw.enter (Call.hereditary_bindings hK.toHereditary h hall)) (hK.body hf)
  | .eval h, hw, _, hall => h.kept hK hw (hall _ (List.mem_singleton_self _))
  | @Applies.swapFails f more cell _ _ _ _ h, hw, _, hall =>
    h.kept hK hw (hall _ (by simp)) (all_swapped hK hw hall)
  | @Applies.swap f v more cell _ _ _ h, hw, _, hall => by
    have hvalue := h.kept hK hw (hall _ (by simp)) (all_swapped hK hw hall)
    exact .ok
      (hvalue.world.of_scopes rfl (Action.all_store (hvalue.value _ rfl) hvalue.world.cells))
      (hvalue.value _ rfl)
  | .primitive h, hw, _, hall => by
    obtain ⟨hscopes, hcells, hvalue⟩ :=
      (Primitive.keeps_checked hK.toHereditary (fun _ _ => Action.keeps_halt) hall).ends hw.cells
        (h fun _ _ => Action.halt .fault)
    exact ⟨hw.of_scopes hscopes hcells, hvalue⟩

end

/-! ## Moments -/

namespace Moment

/-- All values of the world and of the task have the property. -/
structure All (K : Value → Prop) (m : Moment) : Prop where
  world : m.world.All K
  values : ∀ v ∈ m.task.values, K v

/-- The task of the moment has this value or error, and leaves this
world. -/
def Gives (m : Moment) (r : Except Error Value) (w' : World) : Prop :=
  match m.task with
  | .evaluate form => Evaluates form m.scope m.world r w'
  | .expand form => Expands form m.scope m.world r w'
  | .plain form => EvaluatesPlain form m.scope m.world r w'
  | .special form operands => EvaluatesSpecial form operands m.scope m.world r w'
  | .sequence forms => EvaluatesSequence forms m.scope m.world r w'
  | .apply f args => Applies f args m.scope m.world r w'
  | .each _ | .bind _ => False

theorem All.kept (hK : Invariant K) {m : Moment} (hm : m.All K) {r : Except Error Value}
    {w' : World} (h : m.Gives r w') : Kept K r w' := by
  obtain ⟨task, scope, w⟩ := m
  obtain ⟨hw, hvalues⟩ := hm
  cases task with
  | evaluate form => exact Evaluates.kept hK h hw (hvalues form (List.mem_singleton_self _))
  | expand form => exact Expands.kept hK h hw (hvalues form (List.mem_singleton_self _))
  | plain form => exact EvaluatesPlain.kept hK h hw (hvalues form (List.mem_singleton_self _))
  | special form operands => exact EvaluatesSpecial.kept hK h hw hvalues
  | sequence forms => exact EvaluatesSequence.kept hK h hw hvalues
  | apply f args =>
    obtain ⟨hf, hargs⟩ := List.forall_mem_cons.mp hvalues
    exact Applies.kept hK h hw hf hargs
  | each forms | bind items => exact h.elim

end Moment

/-- What a moment is made of, its parts are made of. -/
theorem Part.all (hK : Invariant K) {m m' : Moment} (h : Part m m') (hm : m.All K) : m'.All K := by
  obtain ⟨hw, hvalues⟩ := hm
  cases h with
  | expansion => exact ⟨hw, hvalues⟩
  | expanded h =>
    have hexpansion := h.kept hK hw (hvalues _ (List.mem_singleton_self _))
    exact ⟨hexpansion.world, List.forall_mem_singleton.mpr (hexpansion.value _ rfl)⟩
  | macroBody h hargs =>
    obtain ⟨⟨object, hclosure⟩, hall⟩ :=
      all_macroCall? hK hw (hvalues _ (List.mem_singleton_self _)) h
    exact ⟨hw.enter (Call.hereditary_bindings hK.toHereditary hargs hall),
      List.forall_mem_singleton.mpr (hK.body hclosure)⟩
  | macroRest h hargs hbody =>
    obtain ⟨⟨object, hclosure⟩, hall⟩ :=
      all_macroCall? hK hw (hvalues _ (List.mem_singleton_self _)) h
    have hexpansion := hbody.kept hK
      (hw.enter (Call.hereditary_bindings hK.toHereditary hargs hall)) (hK.body hclosure)
    exact ⟨hexpansion.world, List.forall_mem_singleton.mpr (hexpansion.value _ rfl)⟩
  | elements => exact ⟨hw, hK.vector.mp (hvalues _ (List.mem_singleton_self _))⟩
  | entries => exact ⟨hw, hK.map.mp (hvalues _ (List.mem_singleton_self _))⟩
  | special h =>
    have hform := hvalues _ (List.mem_singleton_self _)
    exact ⟨hw, (List.forall_mem_cons.mp (hK.list.mp hform)).2⟩
  | operator h =>
    have hform := hvalues _ (List.mem_singleton_self _)
    exact ⟨hw, List.forall_mem_singleton.mpr (List.forall_mem_cons.mp (hK.list.mp hform)).1⟩
  | operands h hoperator =>
    have hform := hvalues _ (List.mem_singleton_self _)
    obtain ⟨hfirst, hrest⟩ := List.forall_mem_cons.mp (hK.list.mp hform)
    exact ⟨(hoperator.kept hK hw hfirst).world, hrest⟩
  | call h hoperator hoperands =>
    have hform := hvalues _ (List.mem_singleton_self _)
    obtain ⟨hfirst, hrest⟩ := List.forall_mem_cons.mp (hK.list.mp hform)
    have hcallee := hoperator.kept hK hw hfirst
    obtain ⟨hw', hargs⟩ := hoperands.kept hK hcallee.world hrest
    exact ⟨hw', List.forall_mem_cons.mpr ⟨hcallee.value _ rfl, hargs _ rfl⟩⟩
  | define h | defineMacro h =>
    exact ⟨hw, List.forall_mem_singleton.mpr (hvalues _ (by simp [Task.values]))⟩
  | letBindings h =>
    have hbindings := hvalues _ (List.mem_cons_self ..)
    exact ⟨hw.enter (List.forall_mem_nil _),
      hK.items hbindings (Option.filter_eq_some_iff.mp h).1⟩
  | letBody h hbindings =>
    have hitems := hK.items (hvalues _ (List.mem_cons_self ..)) (Option.filter_eq_some_iff.mp h).1
    exact ⟨hbindings.kept hK (hw.enter (List.forall_mem_nil _)) hitems,
      List.forall_mem_singleton.mpr (hvalues _ (by simp [Task.values]))⟩
  | condition h =>
    exact ⟨hw, List.forall_mem_singleton.mpr (hvalues _ (by simp [Task.values]))⟩
  | yes _ hcondition _ | no hcondition _ =>
    exact ⟨(hcondition.kept hK hw (hvalues _ (by simp [Task.values]))).world,
      List.forall_mem_singleton.mpr (hvalues _ (by simp [Task.values]))⟩
  | sequence => exact ⟨hw, hvalues⟩
  | quasiquote h =>
    have htemplate := hvalues _ (List.mem_singleton_self _)
    exact ⟨hw, List.forall_mem_singleton.mpr
      (Quasiquote.hereditary_expand hK.toHereditary _ htemplate _ h)⟩
  | expandMacros => exact ⟨hw, hvalues⟩
  | eachFirst | bindFirst _ | sequenceFirst =>
    exact ⟨hw, List.forall_mem_singleton.mpr (hvalues _ (by simp [Task.values]))⟩
  | eachRest h | sequenceRest h =>
    obtain ⟨hform, hrest⟩ := List.forall_mem_cons.mp hvalues
    exact ⟨(h.kept hK hw hform).world, hrest⟩
  | bindRest _ hform =>
    have hvalue := hform.kept hK hw (hvalues _ (by simp [Task.values]))
    exact ⟨hvalue.world.define (hvalue.value _ rfl),
      fun v hv => hvalues v (List.mem_cons_of_mem _ (List.mem_cons_of_mem _ hv))⟩
  | closureBody h =>
    obtain ⟨hf, hargs⟩ := List.forall_mem_cons.mp hvalues
    exact ⟨hw.enter (Call.hereditary_bindings hK.toHereditary h hargs),
      List.forall_mem_singleton.mpr (hK.body hf)⟩
  | eval => exact ⟨hw, List.forall_mem_singleton.mpr (hvalues _ (by simp [Task.values]))⟩
  | swap =>
    obtain ⟨-, hall⟩ := List.forall_mem_cons.mp hvalues
    exact ⟨hw, List.forall_mem_cons.mpr ⟨hall _ (by simp), all_swapped hK hw hall⟩⟩

theorem Moment.Reaches.all (hK : Invariant K) {m m' : Moment} (h : m.Reaches m')
    (hm : m.All K) : m'.All K := by
  induction h with
  | refl => exact hm
  | tail _ hpart ih => exact hpart.all hK ih

/-! ## Sessions -/

namespace Session

/-- The forms that a session evaluates where everything is global: what
is read, and calls of `load-file`. -/
inductive Submitted : Value → Prop
  | read {source : String} {form : Value} (h : read source = .ok form) : Submitted form
  | load (path : String) : Submitted (.list [.symbol "load-file", .string path])

/-- The worlds that a session comes to, from the primitives on. -/
inductive Reachable (files : Files) (argv : List String) : World → Prop
  | bare : Reachable files argv (bare files argv)
  | eval {b : Budget} {source : String} {w w' : World} {r : Except Error Value}
      (h : Reachable files argv w) (hends : (eval b source).Ends w r w') : Reachable files argv w'
  | reply {b : Budget} {source : String} {w w' : World} {r : Except Error String}
      (h : Reachable files argv w) (hends : (reply b source).Ends w r w') : Reachable files argv w'
  | load {b : Budget} {path : String} {w w' : World} {r : Except Error Value}
      (h : Reachable files argv w) (hends : (load b path).Ends w r w') : Reachable files argv w'
  | written {w : World} (h : Reachable files argv w) : Reachable files argv w.takeOutput.2

variable {files : Files} {argv : List String} {w : World}

theorem reachable_start : Reachable files argv (start files argv) :=
  start_preserves .bare fun h hends => h.eval hends

theorem all_of_submitted (hK : Invariant K) {form : Value} (h : Submitted form) : K form := by
  cases h with
  | read h => exact hereditary_of_read hK.toHereditary h
  | load path =>
    rw [hK.list, List.forall_mem_cons, List.forall_mem_singleton]
    exact ⟨hK.leaf trivial, hK.leaf trivial⟩

theorem all_bare (hK : Invariant K) : (bare files argv).All K := by
  refine ⟨fun {s scope} h binding hb => ?_, fun v hv => absurd hv (Array.not_mem_empty v)⟩
  cases s with
  | succ s => cases h
  | zero =>
    cases h
    rcases List.mem_append.mp hb with hb | hb
    · obtain ⟨p, -, rfl⟩ := List.mem_map.mp hb
      exact hK.leaf trivial
    · obtain rfl := List.mem_singleton.mp hb
      refine hK.list.mpr fun v hv => ?_
      obtain ⟨arg, -, rfl⟩ := List.mem_map.mp hv
      exact hK.leaf trivial

theorem all_evalForm (hK : Invariant K) {b : Budget} {form : Value} {w' : World}
    {r : Except Error Value} (hw : w.All K) (hform : Submitted form)
    (h : (evalForm b form).Ends w r w') : w'.All K :=
  ((evaluate_sound b.steps b.depth h).kept hK hw (all_of_submitted hK hform)).world

theorem all_eval (hK : Invariant K) {b : Budget} {source : String} {w' : World}
    {r : Except Error Value} (hw : w.All K) (h : (eval b source).Ends w r w') : w'.All K := by
  rcases ends_eval.mp h with ⟨form, hread, hform⟩ | ⟨d, -, -, rfl⟩
  · exact all_evalForm hK hw (.read hread) hform
  · exact hw

theorem Reachable.all (hK : Invariant K) (h : Reachable files argv w) : w.All K := by
  induction h with
  | bare => exact all_bare hK
  | eval _ hends ih => exact all_eval hK ih hends
  | reply _ hends ih =>
    -- Showing the value does nothing to the world.
    rcases Action.ends_bind.mp hends with ⟨v, w₁, heval, hshow⟩ | ⟨e, heval, -⟩
    · obtain ⟨-, rfl⟩ := Action.ends_pure.mp (Action.ends_ask_bind.mp hshow)
      exact all_eval hK ih heval
    · exact all_eval hK ih heval
  | load _ hends ih => exact all_evalForm hK ih (.load _) hends
  | written _ ih => exact ih.of_scopes rfl ih.cells

/-- Nor is such a property lost at any moment of a session. -/
theorem Reachable.all_moments (hK : Invariant K) (h : Reachable files argv w) {form : Value}
    (hform : Submitted form) {m : Moment}
    (hm : Moment.Reaches ⟨.evaluate form, rootScope, w⟩ m) : m.All K :=
  hm.all hK ⟨h.all hK, List.forall_mem_singleton.mpr (all_of_submitted hK hform)⟩

end Session

end Lisp
