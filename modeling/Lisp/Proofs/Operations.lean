import Lisp.Proofs.Passages

/-!
# Runs of operations on the scopes

The scopes are used by operations: scopes are made, alone, in another
one or for a call, names are defined and searched, roots are searched,
and forms are evaluated. A run is any number of operations, one after
the other, from a world with nothing in it, and `Runs` gives its
journal. `Visits` is about the worlds in the middle of an evaluation
too.

Each operation leads from scopes to scopes by its own journal
(`Scope.Operation.Performs.step`), so the scopes of every world of a run
come of nothing by the journal of the run (`Visits.replays`). All else
follows from the journal: the scopes are a forest, in which names are
looked up outwards (`World.Forest`).
-/

namespace Lisp

open World Value Moment

/-- The action ends, with a value or with an error, and leaves the
world. -/
def Action.Leaves {α : Type} (x : Action α) (w w' : World) : Prop := ∃ r, x.Ends w r w'

theorem Action.Leaves.of_value {α : Type} {x : Action α} {a : α} {w w₁ w' : World}
    (h : x.Leaves w w') (hx : x w = .value a w₁) : w' = w₁ := by
  obtain ⟨r, hends⟩ := h
  exact (hends.unique (show x.Ends w (.ok a) w₁ from hx)).2

theorem Action.Leaves.of_failure {α : Type} {x : Action α} {e : Error} {w w₁ w' : World}
    (h : x.Leaves w w') (hx : x w = .failure e w₁) : w' = w₁ := by
  obtain ⟨r, hends⟩ := h
  exact (hends.unique (show x.Ends w (.error e) w₁ from hx)).2

/-- What is done with scopes from outside. Arguments and forms are
values, such as earlier operations have made. -/
inductive Scope.Operation where
  | new
  | within (parent : ScopeId)
  | bind (parent : ScopeId) (params : List String) (args : List Value)
  | define (scope : ScopeId) (name : String) (v : Value)
  | find (scope : ScopeId) (name : String)
  | get (scope : ScopeId) (name : String)
  | root (scope : ScopeId)
  | evaluate (steps depth : Nat) (form : Value) (scope : ScopeId)

namespace Scope.Operation

/-- What the operation is given is there. -/
def Valid : Scope.Operation → World → Prop
  | new, _ => True
  | within parent, w => parent < w.scopes.size
  | bind parent _ args, w => parent < w.scopes.size ∧ ∀ v ∈ args, w.Holds v
  | define scope _ v, w => scope < w.scopes.size ∧ w.Holds v
  | find scope _, w | get scope _, w | root scope, w => scope < w.scopes.size
  | evaluate _ _ form scope, w => scope < w.scopes.size ∧ w.Holds form

def Leaves : Scope.Operation → World → World → Prop
  | new => (Action.enter none []).Leaves
  | within parent => (Action.enter (some parent) []).Leaves
  | bind parent params args => (Action.enterCall parent params args).Leaves
  | define scope name v => (Action.define scope name v).Leaves
  | find scope name => (Action.ask (·.find? scope name)).Leaves
  | get scope name => (Action.lookup scope name).Leaves
  | root scope => (Action.ask (·.root scope)).Leaves
  | evaluate steps depth form scope => (Lisp.evaluate steps depth form scope).Leaves

/-- The journal of the operation. A call that does not fit has none. -/
def Journals : Scope.Operation → World → List Event → World → Prop
  | new, _, events, _ => events = [.opened none]
  | within parent, _, events, _ => events = [.opened (some parent)]
  | bind parent params args, w, events, _ =>
    match Call.bindings params args with
    | .ok _ => events = Event.call parent w.scopes.size params args
    | .error _ => events = []
  | define scope name v, _, events, _ => events = [.defined scope name v]
  | find .., _, events, _ | get .., _, events, _ | root .., _, events, _ => events = []
  | evaluate _ _ form scope, w, events, w' => Passes ⟨.evaluate form, scope, w⟩ events w'

/-- The operation leads from the first world to the second, with this
journal. -/
structure Performs (op : Scope.Operation) (w : World) (events : List Event) (w' : World) :
    Prop where
  valid : op.Valid w
  leaves : op.Leaves w w'
  journals : op.Journals w events w'

variable {op : Scope.Operation} {w w' : World} {events : List Event}

/-- Whatever an operation does, there is a journal of it. -/
theorem performs_of_leaves (hvalid : op.Valid w) (h : op.Leaves w w') :
    ∃ events, op.Performs w events w' := by
  suffices hjournals : ∃ events, op.Journals w events w' by
    obtain ⟨events, hjournals⟩ := hjournals
    exact ⟨events, hvalid, h, hjournals⟩
  cases op with
  | bind parent params args =>
    simp only [Journals]
    split
    · exact ⟨_, rfl⟩
    · exact ⟨_, rfl⟩
  | evaluate steps depth form scope =>
    obtain ⟨r, hends⟩ := h
    exact (evaluate_sound steps depth hends).arrives
  | new | within _ | define _ _ _ | find _ _ | get _ _ | root _ => exact ⟨_, rfl⟩

/-- All operations but evaluations end. -/
theorem exists_leaves (w : World)
    (hop : ∀ steps depth form scope, op ≠ .evaluate steps depth form scope) :
    ∃ w', op.Leaves w w' := by
  cases op with
  | new | within _ | define _ _ _ | find _ _ | root _ => exact ⟨_, .ok _, rfl⟩
  | bind parent params args =>
    cases h : Call.bindings params args with
    | ok bindings => exact ⟨_, .ok _, Action.enterCall_of_ok h parent w⟩
    | error cause => exact ⟨_, .error _, Action.enterCall_of_error h parent w⟩
  | get scope name =>
    cases h : w.find? scope name with
    | some v => exact ⟨w, .ok v, Action.ends_lookup.mpr (.inl ⟨v, h, rfl, rfl⟩)⟩
    | none => exact ⟨w, .error _, Action.ends_lookup.mpr (.inr ⟨h, rfl, rfl⟩)⟩
  | evaluate steps depth form scope => exact absurd rfl (hop steps depth form scope)

theorem ready_evaluate {form : Value} {scope : ScopeId} {steps depth : Nat} (hw : w.WellFormed)
    (hvalid : Valid (.evaluate steps depth form scope) w) : Ready ⟨.evaluate form, scope, w⟩ :=
  ⟨hw, hvalid.1, List.forall_mem_singleton.mpr hvalid.2⟩

/-- An operation leads to other scopes by its journal, and leaves a
world that is fit for the next one. -/
theorem Performs.step (h : op.Performs w events w') (hw : w.WellFormed) :
    w'.WellFormed ∧ Replays w.scopes events w'.scopes := by
  obtain ⟨hvalid, hleaves, hjournals⟩ := h
  cases op with
  | new =>
    obtain rfl := hleaves.of_value rfl
    obtain rfl := hjournals
    exact ⟨wellFormed_push hw nofun (List.forall_mem_nil _), .single nofun⟩
  | within parent =>
    obtain rfl := hleaves.of_value rfl
    obtain rfl := hjournals
    exact ⟨wellFormed_enter hw hvalid (List.forall_mem_nil _),
      .single (Event.possible_opened hvalid)⟩
  | bind parent params args =>
    obtain ⟨hparent, hargs⟩ := hvalid
    cases hbindings : Call.bindings params args with
    | ok bindings =>
      obtain rfl := hleaves.of_value (Action.enterCall_of_ok hbindings parent w)
      simp only [Journals, hbindings] at hjournals
      subst hjournals
      have hbound := Call.hereditary_bindings hereditary_scoped hbindings hargs
      exact ⟨wellFormed_enter hw hparent hbound, replays_call hparent hbindings⟩
    | error cause =>
      obtain rfl := hleaves.of_failure (Action.enterCall_of_error hbindings parent w)
      simp only [Journals, hbindings] at hjournals
      subst hjournals
      exact ⟨hw, .nil⟩
  | define scope name v =>
    obtain rfl := hleaves.of_value rfl
    obtain rfl := hjournals
    exact ⟨wellFormed_define hw scope name hvalid.2, .single hvalid.1⟩
  | find scope name | root scope =>
    obtain rfl := hleaves.of_value rfl
    obtain rfl := hjournals
    exact ⟨hw, .nil⟩
  | get scope name =>
    obtain ⟨r, hends⟩ := hleaves
    obtain rfl := hjournals
    obtain ⟨_, -, -, rfl⟩ | ⟨-, -, rfl⟩ := Action.ends_lookup.mp hends
    · exact ⟨hw, .nil⟩
    · exact ⟨hw, .nil⟩
  | evaluate steps depth form scope =>
    obtain ⟨r, hends⟩ := hleaves
    have hready := ready_evaluate hw hvalid
    have hconfined := (evaluate_sound steps depth hends).confined hready
    exact ⟨hconfined.evolves.wellFormed, Passes.replays hjournals hready⟩

end Scope.Operation

/-! ## Runs -/

/-- Operations, one after the other, from a world with nothing in it. -/
inductive Runs (files : Files) : List Event → World → Prop
  | start : Runs files [] (World.empty files)
  | perform {journal events : List Event} {w w' : World} {op : Scope.Operation}
      (h : Runs files journal w) (hop : op.Performs w events w') :
      Runs files (journal ++ events) w'

/-- The worlds of a run, and those in the middle of an evaluation, which
need not ever end. -/
inductive Visits (files : Files) : List Event → World → Prop
  | between {journal : List Event} {w : World} (h : Runs files journal w) : Visits files journal w
  | during {journal events : List Event} {w w' : World} {steps depth : Nat} {form : Value}
      {scope : ScopeId} (h : Runs files journal w)
      (hvalid : (Scope.Operation.evaluate steps depth form scope).Valid w)
      (hpasses : Passes ⟨.evaluate form, scope, w⟩ events w') :
      Visits files (journal ++ events) w'

variable {files : Files} {journal more : List Event} {w w' : World}

theorem wellFormed_empty (files : Files) : (World.empty files).WellFormed :=
  ⟨fun h => by simp [World.empty] at h, fun h => by simp [World.empty] at h, nofun⟩

theorem Runs.wellFormed (h : Runs files journal w) : w.WellFormed := by
  induction h with
  | start => exact wellFormed_empty files
  | perform _ hop ih => exact (hop.step ih).1

theorem Runs.replays (h : Runs files journal w) : Replays #[] journal w.scopes := by
  induction h with
  | start => exact .nil
  | perform h hop ih => exact ih.trans (hop.step h.wellFormed).2

theorem Visits.replays (h : Visits files journal w) : Replays #[] journal w.scopes := by
  cases h with
  | between h => exact h.replays
  | during h hvalid hpasses =>
    exact h.replays.trans (hpasses.replays (Scope.Operation.ready_evaluate h.wellFormed hvalid))

/-! ## The forest -/

/-- The scopes of the world are a forest that has come of nothing by the
journal. -/
structure World.Forest (w : World) (journal : List Event) : Prop where
  /-- From each scope there is one chain outwards. -/
  chain : ∀ e < w.scopes.size, ∃! chain, w.Chain e chain
  nodup : ∀ {e chain}, w.Chain e chain → chain.Nodup
  /-- A name has the value of its most recent definition in the nearest
  scope that has one. -/
  find : ∀ {e chain}, w.Chain e chain → ∀ name v, w.find? e name = some v ↔
    ∃ nearer s outer, chain = nearer ++ s :: outer ∧
      (∀ t ∈ nearer, ∀ u, .defined t name u ∉ journal) ∧
      ∃ before after, journal = before ++ .defined s name v :: after ∧
        ∀ u, .defined s name u ∉ after
  /-- It has none where it was never defined on the chain. -/
  unbound : ∀ {e chain}, w.Chain e chain →
    ∀ name, w.find? e name = none ↔ ∀ s ∈ chain, ∀ v, .defined s name v ∉ journal
  /-- A definition is seen where no nearer scope has the name, -/
  seen : ∀ {e nearer d outer}, w.Chain e (nearer ++ d :: outer) →
    ∀ name, (∀ s ∈ nearer, ∀ u, .defined s name u ∉ journal) →
      ∀ v, (w.define d name v).find? e name = some v
  /-- and nowhere else. -/
  hidden : ∀ {e chain}, w.Chain e chain → ∀ d name,
    (∀ nearer outer, chain = nearer ++ d :: outer →
      ∃ s ∈ nearer, ∃ u, .defined s name u ∈ journal) →
      ∀ v, (w.define d name v).find? e name = w.find? e name
  other : ∀ {e chain}, w.Chain e chain → ∀ d name v other, other ≠ name →
    (w.define d name v).find? e other = w.find? e other
  root : ∀ {e chain}, w.Chain e chain →
    w.root e ∈ chain ∧ ∀ t ∈ chain, w.Parentless t ↔ t = w.root e
  below : ∀ {e chain}, w.Chain e chain → ∀ t ∈ chain, w.root t = w.root e

theorem Replays.forest (h : Replays #[] journal w.scopes) : w.Forest journal := by
  have hw : Scope.Layered w.scopes := h.layered
  have hunbound : ∀ {s name}, w.findIn? s name = none ↔ ∀ v, .defined s name v ∉ journal := by
    intro s name
    rw [h.findIn?_eq, latest?_eq_none_iff]
  have hfind : ∀ {e chain}, w.Chain e chain →
      ∀ name, w.find? e name = chain.findSome? (latest? journal · name) := by
    intro e chain hchain name
    simp only [hchain.find?_eq hw, h.findIn?_eq]
  constructor
  · intro e he
    obtain ⟨chain, hchain⟩ := exists_chain hw e he
    exact ⟨chain, hchain, fun other hother => hchain.unique hother⟩
  · exact fun hchain => hchain.nodup hw
  · intro e chain hchain name v
    rw [hfind hchain, List.findSome?_eq_some_iff]
    simp only [latest?_eq_none_iff, latest?_eq_some_iff]
    exact ⟨fun ⟨nearer, s, outer, heq, hlast, hfree⟩ => ⟨nearer, s, outer, heq, hfree, hlast⟩,
      fun ⟨nearer, s, outer, heq, hfree, hlast⟩ => ⟨nearer, s, outer, heq, hlast, hfree⟩⟩
  · intro e chain hchain name
    simp only [hfind hchain, List.findSome?_eq_none_iff, latest?_eq_none_iff]
  · intro e nearer d outer hchain name hfree v
    exact hchain.find?_define hw fun s hs => hunbound.mpr (hfree s hs)
  · intro e chain hchain d name hhidden v
    refine hchain.find?_define_hidden hw fun nearer outer heq => ?_
    obtain ⟨s, hs, u, hu⟩ := hhidden nearer outer heq
    exact ⟨s, hs, fun hnone => hunbound.mp hnone u hu⟩
  · exact fun hchain d name v other hother => hchain.find?_define_other hw hother
  · exact fun hchain => ⟨hchain.root_mem hw, fun t ht => hchain.parentless_iff hw ht⟩
  · exact fun hchain t ht => hchain.root_of_mem hw ht

/-- Chains never change: they are the same when the journal has gone
on. -/
theorem Visits.chain_later (h : Visits files journal w) (h' : Visits files (journal ++ more) w')
    {e : ScopeId} {chain : List ScopeId} (hchain : w.Chain e chain) : w'.Chain e chain :=
  hchain.later (h.replays.rest h'.replays).remain

/-- In whatever order scopes are made, defined in, searched and evaluated
in, they are a forest where names are looked up outwards. Later worlds
have the same chains, with the same ends. Operations that are given what
is there lead on, with some journal, as soon as they end, and only an
evaluation may not end. -/
theorem scopes_form_forest (files : Files) :
    (∀ journal w, Visits files journal w → w.Forest journal) ∧
    (∀ journal more w w', Visits files journal w → Visits files (journal ++ more) w' →
      ∀ e chain, w.Chain e chain → w'.Chain e chain ∧ w'.root e = w.root e) ∧
    ∀ journal w, Runs files journal w → ∀ op : Scope.Operation, op.Valid w →
      ((∀ steps depth form scope, op ≠ .evaluate steps depth form scope) →
        ∃ w', op.Leaves w w') ∧
      ∀ w', op.Leaves w w' → ∃ events, op.Performs w events w' := by
  refine ⟨fun journal w h => h.replays.forest, fun journal more w w' h h' e chain hchain => ?_,
    fun journal w _ op hvalid => ⟨Scope.Operation.exists_leaves w, fun w' =>
      Scope.Operation.performs_of_leaves hvalid⟩⟩
  have hlater := h.chain_later h' hchain
  have hends := (hlater.root_eq h'.replays.layered).symm.trans (hchain.root_eq h.replays.layered)
  exact ⟨hlater, Option.some.inj hends⟩

/-- Two scopes, one inside the other, and a name in the outer one. -/
def coveredWorld : World :=
  { World.empty fun _ => none with scopes := #[⟨none, [("x", .int 1)]⟩, ⟨some 0, []⟩] }

/-- A form that defines a name in the scope it is evaluated in. -/
def coveringForm : Value := .list [.symbol "def!", .symbol "y", .symbol "x"]

theorem runs_coveredWorld : Runs (fun _ => none)
    [.opened none, .opened (some 0), .defined 0 "x" (.int 1)] coveredWorld := by
  have hnew : Scope.Operation.new.Performs (World.empty fun _ => none) [.opened none]
      { World.empty fun _ => none with scopes := #[⟨none, []⟩] } :=
    ⟨trivial, ⟨.ok 0, rfl⟩, rfl⟩
  have hwithin : (Scope.Operation.within 0).Performs
      { World.empty fun _ => none with scopes := #[⟨none, []⟩] } [.opened (some 0)]
      { World.empty fun _ => none with scopes := #[⟨none, []⟩, ⟨some 0, []⟩] } :=
    ⟨Nat.zero_lt_one, ⟨.ok 1, rfl⟩, rfl⟩
  have hdefine : (Scope.Operation.define 0 "x" (.int 1)).Performs
      { World.empty fun _ => none with scopes := #[⟨none, []⟩, ⟨some 0, []⟩] }
      [.defined 0 "x" (.int 1)] coveredWorld :=
    ⟨⟨Nat.zero_lt_two, scoped_leaf trivial⟩, ⟨.ok (), rfl⟩, rfl⟩
  exact ((Runs.start.perform hnew).perform hwithin).perform hdefine

theorem passes_coveringForm : Passes ⟨.evaluate coveringForm, 1, coveredWorld⟩
    [.defined 1 "y" (.int 1)] (coveredWorld.define 1 "y" (.int 1)) := by
  have hform : Evaluates (.symbol "x") 1 coveredWorld (.ok (.int 1)) coveredWorld :=
    .expanded (.plain rfl) (.bound rfl)
  have hspecial : Passes ⟨.special .define [.symbol "y", .symbol "x"], 1, coveredWorld⟩
      [.defined 1 "y" (.int 1)] (coveredWorld.define 1 "y" (.int 1)) :=
    .define rfl hform .start
  exact .first (.expanded (.plain rfl)) rfl (.first (.special rfl) rfl hspecial)

/-- What an evaluation has defined in the inner scope covers what is
defined around it later, and nothing else. -/
theorem scopes_form_forest_covered :
    ∃ journal w, Visits (fun _ => none) journal w ∧ w.Chain 1 [1, 0] ∧ w.root 1 = 0 ∧
      w.find? 1 "y" = some (.int 1) ∧ w.find? 0 "y" = none ∧
      ∀ v, (w.define 0 "x" v).find? 1 "x" = some v ∧
        (w.define 0 "y" v).find? 1 "y" = some (.int 1) := by
  have hvalid : (Scope.Operation.evaluate 0 0 coveringForm 1).Valid coveredWorld :=
    ⟨Nat.one_lt_two, scoped_list.mpr (by
      simpa [Holds] using ⟨scoped_leaf trivial, scoped_leaf trivial, scoped_leaf trivial⟩)⟩
  have hbefore : Visits (fun _ => none) _ coveredWorld := .between runs_coveredWorld
  have hvisits : Visits (fun _ => none) _ (coveredWorld.define 1 "y" (.int 1)) :=
    .during runs_coveredWorld hvalid passes_coveringForm
  obtain ⟨hforest, hlater, -⟩ := scopes_form_forest fun _ => none
  have hf := hforest _ _ hvisits
  have houter : coveredWorld.Chain 0 [0] := .outermost rfl rfl
  have hinner : coveredWorld.Chain 1 [1, 0] := .inside rfl rfl houter
  obtain ⟨hinner, hroot⟩ := hlater _ _ _ _ hbefore hvisits _ _ hinner
  obtain ⟨houter, -⟩ := hlater _ _ _ _ hbefore hvisits _ _ houter
  have hy := (hf.find hinner "y" (.int 1)).mpr
    ⟨[], 1, [0], rfl, List.forall_mem_nil _, _, [], rfl, fun _ => List.not_mem_nil⟩
  refine ⟨_, _, hvisits, hinner, hroot, hy, (hf.unbound houter "y").mpr (by simp),
    fun v => ⟨?_, ?_⟩⟩
  · have hchain : (coveredWorld.define 1 "y" (.int 1)).Chain 1 ([1] ++ 0 :: []) := hinner
    exact hf.seen hchain "x" (by simp) v
  · refine (hf.hidden hinner 0 "y" (fun nearer outer heq => ?_) v).trans hy
    cases nearer with
    | nil => cases heq
    | cons s _ =>
      obtain rfl := (List.cons.inj heq).1
      exact ⟨1, List.mem_cons_self .., .int 1, by simp⟩

end Lisp
