import Lisp.Proofs.Forest
import Lisp.Proofs.Heredity

/-!
# Journals of the scopes

Two things happen to the scopes: one is opened, or a name is defined in
one. A journal is a list of such events, and `Replays` says that they
lead from some scopes to others, where an event is possible only if the
scope it is about is there.

Scopes that come of nothing by a journal are ordered, parents before
children (`Replays.layered`), and bind what the journal says last
(`Replays.findIn?_eq`). So the journal has the answer to each search:
the value of the most recent definition in the nearest scope that has
one.
-/

namespace Lisp

/-- What can happen to the scopes. -/
inductive Event where
  | opened (parent : Option ScopeId)
  | defined (scope : ScopeId) (name : String) (v : Value)

namespace Event

def act (scopes : Array Scope) : Event → Array Scope
  | opened parent => scopes.push ⟨parent, []⟩
  | defined scope name v => scopes.modify scope (·.define name v)

/-- The scope that the event is about is there. -/
def Possible (scopes : Array Scope) : Event → Prop
  | opened parent => ∀ p, parent = some p → p < scopes.size
  | defined scope _ _ => scope < scopes.size

theorem possible_opened {scopes : Array Scope} {parent : ScopeId} (h : parent < scopes.size) :
    (opened (some parent)).Possible scopes := by
  rintro p ⟨⟩
  exact h

/-- What the event defines the name as in the scope, if it does. -/
def defines? (scope : ScopeId) (name : String) : Event → Option Value
  | opened _ => none
  | defined s n v => if s = scope ∧ n = name then some v else none

theorem defines?_eq_some_iff {scope : ScopeId} {name : String} {event : Event} {v : Value} :
    event.defines? scope name = some v ↔ event = .defined scope name v := by
  cases event with
  | opened parent => simp [defines?]
  | defined s n u =>
    rw [defines?]
    split
    · next h =>
      obtain ⟨rfl, rfl⟩ := h
      simp
    · next h =>
      simp only [reduceCtorEq, false_iff, defined.injEq, not_and]
      exact fun hs hn => absurd ⟨hs, hn⟩ h

end Event

/-! ## The most recent definition -/

/-- The value of the last definition of the name in the scope. -/
def latest? (journal : List Event) (scope : ScopeId) (name : String) : Option Value :=
  journal.reverse.findSome? (·.defines? scope name)

variable {journal more : List Event} {scope : ScopeId} {name : String} {v : Value}

theorem latest?_concat (event : Event) : latest? (journal ++ [event]) scope name =
    (event.defines? scope name).or (latest? journal scope name) := by
  rw [latest?, List.reverse_concat, List.findSome?_cons]
  cases event.defines? scope name <;> rfl

theorem defines?_eq_none_iff {journal : List Event} :
    (∀ event ∈ journal, event.defines? scope name = none) ↔
      ∀ v, .defined scope name v ∉ journal := by
  simp only [Option.eq_none_iff_forall_ne_some, Ne, Event.defines?_eq_some_iff]
  exact ⟨fun h v hv => h _ hv v rfl, fun h event hevent v heq => h v (heq ▸ hevent)⟩

/-- The journal has a definition, and none of the same name in the same
scope after it. -/
theorem latest?_eq_some_iff : latest? journal scope name = some v ↔
    ∃ before after, journal = before ++ .defined scope name v :: after ∧
      ∀ u, .defined scope name u ∉ after := by
  rw [latest?, List.findSome?_eq_some_iff]
  constructor
  · rintro ⟨after, event, before, heq, hevent, hafter⟩
    obtain rfl := Event.defines?_eq_some_iff.mp hevent
    refine ⟨before.reverse, after.reverse, ?_, fun u hu => ?_⟩
    · rw [← List.reverse_reverse journal, heq]
      simp
    · exact defines?_eq_none_iff.mp hafter u (List.mem_reverse.mp hu)
  · rintro ⟨before, after, rfl, hafter⟩
    refine ⟨after.reverse, _, before.reverse, by simp, Event.defines?_eq_some_iff.mpr rfl,
      fun event hevent => ?_⟩
    exact defines?_eq_none_iff.mpr hafter event (List.mem_reverse.mp hevent)

/-- The name was never defined in the scope. -/
theorem latest?_eq_none_iff :
    latest? journal scope name = none ↔ ∀ v, .defined scope name v ∉ journal := by
  simp only [latest?, List.findSome?_eq_none_iff, List.mem_reverse]
  exact defines?_eq_none_iff

/-! ## Replaying -/

/-- The events are possible, one after the other, and lead from some
scopes to others. -/
inductive Replays (scopes : Array Scope) : List Event → Array Scope → Prop
  | nil : Replays scopes [] scopes
  | concat {journal : List Event} {scopes' : Array Scope} {event : Event}
      (h : Replays scopes journal scopes') (hpossible : event.Possible scopes') :
      Replays scopes (journal ++ [event]) (event.act scopes')

namespace Replays

variable {scopes scopes₁ scopes' : Array Scope} {event : Event}

theorem single (hpossible : event.Possible scopes) : Replays scopes [event] (event.act scopes) :=
  .concat .nil hpossible

theorem trans (h : Replays scopes journal scopes₁) (h' : Replays scopes₁ more scopes') :
    Replays scopes (journal ++ more) scopes' := by
  induction h' with
  | nil => rwa [List.append_nil]
  | concat _ hpossible ih =>
    rw [← List.append_assoc]
    exact .concat ih hpossible

theorem cons (hpossible : event.Possible scopes) (h : Replays (event.act scopes) journal scopes') :
    Replays scopes (event :: journal) scopes' :=
  (single hpossible).trans h

theorem foldl_eq (h : Replays scopes journal scopes') :
    scopes' = journal.foldl Event.act scopes := by
  induction h with
  | nil => rfl
  | concat _ _ ih => rw [List.foldl_concat, ← ih]

/-- A journal can be replayed in two parts. -/
theorem of_append (h : Replays scopes (journal ++ more) scopes') :
    ∃ scopes₁, Replays scopes journal scopes₁ ∧ Replays scopes₁ more scopes' := by
  generalize hwhole : journal ++ more = whole at h
  induction h generalizing more with
  | nil =>
    obtain ⟨rfl, rfl⟩ := List.append_eq_nil_iff.mp hwhole
    exact ⟨scopes, .nil, .nil⟩
  | @concat whole scopes' event h hpossible ih =>
    rcases List.eq_nil_or_concat more with rfl | ⟨more, last, rfl⟩
    · rw [List.append_nil] at hwhole
      exact ⟨event.act scopes', hwhole ▸ .concat h hpossible, .nil⟩
    · rw [List.concat_eq_append, ← List.append_assoc] at hwhole
      obtain ⟨hfront, hlast⟩ := List.append_inj' hwhole rfl
      obtain rfl := (List.cons.inj hlast).1
      obtain ⟨scopes₁, hbefore, hafter⟩ := ih hfront
      rw [List.concat_eq_append]
      exact ⟨scopes₁, hbefore, .concat hafter hpossible⟩

/-- The rest of a journal goes on from where the first part leads. -/
theorem rest (h : Replays scopes journal scopes₁) (h' : Replays scopes (journal ++ more) scopes') :
    Replays scopes₁ more scopes' := by
  obtain ⟨middle, hbefore, hafter⟩ := h'.of_append
  rwa [hbefore.foldl_eq, ← h.foldl_eq] at hafter

theorem remain_act (event : Event) : Scope.Remain scopes (event.act scopes) := by
  cases event with
  | opened parent => exact Scope.remain_push _
  | defined target name v => exact Scope.remain_define target name v

/-- Scopes stay, and so do their parents. -/
theorem remain (h : Replays scopes journal scopes') : Scope.Remain scopes scopes' := by
  induction h with
  | nil => exact Scope.Remain.refl
  | concat _ _ ih => exact ih.trans (remain_act _)

theorem lt_size (h : Replays scopes journal scopes') (hscope : scope < scopes.size) :
    scope < scopes'.size := by
  obtain ⟨later, hlater, -⟩ := h.remain (Array.getElem?_eq_getElem hscope)
  exact (Array.getElem?_eq_some_iff.mp hlater).1

end Replays

/-! ## Scopes that come of nothing -/

namespace Replays

variable {scopes : Array Scope}

theorem layered (h : Replays #[] journal scopes) : Scope.Layered scopes := by
  induction h with
  | nil => exact fun hscope => by simp at hscope
  | @concat journal scopes event _ hpossible ih =>
    cases event with
    | opened parent => exact ih.push ⟨parent, []⟩ hpossible
    | defined target name v => exact ih.define target name v

/-- A scope binds what was defined in it last. -/
theorem bound_eq (h : Replays #[] journal scopes) (s : ScopeId) (name : String) :
    scopes[s]?.bind (·.find? name) = latest? journal s name := by
  induction h with
  | nil => rfl
  | @concat journal scopes event _ hpossible ih =>
    rw [latest?_concat, ← ih]
    cases event with
    | opened parent =>
      rw [Event.act, Array.getElem?_push]
      split
      · next hs => simp [hs, Event.defines?, Scope.find?]
      · simp [Event.defines?]
    | defined target other v =>
      rw [Event.act, Array.getElem?_modify, Event.defines?]
      by_cases htarget : target = s
      · subst htarget
        obtain ⟨scope, hscope⟩ : ∃ scope, scopes[target]? = some scope :=
          ⟨scopes[target], Array.getElem?_eq_getElem hpossible⟩
        rw [if_pos rfl, hscope, Option.map_some, Option.bind_some, Option.bind_some]
        by_cases hother : other = name
        · subst hother
          rw [if_pos ⟨rfl, rfl⟩, Option.some_or]
          exact Scope.lookup_bind_self other v scope.bindings
        · rw [if_neg fun h => hother h.2, Option.none_or]
          exact Scope.lookup_bind_of_ne (Ne.symm hother) v scope.bindings
      · rw [if_neg htarget, if_neg fun h => htarget h.1, Option.none_or]

theorem findIn?_eq {w : World} (h : Replays #[] journal w.scopes) (s : ScopeId) (name : String) :
    w.findIn? s name = latest? journal s name :=
  h.bound_eq s name

end Replays

/-! ## Calls -/

namespace Call

/-- The definitions that a call makes in its scope, the first one first. -/
def pairs (params : List String) (args : List Value) : List (String × Value) :=
  let names := positional params
  names.zip args ++
    match params.drop names.length with
    | _ :: rest :: _ => [(rest, .list (args.drop names.length))]
    | _ => []

theorem bindAll_pairs {params : List String} {args : List Value}
    {bindings : List (String × Value)} (h : Call.bindings params args = .ok bindings) :
    bindings = bindAll (pairs params args) := by
  unfold Call.bindings at h
  rw [pairs]
  dsimp only at h ⊢
  split at h
  · next hdrop =>
    split at h
    · rw [hdrop, List.append_nil]
      exact (Except.ok.inj h).symm
    · cases h
  · next hdrop =>
    split at h
    · cases h
    · split at h
      · cases h
      · rw [hdrop]
        exact (Except.ok.inj h).symm

end Call

/-- A scope is opened inside another one, and the parameters are
defined in it. -/
def Event.call (captured new : ScopeId) (params : List String) (args : List Value) : List Event :=
  .opened (some captured) :: (Call.pairs params args).map fun pair => .defined new pair.1 pair.2

theorem modify_push_size (scopes : Array Scope) (scope : Scope) (f : Scope → Scope) :
    (scopes.push scope).modify scopes.size f = scopes.push (f scope) := by
  refine Array.ext_getElem? fun i => ?_
  rw [Array.getElem?_modify, Array.getElem?_push, Array.getElem?_push]
  by_cases hi : i = scopes.size
  · simp [hi]
  · simp [hi, Ne.symm hi]

theorem replays_definitions (scopes : Array Scope) (parent : Option ScopeId)
    (pairs bindings : List (String × Value)) :
    Replays (scopes.push ⟨parent, bindings⟩)
      (pairs.map fun pair => .defined scopes.size pair.1 pair.2)
      (scopes.push ⟨parent, pairs.foldl (fun bound pair => Scope.bind pair.1 pair.2 bound)
        bindings⟩) := by
  induction pairs generalizing bindings with
  | nil => exact .nil
  | cons pair rest ih =>
    have hact : (Event.defined scopes.size pair.1 pair.2).act (scopes.push ⟨parent, bindings⟩) =
        scopes.push ⟨parent, Scope.bind pair.1 pair.2 bindings⟩ := by
      rw [Event.act, modify_push_size]
      rfl
    refine .cons (by simp [Event.Possible]) ?_
    rw [hact]
    exact ih _

theorem replays_call {w : World} {captured : ScopeId} (hcaptured : captured < w.scopes.size)
    {params : List String} {args : List Value} {bindings : List (String × Value)}
    (h : Call.bindings params args = .ok bindings) :
    Replays w.scopes (Event.call captured w.scopes.size params args)
      (w.enter captured bindings).scopes := by
  rw [Call.bindAll_pairs h]
  exact .cons (Event.possible_opened hcaptured) (replays_definitions w.scopes (some captured) _ [])

end Lisp
