import Lisp.Proofs.Captures

/-!
# How worlds evolve

Scopes are never removed and never get another parent: all that becomes
of a scope is that names are defined in it, so no name is ever unbound
again. `World.Evolves` says this of two worlds, with a bound on which
definitions there are between them, and that the later world is well
formed. The changes of a world that evaluation consists of are of this
kind, and it is transitive.
-/

namespace Lisp

open Value

/-! ## Definitions in a scope -/

namespace Scope

/-- The scope after some definitions, the first one first. -/
def defineAll (scope : Scope) (changes : List (String × Value)) : Scope :=
  changes.foldl (fun scope change => scope.define change.1 change.2) scope

theorem defineAll_append (scope : Scope) (changes more : List (String × Value)) :
    scope.defineAll (changes ++ more) = (scope.defineAll changes).defineAll more :=
  List.foldl_append

theorem defineAll_parent (scope : Scope) (changes : List (String × Value)) :
    (scope.defineAll changes).parent = scope.parent := by
  induction changes generalizing scope with
  | nil => rfl
  | cons change rest ih => exact ih (scope.define change.1 change.2)

theorem find?_define_isSome {scope : Scope} {name : String} (other : String) (v : Value)
    (h : (scope.find? name).isSome = true) : ((scope.define other v).find? name).isSome = true := by
  by_cases hname : name = other
  · subst hname
    rw [find?, define, lookup_bind_self]
    rfl
  · rw [find?, define, lookup_bind_of_ne hname]
    exact h

/-- A name that is bound stays bound. -/
theorem find?_defineAll_isSome {scope : Scope} {name : String}
    (changes : List (String × Value)) (h : (scope.find? name).isSome = true) :
    ((scope.defineAll changes).find? name).isSome = true := by
  induction changes generalizing scope with
  | nil => exact h
  | cons change rest ih => exact ih (find?_define_isSome change.1 change.2 h)

end Scope

/-! ## Scopes and their parents -/

namespace Scope

/-- Scopes are newer than their parents. -/
def Layered (scopes : Array Scope) : Prop :=
  ∀ {s : ScopeId} {scope : Scope} {parent : ScopeId},
    scopes[s]? = some scope → scope.parent = some parent → parent < s

/-- The scopes of the first array are in the second one, inside the
parents they had. -/
def Remain (scopes scopes' : Array Scope) : Prop :=
  ∀ {s : ScopeId} {scope : Scope}, scopes[s]? = some scope →
    ∃ later, scopes'[s]? = some later ∧ later.parent = scope.parent

variable {scopes scopes₁ scopes' : Array Scope}

theorem Layered.push (h : Layered scopes) (scope : Scope)
    (hparent : ∀ p, scope.parent = some p → p < scopes.size) : Layered (scopes.push scope) := by
  intro s found parent hfound heq
  rw [Array.getElem?_push] at hfound
  split at hfound
  · next hs =>
    obtain rfl := Option.some.inj hfound
    exact hs ▸ hparent parent heq
  · exact h hfound heq

theorem Layered.define (h : Layered scopes) (target : ScopeId) (name : String) (v : Value) :
    Layered (scopes.modify target (·.define name v)) := by
  intro s found parent hfound heq
  rw [Array.getElem?_modify] at hfound
  split at hfound
  · obtain ⟨old, hold, rfl⟩ := Option.map_eq_some_iff.mp hfound
    exact h hold heq
  · exact h hfound heq

theorem Remain.refl : Remain scopes scopes := fun hscope => ⟨_, hscope, rfl⟩

theorem Remain.trans (h : Remain scopes scopes₁) (h' : Remain scopes₁ scopes') :
    Remain scopes scopes' := by
  intro s scope hscope
  obtain ⟨before, hbefore, hparent⟩ := h hscope
  obtain ⟨later, hlater, heq⟩ := h' hbefore
  exact ⟨later, hlater, heq.trans hparent⟩

theorem remain_push (scope : Scope) : Remain scopes (scopes.push scope) := by
  intro s found hfound
  have hs := Nat.ne_of_lt (Array.getElem?_eq_some_iff.mp hfound).1
  exact ⟨found, by rw [Array.getElem?_push, if_neg hs, hfound], rfl⟩

theorem remain_define (target : ScopeId) (name : String) (v : Value) :
    Remain scopes (scopes.modify target (·.define name v)) := by
  intro s found hfound
  rw [Array.getElem?_modify, hfound]
  by_cases hs : target = s
  · exact ⟨found.define name v, by simp [hs], rfl⟩
  · exact ⟨found, by simp [hs], rfl⟩

end Scope

/-! ## Well-formed worlds -/

namespace World

/-- The world has all scopes that a value captures. -/
def Holds (w : World) (v : Value) : Prop := Scoped w.scopes.size v

/-- A scope is newer than its parent, and all scopes that are captured
in the world are there. -/
structure WellFormed (w : World) : Prop where
  older : ∀ {s : ScopeId} {scope : Scope} {parent : ScopeId},
    w.scopes[s]? = some scope → scope.parent = some parent → parent < s
  bound : ∀ {s : ScopeId} {scope : Scope}, w.scopes[s]? = some scope →
    ∀ binding ∈ scope.bindings, w.Holds binding.2
  cells : ∀ v ∈ w.cells, w.Holds v

/-- The scope is there and has no parent. -/
def Parentless (w : World) (s : ScopeId) : Prop :=
  ∃ scope, w.scopes[s]? = some scope ∧ scope.parent = none

theorem lt_size_of_getElem? {w : World} {s : ScopeId} {scope : Scope}
    (h : w.scopes[s]? = some scope) : s < w.scopes.size :=
  (Array.getElem?_eq_some_iff.mp h).1

theorem getElem?_of_lt_size {w : World} {s : ScopeId} (h : s < w.scopes.size) :
    ∃ scope, w.scopes[s]? = some scope :=
  ⟨w.scopes[s], Array.getElem?_eq_getElem h⟩

namespace WellFormed

variable {w : World}

/-- What a well-formed world holds is a property of all its values. -/
theorem all (hw : w.WellFormed) : w.All w.Holds := ⟨hw.bound, hw.cells⟩

theorem holds_find? (hw : w.WellFormed) {scope : ScopeId} {name : String} {v : Value}
    (h : w.find? scope name = some v) : w.Holds v :=
  hw.all.find? h

theorem parentless_rootFrom (hw : w.WellFormed) (fuel : Nat) :
    ∀ {id : ScopeId}, id < fuel → id < w.scopes.size → w.Parentless (w.rootFrom fuel id) := by
  induction fuel with
  | zero => exact fun h => absurd h (Nat.not_lt_zero _)
  | succ fuel ih =>
    intro id hfuel hid
    obtain ⟨scope, hscope⟩ := getElem?_of_lt_size hid
    rw [rootFrom, hscope, Option.bind_some]
    split
    · next parent hparent =>
      have holder := hw.older hscope hparent
      exact ih (Nat.lt_of_lt_of_le holder (Nat.le_of_lt_succ hfuel)) (Nat.lt_trans holder hid)
    · next hparent => exact ⟨scope, hscope, hparent⟩

/-- The outermost scope around a scope has no parent. -/
theorem parentless_root (hw : w.WellFormed) {id : ScopeId} (h : id < w.scopes.size) :
    w.Parentless (w.root id) :=
  hw.parentless_rootFrom (id + 1) (Nat.lt_succ_self id) h

theorem holds_macroCall? (hw : w.WellFormed) {scope captured : ScopeId} {form body : Value}
    {params : List String} {args : List Value} (hform : w.Holds form)
    (h : w.macroCall? scope form = some (params, body, captured, args)) :
    captured < w.scopes.size ∧ w.Holds body ∧ ∀ arg ∈ args, w.Holds arg := by
  unfold macroCall? at h
  split at h
  · split at h
    · next hfind =>
      cases h
      obtain ⟨hcaptured, hbody⟩ := scoped_closure.mp (hw.holds_find? hfind)
      exact ⟨hcaptured, hbody, (List.forall_mem_cons.mp (scoped_list.mp hform)).2⟩
    · cases h
  · cases h

end WellFormed

/-- One more scope, whose parent is there. -/
theorem wellFormed_push {w : World} (hw : w.WellFormed) {scope : Scope}
    (hparent : ∀ p, scope.parent = some p → p < w.scopes.size)
    (hbindings : ∀ b ∈ scope.bindings, w.Holds b.2) :
    WellFormed { w with scopes := w.scopes.push scope } := by
  have hsize : w.scopes.size ≤ (w.scopes.push scope).size := by
    rw [Array.size_push]
    exact Nat.le_succ _
  have hall := hw.all.push hbindings
  have hlayered : Scope.Layered (w.scopes.push scope) := Scope.Layered.push hw.older scope hparent
  exact ⟨hlayered, fun h b hb => (hall.bound h b hb).mono hsize,
    fun v hv => (hw.cells v hv).mono hsize⟩

theorem wellFormed_enter {w : World} (hw : w.WellFormed) {parent : ScopeId}
    (hparent : parent < w.scopes.size) {bindings : List (String × Value)}
    (hbindings : ∀ b ∈ bindings, w.Holds b.2) : (w.enter parent bindings).WellFormed := by
  refine wellFormed_push hw ?_ hbindings
  rintro p ⟨⟩
  exact hparent

theorem wellFormed_define {w : World} (hw : w.WellFormed) (scope : ScopeId) (name : String)
    {v : Value} (hv : w.Holds v) : (w.define scope name v).WellFormed := by
  have hsize : w.scopes.size ≤ (w.define scope name v).scopes.size :=
    Nat.le_of_eq Array.size_modify.symm
  have hall : (w.define scope name v).All w.Holds := hw.all.define hv
  have hlayered : Scope.Layered (w.define scope name v).scopes :=
    Scope.Layered.define hw.older scope name v
  exact ⟨hlayered, fun h b hb => (hall.bound h b hb).mono hsize,
    fun x hx => (hw.cells x hx).mono hsize⟩

/-! ## Evolution -/

/-- The scopes of a world are in a later one, where nothing but names
defined as `D` allows has been added to them, and the later world is
well formed. -/
structure Evolves (D : ScopeId → String → Value → Prop) (w w' : World) : Prop where
  scopes : ∀ s scope, w.scopes[s]? = some scope →
    ∃ changes, w'.scopes[s]? = some (scope.defineAll changes) ∧ ∀ c ∈ changes, D s c.1 c.2
  wellFormed : w'.WellFormed

namespace Evolves

variable {D D₁ D₂ : ScopeId → String → Value → Prop} {w w₁ w' : World} {s : ScopeId}

theorem size_le (h : Evolves D w w') : w.scopes.size ≤ w'.scopes.size := by
  by_contra hlt
  obtain ⟨scope, hscope⟩ := getElem?_of_lt_size (Nat.lt_of_not_le hlt)
  obtain ⟨changes, hscope', -⟩ := h.scopes _ _ hscope
  exact absurd (lt_size_of_getElem? hscope') (Nat.lt_irrefl _)

theorem holds (h : Evolves D w w') {v : Value} (hv : w.Holds v) : w'.Holds v :=
  hv.mono h.size_le

/-- No scope loses its parent. -/
theorem parentless (h : Evolves D w w') (hs : s < w.scopes.size) (hparentless : w'.Parentless s) :
    w.Parentless s := by
  obtain ⟨scope, hscope⟩ := getElem?_of_lt_size hs
  obtain ⟨changes, hscope', -⟩ := h.scopes s scope hscope
  obtain ⟨later, hlater, hparent⟩ := hparentless
  rw [hscope'] at hlater
  obtain rfl := Option.some.inj hlater
  exact ⟨scope, hscope, by rwa [Scope.defineAll_parent] at hparent⟩

theorem mono (h : Evolves D₁ w w')
    (hD : ∀ s < w.scopes.size, ∀ name v, D₁ s name v → D s name v) : Evolves D w w' := by
  refine ⟨fun s scope hscope => ?_, h.wellFormed⟩
  obtain ⟨changes, hscope', hchanges⟩ := h.scopes s scope hscope
  have hs := lt_size_of_getElem? hscope
  exact ⟨changes, hscope', fun c hc => hD s hs _ _ (hchanges c hc)⟩

/-- Only the scopes of the first world matter for what happens later. -/
theorem trans (h : Evolves D w w₁) (h' : Evolves D₂ w₁ w')
    (hD : ∀ s < w.scopes.size, ∀ name v, D₂ s name v → D s name v) : Evolves D w w' := by
  refine ⟨fun s scope hscope => ?_, h'.wellFormed⟩
  have hs := lt_size_of_getElem? hscope
  obtain ⟨changes, hscope₁, hchanges⟩ := h.scopes s scope hscope
  obtain ⟨more, hscope', hmore⟩ := h'.scopes s _ hscope₁
  refine ⟨changes ++ more, ?_, fun c hc => ?_⟩
  · rw [hscope', Scope.defineAll_append]
  · rcases List.mem_append.mp hc with hc | hc
    · exact hchanges c hc
    · exact hD s hs _ _ (hmore c hc)

/-- A world with the same scopes, if what its cells hold is fine. -/
theorem of_scopes (hw : w.WellFormed) (hscopes : w'.scopes = w.scopes)
    (hcells : ∀ v ∈ w'.cells, w.Holds v) : Evolves D w w' := by
  have hsize : w'.scopes.size = w.scopes.size := by rw [hscopes]
  refine ⟨fun s scope hscope => ⟨[], by rwa [hscopes], List.forall_mem_nil _⟩, ?_⟩
  refine ⟨?_, ?_, ?_⟩
  · rw [hscopes]
    exact hw.older
  · intro s scope hscope binding hb
    rw [hscopes] at hscope
    rw [Holds, hsize]
    exact hw.bound hscope binding hb
  · intro v hv
    rw [Holds, hsize]
    exact hcells v hv

theorem refl (hw : w.WellFormed) : Evolves D w w := of_scopes hw rfl hw.cells

theorem count (hw : w.WellFormed) : Evolves D w w.count := of_scopes hw rfl hw.cells

theorem store (hw : w.WellFormed) {cell : CellId} {v : Value} (hv : w.Holds v) :
    Evolves D w (w.store cell v) :=
  of_scopes hw rfl (Action.all_store hv hw.cells)

theorem enter (hw : w.WellFormed) {parent : ScopeId} (hparent : parent < w.scopes.size)
    {bindings : List (String × Value)} (hbindings : ∀ b ∈ bindings, w.Holds b.2) :
    Evolves D w (w.enter parent bindings) := by
  refine ⟨fun s scope hscope => ⟨[], ?_, List.forall_mem_nil _⟩, wellFormed_enter hw hparent hbindings⟩
  have hs := lt_size_of_getElem? hscope
  rw [World.enter, Array.getElem?_push, if_neg (Nat.ne_of_lt hs)]
  exact hscope

theorem define (hw : w.WellFormed) {name : String} {v : Value} (hv : w.Holds v)
    (hD : D s name v) : Evolves D w (w.define s name v) := by
  refine ⟨fun t scope hscope => ?_, wellFormed_define hw s name hv⟩
  by_cases hst : s = t
  · subst hst
    refine ⟨[(name, v)], ?_, by simpa using hD⟩
    rw [World.define, Array.getElem?_modify, if_pos rfl, hscope]
    rfl
  · refine ⟨[], ?_, List.forall_mem_nil _⟩
    rw [World.define, Array.getElem?_modify, if_neg hst]
    exact hscope

end Evolves

end World

end Lisp
