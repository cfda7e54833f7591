import Lisp.Proofs.Evolution
import Lisp.Proofs.Renaming
import Lisp.Proofs.Turns

/-!
# A scope that nothing names

A world may have a scope that nothing refers to, left over from a call
that is long done. It makes no difference, except that the scopes made
after it have other numbers. To say so, a scope is put in at some place
of a world and what comes after it moves up, everywhere in the world
(`World.insertScope`).

Two actions go together in a world if the second one does, with a scope
put in, what the first one does without (`Goes`): same outcome, with the
scope still there and everything else renamed. The actions of which
evaluation consists do, if the world is well formed and the place is not
beyond its last scope. Both stay so.
-/

namespace Lisp

open Value

/-- The number of a scope after one is put in at place `k`. -/
def past (k s : Nat) : Nat := if s < k then s else s + 1

section

variable {k s t : Nat}

theorem past_of_lt (h : s < k) : past k s = s := if_pos h

theorem past_of_le (h : k ≤ s) : past k s = s + 1 := if_neg (Nat.not_lt.mpr h)

theorem past_lt_past (h : s < t) : past k s < past k t := by
  unfold past
  split <;> split <;> omega

theorem past_injective : Function.Injective (past k) := by
  intro s t h
  unfold past at h
  split at h <;> split at h <;> omega

theorem past_ne (k s : Nat) : past k s ≠ k := by
  unfold past
  split <;> omega

/-- Every number but `k` is that of a scope that was there. -/
theorem eq_or_exists_past (k s : Nat) : s = k ∨ ∃ t, s = past k t := by
  rcases Nat.lt_trichotomy s k with h | h | h
  · exact Or.inr ⟨s, (past_of_lt h).symm⟩
  · exact Or.inl h
  · refine Or.inr ⟨s - 1, ?_⟩
    rw [past_of_le (by omega)]
    omega

end

/-! ## Worlds with a scope put in -/

/-- The scope with all scopes in it renamed. -/
def Scope.rename (σ : ScopeId → ScopeId) (scope : Scope) : Scope :=
  ⟨scope.parent.map σ, scope.bindings.map (renameBinding σ)⟩

theorem Scope.find?_rename (σ : ScopeId → ScopeId) (scope : Scope) (name : String) :
    (scope.rename σ).find? name = (scope.find? name).map (Value.rename σ) := by
  rw [find?, find?, rename]
  induction scope.bindings with
  | nil => rfl
  | cons b rest ih =>
    rw [List.map_cons, renameBinding, List.lookup_cons, List.lookup_cons, ih]
    cases name == b.1 <;> rfl

namespace World

/-- The world with a scope put in at place `k`. -/
def insertScope (w : World) (k : ScopeId) (extra : Scope) : World :=
  { w with
    scopes := (w.scopes.map (Scope.rename (past k))).insertIdxIfInBounds k extra
    cells := w.cells.map (rename (past k)) }

variable {w : World} {k : Nat} {extra : Scope}

theorem scopes_insertScope (hk : k ≤ w.scopes.size) :
    (w.insertScope k extra).scopes =
      (w.scopes.map (Scope.rename (past k))).insertIdx k extra (by simpa using hk) := by
  rw [insertScope, Array.insertIdxIfInBounds, dif_pos (by simpa using hk)]

theorem size_insertScope (hk : k ≤ w.scopes.size) :
    (w.insertScope k extra).scopes.size = w.scopes.size + 1 := by
  rw [scopes_insertScope hk, Array.size_insertIdx, Array.size_map]

theorem getElem?_insertScope_self (hk : k ≤ w.scopes.size) :
    (w.insertScope k extra).scopes[k]? = some extra := by
  rw [scopes_insertScope hk, Array.getElem?_insertIdx, if_neg (Nat.lt_irrefl k), if_pos rfl,
    if_pos (by simpa using hk)]

theorem getElem?_insertScope (hk : k ≤ w.scopes.size) (s : Nat) :
    (w.insertScope k extra).scopes[past k s]? = w.scopes[s]?.map (Scope.rename (past k)) := by
  rw [scopes_insertScope hk, Array.getElem?_insertIdx, ← Array.getElem?_map]
  by_cases h : s < k
  · rw [past_of_lt h, if_pos h]
  · rw [past_of_le (Nat.not_lt.mp h), if_neg (by omega), if_neg (by omega), Nat.add_sub_cancel]

/-- Scopes that agree at place `k` and everywhere else are the same. -/
theorem scopes_ext {scopes scopes' : Array Scope} (hself : scopes[k]? = scopes'[k]?)
    (h : ∀ s, scopes[past k s]? = scopes'[past k s]?) : scopes = scopes' := by
  apply Array.ext_getElem?
  intro s
  rcases eq_or_exists_past k s with rfl | ⟨t, rfl⟩
  · exact hself
  · exact h t

/-! ### Changes of the world -/

theorem enter_insertScope (hk : k ≤ w.scopes.size) (parent : ScopeId)
    (bindings : List (String × Value)) :
    (w.enter parent bindings).insertScope k extra =
      (w.insertScope k extra).enter (past k parent) (bindings.map (renameBinding (past k))) := by
  have hk' : k ≤ (w.enter parent bindings).scopes.size := by
    rw [enter, Array.size_push]
    exact Nat.le_succ_of_le hk
  have hscopes : ((w.enter parent bindings).insertScope k extra).scopes =
      ((w.insertScope k extra).enter (past k parent)
        (bindings.map (renameBinding (past k)))).scopes := by
    refine scopes_ext (k := k) ?_ fun s => ?_
    · rw [getElem?_insertScope_self hk', enter, Array.getElem?_push, size_insertScope hk,
        if_neg (by omega), getElem?_insertScope_self hk]
    · rw [getElem?_insertScope hk', enter, enter, Array.getElem?_push, Array.getElem?_push,
        size_insertScope hk, getElem?_insertScope hk, ← past_of_le hk]
      by_cases h : s = w.scopes.size
      · subst h
        rw [if_pos rfl, if_pos rfl]
        rfl
      · rw [if_neg h, if_neg (fun heq => h (past_injective heq))]
  exact congrArg (fun scopes => { w.insertScope k extra with scopes }) hscopes

theorem define_insertScope (hk : k ≤ w.scopes.size) (s : Nat) (name : String) (v : Value) :
    (w.define s name v).insertScope k extra =
      (w.insertScope k extra).define (past k s) name (v.rename (past k)) := by
  have hk' : k ≤ (w.define s name v).scopes.size := by
    rw [define, Array.size_modify]
    exact hk
  have hscopes : ((w.define s name v).insertScope k extra).scopes =
      ((w.insertScope k extra).define (past k s) name (v.rename (past k))).scopes := by
    refine scopes_ext (k := k) ?_ fun t => ?_
    · rw [getElem?_insertScope_self hk', define, Array.getElem?_modify, if_neg (past_ne k s),
        getElem?_insertScope_self hk]
    · rw [getElem?_insertScope hk', define, define, Array.getElem?_modify, Array.getElem?_modify,
        getElem?_insertScope hk]
      by_cases h : s = t
      · subst h
        rw [if_pos rfl, if_pos rfl, Option.map_map, Option.map_map]
        congr 1
        funext scope
        simp only [Function.comp_apply, Scope.rename, Scope.define, Scope.bind_rename]
      · rw [if_neg h, if_neg (fun heq => h (past_injective heq))]
  exact congrArg (fun scopes => { w.insertScope k extra with scopes }) hscopes

theorem store_insertScope (cell : CellId) (v : Value) :
    (w.store cell v).insertScope k extra =
      (w.insertScope k extra).store cell (v.rename (past k)) := by
  simp [store, insertScope, Array.map_setIfInBounds]

theorem contents_insertScope (cell : CellId) :
    (w.insertScope k extra).contents cell = (w.contents cell).rename (past k) := by
  rw [contents, contents, insertScope, Array.getElem?_map]
  cases w.cells[cell]? <;> rfl

theorem text_insertScope (readably : Bool) (v : Value) :
    (w.insertScope k extra).text readably (v.rename (past k)) = w.text readably v := by
  rw [text, text, insertScope, Array.size_map, textIn_rename]

theorem texts_insertScope (readably : Bool) (separator : String) (vs : List Value) :
    (w.insertScope k extra).texts readably separator (vs.map (rename (past k))) =
      w.texts readably separator vs := by
  rw [texts, texts, List.map_map]
  congr 2
  funext v
  exact text_insertScope readably v

/-! ### Looking names up -/

theorem findFrom_insertScope (hw : w.WellFormed) (hk : k ≤ w.scopes.size) (name : String)
    (fuel : Nat) : ∀ {fuel' s : Nat}, s < fuel → past k s < fuel' →
      (w.insertScope k extra).findFrom name fuel' (past k s) =
        (w.findFrom name fuel s).map (rename (past k)) := by
  induction fuel with
  | zero => exact fun h => absurd h (Nat.not_lt_zero _)
  | succ fuel ih =>
    intro fuel' s hfuel hfuel'
    obtain ⟨fuel', rfl⟩ := Nat.exists_eq_succ_of_ne_zero (Nat.ne_zero_of_lt hfuel')
    rw [findFrom, findFrom, getElem?_insertScope hk]
    cases hscope : w.scopes[s]? with
    | none => rfl
    | some scope =>
      rw [Option.map_some]
      simp only [Scope.find?_rename]
      cases scope.find? name with
      | some v => rfl
      | none =>
        simp only [Scope.rename, Option.map_none]
        cases hparent : scope.parent with
        | none => rfl
        | some parent =>
          have holder := hw.older hscope hparent
          have holder' := past_lt_past (k := k) holder
          exact ih (Nat.lt_of_lt_of_le holder (Nat.le_of_lt_succ hfuel)) (by omega)

theorem find?_insertScope (hw : w.WellFormed) (hk : k ≤ w.scopes.size) (s : Nat)
    (name : String) :
    (w.insertScope k extra).find? (past k s) name = (w.find? s name).map (rename (past k)) :=
  findFrom_insertScope hw hk name _ (Nat.lt_succ_self _) (Nat.lt_succ_self _)

theorem rootFrom_insertScope (hw : w.WellFormed) (hk : k ≤ w.scopes.size) (fuel : Nat) :
    ∀ {fuel' s : Nat}, s < fuel → past k s < fuel' →
      (w.insertScope k extra).rootFrom fuel' (past k s) = past k (w.rootFrom fuel s) := by
  induction fuel with
  | zero => exact fun h => absurd h (Nat.not_lt_zero _)
  | succ fuel ih =>
    intro fuel' s hfuel hfuel'
    obtain ⟨fuel', rfl⟩ := Nat.exists_eq_succ_of_ne_zero (Nat.ne_zero_of_lt hfuel')
    rw [rootFrom, rootFrom, getElem?_insertScope hk]
    cases hscope : w.scopes[s]? with
    | none => rfl
    | some scope =>
      simp only [Option.map_some, Option.bind_some, Scope.rename]
      cases hparent : scope.parent with
      | none => rfl
      | some parent =>
        have holder := hw.older hscope hparent
        have holder' := past_lt_past (k := k) holder
        exact ih (Nat.lt_of_lt_of_le holder (Nat.le_of_lt_succ hfuel)) (by omega)

theorem root_insertScope (hw : w.WellFormed) (hk : k ≤ w.scopes.size) (s : Nat) :
    (w.insertScope k extra).root (past k s) = past k (w.root s) :=
  rootFrom_insertScope hw hk _ (Nat.lt_succ_self _) (Nat.lt_succ_self _)

theorem macroCall?_insertScope (hw : w.WellFormed) (hk : k ≤ w.scopes.size) (s : Nat)
    (form : Value) :
    (w.insertScope k extra).macroCall? (past k s) (form.rename (past k)) =
      (w.macroCall? s form).map fun (params, body, captured, args) =>
        (params, body.rename (past k), past k captured, args.map (rename (past k))) := by
  cases form with
  | list items =>
    rw [rename_list]
    cases items with
    | nil => rfl
    | cons head args =>
      cases head with
      | symbol name =>
        rw [List.map_cons, rename, macroCall?, macroCall?, find?_insertScope hw hk]
        cases w.find? s name with
        | none => rfl
        | some v =>
          cases v with
          | closure object expander params body captured => cases expander <;> rfl
          | _ => rfl
      | _ => rfl
  | _ => rfl

/-! ### Growth -/

/-- The world evolves to another one, by whatever definitions. -/
def Grows (w w' : World) : Prop := Evolves (fun _ _ _ => True) w w'

theorem Grows.trans {w₁ w₂ w₃ : World} (h : w₁.Grows w₂) (h' : w₂.Grows w₃) : w₁.Grows w₃ :=
  Evolves.trans h h' fun _ _ _ _ _ => trivial

theorem Grows.refl (h : w.WellFormed) : w.Grows w := Evolves.refl h

/-- The world is well formed, and place `k` is not beyond its last
scope. -/
structure Hosts (w : World) (k : Nat) : Prop where
  wellFormed : w.WellFormed
  place : k ≤ w.scopes.size

theorem Hosts.grows {w' : World} (h : w.Hosts k) (hgrows : w.Grows w') : w'.Hosts k :=
  ⟨hgrows.wellFormed, Nat.le_trans h.place hgrows.size_le⟩

def HasScope (w : World) (s : ScopeId) : Prop := s < w.scopes.size

def HoldsAll (w : World) (vs : List Value) : Prop := ∀ v ∈ vs, w.Holds v

theorem Grows.hasScope {w' : World} (h : w.Grows w') {s : ScopeId} (hs : w.HasScope s) :
    w'.HasScope s :=
  Nat.lt_of_lt_of_le hs h.size_le

theorem Grows.holdsAll {w' : World} (h : w.Grows w') {vs : List Value} (hvs : w.HoldsAll vs) :
    w'.HoldsAll vs := fun v hv => h.holds (hvs v hv)

end World

/-! ## Actions that go together -/

/-- The outcome with a scope put in, and its value renamed by `f`. -/
def Outcome.insertScope {α : Type} (k : Nat) (extra : Scope) (f : α → α) : Outcome α → Outcome α
  | .value a w => .value (f a) (w.insertScope k extra)
  | .failure e w => .failure e (w.insertScope k extra)
  | .halted why => .halted why

namespace Action

/-- In `w` with a scope put in, `x'` does what `x` does in `w`, with its
value renamed by `f`. The world grows, and `P` holds of the value. -/
structure Carries (k : Nat) (extra : Scope) {α : Type} (f : α → α) (P : World → α → Prop)
    (x x' : Action α) (w : World) : Prop where
  same : x' (w.insertScope k extra) = (x w).insertScope k extra f
  grows : ∀ r w', x.Ends w r w' → w.Grows w' ∧ ∀ a, r = .ok a → P w' a

section

variable {k : Nat} {extra : Scope} {α β : Type} {f : α → α} {g : β → β}
  {P : World → α → Prop} {Q : World → β → Prop} {w : World}

theorem carries_pure (hw : w.WellFormed) {a : α} (ha : P w a) :
    Carries k extra f P (pure a) (pure (f a)) w := by
  refine ⟨rfl, fun r w' h => ?_⟩
  obtain ⟨rfl, rfl⟩ := ends_pure.mp h
  exact ⟨.refl hw, fun a heq => Except.ok.inj heq ▸ ha⟩

theorem carries_fail (hw : w.WellFormed) (cause : Cause) :
    Carries k extra f P (fail cause) (fail cause) w := by
  refine ⟨rfl, fun r w' h => ?_⟩
  obtain ⟨rfl, rfl⟩ := ends_fail.mp h
  exact ⟨.refl hw, nofun⟩

theorem carries_halt (why : Halt) : Carries k extra f P (halt why) (halt why) w :=
  ⟨rfl, fun _ _ h => absurd h not_ends_halt⟩

theorem Carries.bind {x x' : Action α} {y y' : α → Action β} (h : Carries k extra f P x x' w)
    (hy : ∀ a w₁, w.Grows w₁ → P w₁ a → Carries k extra g Q (y a) (y' (f a)) w₁) :
    Carries k extra g Q (x >>= y) (x' >>= y') w := by
  constructor
  · rw [bind_apply, bind_apply, h.same]
    cases hx : x w with
    | value a w₁ =>
      obtain ⟨hgrows, ha⟩ := h.grows (.ok a) w₁ hx
      exact (hy a w₁ hgrows (ha a rfl)).same
    | failure e w₁ => rfl
    | halted why => rfl
  · intro r w' hends
    rcases ends_bind.mp hends with ⟨a, w₁, hx, hrest⟩ | ⟨e, hx, rfl⟩
    · obtain ⟨hgrows, ha⟩ := h.grows (.ok a) w₁ hx
      obtain ⟨hgrows', hr⟩ := (hy a w₁ hgrows (ha a rfl)).grows r w' hrest
      exact ⟨hgrows.trans hgrows', hr⟩
    · exact ⟨(h.grows (.error e) w' hx).1, nofun⟩

/-- What keeps the value has the same result. -/
theorem Carries.ends_iff {x x' : Action α} {r : Except Error α} {w' : World}
    (h : Carries k extra id P x x' w) :
    x'.Ends (w.insertScope k extra) r w' ↔
      ∃ w₁, x.Ends w r w₁ ∧ w' = w₁.insertScope k extra := by
  simp only [Ends, h.same]
  cases x w <;> cases r <;> simp [Outcome.insertScope, Outcome.ended, eq_comm]

theorem carries_ofExcept (hw : w.WellFormed) {x x' : Except Cause α} (hx : x' = x.map f)
    (h : ∀ a, x = .ok a → P w a) : Carries k extra f P (ofExcept x) (ofExcept x') w := by
  subst hx
  cases x with
  | ok a => exact carries_pure hw (h a rfl)
  | error cause => exact carries_fail hw cause

/-- What an action only looks at comes out the same, renamed. -/
theorem carries_ask {γ : Type} {look look' : World → γ} {c : γ} {y y' : γ → Action β}
    (hlook : look' (w.insertScope k extra) = c)
    (hy : Carries k extra g Q (y (look w)) (y' c) w) :
    Carries k extra g Q (ask look >>= y) (ask look' >>= y') w := by
  subst hlook
  exact ⟨hy.same, hy.grows⟩

/-! ### Changes of the world -/

theorem carries_enter (hw : w.Hosts k) {parent : Nat} (hparent : parent < w.scopes.size)
    {bindings : List (String × Value)} (hbindings : ∀ b ∈ bindings, w.Holds b.2) :
    Carries k extra (past k) World.HasScope (Action.enter (some parent) bindings)
      (Action.enter (some (past k parent)) (bindings.map (renameBinding (past k)))) w := by
  constructor
  · have hworld : (w.enter parent bindings).insertScope k extra = _ :=
      World.enter_insertScope hw.place parent bindings
    have hsize : (w.insertScope k extra).scopes.size = _ := World.size_insertScope hw.place
    rw [← past_of_le hw.place] at hsize
    exact congrArg₂ Outcome.value hsize hworld.symm
  · intro r w' h
    have hr : r = .ok w.scopes.size ∧ w' = w.enter parent bindings := by
      cases r <;> cases h
      exact ⟨rfl, rfl⟩
    obtain ⟨rfl, rfl⟩ := hr
    refine ⟨.enter hw.wellFormed hparent hbindings, fun s heq => ?_⟩
    rw [← Except.ok.inj heq, World.HasScope, World.enter, Array.size_push]
    exact Nat.lt_succ_self _

theorem carries_define (hw : w.Hosts k) (s : Nat) (name : String) {v : Value} (hv : w.Holds v) :
    Carries k extra id (fun _ _ => True) (define s name v)
      (define (past k s) name (v.rename (past k))) w := by
  constructor
  · exact congrArg (Outcome.value ()) (World.define_insertScope hw.place s name v).symm
  · intro r w' h
    have hr : r = .ok () ∧ w' = w.define s name v := by
      cases r <;> cases h
      exact ⟨rfl, rfl⟩
    obtain ⟨rfl, rfl⟩ := hr
    exact ⟨.define hw.wellFormed hv trivial, fun _ _ => trivial⟩

theorem carries_freshObject (hw : w.WellFormed) :
    Carries k extra id (fun _ _ => True) freshObject freshObject w := by
  refine ⟨rfl, fun r w' h => ?_⟩
  cases r <;> cases h
  exact ⟨.count hw, fun _ _ => trivial⟩

/-- An action that leaves the scopes as they are. -/
theorem carries_of_keeps {x x' : Action α}
    (same : x' (w.insertScope k extra) = (x w).insertScope k extra f) (hw : w.WellFormed)
    {R : α → Prop} (h : Keeps (Scoped w.scopes.size) R x)
    (hP : ∀ a w', w'.scopes = w.scopes → R a → P w' a) : Carries k extra f P x x' w := by
  refine ⟨same, fun r w' hends => ?_⟩
  obtain ⟨hscopes, hcells, hr⟩ := h.ends hw.cells hends
  exact ⟨.of_scopes hw hscopes hcells, fun a heq => hP a w' hscopes (hr a heq)⟩

theorem carries_newCell (hw : w.WellFormed) {v : Value} (hv : w.Holds v) :
    Carries k extra id (fun _ _ => True) (newCell v) (newCell (v.rename (past k))) w :=
  carries_of_keeps (by simp [newCell, World.insertScope, Outcome.insertScope]) hw (keeps_newCell hv)
    fun _ _ _ _ => trivial

theorem carries_store (hw : w.WellFormed) (cell : CellId) {v : Value} (hv : w.Holds v) :
    Carries k extra id (fun _ _ => True) (store cell v) (store cell (v.rename (past k))) w :=
  carries_of_keeps (congrArg (Outcome.value ()) (World.store_insertScope cell v).symm) hw
    (keeps_store hv) fun _ _ _ _ => trivial

theorem carries_contents (hw : w.WellFormed) (cell : CellId) :
    Carries k extra (rename (past k)) World.Holds (contents cell) (contents cell) w :=
  carries_of_keeps
    (congrArg (Outcome.value · (w.insertScope k extra)) (World.contents_insertScope cell)) hw
    (keeps_contents hereditary_scoped) fun v w' hscopes hv => by rwa [World.Holds, hscopes]

theorem carries_writeLine (hw : w.WellFormed) (text : String) :
    Carries k extra id (fun _ _ => True) (writeLine text) (writeLine text) w :=
  carries_of_keeps rfl hw keeps_writeLine fun _ _ _ _ => trivial

theorem carries_readFile (hw : w.WellFormed) (path : String) :
    Carries k extra id (fun _ _ => True) (readFile path) (readFile path) w := by
  refine carries_of_keeps ?_ hw keeps_readFile fun _ _ _ _ => trivial
  have hfiles : (w.insertScope k extra).files = w.files := rfl
  rw [readFile, readFile, hfiles]
  cases w.files path with
  | none => rfl
  | some content => cases content <;> rfl

theorem carries_readForm (hw : w.WellFormed) (source : String) :
    Carries k extra (rename (past k)) World.Holds (Primitive.readForm source)
      (Primitive.readForm source) w := by
  refine carries_of_keeps ?_ hw (keeps_readForm hereditary_scoped) fun v w' hscopes hv => by
    rwa [World.Holds, hscopes]
  rw [Primitive.readForm, Primitive.readForm]
  cases hread : read source with
  | error d => rfl
  | ok form =>
    have hform : form.Scoped 0 := scoped_of_read hread
    rw [Outcome.insertScope, rename_of_scoped (past k) (fun s hs => absurd hs (Nat.not_lt_zero s)) hform]

theorem carries_lookup (hw : w.Hosts k) (s : Nat) (name : String) :
    Carries k extra (rename (past k)) World.Holds (lookup s name)
      (lookup (past k s) name) w := by
  constructor
  · rw [lookup, lookup, World.find?_insertScope hw.wellFormed hw.place]
    cases w.find? s name <;> rfl
  · intro r w' h
    rcases ends_lookup.mp h with ⟨v, hv, rfl, rfl⟩ | ⟨-, rfl, rfl⟩
    · exact ⟨.refl hw.wellFormed, fun v' heq => Except.ok.inj heq ▸ hw.wellFormed.holds_find? hv⟩
    · exact ⟨.refl hw.wellFormed, fun _ heq => by cases heq⟩

theorem carries_enterCall (hw : w.Hosts k) {captured : Nat} (hcaptured : captured < w.scopes.size)
    (params : List String) {args : List Value} (hargs : ∀ arg ∈ args, w.Holds arg) :
    Carries k extra (past k) World.HasScope (enterCall captured params args)
      (enterCall (past k captured) params (args.map (rename (past k)))) w := by
  have hbindings : Carries k extra (List.map (renameBinding (past k)))
      (fun w bindings => captured < w.scopes.size ∧ ∀ b ∈ bindings, w.Holds b.2)
      (ofExcept (Call.bindings params args))
      (ofExcept (Call.bindings params (args.map (rename (past k))))) w :=
    carries_ofExcept hw.wellFormed (Call.bindings_rename (past k) params args)
      fun bindings h => ⟨hcaptured, Call.hereditary_bindings hereditary_scoped h hargs⟩
  exact hbindings.bind fun bindings w₁ hgrows h => carries_enter (hw.grows hgrows) h.1 h.2

theorem carries_uncallable (hw : w.WellFormed) (v : Value) :
    Carries k extra f P (Primitive.uncallable v) (Primitive.uncallable (v.rename (past k))) w := by
  rw [Primitive.uncallable, Primitive.uncallable, tag_rename]
  exact carries_ask (World.text_insertScope true v) (carries_fail hw _)

end

end Action

end Lisp
