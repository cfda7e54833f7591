import Lisp.Proofs.Insertion

/-!
# The scope of a call

A call makes a scope behind all others. To those that are there this is
as if a scope were put in at the end, which nothing refers to: they bind
what they bound. The new scope sees what it binds itself and, apart from
that, what the scope around it sees.
-/

namespace Lisp

open World Value

namespace World

section

variable {w : World} {parent : ScopeId} {bindings : List (String × Value)} {name : String}

/-- What the world has keeps its scopes when one is put in behind all
others. -/
theorem Holds.rename_past {v : Value} (h : w.Holds v) : v.rename (past w.scopes.size) = v :=
  rename_of_scoped _ (fun _ hs => past_of_lt hs) h

theorem WellFormed.rename_scope (hw : w.WellFormed) {s : ScopeId} {scope : Scope}
    (h : w.scopes[s]? = some scope) : scope.rename (past w.scopes.size) = scope := by
  have hbindings : ∀ b ∈ scope.bindings, renameBinding (past w.scopes.size) b = b := fun b hb =>
    Prod.ext rfl (hw.bound h b hb).rename_past
  have hparent : scope.parent.map (past w.scopes.size) = scope.parent := by
    cases hparent : scope.parent with
    | none => rfl
    | some parent =>
      have holder := hw.older h hparent
      exact congrArg some (past_of_lt (Nat.lt_trans holder (lt_size_of_getElem? h)))
  rw [Scope.rename, hparent, List.map_congr_left hbindings, List.map_id']

/-- A new scope is one that is put in behind all others. -/
theorem WellFormed.enter_eq_insertScope (hw : w.WellFormed) :
    w.enter parent bindings = w.insertScope w.scopes.size ⟨some parent, bindings⟩ := by
  have hscopes : (w.enter parent bindings).scopes =
      (w.insertScope w.scopes.size ⟨some parent, bindings⟩).scopes := by
    refine scopes_ext (k := w.scopes.size) ?_ fun s => ?_
    · rw [getElem?_insertScope_self (Nat.le_refl _), enter, Array.getElem?_push, if_pos rfl]
    · rw [getElem?_insertScope (Nat.le_refl _), enter, Array.getElem?_push]
      by_cases hs : s < w.scopes.size
      · rw [past_of_lt hs, if_neg (Nat.ne_of_lt hs)]
        obtain ⟨scope, hscope⟩ := getElem?_of_lt_size hs
        rw [hscope, Option.map_some, hw.rename_scope hscope]
      · have hs := Nat.le_of_not_lt hs
        rw [past_of_le hs, if_neg (by omega), Array.getElem?_eq_none hs,
          Array.getElem?_eq_none (by omega)]
        rfl
  have hcells : w.cells.map (rename (past w.scopes.size)) = w.cells := by
    rw [Array.map_congr_left fun v hv => (hw.cells v hv).rename_past, Array.map_id']
  rw [enter, insertScope, hcells]
  exact congrArg (fun scopes => { w with scopes }) hscopes

theorem WellFormed.find?_enter_of_lt (hw : w.WellFormed) {s : ScopeId}
    (hs : s < w.scopes.size) : (w.enter parent bindings).find? s name = w.find? s name := by
  have hfind : (w.insertScope w.scopes.size ⟨some parent, bindings⟩).find?
      (past w.scopes.size s) name = _ := find?_insertScope hw (Nat.le_refl _) s name
  rw [past_of_lt hs, ← hw.enter_eq_insertScope] at hfind
  rw [hfind]
  cases hfound : w.find? s name with
  | none => rfl
  | some v => exact congrArg some (hw.holds_find? hfound).rename_past

/-- What a new scope does not bind is looked up in the one around it. -/
theorem WellFormed.find?_enter (hw : w.WellFormed) (hparent : parent < w.scopes.size) :
    (w.enter parent bindings).find? w.scopes.size name =
      (bindings.lookup name).or (w.find? parent name) := by
  have hself : (w.enter parent bindings).scopes[w.scopes.size]? = some ⟨some parent, bindings⟩ := by
    rw [enter, Array.getElem?_push, if_pos rfl]
  rw [find?, findFrom, hself]
  cases hbound : bindings.lookup name with
  | some v => simp [Scope.find?, hbound]
  | none =>
    have houter : (w.insertScope w.scopes.size ⟨some parent, bindings⟩).findFrom name w.scopes.size
        (past w.scopes.size parent) = _ :=
      findFrom_insertScope hw (Nat.le_refl _) name (parent + 1) (Nat.lt_succ_self parent)
        (by rwa [past_of_lt hparent])
    rw [past_of_lt hparent, ← hw.enter_eq_insertScope] at houter
    simp only [Scope.find?, hbound, houter, Option.none_or]
    rw [find?]
    cases hfind : w.findFrom name (parent + 1) parent with
    | none => rfl
    | some v => exact congrArg some (hw.holds_find? hfind).rename_past

section

variable {bound : String} {v : Value}

theorem WellFormed.find?_enter_single (hw : w.WellFormed) (hparent : parent < w.scopes.size) :
    (w.enter parent [(bound, v)]).find? w.scopes.size bound = some v := by
  rw [hw.find?_enter hparent]
  simp

theorem WellFormed.find?_enter_single_of_ne (hw : w.WellFormed)
    (hparent : parent < w.scopes.size) (hname : name ≠ bound) :
    (w.enter parent [(bound, v)]).find? w.scopes.size name = w.find? parent name := by
  rw [hw.find?_enter hparent]
  have hother : (name == bound) = false := beq_eq_false_iff_ne.mpr hname
  simp [List.lookup_cons, hother]

end

theorem WellFormed.root_enter (hw : w.WellFormed) (hparent : parent < w.scopes.size) :
    (w.enter parent bindings).root w.scopes.size = w.root parent := by
  have hself : (w.enter parent bindings).scopes[w.scopes.size]? = some ⟨some parent, bindings⟩ := by
    rw [enter, Array.getElem?_push, if_pos rfl]
  have houter : (w.insertScope w.scopes.size ⟨some parent, bindings⟩).rootFrom w.scopes.size
      (past w.scopes.size parent) = _ :=
    rootFrom_insertScope hw (Nat.le_refl _) (parent + 1) (Nat.lt_succ_self parent)
      (by rwa [past_of_lt hparent])
  rw [past_of_lt hparent, ← hw.enter_eq_insertScope] at houter
  have hroot : w.root parent < w.scopes.size := by
    obtain ⟨scope, hscope, -⟩ := hw.parentless_root hparent
    exact lt_size_of_getElem? hscope
  rw [root, rootFrom, hself, Option.bind_some]
  exact houter.trans (past_of_lt hroot)

/-- Nothing is around a scope with number 0. -/
theorem WellFormed.root_zero (hw : w.WellFormed) : w.root 0 = 0 := by
  rw [root, rootFrom]
  cases hscope : w.scopes[0]? with
  | none => rfl
  | some scope =>
    cases hparent : scope.parent with
    | none => simp [hparent]
    | some parent => exact absurd (hw.older hscope hparent) (Nat.not_lt_zero _)

end

end World

end Lisp
