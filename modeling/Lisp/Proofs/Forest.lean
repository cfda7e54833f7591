import Lisp.Proofs.Changes

/-!
# The forest of scopes

A scope has at most one parent, and where parents are older than their
children (`Scope.Layered`) the scopes are a forest. From each scope there
is one chain outwards, which ends in a scope without a parent
(`World.Chain`). The searches of a world are bounded by the number of the
scope they start from. This is enough to walk the whole chain
(`Chain.find?_eq`, `Chain.root_eq`), so they are what a walk without a
bound would be: the nearest scope on the chain that binds the name, and
the end of the chain.

A definition leaves all chains as they are. It is seen from the scopes
that have its scope on their chain, and no nearer one that binds the name
(`Chain.find?_define`, `Chain.find?_define_hidden`).
-/

namespace Lisp

namespace World

/-- The scopes from a scope outwards, the last of which has no parent. -/
inductive Chain (w : World) : ScopeId → List ScopeId → Prop
  | outermost {s : ScopeId} {scope : Scope} (h : w.scopes[s]? = some scope)
      (hparent : scope.parent = none) : Chain w s [s]
  | inside {s parent : ScopeId} {scope : Scope} {chain : List ScopeId}
      (h : w.scopes[s]? = some scope) (hparent : scope.parent = some parent)
      (hrest : Chain w parent chain) : Chain w s (s :: chain)

/-- The value of a name in this very scope. -/
def findIn? (w : World) (s : ScopeId) (name : String) : Option Value :=
  w.scopes[s]?.bind (·.find? name)

theorem findIn?_of_getElem? {w : World} {s : ScopeId} {scope : Scope}
    (h : w.scopes[s]? = some scope) (name : String) : w.findIn? s name = scope.find? name := by
  rw [findIn?, h, Option.bind_some]

theorem findFrom_succ {w : World} {s : ScopeId} {scope : Scope} (h : w.scopes[s]? = some scope)
    (name : String) (fuel : Nat) : w.findFrom name (fuel + 1) s =
      (scope.find? name).or (scope.parent.bind (w.findFrom name fuel)) := by
  rw [findFrom, h]
  dsimp only
  cases scope.find? name <;> cases scope.parent <;> rfl

/-- Chains are finite. -/
theorem exists_chain {w : World} (hw : Scope.Layered w.scopes) (s : ScopeId)
    (hs : s < w.scopes.size) : ∃ chain, w.Chain s chain := by
  induction s using Nat.strongRecOn with
  | _ s ih =>
    obtain ⟨scope, hscope⟩ := getElem?_of_lt_size hs
    cases hparent : scope.parent with
    | none => exact ⟨[s], .outermost hscope hparent⟩
    | some parent =>
      have holder := hw hscope hparent
      obtain ⟨chain, hchain⟩ := ih parent holder (Nat.lt_trans holder hs)
      exact ⟨s :: chain, .inside hscope hparent hchain⟩

namespace Chain

variable {w w' : World} {s t : ScopeId} {chain : List ScopeId}

theorem lt_size (h : w.Chain s chain) : s < w.scopes.size := by
  cases h with
  | outermost hscope _ | inside hscope _ _ => exact lt_size_of_getElem? hscope

theorem unique (h : w.Chain s chain) :
    ∀ {other : List ScopeId}, w.Chain s other → other = chain := by
  induction h with
  | outermost hscope hparent =>
    intro other h'
    cases h' with
    | outermost _ _ => rfl
    | inside hscope' hparent' _ =>
      obtain rfl := Option.some.inj (hscope.symm.trans hscope')
      cases hparent.symm.trans hparent'
  | inside hscope hparent _ ih =>
    intro other h'
    cases h' with
    | outermost hscope' hparent' =>
      obtain rfl := Option.some.inj (hscope.symm.trans hscope')
      cases hparent.symm.trans hparent'
    | inside hscope' hparent' hrest' =>
      obtain rfl := Option.some.inj (hscope.symm.trans hscope')
      obtain rfl := Option.some.inj (hparent.symm.trans hparent')
      rw [ih hrest']

theorem le_of_mem (hw : Scope.Layered w.scopes) (h : w.Chain s chain) : ∀ t ∈ chain, t ≤ s := by
  induction h with
  | outermost _ _ => exact fun t ht => Nat.le_of_eq (List.mem_singleton.mp ht)
  | inside hscope hparent _ ih =>
    intro t ht
    rcases List.mem_cons.mp ht with rfl | ht
    · exact Nat.le_refl _
    · exact Nat.le_trans (ih t ht) (Nat.le_of_lt (hw hscope hparent))

/-- No scope is around itself. -/
theorem nodup (hw : Scope.Layered w.scopes) (h : w.Chain s chain) : chain.Nodup := by
  induction h with
  | outermost _ _ => exact List.pairwise_singleton ..
  | inside hscope hparent hrest ih =>
    refine List.nodup_cons.mpr ⟨fun hmem => ?_, ih⟩
    exact absurd (hw hscope hparent) (Nat.not_lt_of_le (hrest.le_of_mem hw _ hmem))

/-- The chain of a scope is the rest of any chain it is on. -/
theorem suffix (h : w.Chain s chain) :
    ∀ {nearer outer : List ScopeId}, chain = nearer ++ t :: outer → w.Chain t (t :: outer) := by
  induction h with
  | outermost hscope hparent =>
    intro nearer outer heq
    cases nearer with
    | nil =>
      obtain ⟨rfl, rfl⟩ := List.cons.inj heq
      exact .outermost hscope hparent
    | cons _ _ => simp at heq
  | inside hscope hparent hrest ih =>
    intro nearer outer heq
    cases nearer with
    | nil =>
      obtain ⟨rfl, rfl⟩ := List.cons.inj heq
      exact .inside hscope hparent hrest
    | cons _ _ => exact ih (List.cons.inj heq).2

/-- Where scopes stay and keep their parents, chains stay. -/
theorem later (h : w.Chain s chain)
    (hremain : Scope.Remain w.scopes w'.scopes) : w'.Chain s chain := by
  induction h with
  | outermost hscope hparent =>
    obtain ⟨later, hlater, heq⟩ := hremain hscope
    exact .outermost hlater (heq.trans hparent)
  | inside hscope hparent _ ih =>
    obtain ⟨later, hlater, heq⟩ := hremain hscope
    exact .inside hlater (heq.trans hparent) ih

/-! ## Searches -/

theorem findFrom_eq (hw : Scope.Layered w.scopes) (h : w.Chain s chain) (name : String) :
    ∀ {fuel : Nat}, s < fuel → w.findFrom name fuel s = chain.findSome? (w.findIn? · name) := by
  induction h with
  | outermost hscope hparent =>
    intro fuel hfuel
    obtain ⟨fuel, rfl⟩ := Nat.exists_eq_succ_of_ne_zero (Nat.ne_zero_of_lt hfuel)
    rw [findFrom_succ hscope, hparent, List.findSome?_singleton, findIn?_of_getElem? hscope]
    exact Option.or_none
  | inside hscope hparent _ ih =>
    intro fuel hfuel
    obtain ⟨fuel, rfl⟩ := Nat.exists_eq_succ_of_ne_zero (Nat.ne_zero_of_lt hfuel)
    have holder := hw hscope hparent
    have hrest := ih (Nat.lt_of_lt_of_le holder (Nat.le_of_lt_succ hfuel))
    rw [findFrom_succ hscope, hparent, Option.bind_some, hrest, List.findSome?_cons,
      findIn?_of_getElem? hscope]
    cases Scope.find? _ name <;> rfl

/-- A name means what it means in the nearest scope that binds it. -/
theorem find?_eq (hw : Scope.Layered w.scopes) (h : w.Chain s chain) (name : String) :
    w.find? s name = chain.findSome? (w.findIn? · name) :=
  h.findFrom_eq hw name (Nat.lt_succ_self s)

theorem rootFrom_eq (hw : Scope.Layered w.scopes) (h : w.Chain s chain) :
    ∀ {fuel : Nat}, s < fuel → chain.getLast? = some (w.rootFrom fuel s) := by
  induction h with
  | outermost hscope hparent =>
    intro fuel hfuel
    obtain ⟨fuel, rfl⟩ := Nat.exists_eq_succ_of_ne_zero (Nat.ne_zero_of_lt hfuel)
    rw [rootFrom, hscope, Option.bind_some, hparent]
    rfl
  | inside hscope hparent hrest ih =>
    intro fuel hfuel
    obtain ⟨fuel, rfl⟩ := Nat.exists_eq_succ_of_ne_zero (Nat.ne_zero_of_lt hfuel)
    rw [rootFrom, hscope, Option.bind_some, hparent]
    have holder := hw hscope hparent
    have hlast := ih (Nat.lt_of_lt_of_le holder (Nat.le_of_lt_succ hfuel))
    rw [List.getLast?_cons, hlast]
    rfl

/-- The root is the end of the chain. -/
theorem root_eq (hw : Scope.Layered w.scopes) (h : w.Chain s chain) : chain.getLast? = some (w.root s) :=
  h.rootFrom_eq hw (Nat.lt_succ_self s)

theorem root_mem (hw : Scope.Layered w.scopes) (h : w.Chain s chain) : w.root s ∈ chain :=
  List.mem_of_getLast? (h.root_eq hw)

/-- All scopes on a chain have the same root. -/
theorem root_of_mem (hw : Scope.Layered w.scopes) (h : w.Chain s chain) (ht : t ∈ chain) :
    w.root t = w.root s := by
  obtain ⟨nearer, outer, rfl⟩ := List.append_of_mem ht
  have hlast := h.root_eq hw
  have houter := (h.suffix rfl).root_eq hw
  rw [List.getLast?_append_cons, houter] at hlast
  exact Option.some.inj hlast

/-- The root is the only scope on the chain without a parent. -/
theorem parentless_iff (hw : Scope.Layered w.scopes) (h : w.Chain s chain) (ht : t ∈ chain) :
    w.Parentless t ↔ t = w.root s := by
  constructor
  · intro hparentless
    rw [← h.root_of_mem hw ht, hparentless.root]
  · rintro rfl
    obtain ⟨outer, hlast⟩ := List.getLast?_eq_some_iff.mp (h.root_eq hw)
    cases h.suffix hlast with
    | outermost hscope hparent => exact ⟨_, hscope, hparent⟩
    | inside _ _ hrest => cases hrest

end Chain

/-! ## Definitions -/

section Define

variable {w : World} {d e s : ScopeId} {chain : List ScopeId} {name : String} {v : Value}

theorem findIn?_define_of_ne (hs : s ≠ d) (other : String) :
    (w.define d name v).findIn? s other = w.findIn? s other := by
  rw [findIn?, findIn?, define, Array.getElem?_modify, if_neg (Ne.symm hs)]

/-- A search that does not pass the scope of a definition. -/
theorem findSome?_define_of_not_mem (other : String) {scopes : List ScopeId} (hd : d ∉ scopes) :
    scopes.findSome? ((w.define d name v).findIn? · other) =
      scopes.findSome? (w.findIn? · other) := by
  induction scopes with
  | nil => rfl
  | cons s rest ih =>
    obtain ⟨hs, hrest⟩ := not_or.mp (mt List.mem_cons.mpr hd)
    rw [List.findSome?_cons, List.findSome?_cons, findIn?_define_of_ne (Ne.symm hs), ih hrest]

theorem findIn?_define_other {other : String} (hother : other ≠ name) :
    (w.define d name v).findIn? s other = w.findIn? s other := by
  by_cases hs : s = d
  · subst hs
    rw [findIn?, findIn?, define, Array.getElem?_modify, if_pos rfl]
    cases w.scopes[s]? with
    | none => rfl
    | some scope => exact Scope.lookup_bind_of_ne hother v scope.bindings
  · exact findIn?_define_of_ne hs other

theorem findIn?_define_self (hd : d < w.scopes.size) :
    (w.define d name v).findIn? d name = some v := by
  obtain ⟨scope, hscope⟩ := getElem?_of_lt_size hd
  rw [findIn?, define, Array.getElem?_modify, if_pos rfl, hscope]
  exact Scope.lookup_bind_self name v scope.bindings

namespace Chain

/-- A definition changes no chain. -/
theorem define (h : w.Chain e chain) : (w.define d name v).Chain e chain :=
  h.later (Scope.remain_define d name v)

/-- Nor does it change what other names mean. -/
theorem find?_define_other (hw : Scope.Layered w.scopes) (h : w.Chain e chain) {other : String}
    (hother : other ≠ name) : (w.define d name v).find? e other = w.find? e other := by
  rw [h.define.find?_eq (hw.define d name v), h.find?_eq hw]
  simp only [findIn?_define_other hother]

/-- No scope is nearer than itself. -/
theorem not_mem_nearer (hw : Scope.Layered w.scopes) {nearer outer : List ScopeId}
    (h : w.Chain e (nearer ++ d :: outer)) : d ∉ nearer := fun hmem =>
  (List.nodup_append.mp (h.nodup hw)).2.2 d hmem d (List.mem_cons_self ..) rfl

/-- It is seen from where no nearer scope binds the name. -/
theorem find?_define (hw : Scope.Layered w.scopes) {nearer outer : List ScopeId}
    (h : w.Chain e (nearer ++ d :: outer)) (hfree : ∀ s ∈ nearer, w.findIn? s name = none) :
    (w.define d name v).find? e name = some v := by
  have hd : d < w.scopes.size := (h.suffix rfl).lt_size
  rw [h.define.find?_eq (hw.define d name v), List.findSome?_append,
    findSome?_define_of_not_mem name (h.not_mem_nearer hw), List.findSome?_eq_none_iff.mpr hfree,
    List.findSome?_cons, findIn?_define_self hd]
  rfl

/-- It is hidden from where its scope is not around, and from where a
nearer one binds the name. -/
theorem find?_define_hidden (hw : Scope.Layered w.scopes) (h : w.Chain e chain)
    (hhidden : ∀ nearer outer, chain = nearer ++ d :: outer →
      ∃ s ∈ nearer, w.findIn? s name ≠ none) :
    (w.define d name v).find? e name = w.find? e name := by
  rw [h.define.find?_eq (hw.define d name v), h.find?_eq hw]
  by_cases hd : d ∈ chain
  · obtain ⟨nearer, outer, rfl⟩ := List.append_of_mem hd
    obtain ⟨s, hs, hbound⟩ := hhidden nearer outer rfl
    have hfound : nearer.findSome? (w.findIn? · name) ≠ none := fun hnone =>
      hbound (List.findSome?_eq_none_iff.mp hnone s hs)
    obtain ⟨found, hfound⟩ := Option.ne_none_iff_exists'.mp hfound
    rw [List.findSome?_append, List.findSome?_append,
      findSome?_define_of_not_mem name (h.not_mem_nearer hw), hfound]
    rfl
  · exact findSome?_define_of_not_mem name hd

end Chain

end Define

end World

end Lisp
