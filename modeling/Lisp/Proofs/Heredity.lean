import Lisp.Evaluation
import Lisp.Proofs.Actions
import Lisp.Proofs.Maps
import Lisp.Proofs.Parsing

/-!
# Properties that values hand on

A property is hereditary if a list, a vector or a map has it exactly if
all that is inside does, and everything else but closures has it
(`Value.Hereditary`). Closures may have it or not, which is the point:
it says something of the closures in a value.

Only `fn*` and `defmacro!` make closures. All else that makes a value
out of others hands such a property on, and so do the primitives, which
moreover leave the scopes alone (`Action.Keeps`).
-/

namespace Lisp

namespace Value

/-- Neither a closure nor something with values inside. -/
def Leaf : Value → Prop
  | list _ | vector _ | map _ | closure .. => False
  | _ => True

structure Hereditary (K : Value → Prop) : Prop where
  leaf : ∀ {v : Value}, v.Leaf → K v
  list : ∀ {items : List Value}, K (.list items) ↔ ∀ v ∈ items, K v
  vector : ∀ {items : List Value}, K (.vector items) ↔ ∀ v ∈ items, K v
  map : ∀ {entries : List (Value × Value)}, K (.map entries) ↔ ∀ v ∈ alternating entries, K v

namespace Hereditary

variable {K : Value → Prop} (hK : Hereditary K)

include hK

theorem child {v child : Value} (h : K v) (hc : child ∈ v.children) : K child := by
  cases v with
  | list items => exact hK.list.mp h child (by simpa [children] using hc)
  | vector items => exact hK.vector.mp h child (by simpa [children] using hc)
  | map entries => exact hK.map.mp h child hc
  | _ => cases hc

theorem items {v : Value} {items : List Value} (h : K v) (hitems : v.items? = some items) :
    ∀ item ∈ items, K item := by
  intro item hitem
  refine hK.child h (element_mem_children ?_)
  rwa [elements, hitems]

theorem ofPairs {vs : List Value} (h : ∀ v ∈ vs, K v) :
    K (.map (Entries.ofPairs (Entries.pairs vs))) := by
  rw [hK.map]
  exact fun v hv => h v (Entries.mem_of_mem_alternating_ofPairs hv)

theorem mapOf {items : List Value} {v : Value} (hv : mapOf items = .ok v)
    (h : ∀ item ∈ items, K item) : K v := by
  rw [Value.mapOf] at hv
  split at hv
  · obtain rfl := Except.ok.inj hv
    exact hK.ofPairs h
  · cases hv

end Hereditary

end Value

open Value

variable {K : Value → Prop}

/-! ## Templates -/

namespace Quasiquote

variable (hK : Hereditary K)

include hK

theorem hereditary_call {name : String} {args : List Value} (h : ∀ v ∈ args, K v) :
    K (call name args) := by
  rw [call, hK.list, List.forall_mem_cons]
  exact ⟨hK.leaf trivial, h⟩

omit hK in
theorem all_argument {name : String} {items : List Value} {v : Value}
    (h : argument name items = .ok v) (hitems : ∀ item ∈ items, K item) :
    K v := by
  unfold argument at h
  split at h
  · obtain rfl := Except.ok.inj h
    exact hitems _ (by simp)
  · cases h

theorem hereditary_expandItems {items : List Value} {form : Value}
    (ih : ∀ item ∈ items, ∀ form, expand item = .ok form → K form)
    (hitems : ∀ item ∈ items, K item) (h : expandItems items = .ok form) :
    K form := by
  induction items generalizing form with
  | nil =>
    obtain rfl := Except.ok.inj h
    exact hK.list.mpr nofun
  | cons item rest ihRest =>
    obtain ⟨ihItem, ih⟩ := List.forall_mem_cons.mp ih
    obtain ⟨hitem, hrest⟩ := List.forall_mem_cons.mp hitems
    obtain ⟨tail, htail, h⟩ := ok_of_bind h
    have htail := ihRest ih hrest htail
    split at h
    · obtain ⟨spliced, hspliced, h⟩ := ok_of_bind h
      have hspliced : K spliced :=
        all_argument hspliced fun x hx => hK.child hitem (element_mem_children hx)
      obtain rfl := Except.ok.inj h
      exact hereditary_call hK (by simp [hspliced, htail])
    · obtain ⟨head, hhead, h⟩ := ok_of_bind h
      have hhead := ihItem head hhead
      obtain rfl := Except.ok.inj h
      exact hereditary_call hK (by simp [hhead, htail])

theorem hereditary_expand (t : Value) :
    K t → ∀ form, expand t = .ok form → K form := by
  induction t using Value.byChildren with
  | step t ih =>
    intro ht form h
    have hitems : ∀ item ∈ t.elements, K item :=
      fun item hitem => hK.child ht (element_mem_children hitem)
    have hexpanded : ∀ item ∈ t.elements, ∀ form, expand item = .ok form → K form :=
      fun item hitem => ih item (element_mem_children hitem) (hitems item hitem)
    cases t with
    | list items =>
      rw [expand] at h
      split at h
      · exact all_argument h hitems
      · exact hereditary_expandItems hK hexpanded hitems h
    | vector items =>
      obtain ⟨built, hbuilt, h⟩ := ok_of_bind h
      have hbuilt := hereditary_expandItems hK hexpanded hitems hbuilt
      obtain rfl := Except.ok.inj h
      exact hereditary_call hK (by simpa using hbuilt)
    | map entries =>
      obtain rfl := Except.ok.inj h
      exact hereditary_call hK (by simpa using ht)
    | symbol name =>
      obtain rfl := Except.ok.inj h
      exact hereditary_call hK (by simpa using ht)
    | _ =>
      obtain rfl := Except.ok.inj h
      exact ht

end Quasiquote

/-! ## Calls -/

theorem Scope.mem_bind {name : String} {v : Value} {bindings : List (String × Value)}
    {b : String × Value} (h : b ∈ Scope.bind name v bindings) :
    b = (name, v) ∨ b ∈ bindings := by
  induction bindings with
  | nil => exact Or.inl (List.mem_singleton.mp h)
  | cons first rest ih =>
    rw [Scope.bind] at h
    split at h
    · rcases List.mem_cons.mp h with h | h
      · exact Or.inl h
      · exact Or.inr (List.mem_cons_of_mem _ h)
    · rcases List.mem_cons.mp h with rfl | h
      · exact Or.inr (List.mem_cons_self ..)
      · exact (ih h).imp_right (List.mem_cons_of_mem _)

namespace Call

theorem mem_foldl_bind {b : String × Value} (pairs : List (String × Value)) :
    ∀ bindings : List (String × Value),
      b ∈ pairs.foldl (fun bindings pair => Scope.bind pair.1 pair.2 bindings) bindings →
        b ∈ pairs ∨ b ∈ bindings := by
  induction pairs with
  | nil => exact fun _ h => Or.inr h
  | cons pair rest ih =>
    intro bindings h
    rcases ih _ h with h | h
    · exact Or.inl (List.mem_cons_of_mem _ h)
    · rcases Scope.mem_bind h with rfl | h
      · exact Or.inl (List.mem_cons_self ..)
      · exact Or.inr h

theorem mem_bindAll {b : String × Value} {pairs : List (String × Value)} (h : b ∈ bindAll pairs) :
    b ∈ pairs :=
  (mem_foldl_bind pairs [] h).resolve_right List.not_mem_nil

/-- What a call binds comes from its arguments. -/
theorem hereditary_bindings (hK : Hereditary K) {params : List String} {args : List Value}
    {bindings : List (String × Value)} (h : Call.bindings params args = .ok bindings)
    (hargs : ∀ arg ∈ args, K arg) : ∀ b ∈ bindings, K b.2 := by
  have hzip : ∀ names : List String, ∀ b ∈ names.zip args, K b.2 :=
    fun names b hb => hargs b.2 (List.of_mem_zip hb).2
  intro b hb
  rw [Call.bindings] at h
  split at h
  · split at h
    · obtain rfl := Except.ok.inj h
      exact hzip _ b (mem_bindAll hb)
    · cases h
  · split at h
    · cases h
    · split at h
      · cases h
      · obtain rfl := Except.ok.inj h
        rcases List.mem_append.mp (mem_bindAll hb) with hb | hb
        · exact hzip _ b hb
        · rw [List.mem_singleton.mp hb, hK.list]
          exact fun v hv => hargs v (List.mem_of_mem_drop hv)

end Call

/-! ## Reading -/

theorem leaf_ofName (lexeme : String) : (Literal.ofName lexeme).Leaf := by
  unfold Literal.ofName
  repeat' split
  all_goals trivial

theorem leaf_ofNumeral? {numeral : Numeral} {v : Value}
    (h : Literal.ofNumeral? numeral = some v) : v.Leaf := by
  cases numeral with
  | whole negative digits =>
    obtain ⟨n, -, rfl⟩ := Option.map_eq_some_iff.mp h
    trivial
  | decimal negative digits fraction =>
    obtain rfl := Option.some.inj h
    trivial

theorem leaf_ofToken {t : Token} {form : Value} (h : Form.ofToken t = .ok form) : form.Leaf := by
  rw [Form.ofToken] at h
  split at h
  · obtain rfl := Except.ok.inj h
    trivial
  · obtain rfl := Except.ok.inj h
    trivial
  · cases h
  · rw [Literal.ofAtom] at h
    split at h
    · split at h
      · next hvalue =>
        obtain rfl := Except.ok.inj h
        exact leaf_ofNumeral? hvalue
      · cases h
    · obtain rfl := Except.ok.inj h
      exact leaf_ofName _
  · cases h
  · cases h
  · cases h

/-- What is read has no closures in it. -/
theorem hereditary_of_read (hK : Hereditary K) {source : String} {v : Value}
    (h : read source = .ok v) : K v := by
  refine read_preserves ⟨?_, ?_⟩ (fun t _ form hform => hK.leaf (leaf_ofToken hform)) h
  · intro m form hform
    rw [Form.marked, hK.list]
    simpa using ⟨hK.leaf trivial, hform⟩
  · intro b forms form hforms h
    cases b with
    | round =>
      obtain rfl := Except.ok.inj h
      exact hK.list.mpr hforms
    | square =>
      obtain rfl := Except.ok.inj h
      exact hK.vector.mpr hforms
    | curly => exact hK.mapOf h hforms

/-! ## Worlds -/

theorem Scope.mem_of_find? {scope : Scope} {name : String} {v : Value}
    (h : scope.find? name = some v) : (name, v) ∈ scope.bindings := by
  obtain ⟨before, after, hbindings, -⟩ := List.lookup_eq_some_iff.mp h
  rw [hbindings]
  exact List.mem_append_right _ (List.mem_cons_self ..)

namespace World

/-- All values that are bound in a scope or held by an atom have the
property. -/
structure All (K : Value → Prop) (w : World) : Prop where
  bound : ∀ {s : ScopeId} {scope : Scope}, w.scopes[s]? = some scope →
    ∀ binding ∈ scope.bindings, K binding.2
  cells : ∀ v ∈ w.cells, K v

namespace All

variable {w w' : World} (hw : w.All K)

include hw

theorem findFrom {name : String} {v : Value} (fuel : Nat) :
    ∀ {id : ScopeId}, w.findFrom name fuel id = some v → K v := by
  induction fuel with
  | zero => exact fun h => nomatch h
  | succ fuel ih =>
    intro id h
    rw [World.findFrom] at h
    split at h
    · cases h
    · next scope hscope =>
      split at h
      · next found hfound =>
        obtain rfl := Option.some.inj h
        exact hw.bound hscope _ (Scope.mem_of_find? hfound)
      · split at h
        · exact ih h
        · cases h

theorem find? {scope : ScopeId} {name : String} {v : Value}
    (h : w.find? scope name = some v) : K v :=
  hw.findFrom (scope + 1) h

theorem of_scopes (hscopes : w'.scopes = w.scopes) (hcells : ∀ v ∈ w'.cells, K v) : w'.All K :=
  ⟨fun h => hw.bound (hscopes ▸ h), hcells⟩

theorem define {scope : ScopeId} {name : String} {v : Value} (hv : K v) :
    (w.define scope name v).All K := by
  refine ⟨fun {s _} h => ?_, hw.cells⟩
  rw [World.define, Array.getElem?_modify] at h
  split at h
  · obtain ⟨old, hold, rfl⟩ := Option.map_eq_some_iff.mp h
    intro binding hb
    rcases Scope.mem_bind hb with rfl | hb
    · exact hv
    · exact hw.bound hold binding hb
  · exact hw.bound h

theorem push {scope : Scope} (hbindings : ∀ b ∈ scope.bindings, K b.2) :
    All K { w with scopes := w.scopes.push scope } := by
  refine ⟨fun {s _} h => ?_, hw.cells⟩
  rw [Array.getElem?_push] at h
  split at h
  · obtain rfl := Option.some.inj h
    exact hbindings
  · exact hw.bound h

theorem enter {parent : ScopeId} {bindings : List (String × Value)}
    (hbindings : ∀ b ∈ bindings, K b.2) : (w.enter parent bindings).All K :=
  hw.push hbindings

end All

end World

/-! ## Actions -/

/-- The outcome leaves the scopes of `w` as they are, what it leaves in
cells has the property, and `P` holds of the value. -/
def Outcome.Keeps {α : Type} (K : Value → Prop) (P : α → Prop) (w : World) : Outcome α → Prop
  | .value a w' => w'.scopes = w.scopes ∧ (∀ v ∈ w'.cells, K v) ∧ P a
  | .failure _ w' => w'.scopes = w.scopes ∧ ∀ v ∈ w'.cells, K v
  | .halted _ => True

namespace Action

variable {α β : Type} {P : α → Prop} {Q : β → Prop}

/-- The outcomes of the action are such where the cells have the
property. -/
def Keeps (K : Value → Prop) (P : α → Prop) (x : Action α) : Prop :=
  ∀ w, (∀ v ∈ w.cells, K v) → (x w).Keeps K P w

theorem Keeps.ends {x : Action α} (h : Keeps K P x) {w w' : World} {r : Except Error α}
    (hcells : ∀ v ∈ w.cells, K v) (hends : x.Ends w r w') :
    w'.scopes = w.scopes ∧ (∀ v ∈ w'.cells, K v) ∧ ∀ a, r = .ok a → P a := by
  have h := h w hcells
  rw [hends] at h
  cases r with
  | ok a => exact ⟨h.1, h.2.1, fun _ heq => Except.ok.inj heq ▸ h.2.2⟩
  | error e => exact ⟨h.1, h.2, nofun⟩

theorem keeps_pure {a : α} (h : P a) : Keeps K P (pure a) := fun _ hcells => ⟨rfl, hcells, h⟩

theorem keeps_fail {cause : Cause} : Keeps K P (fail cause) := fun _ hcells => ⟨rfl, hcells⟩

theorem keeps_halt {why : Halt} : Keeps K P (halt why) := fun _ _ => trivial

theorem Keeps.bind {x : Action α} {f : α → Action β} (h : Keeps K P x)
    (h' : ∀ a, P a → Keeps K Q (f a)) : Keeps K Q (x >>= f) := by
  intro w hcells
  have hx := h w hcells
  rw [bind_apply]
  cases houtcome : x w with
  | value a w₁ =>
    rw [houtcome] at hx
    obtain ⟨hscopes, hcells₁, ha⟩ := hx
    have hf := h' a ha w₁ hcells₁
    dsimp only
    cases hrest : f a w₁ with
    | value b w₂ =>
      rw [hrest] at hf
      exact ⟨hf.1.trans hscopes, hf.2⟩
    | failure e w₂ =>
      rw [hrest] at hf
      exact ⟨hf.1.trans hscopes, hf.2⟩
    | halted why => exact trivial
  | failure e w₁ =>
    rw [houtcome] at hx
    exact hx
  | halted why => exact trivial

theorem keeps_ofExcept {x : Except Cause α} (h : ∀ a, x = .ok a → P a) :
    Keeps K P (ofExcept x) := by
  cases x with
  | ok a => exact keeps_pure (h a rfl)
  | error cause => exact keeps_fail

/-- What an action only looks at is of no concern. -/
theorem keeps_ask {f : World → α} {g : α → Action β} (h : ∀ a, Keeps K Q (g a)) :
    Keeps K Q (ask f >>= g) := fun w => h (f w) w

theorem keeps_freshObject : Keeps K (fun _ => True) freshObject :=
  fun _ hcells => ⟨rfl, hcells, trivial⟩

theorem keeps_newCell {v : Value} (h : K v) : Keeps K (fun _ => True) (newCell v) := by
  intro w hcells
  refine ⟨rfl, fun x hx => ?_, trivial⟩
  rcases Array.mem_push.mp hx with hx | rfl
  · exact hcells x hx
  · exact h

theorem all_store {w : World} {cell : CellId} {v : Value} (h : K v)
    (hcells : ∀ x ∈ w.cells, K x) : ∀ x ∈ (w.store cell v).cells, K x := by
  intro x hx
  rcases Array.mem_or_eq_of_mem_setIfInBounds hx with hx | rfl
  · exact hcells x hx
  · exact h

theorem keeps_store {cell : CellId} {v : Value} (h : K v) :
    Keeps K (fun _ => True) (store cell v) :=
  fun _ hcells => ⟨rfl, all_store h hcells, trivial⟩

theorem hereditary_contents (hK : Hereditary K) {w : World} (cell : CellId)
    (hcells : ∀ x ∈ w.cells, K x) :
    K (w.contents cell) := by
  rw [World.contents]
  cases hcell : w.cells[cell]? with
  | none => exact hK.leaf trivial
  | some v => exact hcells v (Array.mem_of_getElem? hcell)

theorem keeps_contents (hK : Hereditary K) {cell : CellId} : Keeps K K (contents cell) :=
  fun _ hcells => ⟨rfl, hcells, hereditary_contents hK cell hcells⟩

theorem keeps_writeLine {text : String} : Keeps K (fun _ => True) (writeLine text) :=
  fun _ hcells => ⟨rfl, hcells, trivial⟩

theorem keeps_readFile {path : String} : Keeps K (fun _ => True) (readFile path) := by
  intro w hcells
  unfold readFile
  split
  · exact ⟨rfl, hcells, trivial⟩
  · exact ⟨rfl, hcells⟩
  · exact trivial

theorem keeps_readForm (hK : Hereditary K) {source : String} :
    Keeps K K (Primitive.readForm source) := by
  intro w hcells
  unfold Primitive.readForm
  split
  · next form hread => exact ⟨rfl, hcells, hereditary_of_read hK hread⟩
  · exact ⟨rfl, hcells⟩

end Action

/-! ## Primitives -/

namespace Sequence

variable (hK : Hereditary K)

include hK

theorem hereditary_items {p : Primitive} {v : Value} {elements : List Value}
    (h : items p v = .ok elements) (hv : K v) : ∀ x ∈ elements, K x := by
  cases v with
  | list xs =>
    obtain rfl := Except.ok.inj h
    exact hK.list.mp hv
  | vector xs =>
    obtain rfl := Except.ok.inj h
    exact hK.vector.mp hv
  | nil =>
    obtain rfl := Except.ok.inj h
    exact nofun
  | _ => cases h

theorem hereditary_cons {head tail v : Value} (h : cons head tail = .ok v) (hhead : K head)
    (htail : K tail) : K v := by
  obtain ⟨elements, helements, h⟩ := ok_of_bind h
  obtain rfl := Except.ok.inj h
  rw [hK.list, List.forall_mem_cons]
  exact ⟨hhead, hereditary_items hK helements htail⟩

theorem hereditary_concat {args elements : List Value} (h : concat args = .ok elements)
    (hargs : ∀ arg ∈ args, K arg) : ∀ x ∈ elements, K x := by
  induction args generalizing elements with
  | nil =>
    obtain rfl := Except.ok.inj h
    exact nofun
  | cons v rest ih =>
    obtain ⟨hv, hrest⟩ := List.forall_mem_cons.mp hargs
    obtain ⟨front, hfront, h⟩ := ok_of_bind h
    obtain ⟨back, hback, h⟩ := ok_of_bind h
    obtain rfl := Except.ok.inj h
    intro x hx
    rcases List.mem_append.mp hx with hx | hx
    · exact hereditary_items hK hfront hv x hx
    · exact ih hback hrest x hx

theorem hereditary_vec {v made : Value} (h : vec v = .ok made) (hv : K v) :
    K made := by
  unfold vec at h
  split at h
  · obtain rfl := Except.ok.inj h
    exact hv
  · obtain ⟨elements, helements, h⟩ := ok_of_bind h
    obtain rfl := Except.ok.inj h
    exact hK.vector.mpr (hereditary_items hK helements hv)

theorem hereditary_nth {v index element : Value} (h : nth v index = .ok element)
    (hv : K v) : K element := by
  obtain ⟨elements, helements, h⟩ := ok_of_bind h
  split at h
  · split at h
    · next found hfound =>
      obtain rfl := Except.ok.inj h
      split at hfound
      · cases hfound
      · exact hereditary_items hK helements hv _ (List.mem_of_getElem? hfound)
    · cases h
  · cases h

theorem hereditary_first {v element : Value} (h : first v = .ok element) (hv : K v) :
    K element := by
  obtain ⟨elements, helements, h⟩ := ok_of_bind h
  obtain rfl := Except.ok.inj h
  cases elements with
  | nil => exact hK.leaf trivial
  | cons x rest => exact hereditary_items hK helements hv x (List.mem_cons_self ..)

theorem hereditary_rest {v left : Value} (h : rest v = .ok left) (hv : K v) :
    K left := by
  obtain ⟨elements, helements, h⟩ := ok_of_bind h
  obtain rfl := Except.ok.inj h
  rw [hK.list]
  exact fun x hx => hereditary_items hK helements hv x (List.mem_of_mem_drop hx)

end Sequence

namespace Primitive

open Lisp.Action

theorem leaf_keywordOf {v made : Value} (h : keywordOf v = .ok made) : made.Leaf := by
  unfold keywordOf at h
  split at h
  · obtain rfl := Except.ok.inj h
    trivial
  · obtain ⟨name, -, h⟩ := ok_of_bind h
    obtain rfl := Except.ok.inj h
    trivial

variable (hK : Hereditary K)

include hK

/-- A leaf that is computed. -/
theorem keeps_leaf {α : Type} {x : Except Cause α} {f : α → Value} (h : ∀ a, (f a).Leaf) :
    Keeps K K (ofExcept x >>= fun a => pure (f a)) := by
  have hx : Keeps K (fun _ => True) (ofExcept x) := keeps_ofExcept fun _ _ => trivial
  exact hx.bind fun a _ => keeps_pure (hK.leaf (h a))

theorem keeps_computed (result : Except Cause Number) :
    Keeps K K (computed result) := by
  have hresult : Keeps K (fun _ => True) (ofExcept result) := keeps_ofExcept fun _ _ => trivial
  refine hresult.bind fun number _ => ?_
  match number with
  | .whole n => exact keeps_pure (hK.leaf trivial)
  | .float (some x) => exact keeps_pure (hK.leaf trivial)
  | .float none => exact keeps_freshObject.bind fun _ _ => keeps_pure (hK.leaf trivial)

theorem keeps_basic {evaluate : Evaluator} {scope : ScopeId} {p : Primitive} {args : List Value}
    (hevaluate : ∀ form scope, Keeps K K (evaluate form scope))
    (hargs : ∀ arg ∈ args, K arg) :
    Keeps K K (basic evaluate scope p args) := by
  have hdone : ∀ {α : Type} {x : Except Cause α}, Keeps K (fun _ => True) (ofExcept x) :=
    keeps_ofExcept fun _ _ => trivial
  fun_cases basic evaluate scope p args with
  | case1 | case2 | case3 | case4 => exact keeps_computed hK _
  | case5 | case34 => exact keeps_pure (hK.leaf trivial)
  | case6 | case7 | case8 | case9 | case13 | case14 | case21 => exact keeps_leaf hK fun _ => trivial
  | case10 => exact keeps_pure (hK.list.mpr hargs)
  | case11 => exact keeps_pure (hK.vector.mpr hargs)
  | case12 => exact keeps_ofExcept fun v hv => hK.mapOf hv hargs
  | case15 head tail =>
    obtain ⟨hhead, htail⟩ : K head ∧ K tail := by simpa using hargs
    exact keeps_ofExcept fun v hv => Sequence.hereditary_cons hK hv hhead htail
  | case16 =>
    have hconcat : Keeps K (fun elements => ∀ x ∈ elements, K x)
        (ofExcept (Sequence.concat args)) :=
      keeps_ofExcept fun elements h => Sequence.hereditary_concat hK h hargs
    exact hconcat.bind fun elements h => keeps_pure (hK.list.mpr h)
  | case17 v =>
    exact keeps_ofExcept fun made h =>
      Sequence.hereditary_vec hK h (hargs v (List.mem_cons_self ..))
  | case18 v index =>
    exact keeps_ofExcept fun element h =>
      Sequence.hereditary_nth hK h (hargs v (List.mem_cons_self ..))
  | case19 v =>
    exact keeps_ofExcept fun element h =>
      Sequence.hereditary_first hK h (hargs v (List.mem_cons_self ..))
  | case20 v =>
    exact keeps_ofExcept fun left h =>
      Sequence.hereditary_rest hK h (hargs v (List.mem_cons_self ..))
  | case22 v => exact keeps_ofExcept fun made h => hK.leaf (leaf_keywordOf h)
  | case23 | case24 => exact keeps_ask fun _ => keeps_pure (hK.leaf trivial)
  | case25 | case26 =>
    exact keeps_ask fun _ => keeps_writeLine.bind fun _ _ => keeps_pure (hK.leaf trivial)
  | case27 => exact hdone.bind fun _ _ => keeps_readForm hK
  | case28 =>
    exact hdone.bind fun _ _ => keeps_readFile.bind fun _ _ => keeps_pure (hK.leaf trivial)
  | case29 v =>
    have hv := hargs v (List.mem_cons_self ..)
    exact (keeps_newCell hv).bind fun _ _ => keeps_pure (hK.leaf trivial)
  | case30 => exact hdone.bind fun _ _ => keeps_contents hK
  | case31 target v =>
    have hv := hargs v (by simp)
    exact hdone.bind fun _ _ => (keeps_store hv).bind fun _ _ => keeps_pure hv
  | case32 form => exact keeps_ask fun root => hevaluate form root
  | case33 => exact keeps_ask fun _ => keeps_fail
  | case35 | case36 => exact keeps_halt

/-- A primitive does nothing to scopes, if evaluation does not. -/
theorem keeps_checked {evaluate : Evaluator} {scope : ScopeId} {p : Primitive} {args : List Value}
    (hevaluate : ∀ form scope, Keeps K K (evaluate form scope))
    (hargs : ∀ arg ∈ args, K arg) :
    Keeps K K (p.checked evaluate scope args) := by
  rw [checked]
  split
  · split
    · exact keeps_basic hK hevaluate hargs
    · exact keeps_fail
  · exact keeps_basic hK hevaluate hargs

end Primitive

end Lisp
