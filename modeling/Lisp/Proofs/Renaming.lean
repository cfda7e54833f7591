import Lisp.Proofs.Captures
import Lisp.Proofs.Semantics

/-!
# Renaming scopes in values

The scopes that closures capture are the only places in the store that a
value names with a number of its own choosing, and nothing but calls of
closures looks at them. So what is computed from values with the scopes
in them renamed is what was computed before, renamed: equality and text
do not change at all, and everything that makes values out of others
commutes with the renaming.
-/

namespace Lisp

namespace Value

variable (σ : ScopeId → ScopeId)

mutual

/-- The value with each scope `s` that it captures replaced by `σ s`, in
the bodies of closures too. -/
@[simp] def rename : Value → Value
  | list items => list (renameItems items)
  | vector items => vector (renameItems items)
  | map entries => map (renameEntries entries)
  | closure object expander params body captured =>
    closure object expander params (rename body) (σ captured)
  | nil => nil
  | bool b => bool b
  | int n => int n
  | float x => float x
  | nan object => nan object
  | string text => string text
  | keyword name => keyword name
  | symbol name => symbol name
  | builtin p => builtin p
  | atom cell => atom cell

def renameItems : List Value → List Value
  | [] => []
  | item :: rest => rename item :: renameItems rest

def renameEntries : List (Value × Value) → List (Value × Value)
  | [] => []
  | (key, value) :: rest => (rename key, rename value) :: renameEntries rest

end

/-- An entry, key and value renamed. -/
def renameEntry (e : Value × Value) : Value × Value := (e.1.rename σ, e.2.rename σ)

@[simp] theorem renameItems_eq (items : List Value) : renameItems σ items = items.map (rename σ) := by
  induction items with
  | nil => rfl
  | cons item rest ih => rw [renameItems, ih, List.map_cons]

@[simp] theorem renameEntries_eq (entries : List (Value × Value)) :
    renameEntries σ entries = entries.map (renameEntry σ) := by
  induction entries with
  | nil => rfl
  | cons e rest ih => rw [renameEntries, ih, List.map_cons, renameEntry]

theorem rename_list (items : List Value) :
    (list items).rename σ = list (items.map (rename σ)) := by
  rw [rename, renameItems_eq]

theorem rename_vector (items : List Value) :
    (vector items).rename σ = vector (items.map (rename σ)) := by
  rw [rename, renameItems_eq]

theorem rename_map (entries : List (Value × Value)) :
    (map entries).rename σ = map (entries.map (renameEntry σ)) := by
  rw [rename, renameEntries_eq]

theorem rename_closure (object : ObjectId) (expander : Bool) (params : List String)
    (body : Value) (captured : ScopeId) :
    (closure object expander params body captured).rename σ =
      closure object expander params (body.rename σ) (σ captured) := rfl

theorem rename_leaf {v : Value} (h : v.Leaf) : v.rename σ = v := by
  cases v with
  | list _ | vector _ | map _ | closure _ _ _ _ _ => exact h.elim
  | _ => rfl

/-- A renaming that keeps the scopes of a value keeps the value. -/
theorem rename_of_scoped {n : Nat} (hσ : ∀ s < n, σ s = s) {v : Value} (h : v.Scoped n) :
    v.rename σ = v := by
  induction h with
  | closure hcaptured _ ih => rw [rename_closure, ih, hσ _ hcaptured]
  | @plain v h _ ih =>
    cases v with
    | list items =>
      have hitems : ∀ item ∈ items, item.rename σ = item := fun item hitem =>
        ih item (element_mem_children hitem)
      rw [rename_list, List.map_congr_left hitems, List.map_id']
    | vector items =>
      have hitems : ∀ item ∈ items, item.rename σ = item := fun item hitem =>
        ih item (element_mem_children hitem)
      rw [rename_vector, List.map_congr_left hitems, List.map_id']
    | map entries =>
      have hentries : ∀ e ∈ entries, renameEntry σ e = e := fun e he =>
        Prod.ext (ih e.1 (key_mem_children he)) (ih e.2 (value_mem_children he))
      rw [rename_map, List.map_congr_left hentries, List.map_id']
    | closure _ _ _ _ _ => exact absurd rfl (h _ _ _ _ _)
    | _ => rfl

/-! ## Looking at a value -/

@[simp] theorem tag_rename (v : Value) : (v.rename σ).tag = v.tag := by
  cases v with
  | closure object expander params body captured => cases expander <;> rfl
  | _ => rfl

@[simp] theorem isTruthy_rename (v : Value) : (v.rename σ).isTruthy = v.isTruthy := by
  cases v <;> rfl

theorem items?_rename (v : Value) :
    (v.rename σ).items? = v.items?.map (List.map (rename σ)) := by
  cases v <;> simp [items?]

theorem special?_rename (v : Value) : (v.rename σ).special? = v.special? := by
  cases v <;> rfl

@[simp] theorem isForm_rename (name : String) (v : Value) :
    (v.rename σ).isForm name = v.isForm name := by
  cases v with
  | list items =>
    cases items with
    | nil => rfl
    | cons head rest => cases head <;> simp [isForm]
  | _ => rfl

theorem map_alternating (entries : List (Value × Value)) :
    (alternating entries).map (rename σ) = alternating (entries.map (renameEntry σ)) := by
  induction entries with
  | nil => rfl
  | cons e rest ih => simp [renameEntry, ih]

mutual

theorem equal_rename : ∀ a b : Value, (a.rename σ).equal (b.rename σ) = a.equal b
  | list as, b => by
    cases b <;> simp [equal, equalItems_rename as]
  | vector as, b => by
    cases b <;> simp [equal, equalItems_rename as]
  | map as, b => by
    cases b <;> simp [equal, equalEntries_rename as]
  | closure .., b | nil, b | bool _, b | int _, b | float _, b | nan _, b | string _, b
  | keyword _, b | symbol _, b | builtin _, b | atom _, b => by
    cases b <;> simp [equal]

theorem equalItems_rename : ∀ as bs : List Value,
    equalItems (as.map (rename σ)) (bs.map (rename σ)) = equalItems as bs
  | [], bs => by cases bs <;> rfl
  | a :: as, [] => rfl
  | a :: as, b :: bs => by
    simp [equalItems, equal_rename a b, equalItems_rename as bs]

theorem equalEntries_rename : ∀ as bs : List (Value × Value),
    equalEntries (as.map (renameEntry σ)) (bs.map (renameEntry σ)) = equalEntries as bs
  | [], bs => rfl
  | (key, value) :: as, bs => by
    simp [equalEntries, renameEntry, equalEntries_rename as bs, equal_rename key,
      equal_rename value, Function.comp_def]

end

@[simp] theorem beq_rename (a b : Value) : (a.rename σ == b.rename σ) = (a == b) := by
  rw [beq_def, beq_def, equal_rename]

mutual

theorem textWith_rename (contents : CellId → String) (readably : Bool) :
    ∀ v : Value, textWith contents readably (v.rename σ) = textWith contents readably v
  | list items | vector items => by
    simp [textWith, itemTexts_rename contents readably items]
  | map entries => by
    simp [textWith, entryTexts_rename contents readably entries]
  | closure _ expander _ _ _ => by cases expander <;> rfl
  | nil | bool _ | int _ | float _ | nan _ | string _ | keyword _ | symbol _ | builtin _
  | atom _ => rfl

theorem itemTexts_rename (contents : CellId → String) (readably : Bool) :
    ∀ items : List Value,
      itemTexts contents readably (items.map (rename σ)) = itemTexts contents readably items
  | [] => rfl
  | item :: rest => by
    rw [List.map_cons, itemTexts, itemTexts, textWith_rename contents readably item,
      itemTexts_rename contents readably rest]

theorem entryTexts_rename (contents : CellId → String) (readably : Bool) :
    ∀ entries : List (Value × Value),
      entryTexts contents readably (entries.map (renameEntry σ)) =
        entryTexts contents readably entries
  | [] => rfl
  | (key, value) :: rest => by
    rw [List.map_cons, renameEntry, entryTexts, entryTexts, textWith_rename contents readably key,
      textWith_rename contents readably value, entryTexts_rename contents readably rest]

end

theorem textIn_rename (cells : Array Value) (readably : Bool) (depth : Nat) (v : Value) :
    textIn (cells.map (rename σ)) readably depth (v.rename σ) = textIn cells readably depth v := by
  induction depth generalizing v with
  | zero => exact textWith_rename σ _ readably v
  | succ depth ih =>
    rw [textIn, textIn, textWith_rename]
    congr 1
    funext cell
    rw [Array.getElem?_map]
    cases cells[cell]? with
    | none => rfl
    | some v => exact ih v

end Value

open Value

variable (σ : ScopeId → ScopeId)

/-! ## Making values out of values -/

/-- Steps that each commute with renaming do so in sequence. -/
theorem map_bind_map {ε α α' β β' : Type} {φ : α → α'} {g : β → β'} {x : Except ε α}
    {f : α → Except ε β} {f' : α' → Except ε β'} (h : ∀ a, f' (φ a) = (f a).map g) :
    (x.map φ >>= f') = (x >>= f).map g := by
  cases x with
  | error e => rfl
  | ok a => exact h a

namespace Entries

theorem insert_rename (entries : List (Value × Value)) (key value : Value) :
    insert (entries.map (renameEntry σ)) (key.rename σ) (value.rename σ) =
      (insert entries key value).map (renameEntry σ) := by
  induction entries with
  | nil => rfl
  | cons e rest ih =>
    have hkey : (key.rename σ == (renameEntry σ e).1) = (key == e.1) := beq_rename σ key e.1
    rw [List.map_cons, insert, insert, hkey]
    split
    · rfl
    · rw [ih, List.map_cons]

theorem pairs_rename (items : List Value) :
    pairs (items.map (rename σ)) = (pairs items).map (renameEntry σ) := by
  fun_induction pairs items with
  | case1 key value rest ih => rw [List.map_cons, List.map_cons, pairs, ih, List.map_cons, renameEntry]
  | case2 items hshort =>
    obtain _ | ⟨item, _ | ⟨next, rest⟩⟩ := items
    · rfl
    · rfl
    · exact absurd rfl (hshort item next rest)

theorem foldl_insert_rename (added : List (Value × Value)) :
    ∀ entries : List (Value × Value),
      (added.map (renameEntry σ)).foldl (fun es e => insert es e.1 e.2)
          (entries.map (renameEntry σ)) =
        (added.foldl (fun es e => insert es e.1 e.2) entries).map (renameEntry σ) := by
  induction added with
  | nil => exact fun _ => rfl
  | cons e rest ih =>
    intro entries
    rw [List.map_cons, List.foldl_cons, List.foldl_cons, ← ih]
    congr 1
    exact insert_rename σ entries e.1 e.2

theorem ofPairs_rename (added : List (Value × Value)) :
    ofPairs (added.map (renameEntry σ)) = (ofPairs added).map (renameEntry σ) :=
  foldl_insert_rename σ added []

end Entries

theorem Value.mapOf_rename (items : List Value) :
    mapOf (items.map (rename σ)) = (mapOf items).map (rename σ) := by
  rw [mapOf, mapOf, List.length_map]
  split
  · rw [Entries.pairs_rename, Entries.ofPairs_rename]
    simp [Except.map]
  · rfl

namespace Quasiquote

theorem argument_rename (name : String) (items : List Value) :
    argument name (items.map (rename σ)) = (argument name items).map (rename σ) := by
  match items with
  | [] | [_] | [_, _] => rfl
  | _ :: _ :: _ :: rest => simp [argument, Except.map]

theorem expandItems_rename {items : List Value}
    (ih : ∀ item ∈ items, expand (item.rename σ) = (expand item).map (rename σ)) :
    expandItems (items.map (rename σ)) = (expandItems items).map (rename σ) := by
  induction items with
  | nil => rfl
  | cons item rest ihRest =>
    obtain ⟨ihItem, ih⟩ := List.forall_mem_cons.mp ih
    have hsplice : argument "splice-unquote" ((item.rename σ).items?.getD []) =
        (argument "splice-unquote" (item.items?.getD [])).map (rename σ) := by
      rw [items?_rename, ← argument_rename]
      cases item.items? <;> rfl
    rw [List.map_cons, expandItems, expandItems, ihRest ih, ihItem, hsplice, isForm_rename]
    refine map_bind_map fun tail => ?_
    split
    · exact map_bind_map fun spliced => by simp [Except.map, pure, Except.pure, call]
    · exact map_bind_map fun head => by simp [Except.map, pure, Except.pure, call]

theorem expand_rename (t : Value) : expand (t.rename σ) = (expand t).map (rename σ) := by
  induction t using Value.byChildren with
  | step t ih =>
    have hitems : expandItems (t.elements.map (rename σ)) =
        (expandItems t.elements).map (rename σ) :=
      expandItems_rename σ fun item hitem => ih item (element_mem_children hitem)
    cases t with
    | list items =>
      have hform : (Value.list (items.map (rename σ))).isForm "unquote" =
          (Value.list items).isForm "unquote" := by
        rw [← rename_list, isForm_rename]
      rw [elements_list] at hitems
      rw [rename_list, expand, expand, hform, hitems, argument_rename]
      split <;> rfl
    | vector items =>
      rw [elements_vector] at hitems
      rw [rename_vector, expand, expand, hitems]
      exact map_bind_map fun built => by simp [Except.map, pure, Except.pure, call]
    | _ => simp [expand, Except.map, call]

end Quasiquote

/-! ## Names and parameters -/

theorem SpecialForm.nameOf_rename (form : SpecialForm) (v : Value) :
    form.nameOf (v.rename σ) = form.nameOf v := by
  cases v with
  | closure _ expander _ _ _ => cases expander <;> rfl
  | _ => rfl

theorem parameterNames_rename (v : Value) :
    parameterNames (v.rename σ) = parameterNames v := by
  rw [parameterNames, parameterNames, items?_rename, tag_rename]
  cases v.items? with
  | none => rfl
  | some items =>
    have hnames : (items.map (rename σ)).mapM (SpecialForm.function.nameOf ·) =
        items.mapM (SpecialForm.function.nameOf ·) := by
      rw [List.mapM_map]
      simp only [Function.comp_def, SpecialForm.nameOf_rename]
    rw [Option.map_some]
    simp only [hnames]

theorem Value.letPairs?_rename (v : Value) :
    (v.rename σ).letPairs? = v.letPairs?.map (List.map (rename σ)) := by
  rw [letPairs?, letPairs?, items?_rename]
  cases v.items? with
  | none => rfl
  | some items => by_cases h : items.length % 2 = 0 <;> simp [Option.filter, h]

/-- A binding with its value renamed. -/
def renameBinding (b : String × Value) : String × Value := (b.1, b.2.rename σ)

theorem Scope.bind_rename (name : String) (v : Value) (bindings : List (String × Value)) :
    Scope.bind name (v.rename σ) (bindings.map (renameBinding σ)) =
      (Scope.bind name v bindings).map (renameBinding σ) := by
  induction bindings with
  | nil => rfl
  | cons b rest ih =>
    rw [List.map_cons, Scope.bind, Scope.bind, ih, renameBinding]
    by_cases h : b.1 = name
    · rw [if_pos h, if_pos h]
      rfl
    · rw [if_neg h, if_neg h]
      rfl

theorem Call.bindAll_rename (pairs : List (String × Value)) :
    ∀ bindings : List (String × Value),
      (pairs.map (renameBinding σ)).foldl (fun bs p => Scope.bind p.1 p.2 bs)
          (bindings.map (renameBinding σ)) =
        (pairs.foldl (fun bs p => Scope.bind p.1 p.2 bs) bindings).map (renameBinding σ) := by
  induction pairs with
  | nil => exact fun _ => rfl
  | cons pair rest ih =>
    intro bindings
    rw [List.map_cons, List.foldl_cons, List.foldl_cons, ← ih, ← Scope.bind_rename]
    rfl

theorem Call.zip_rename (names : List String) (args : List Value) :
    names.zip (args.map (rename σ)) = (names.zip args).map (renameBinding σ) := by
  rw [List.zip_map_right]
  rfl

theorem Call.bindings_rename (params : List String) (args : List Value) :
    Call.bindings params (args.map (rename σ)) =
      (Call.bindings params args).map (List.map (renameBinding σ)) := by
  have hall : ∀ pairs, bindAll (pairs.map (renameBinding σ)) =
      (bindAll pairs).map (renameBinding σ) := fun pairs => bindAll_rename σ pairs []
  rw [Call.bindings, Call.bindings, List.length_map]
  split
  · split
    · rw [zip_rename, hall]
      rfl
    · rfl
  · split
    · rfl
    · split
      · rfl
      · next name _ _ =>
        have hlast : (name, Value.list ((args.map (rename σ)).drop (positional params).length)) =
            renameBinding σ (name, .list (args.drop (positional params).length)) := by
          rw [renameBinding, rename_list, List.map_drop]
        rw [zip_rename, hlast, ← List.map_singleton, ← List.map_append, hall]
        rfl

/-! ## Numbers and sequences -/

namespace Number

theorem ofValue_rename (p : Primitive) (v : Value) : ofValue p (v.rename σ) = ofValue p v := by
  cases v with
  | closure _ expander _ _ _ => cases expander <;> rfl
  | _ => rfl

theorem foldFrom_rename (op : Operation) (acc : Number) (args : List Value) :
    op.foldFrom acc (args.map (rename σ)) = op.foldFrom acc args := by
  induction args generalizing acc with
  | nil => rfl
  | cons v rest ih =>
    rw [List.map_cons, Operation.foldFrom, Operation.foldFrom, ofValue_rename]
    simp only [ih]

theorem fold_rename (op : Operation) (least : Nat) (args : List Value) :
    op.fold least (args.map (rename σ)) = op.fold least args := by
  cases args with
  | nil => rfl
  | cons first rest =>
    simp only [Operation.fold, List.map_cons, ofValue_rename, foldFrom_rename, List.length_cons,
      List.length_map]

theorem sum_rename (args : List Value) : sum (args.map (rename σ)) = sum args := by
  cases args with
  | nil => rfl
  | cons v rest => exact fold_rename σ addition 1 (v :: rest)

theorem product_rename (args : List Value) : product (args.map (rename σ)) = product args := by
  cases args with
  | nil => rfl
  | cons v rest => exact fold_rename σ multiplication 1 (v :: rest)

theorem difference_rename (args : List Value) :
    difference (args.map (rename σ)) = difference args := by
  match args with
  | [] => rfl
  | [v] => exact foldFrom_rename σ subtraction _ [v]
  | a :: b :: rest => exact fold_rename σ subtraction 1 (a :: b :: rest)

theorem quotient_rename (args : List Value) : quotient (args.map (rename σ)) = quotient args :=
  fold_rename σ division 2 args

theorem compares_rename (p : Primitive) (test : Ordering → Bool) (a b : Value) :
    compares p test (a.rename σ) (b.rename σ) = compares p test a b := by
  rw [compares, compares, ofValue_rename, ofValue_rename]

end Number

namespace Sequence

theorem items_rename (p : Primitive) (v : Value) :
    items p (v.rename σ) = (items p v).map (List.map (rename σ)) := by
  cases v with
  | closure _ expander _ _ _ => cases expander <;> rfl
  | list xs | vector xs => simp [items, Except.map]
  | map entries => simp [items, Except.map, tag]
  | _ => rfl

theorem count_rename (p : Primitive) (v : Value) : count p (v.rename σ) = count p v := by
  have hitems : (items p (v.rename σ)).map List.length = (items p v).map List.length := by
    rw [items_rename]
    cases items p v <;> simp [Except.map]
  cases v with
  | map entries => simp [count]
  | list xs | vector xs => simp [count, items, Except.map]
  | _ => exact hitems

theorem cons_rename (head tail : Value) :
    cons (head.rename σ) (tail.rename σ) = (cons head tail).map (rename σ) := by
  rw [cons, cons, items_rename]
  exact map_bind_map fun elements => by simp [Except.map, pure, Except.pure]

theorem concat_rename (args : List Value) :
    concat (args.map (rename σ)) = (concat args).map (List.map (rename σ)) := by
  induction args with
  | nil => rfl
  | cons v rest ih =>
    rw [List.map_cons, concat, concat, items_rename, ih]
    refine map_bind_map fun front => map_bind_map fun back => ?_
    simp [Except.map, pure, Except.pure]

theorem vec_rename (v : Value) : vec (v.rename σ) = (vec v).map (rename σ) := by
  have hitems : (do return Value.vector (← items .vec (v.rename σ)) : Except Cause Value) =
      (do return Value.vector (← items .vec v) : Except Cause Value).map (rename σ) := by
    rw [items_rename]
    exact map_bind_map fun elements => by simp [Except.map, pure, Except.pure]
  cases v with
  | vector xs => simp [vec, Except.map]
  | list xs => simp [vec, items, Except.map, Bind.bind, Except.bind, pure, Except.pure]
  | map entries => simp [vec, items, Except.map, Bind.bind, Except.bind, tag]
  | _ => exact hitems

theorem nth_rename (v index : Value) :
    nth (v.rename σ) (index.rename σ) = (nth v index).map (rename σ) := by
  rw [nth, nth, items_rename]
  refine map_bind_map fun elements => ?_
  cases index with
  | int n =>
    have hfound : (if n.toInt < 0 then none else (elements.map (rename σ))[n.toInt.toNat]?) =
        (if n.toInt < 0 then none else elements[n.toInt.toNat]?).map (rename σ) := by
      rw [List.getElem?_map]
      split <;> rfl
    simp only [rename, hfound, List.length_map]
    cases (if n.toInt < 0 then none else elements[n.toInt.toNat]?) <;> rfl
  | closure _ expander _ _ _ => cases expander <;> rfl
  | _ => rfl

theorem first_rename (v : Value) : first (v.rename σ) = (first v).map (rename σ) := by
  rw [first, first, items_rename]
  refine map_bind_map fun elements => ?_
  cases elements <;> simp [Except.map, pure, Except.pure]

theorem rest_rename (v : Value) : rest (v.rename σ) = (rest v).map (rename σ) := by
  rw [rest, rest, items_rename]
  exact map_bind_map fun elements => by simp [Except.map, pure, Except.pure]

end Sequence

namespace Primitive

theorem stringOf_rename (p : Primitive) (v : Value) : stringOf p (v.rename σ) = stringOf p v := by
  cases v with
  | closure _ expander _ _ _ => cases expander <;> rfl
  | _ => rfl

theorem keywordOf_rename (v : Value) :
    keywordOf (v.rename σ) = (keywordOf v).map (rename σ) := by
  cases v with
  | closure _ expander _ _ _ => cases expander <;> rfl
  | _ => rfl

theorem cellOf_rename (p : Primitive) (v : Value) : cellOf p (v.rename σ) = cellOf p v := by
  cases v with
  | closure _ expander _ _ _ => cases expander <;> rfl
  | _ => rfl

theorem test?_rename (p : Primitive) (v : Value) : test? (v.rename σ) p = test? v p := by
  cases p <;> simp only [test?, tag_rename, isTruthy_rename]

end Primitive

end Lisp
