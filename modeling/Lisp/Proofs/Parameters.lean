import Lisp.Proofs.Invariance
import Mathlib.Data.List.Induction
import Mathlib.Data.List.Nodup
import Mathlib.Data.List.TakeWhile

/-!
# Calls fail by count only

A parameter list as `fn*` makes it has no mark, or the mark is the last
but one and a name follows (`Call.WellShaped`). For such a list a call
is misfit by the number of its arguments or not at all, and what it
binds otherwise can be said without the order in which it does
(`Call.BindsExactly`).

That every closure has such a list, at all depths of all values in all
worlds that a session comes to, is an invariant of values
(`Value.invariant_declared`), since nothing but `fn*` ever makes a
parameter list.
-/

namespace Lisp

open Value World

namespace Call

/-! ## Parameter lists -/

/-- The mark does not occur, or it occurs once, before the last name. -/
def WellShaped (params : List String) : Prop :=
  restMark ∉ params ∨
    ∃ names rest, params = names ++ [restMark, rest] ∧ restMark ∉ names ∧ rest ≠ restMark

theorem positional_of_not_mem {params : List String} (h : restMark ∉ params) :
    positional params = params := by
  rw [positional, List.takeWhile_eq_self_iff]
  exact fun name hname => bne_iff_ne.mpr fun heq => h (heq ▸ hname)

theorem positional_append {names : List String} (h : restMark ∉ names) (rest : List String) :
    positional (names ++ restMark :: rest) = names := by
  rw [positional, List.takeWhile_append_of_pos]
  · rw [List.takeWhile_cons_of_neg (by simp), List.append_nil]
  · exact fun name hname => bne_iff_ne.mpr fun heq => h (heq ▸ hname)

theorem mark_cases (params : List String) :
    restMark ∉ params ∨ ∃ names rest, params = names ++ restMark :: rest ∧ restMark ∉ names := by
  by_cases h : restMark ∈ params
  · obtain ⟨names, rest, rfl, hnames⟩ := List.eq_append_cons_of_mem h
    exact Or.inr ⟨names, rest, rfl, hnames⟩
  · exact Or.inl h

/-- `fn*` accepts well-shaped lists only. -/
theorem wellShaped_of_parameterNames {v : Value} {params : List String}
    (h : parameterNames v = .ok params) : WellShaped params := by
  rw [parameterNames] at h
  split at h
  · cases h
  · obtain ⟨names, -, h⟩ := ok_of_bind h
    rcases mark_cases names with hmark | ⟨front, rest, rfl, hfront⟩
    · rw [positional_of_not_mem hmark, List.drop_length] at h
      obtain rfl := Except.ok.inj h
      exact Or.inl hmark
    · rw [positional_append hfront, List.drop_left] at h
      match rest, h with
      | [name], h =>
        dsimp only at h
        split at h
        · cases h
        · next hname =>
          obtain rfl := Except.ok.inj h
          exact Or.inr ⟨front, name, rfl, hfront, hname⟩
      | [], h | _ :: _ :: _, h => cases h

/-! ## Bindings -/

/-- There are too few arguments, or too many and nothing takes them. -/
def Misfits (params : List String) (args : List Value) : Prop :=
  args.length < (positional params).length ∨
    (positional params).length < args.length ∧ restMark ∉ params

instance (params : List String) (args : List Value) : Decidable (Misfits params args) :=
  inferInstanceAs (Decidable (_ ∨ _))

/-- The error of a call with the wrong number of arguments. -/
def misfit (params : List String) (args : List Value) : Cause :=
  .callArity (decide (restMark ∈ params)) (positional params).length args.length

/-- Each parameter is bound once: the one after the mark to all
arguments that are left, and any other to the argument in its place,
which for a repeated name is the last of its places. -/
structure BindsExactly (params : List String) (args : List Value)
    (bindings : List (String × Value)) : Prop where
  once : (bindings.map Prod.fst).Nodup
  names : ∀ name, name ∈ bindings.map Prod.fst ↔ name ∈ params ∧ name ≠ restMark
  rest : ∀ names rest, params = names ++ [restMark, rest] → restMark ∉ names →
    bindings.lookup rest = some (.list (args.drop names.length))
  place : ∀ (i : Nat) (name : String) (v : Value), (positional params)[i]? = some name →
    args[i]? = some v → (∀ j, i < j → (positional params)[j]? ≠ some name) →
    (∀ names, params ≠ names ++ [restMark, name]) → bindings.lookup name = some v

theorem bindAll_concat (pairs : List (String × Value)) (pair : String × Value) :
    bindAll (pairs ++ [pair]) = Scope.bind pair.1 pair.2 (bindAll pairs) := by
  simp [bindAll]

/-- The last pair with a name counts. -/
theorem lookup_bindAll (pairs : List (String × Value)) (name : String) :
    (bindAll pairs).lookup name = pairs.reverse.lookup name := by
  induction pairs using List.reverseRecOn with
  | nil => rfl
  | append_singleton pairs pair ih =>
    rw [bindAll_concat, List.reverse_concat, List.lookup_cons]
    by_cases h : name = pair.1
    · rw [h, Scope.lookup_bind_self, beq_self_eq_true]
    · rw [Scope.lookup_bind_of_ne h, ih, beq_eq_false_iff_ne.mpr h]

theorem keys_bind (name : String) (v : Value) (bindings : List (String × Value)) :
    (Scope.bind name v bindings).map Prod.fst =
      if name ∈ bindings.map Prod.fst then bindings.map Prod.fst
      else bindings.map Prod.fst ++ [name] := by
  induction bindings with
  | nil => rfl
  | cons binding rest ih =>
    rw [Scope.bind]
    by_cases h : binding.1 = name
    · simp [h]
    · have hne : name ≠ binding.1 := Ne.symm h
      rw [if_neg h, List.map_cons, ih, List.map_cons]
      by_cases hmem : name ∈ rest.map Prod.fst
      · rw [if_pos hmem, if_pos (List.mem_cons_of_mem _ hmem)]
      · rw [if_neg hmem, if_neg fun hcons => (List.mem_cons.mp hcons).elim hne hmem]
        rfl

theorem keys_bindAll (pairs : List (String × Value)) :
    ((bindAll pairs).map Prod.fst).Nodup ∧
      ∀ name, name ∈ (bindAll pairs).map Prod.fst ↔ name ∈ pairs.map Prod.fst := by
  induction pairs using List.reverseRecOn with
  | nil => exact ⟨List.nodup_nil, fun _ => Iff.rfl⟩
  | append_singleton pairs pair ih =>
    obtain ⟨hnodup, hmem⟩ := ih
    rw [bindAll_concat, keys_bind]
    split
    · next h =>
      refine ⟨hnodup, fun name => ?_⟩
      rw [hmem, List.map_append, List.mem_append, List.map_singleton, List.mem_singleton]
      constructor
      · exact Or.inl
      · rintro (hname | rfl)
        · exact hname
        · exact (hmem _).mp h
    · next h =>
      refine ⟨hnodup.append (List.nodup_singleton _) ?_, fun name => ?_⟩
      · exact List.disjoint_singleton.mpr h
      · rw [List.map_append, List.mem_append, List.mem_append, hmem]
        rfl

/-- A pair that no later one overrides. -/
theorem lookup_reverse {pairs : List (String × Value)} {i : Nat} {name : String} {v : Value}
    (h : pairs[i]? = some (name, v))
    (hlater : ∀ (j : Nat) (pair : String × Value), i < j → pairs[j]? = some pair → pair.1 ≠ name) :
    pairs.reverse.lookup name = some v := by
  obtain ⟨hi, hpair⟩ := List.getElem?_eq_some_iff.mp h
  rw [List.lookup_eq_some_iff]
  refine ⟨(pairs.drop (i + 1)).reverse, (pairs.take i).reverse, ?_, fun pair hmem => ?_⟩
  · rw [← hpair]
    conv_lhs => rw [← List.take_append_drop i pairs, List.drop_eq_getElem_cons hi]
    simp
  · obtain ⟨j, hj⟩ := List.mem_iff_getElem?.mp (List.mem_reverse.mp hmem)
    rw [List.getElem?_drop] at hj
    exact bne_iff_ne.mpr (Ne.symm (hlater _ pair (by omega) hj))

section

variable {params names : List String} {rest : String} {args : List Value}

theorem bindings_of_not_mem (h : restMark ∉ params) :
    bindings params args =
      if args.length = params.length then .ok (bindAll (params.zip args))
      else .error (misfit params args) := by
  have hmark : decide (restMark ∈ params) = false := decide_eq_false h
  rw [bindings, misfit, positional_of_not_mem h, hmark]
  simp only [List.drop_length]

theorem bindings_of_rest (h : restMark ∉ names) :
    bindings (names ++ [restMark, rest]) args =
      if args.length < names.length then .error (misfit (names ++ [restMark, rest]) args)
      else .ok (bindAll (names.zip args ++ [(rest, .list (args.drop names.length))])) := by
  have hmark : decide (restMark ∈ names ++ [restMark, rest]) = true := by simp
  rw [bindings, misfit, positional_append h, hmark]
  simp only [List.drop_left]

/-- A call is misfit by count only. -/
theorem bindings_of_misfits (hparams : WellShaped params) (h : Misfits params args) :
    bindings params args = .error (misfit params args) := by
  rcases hparams with hmark | ⟨names, rest, rfl, hnames, -⟩
  · rw [bindings_of_not_mem hmark, if_neg]
    rw [Misfits, positional_of_not_mem hmark] at h
    omega
  · rw [bindings_of_rest hnames, if_pos]
    rw [Misfits, positional_append hnames] at h
    exact h.resolve_right fun hmany => hmany.2 (by simp)

theorem bindsExactly_of_not_mem (h : restMark ∉ params) (hlength : args.length = params.length) :
    BindsExactly params args (bindAll (params.zip args)) := by
  obtain ⟨hnodup, hmem⟩ := keys_bindAll (params.zip args)
  have hkeys : (params.zip args).map Prod.fst = params := List.map_fst_zip hlength.ge
  refine ⟨hnodup, fun name => ?_, fun names rest heq _ => ?_, fun i name v hname hv hlater _ => ?_⟩
  · rw [hmem, hkeys]
    exact ⟨fun hname => ⟨hname, fun heq => h (heq ▸ hname)⟩, fun hname => hname.1⟩
  · exact absurd (by simp [heq]) h
  · rw [positional_of_not_mem h] at hname hlater
    rw [lookup_bindAll]
    refine lookup_reverse (List.getElem?_zip_eq_some.mpr ⟨hname, hv⟩) fun j pair hij hpair heq => ?_
    exact hlater j hij (heq ▸ (List.getElem?_zip_eq_some.mp hpair).1)

theorem bindsExactly_of_rest (h : restMark ∉ names) (hrest : rest ≠ restMark)
    (hlength : names.length ≤ args.length) :
    BindsExactly (names ++ [restMark, rest]) args
      (bindAll (names.zip args ++ [(rest, .list (args.drop names.length))])) := by
  set pairs := names.zip args ++ [(rest, Value.list (args.drop names.length))]
  obtain ⟨hnodup, hmem⟩ := keys_bindAll pairs
  have hkeys : pairs.map Prod.fst = names ++ [rest] := by
    rw [List.map_append, List.map_fst_zip hlength, List.map_singleton]
  refine ⟨hnodup, fun name => ?_, fun names' rest' heq _ => ?_,
    fun i name v hname hv hlater hnot => ?_⟩
  · rw [hmem, hkeys]
    constructor
    · intro hname
      rcases List.mem_append.mp hname with hname | hname
      · exact ⟨List.mem_append_left _ hname, fun heq => h (heq ▸ hname)⟩
      · rw [List.mem_singleton.mp hname]
        exact ⟨by simp, hrest⟩
    · rintro ⟨hname, hne⟩
      simpa [hne] using hname
  · have hlast := List.append_inj' heq rfl
    obtain ⟨rfl, hpair⟩ := hlast
    obtain rfl : rest = rest' := by simpa using hpair
    rw [lookup_bindAll]
    simp [pairs]
  · rw [positional_append h] at hname hlater
    have hne : name ≠ rest := fun heq => hnot names (by rw [heq])
    rw [lookup_bindAll, List.reverse_append, List.reverse_singleton, List.singleton_append,
      List.lookup_cons, beq_eq_false_iff_ne.mpr hne]
    refine lookup_reverse (List.getElem?_zip_eq_some.mpr ⟨hname, hv⟩) fun j pair hij hpair heq => ?_
    exact hlater j hij (heq ▸ (List.getElem?_zip_eq_some.mp hpair).1)

theorem bindings_of_fits (hparams : WellShaped params) (h : ¬Misfits params args) :
    ∃ bound, bindings params args = .ok bound ∧ BindsExactly params args bound := by
  rcases hparams with hmark | ⟨names, rest, rfl, hnames, hrest⟩
  · have hlength : args.length = params.length := by
      rw [Misfits, positional_of_not_mem hmark] at h
      simp only [hmark, not_false_eq_true, and_true] at h
      omega
    rw [bindings_of_not_mem hmark, if_pos hlength]
    exact ⟨_, rfl, bindsExactly_of_not_mem hmark hlength⟩
  · have hlength : names.length ≤ args.length := by
      rw [Misfits, positional_append hnames] at h
      omega
    rw [bindings_of_rest hnames, if_neg (Nat.not_lt.mpr hlength)]
    exact ⟨_, rfl, bindsExactly_of_rest hnames hrest hlength⟩

end

end Call

/-! ## Closures at all depths -/

namespace Value

/-- The first value is inside the second, at any depth. The body of a
closure is inside it. -/
inductive Inside : Value → Value → Prop
  | here {v : Value} : Inside v v
  | child {x child v : Value} (h : child ∈ v.children) (hx : Inside x child) : Inside x v
  | body {x body : Value} {object : ObjectId} {expander : Bool} {params : List String}
      {captured : ScopeId} (hx : Inside x body) :
      Inside x (.closure object expander params body captured)

/-- All closures inside a value have well-shaped parameter lists. -/
def Declared (v : Value) : Prop :=
  ∀ {object : ObjectId} {expander : Bool} {params : List String} {body : Value}
    {captured : ScopeId}, Inside (.closure object expander params body captured) v →
      Call.WellShaped params

theorem declared_of_children {v : Value}
    (h : ∀ object expander params body captured, v ≠ .closure object expander params body captured)
    (hchildren : ∀ child ∈ v.children, Declared child) : Declared v := by
  intro object expander params body captured hinside
  cases hinside with
  | here => exact absurd rfl (h _ _ _ _ _)
  | child hc hx => exact hchildren _ hc hx
  | body hx => exact absurd rfl (h _ _ _ _ _)

theorem Declared.child {v child : Value} (h : Declared v) (hc : child ∈ v.children) :
    Declared child :=
  fun hx => h (.child hc hx)

theorem declared_closure {object : ObjectId} {expander : Bool} {params : List String}
    {body : Value} {captured : ScopeId} :
    Declared (.closure object expander params body captured) ↔
      Call.WellShaped params ∧ Declared body := by
  constructor
  · exact fun h => ⟨h .here, fun hx => h (.body hx)⟩
  · rintro ⟨hparams, hbody⟩ _ _ _ _ _ hinside
    cases hinside with
    | here => exact hparams
    | child hc _ => cases hc
    | body hx => exact hbody hx

/-- `fn*` sees to it that closures are declared, and nothing else makes
a parameter list. -/
theorem invariant_declared : Invariant Declared where
  leaf {v} hv := by
    refine declared_of_children ?_ ?_
    · rintro _ _ _ _ _ rfl
      exact hv
    · intro child hc
      cases v with
      | list _ | vector _ | map _ | closure _ _ _ _ _ => exact hv.elim
      | _ => cases hc
  list {items} := by
    have hchildren : (list items).children = items := List.append_nil items
    refine ⟨fun h v hv => h.child (by rwa [hchildren]), fun h => ?_⟩
    rw [← hchildren] at h
    exact declared_of_children (v := .list items) nofun h
  vector {items} := by
    have hchildren : (vector items).children = items := List.append_nil items
    refine ⟨fun h v hv => h.child (by rwa [hchildren]), fun h => ?_⟩
    rw [← hchildren] at h
    exact declared_of_children (v := .vector items) nofun h
  map {entries} :=
    ⟨fun h v hv => h.child hv, fun h => declared_of_children (v := .map entries) nofun h⟩
  function hnames hbody :=
    declared_closure.mpr ⟨Call.wellShaped_of_parameterNames hnames, hbody⟩
  body h := (declared_closure.mp h).2
  copy h := declared_closure.mpr (declared_closure.mp h)

end Value

/-! ## Calls -/

namespace Moment

/-- The moment is that of a call of a closure: it is applied, or it is a
macro that is called. -/
inductive Calls : Moment → List String → Value → ScopeId → List Value → Prop
  | apply {object : ObjectId} {expander : Bool} {params : List String} {body : Value}
      {captured scope : ScopeId} {args : List Value} {w : World} :
      Calls ⟨.apply (.closure object expander params body captured) args, scope, w⟩
        params body captured args
  | expand {form body : Value} {params : List String} {captured scope : ScopeId}
      {args : List Value} {w : World}
      (h : w.macroCall? scope form = some (params, body, captured, args)) :
      Calls ⟨.expand form, scope, w⟩ params body captured args

variable {m : Moment} {params : List String} {body : Value} {captured : ScopeId}
  {args : List Value}

theorem Calls.wellShaped (h : m.Calls params body captured args) (hm : m.All Declared) :
    Call.WellShaped params := by
  cases h with
  | apply => exact (declared_closure.mp (hm.values _ (List.mem_cons_self ..))).1
  | expand h =>
    obtain ⟨⟨object, hclosure⟩, -⟩ := all_macroCall? invariant_declared hm.world
      (hm.values _ (List.mem_singleton_self _)) h
    exact (declared_closure.mp hclosure).1

/-- A call whose arguments do not fit comes to the error, and leaves the
world as it was. -/
theorem Calls.gives_iff_of_error {cause : Cause} (h : m.Calls params body captured args)
    (hcause : Call.bindings params args = .error cause) {r : Except Error Value} {w' : World} :
    m.Gives r w' ↔ r = .error (.raised cause) ∧ w' = m.world := by
  constructor
  · intro hgives
    cases h with
    | apply =>
      cases hgives with
      | misfit h =>
        obtain rfl := Except.error.inj (h.symm.trans hcause)
        exact ⟨rfl, rfl⟩
      | closure h _ => cases h.symm.trans hcause
      | uncallable h => exact absurd trivial h
    | expand h =>
      cases hgives with
      | plain hnone => cases hnone.symm.trans h
      | misfit h' hargs =>
        cases h'.symm.trans h
        obtain rfl := Except.error.inj (hargs.symm.trans hcause)
        exact ⟨rfl, rfl⟩
      | bodyFails h' hargs _ | step h' hargs _ _ =>
        cases h'.symm.trans h
        cases hargs.symm.trans hcause
  · rintro ⟨rfl, rfl⟩
    cases h with
    | apply => exact Applies.misfit hcause
    | expand h => exact Expands.misfit h hcause

/-- A call whose arguments fit goes on in a new scope. -/
theorem Calls.part {bindings : List (String × Value)} (h : m.Calls params body captured args)
    (hbindings : Call.bindings params args = .ok bindings) :
    Part m ⟨.evaluate body, m.world.scopes.size, m.world.enter captured bindings⟩ := by
  cases h with
  | apply => exact .closureBody hbindings
  | expand h => exact .macroBody h hbindings

end Moment

namespace Session

/-- In all worlds that a session comes to, and at all moments of what it
evaluates there, closures have well-shaped parameter lists. So a call
fails by the number of its arguments or not at all; if it fails, no scope
is made, and otherwise it goes on in a new scope inside the one that is
captured, where each parameter is bound to what it is to be bound to. -/
theorem calls_fail_by_count {files : Files} {argv : List String} {w : World}
    (hw : Reachable files argv w) :
    w.All Declared ∧
    ∀ form, Submitted form → ∀ m, Moment.Reaches ⟨.evaluate form, rootScope, w⟩ m →
      m.All Declared ∧
      (∀ r w', m.Gives r w' → w'.All Declared ∧ ∀ v, r = .ok v → v.Declared) ∧
      ∀ params body captured args, m.Calls params body captured args →
        (Call.Misfits params args →
          Action.enterCall captured params args m.world =
            .failure (.raised (Call.misfit params args)) m.world ∧
          ∀ r w', m.Gives r w' ↔ r = .error (.raised (Call.misfit params args)) ∧ w' = m.world) ∧
        (¬Call.Misfits params args → ∃ bindings, Call.BindsExactly params args bindings ∧
          Action.enterCall captured params args m.world =
            .value m.world.scopes.size (m.world.enter captured bindings) ∧
          Part m ⟨.evaluate body, m.world.scopes.size, m.world.enter captured bindings⟩) := by
  refine ⟨hw.all invariant_declared, fun form hform m hm => ?_⟩
  have hall : m.All Declared := hw.all_moments invariant_declared hform hm
  refine ⟨hall, fun r w' hgives => ?_,
    fun params body captured args hcall => ⟨fun h => ?_, fun h => ?_⟩⟩
  · have hkept := hall.kept invariant_declared hgives
    exact ⟨hkept.world, hkept.value⟩
  · have herror := Call.bindings_of_misfits (hcall.wellShaped hall) h
    exact ⟨Action.enterCall_of_error herror captured m.world,
      fun _ _ => hcall.gives_iff_of_error herror⟩
  · obtain ⟨bindings, hok, hexact⟩ := Call.bindings_of_fits (hcall.wellShaped hall) h
    exact ⟨bindings, hexact, Action.enterCall_of_ok hok captured m.world, hcall.part hok⟩

/-- `not` takes one argument, and `cond` all there are. -/
theorem calls_fail_by_count_start :
    ∃ w, Reachable (fun _ => none) [] w ∧
      (∃ m, Moment.Reaches ⟨.evaluate (.list [.symbol "not"]), rootScope, w⟩ m ∧
        m.Gives (.error (.raised (.callArity false 1 0))) m.world) ∧
      ∃ m bindings body, Moment.Reaches
          ⟨.evaluate (.list [.symbol "cond", .int 1, .int 2]), rootScope, w⟩ m ∧
        Call.BindsExactly ["&", "xs"] [.int 1, .int 2] bindings ∧
        Part m ⟨.evaluate body, m.world.scopes.size, m.world.enter rootScope bindings⟩ := by
  have hreachable : Reachable (fun _ => none) [] (start (fun _ => none) []) := reachable_start
  have hfails := (calls_fail_by_count hreachable).2
  obtain ⟨negated, expanded, heq⟩ := start_eq_prelude (fun _ => none) []
  have hfind : ∃ object, (start (fun _ => none) []).find? rootScope "not" =
      some (.closure object false ["a"] negated rootScope) := by
    rw [heq]
    exact ⟨_, rfl⟩
  have hcond : (start (fun _ => none) []).macroCall? rootScope
      (.list [.symbol "cond", .int 1, .int 2]) =
        some (["&", "xs"], expanded, rootScope, [.int 1, .int 2]) := by
    rw [heq]
    rfl
  generalize start (fun _ => none) [] = w at *
  obtain ⟨object, hfind⟩ := hfind
  have hplain : w.macroCall? rootScope (.list [.symbol "not"]) = none := by
    rw [World.macroCall?, hfind]
  have hread : read "(not)" = .ok (.list [.symbol "not"]) := rfl
  have hread' : read "(cond 1 2)" = .ok (.list [.symbol "cond", .int 1, .int 2]) := rfl
  have happly : Moment.Reaches ⟨.evaluate (.list [.symbol "not"]), rootScope, w⟩
      ⟨.apply (.closure object false ["a"] negated rootScope) [], rootScope, w⟩ :=
    .head (.expanded (.plain hplain))
      (.single (.call rfl (.expanded (.plain rfl) (.bound hfind)) .nil))
  have hexpand : Moment.Reaches ⟨.evaluate (.list [.symbol "cond", .int 1, .int 2]), rootScope, w⟩
      ⟨.expand (.list [.symbol "cond", .int 1, .int 2]), rootScope, w⟩ := .single .expansion
  obtain ⟨bindings, hexact, -, hpart⟩ :=
    ((hfails _ (.read hread') _ hexpand).2.2 _ _ _ _ (.expand hcond)).2 (by decide)
  have hmisfit := ((hfails _ (.read hread) _ happly).2.2 _ _ _ _ .apply).1 (by decide)
  exact ⟨w, hreachable, ⟨_, happly, (hmisfit.2 _ _).mpr ⟨rfl, rfl⟩⟩,
    _, bindings, expanded, hexpand, hexact, hpart⟩

end Session

end Lisp
