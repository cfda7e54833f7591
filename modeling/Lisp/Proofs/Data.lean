import Lisp.Proofs.MapLiterals

/-!
# Data

What holds neither a name nor a list with something in it asks for
nothing when it is evaluated: no name is looked up and nothing is called
(`Value.Datum`). Vectors and maps are still taken apart and built again,
from the values of their parts. The parts come out as they went in, so a
map gets its own keys back, in their order and with no two of them
equal, and is the map that it was (`evaluatesEach_self`,
`Value.Datum.evaluates`).
-/

namespace Lisp

open Behavior

namespace Value

/-- What is asked of data, apart from what is inside: it is no name, and
a list only if it is empty. -/
def Inert : Value → Prop
  | symbol _ => False
  | list items => items = []
  | map entries => KeysDistinct entries
  | _ => True

/-- Values without names and calls, at any depth. What a closure or an
atom refers to is not inside it. -/
def Datum : Value → Prop := Every Inert

end Value

section

variable {scope : ScopeId} {w : World}

/-- The elements of a vector are evaluated in turn, and make a vector
again. -/
theorem evaluates_vector (items : List Value) :
    of (Evaluates (.vector items) scope) w = (do
      let vs ← of (EvaluatesEach items scope)
      return Value.vector vs) w := by
  rw [evaluates_plain rfl]
  refine at_ext fun r w' => ?_
  constructor
  · intro h
    cases h with
    | self h => exact h.elim
    | @vector _ _ _ _ vs h =>
      cases vs with
      | ok vs => exact Or.inl ⟨vs, w', h, rfl, rfl⟩
      | error e => exact Or.inr ⟨e, h, rfl⟩
  · rintro (⟨vs, w₁, h, rfl, rfl⟩ | ⟨e, h, rfl⟩)
    · exact .vector h
    · exact .vector h

/-- Forms that give themselves. -/
theorem evaluatesEach_self {forms : List Value}
    (h : ∀ form ∈ forms, of (Evaluates form scope) w = (pure form : Behavior Value) w) :
    of (EvaluatesEach forms scope) w = (pure forms : Behavior (List Value)) w :=
  evaluatesEach_of_pure (List.forall₂_same.mpr h)

/-- The entries of a map make this map again. -/
theorem Value.mapOfItems_alternating {entries : List (Value × Value)}
    (h : Value.KeysDistinct entries) :
    Value.mapOfItems (Value.alternating entries) = .map entries := by
  rw [Value.mapOfItems, Entries.pairs_alternating, Entries.ofPairs_of_keysDistinct h]

/-- The only value of a datum is the datum, and nothing is done for
it. -/
theorem Value.Datum.evaluates {v : Value} (h : v.Datum) :
    of (Evaluates v scope) w = (pure v : Behavior Value) w := by
  induction v using Value.byChildren with
  | step v ih =>
    have hinert := h.here
    have inside : of (EvaluatesEach v.children scope) w =
        (pure v.children : Behavior (List Value)) w :=
      evaluatesEach_self fun child hc => ih child hc (h.child hc)
    cases v with
    | symbol name => exact hinert.elim
    | list items =>
      obtain rfl : items = [] := hinert
      exact evaluates_emptyList
    | vector items =>
      rw [Value.children_vector] at inside
      rw [evaluates_vector, bind_of_pure_at inside]
    | map entries =>
      rw [Value.children_map] at inside
      rw [evaluates_map, bind_of_pure_at inside, Value.mapOfItems_alternating hinert]
    | _ => exact evaluates_self trivial

end

/-- Data evaluates to itself, in every scope and every world: from some
bounds on there is a value, and whenever there is an answer, it is the
value that was evaluated, node by node and entry by entry, and the world
is as before. It equals itself even where a NaN is inside. -/
theorem datum_evaluates_to_itself {v : Value} (hv : v.Datum) (scope : ScopeId) (w : World) :
    (∃ n, ∀ steps depth, n ≤ steps → n ≤ depth → evaluate steps depth v scope w = .value v w) ∧
      (∀ r w', Finishes v scope w r w' → r = .ok v ∧ w' = w) ∧ (v == v) = true := by
  have hself : ∀ r w', Evaluates v scope w r w' ↔ r = .ok v ∧ w' = w := at_iff hv.evaluates
  have hderived : Evaluates v scope w (.ok v) w := (hself _ _).mpr ⟨rfl, rfl⟩
  refine ⟨hderived.stable, fun r w' h => ?_, Value.beq_self v⟩
  exact (hself r w').mp (finishes_iff.mp h)

/-- A map with a vector and a NaN for keys, and with the empty list, an
atom and a function for values. -/
def nestedData : Value :=
  .map [(.vector [.nan 0, .map [(.keyword "k", .list [])]], .atom 3),
    (.nan 0, .closure 1 false ["x"] (.symbol "x") 0)]

theorem datum_nestedData : nestedData.Datum := by
  have hleaf : ∀ v : Value, v.Inert → v.children = [] → v.Datum := fun v => Value.Every.leaf
  have hmap : (Value.map [(.keyword "k", .list [])]).Datum := by
    refine .node (List.pairwise_singleton ..) ?_
    simp only [Value.children_map, Value.alternating_cons, Value.alternating_nil,
      List.forall_mem_cons]
    exact ⟨hleaf _ trivial rfl, hleaf _ rfl rfl, List.forall_mem_nil _⟩
  have hvector : (Value.vector [.nan 0, .map [(.keyword "k", .list [])]]).Datum := by
    refine .node trivial ?_
    simp only [Value.children_vector, List.forall_mem_cons]
    exact ⟨hleaf _ trivial rfl, hmap, List.forall_mem_nil _⟩
  have hkeys : Value.KeysDistinct nestedData.entries := by
    refine .cons ?_ (List.pairwise_singleton ..)
    intro e he
    obtain rfl := List.mem_singleton.mp he
    exact ⟨rfl, rfl⟩
  refine .node hkeys ?_
  simp only [nestedData, Value.children_map, Value.alternating_cons, Value.alternating_nil,
    List.forall_mem_cons]
  exact ⟨hvector, hleaf _ trivial rfl, hleaf _ trivial rfl, hleaf _ trivial rfl,
    List.forall_mem_nil _⟩

theorem nestedData_evaluates_to_itself :
    let w := World.empty fun _ => none
    nestedData.Datum ∧ Finishes nestedData 0 w (.ok nestedData) w ∧
      (∀ r w', Finishes nestedData 0 w r w' → r = .ok nestedData ∧ w' = w) ∧
      (nestedData == nestedData) = true := by
  obtain ⟨⟨n, hbounds⟩, hunique, heq⟩ :=
    datum_evaluates_to_itself datum_nestedData 0 (World.empty fun _ => none)
  have hvalue := hbounds n n (Nat.le_refl n) (Nat.le_refl n)
  exact ⟨datum_nestedData, ⟨n, n, hvalue⟩, hunique, heq⟩

end Lisp
