import Lisp.Value

/-!
# The parts of a value

A value is a tree: lists and vectors have elements, maps have entries,
and everything else is a leaf. Proofs about values follow the tree by
one principle (`Value.byChildren`) and do not repeat its shapes, and
what is asked of a value at every depth is asked by one predicate
(`Value.Every`).

The body of a closure is not a part of it: nothing that looks at values
looks inside.
-/

namespace Lisp

namespace Value

/-- The elements of a list or a vector; other values have none. -/
def elements (v : Value) : List Value := v.items?.getD []

/-- The entries of a map; other values have none. -/
def entries : Value → List (Value × Value)
  | map entries => entries
  | _ => []

@[simp] theorem elements_list (items : List Value) : (list items).elements = items := rfl

@[simp] theorem elements_vector (items : List Value) : (vector items).elements = items := rfl

@[simp] theorem elements_map (es : List (Value × Value)) : (map es).elements = [] := rfl

@[simp] theorem entries_list (items : List Value) : (list items).entries = [] := rfl

@[simp] theorem entries_vector (items : List Value) : (vector items).entries = [] := rfl

@[simp] theorem entries_map (es : List (Value × Value)) : (map es).entries = es := rfl

/-- Keys and values in turn. -/
def alternating (entries : List (Value × Value)) : List Value :=
  entries.flatMap fun entry => [entry.1, entry.2]

@[simp] theorem alternating_nil : alternating [] = [] := rfl

@[simp] theorem alternating_cons (entry : Value × Value) (rest : List (Value × Value)) :
    alternating (entry :: rest) = entry.1 :: entry.2 :: alternating rest := rfl

@[simp] theorem length_alternating (entries : List (Value × Value)) :
    (alternating entries).length = 2 * entries.length := by
  induction entries with
  | nil => rfl
  | cons e rest ih =>
    rw [alternating_cons, List.length_cons, List.length_cons, List.length_cons, ih]
    omega

theorem mem_alternating {v : Value} {entries : List (Value × Value)} :
    v ∈ alternating entries ↔ ∃ entry ∈ entries, v = entry.1 ∨ v = entry.2 := by
  simp [alternating]

/-- The values right inside a value. -/
def children (v : Value) : List Value := v.elements ++ alternating v.entries

@[simp] theorem children_vector (items : List Value) : (vector items).children = items :=
  List.append_nil items

@[simp] theorem children_map (es : List (Value × Value)) :
    (map es).children = alternating es := List.nil_append _

theorem mem_children {child v : Value} :
    child ∈ v.children ↔
      child ∈ v.elements ∨ ∃ entry ∈ v.entries, child = entry.1 ∨ child = entry.2 := by
  simp [children, mem_alternating]

theorem element_mem_children {child v : Value} (h : child ∈ v.elements) : child ∈ v.children :=
  mem_children.mpr (Or.inl h)

theorem key_mem_children {entry : Value × Value} {v : Value} (h : entry ∈ v.entries) :
    entry.1 ∈ v.children :=
  mem_children.mpr (Or.inr ⟨entry, h, Or.inl rfl⟩)

theorem value_mem_children {entry : Value × Value} {v : Value} (h : entry ∈ v.entries) :
    entry.2 ∈ v.children :=
  mem_children.mpr (Or.inr ⟨entry, h, Or.inr rfl⟩)

/-! ## Induction -/

theorem sizeOf_lt_of_mem_children {child v : Value} (h : child ∈ v.children) :
    sizeOf child < sizeOf v := by
  rcases mem_children.mp h with h | ⟨⟨key, value⟩, he, hc⟩
  · cases v with
    | list items | vector items =>
      have := List.sizeOf_lt_of_mem (show child ∈ items from h)
      simp only [list.sizeOf_spec, vector.sizeOf_spec]
      omega
    | _ => cases h
  · cases v with
    | map es =>
      have := List.sizeOf_lt_of_mem (show (key, value) ∈ es from he)
      simp only [Prod.mk.sizeOf_spec] at this
      simp only [map.sizeOf_spec]
      rcases hc with rfl | rfl <;> omega
    | _ => cases he

/-- What holds of a value as soon as it holds of its children, holds of
every value. -/
theorem byChildren {P : Value → Prop} (step : ∀ v, (∀ child ∈ v.children, P child) → P v)
    (v : Value) : P v :=
  step v fun child _ => byChildren step child
termination_by sizeOf v
decreasing_by exact sizeOf_lt_of_mem_children ‹_›

/-! ## Every part -/

/-- `P` holds of a value and of all values inside it, at any depth. -/
inductive Every (P : Value → Prop) : Value → Prop
  | node {v : Value} (here : P v) (inside : ∀ child ∈ v.children, Every P child) : Every P v

theorem Every.here {P : Value → Prop} {v : Value} (h : Every P v) : P v := by
  cases h with
  | node here _ => exact here

theorem Every.child {P : Value → Prop} {v : Value} (h : Every P v) {child : Value}
    (hc : child ∈ v.children) : Every P child := by
  cases h with
  | node _ inside => exact inside child hc

theorem Every.leaf {P : Value → Prop} {v : Value} (here : P v) (h : v.children = []) :
    Every P v :=
  .node here fun child hc => by rw [h] at hc; cases hc

theorem Every.mono {P Q : Value → Prop} (hPQ : ∀ v, P v → Q v) {v : Value} (h : Every P v) :
    Every Q v := by
  induction h with
  | node here _ ih => exact .node (hPQ _ here) ih

theorem Every.imp₂ {P Q R : Value → Prop} (h : ∀ v, P v → Q v → R v) {v : Value}
    (hP : Every P v) (hQ : Every Q v) : Every R v := by
  induction hP with
  | node here _ ih => exact .node (h _ here hQ.here) fun child hc => ih child hc (hQ.child hc)

end Value

end Lisp
