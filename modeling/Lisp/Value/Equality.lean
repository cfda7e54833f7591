import Lisp.Value

/-!
# Equality of values

Equality looks at contents: a list equals a vector with equal elements
in the same order, and a map equals a map of the same size if every
entry has an equal one there, key and value, wherever it stands.
Numbers of the two kinds are never equal, and the two floating point
zeros are. What has an identity of its own equals only itself.

A value that is built from itself again and again holds the same parts
many times over, and a comparison that enters them all may take forever.
So values are compared by `Value.decideEqual`, which does not enter a
part that both sides share. It may skip it because every value equals
itself (`equal_self`), and finds what `Value.equal` says.
-/

namespace Lisp

namespace Value

mutual

def equal : Value → Value → Bool
  | nil, nil => true
  | bool a, bool b => a == b
  | int a, int b => a == b
  | float a, float b => a.same b
  | nan a, nan b => a == b
  | string a, string b => a == b
  | keyword a, keyword b => a == b
  | symbol a, symbol b => a == b
  | list a, list b | list a, vector b => equalItems a b
  | vector a, list b | vector a, vector b => equalItems a b
  | map a, map b => a.length == b.length && equalEntries a b
  | closure a _ _ _ _, closure b _ _ _ _ => a == b
  | builtin a, builtin b => a == b
  | atom a, atom b => a == b
  | _, _ => false

def equalItems : List Value → List Value → Bool
  | [], [] => true
  | a :: as, b :: bs => equal a b && equalItems as bs
  | _, _ => false

/-- Does every entry of the first list have an equal one in the
second? -/
def equalEntries : List (Value × Value) → List (Value × Value) → Bool
  | [], _ => true
  | (key, value) :: rest, others =>
    others.any (fun entry => equal key entry.1 && equal value entry.2) &&
      equalEntries rest others

end

mutual

theorem equal_self : ∀ v : Value, v.equal v = true
  | nil => rfl
  | bool _ | int _ | nan _ | string _ | keyword _ | symbol _ => by simp [equal]
  | float _ => by simp [equal, Binary64.same]
  | list items | vector items => by simpa [equal] using equalItems_self items
  | map entries => by simpa [equal] using equalEntries_self entries entries fun _ h => h
  | closure .. | builtin _ | atom _ => by simp [equal]

theorem equalItems_self : ∀ items : List Value, equalItems items items = true
  | [] => rfl
  | v :: rest => by simp [equalItems, equal_self v, equalItems_self rest]

theorem equalEntries_self : ∀ entries others : List (Value × Value),
    (∀ entry ∈ entries, entry ∈ others) → equalEntries entries others = true
  | [], _, _ => rfl
  | (key, value) :: rest, others, h => by
    rw [equalEntries, equalEntries_self rest others fun e he => h e (.tail _ he), Bool.and_true,
      List.any_eq_true]
    exact ⟨(key, value), h _ (.head _), by simp [equal_self key, equal_self value]⟩

end

theorem length_eq_of_equalItems : ∀ {as bs : List Value}, equalItems as bs = true →
    as.length = bs.length
  | [], [], _ => rfl
  | a :: as, b :: bs, h => by
    rw [equalItems, Bool.and_eq_true] at h
    simp [length_eq_of_equalItems h.2]

/-! ## Comparison of shared parts -/

/-- Decides equality by `decision`, unless `a` and `b` are one and the
same in memory. -/
@[inline] def unlessShared (a b : Value) (decision : Unit → { r : Bool // r = a.equal b }) :
    { r : Bool // r = a.equal b } :=
  ⟨withPtrEq a b (fun _ => (decision ()).1) (by rintro rfl; rw [(decision ()).2, equal_self]),
    (decision ()).2⟩

/-- Decides equality of items by `decision`, unless their numbers
differ. -/
@[inline] def ifSameLength (as bs : List Value)
    (decision : Unit → { r : Bool // r = equalItems as bs }) :
    { r : Bool // r = equalItems as bs } :=
  ⟨as.length == bs.length && (decision ()).1, by
    rw [(decision ()).2]
    cases h : equalItems as bs
    · simp
    · simp [length_eq_of_equalItems h]⟩

mutual

/-- Are two values equal? -/
def decideEqual (a b : Value) : { r : Bool // r = a.equal b } :=
  unlessShared a b fun _ =>
    match a, b with
    | list as, list bs => ifSameLength as bs fun _ => decideItems as bs
    | list as, vector bs => ifSameLength as bs fun _ => decideItems as bs
    | vector as, list bs => ifSameLength as bs fun _ => decideItems as bs
    | vector as, vector bs => ifSameLength as bs fun _ => decideItems as bs
    | map as, map bs => ⟨as.length == bs.length && (decideEntries as bs).1, by
        rw [(decideEntries as bs).2, equal]⟩
    | a, b => ⟨a.equal b, rfl⟩

def decideItems : (as bs : List Value) → { r : Bool // r = equalItems as bs }
  | [], [] => ⟨true, rfl⟩
  | a :: as, b :: bs => ⟨(decideEqual a b).1 && (decideItems as bs).1, by
      rw [(decideEqual a b).2, (decideItems as bs).2, equalItems]⟩
  | [], _ :: _ => ⟨false, rfl⟩
  | _ :: _, [] => ⟨false, rfl⟩

def decideEntries : (entries others : List (Value × Value)) →
    { r : Bool // r = equalEntries entries others }
  | [], _ => ⟨true, rfl⟩
  | (key, value) :: rest, others =>
    ⟨others.any (fun entry => (decideEqual key entry.1).1 && (decideEqual value entry.2).1) &&
      (decideEntries rest others).1, by
      rw [(decideEntries rest others).2, equalEntries]
      simp only [(decideEqual _ _).2]⟩

end

instance : BEq Value := ⟨fun a b => (decideEqual a b).1⟩

theorem beq_def (a b : Value) : (a == b) = a.equal b := (decideEqual a b).2

end Value

end Lisp
