import Lisp.Proofs.Heredity

/-!
# The scopes that values capture

A closure names the scope it was made in. A value is scoped if all the
scopes that it names, at any depth and in the bodies of its closures
too, are among the first `n` (`Value.Scoped`). A world is well formed if
it has all the scopes that are named in it, and each scope is newer than
the one around it.

Only `fn*` names a scope. Everything else that makes a value out of
others takes over what they capture (`Value.hereditary_scoped`).
-/

namespace Lisp

namespace Value

/-- All scopes that a value captures are among the first `n`. -/
inductive Scoped (n : Nat) : Value → Prop
  | plain {v : Value}
      (h : ∀ object expander params body captured,
        v ≠ .closure object expander params body captured)
      (inside : ∀ child ∈ v.children, Scoped n child) : Scoped n v
  | closure {object : ObjectId} {expander : Bool} {params : List String} {body : Value}
      {captured : ScopeId} (hcaptured : captured < n) (hbody : Scoped n body) :
      Scoped n (.closure object expander params body captured)

section

variable {n m : Nat}

theorem Scoped.child {v child : Value} (h : Scoped n v) (hc : child ∈ v.children) :
    Scoped n child := by
  cases h with
  | plain _ inside => exact inside child hc
  | closure _ _ => cases hc

theorem Scoped.mono {v : Value} (hnm : n ≤ m) (h : Scoped n v) : Scoped m v := by
  induction h with
  | plain h _ ih => exact .plain h ih
  | closure hcaptured _ ih => exact .closure (Nat.lt_of_lt_of_le hcaptured hnm) ih

theorem scoped_leaf {v : Value} (h : v.Leaf) : Scoped n v := by
  cases v with
  | list _ | vector _ | map _ | closure _ _ _ _ _ => exact h.elim
  | _ => exact .plain nofun nofun

theorem scoped_list {items : List Value} :
    Scoped n (.list items) ↔ ∀ v ∈ items, Scoped n v := by
  constructor
  · exact fun h v hv => h.child (element_mem_children hv)
  · intro h
    refine .plain nofun fun child hc => h child ?_
    simpa [children] using hc

theorem scoped_vector {items : List Value} :
    Scoped n (.vector items) ↔ ∀ v ∈ items, Scoped n v := by
  constructor
  · exact fun h v hv => h.child (element_mem_children hv)
  · intro h
    refine .plain nofun fun child hc => h child ?_
    simpa [children] using hc

theorem scoped_map {entries : List (Value × Value)} :
    Scoped n (.map entries) ↔ ∀ v ∈ alternating entries, Scoped n v := by
  have hchildren : (map entries).children = alternating entries := rfl
  constructor
  · exact fun h v hv => h.child (by rwa [hchildren])
  · exact fun h => .plain nofun fun child hc => h child (by rwa [hchildren] at hc)

theorem scoped_closure {object : ObjectId} {expander : Bool} {params : List String}
    {body : Value} {captured : ScopeId} :
    Scoped n (.closure object expander params body captured) ↔ captured < n ∧ Scoped n body := by
  constructor
  · intro h
    cases h with
    | plain h _ => exact absurd rfl (h _ _ _ _ _)
    | closure hcaptured hbody => exact ⟨hcaptured, hbody⟩
  · rintro ⟨hcaptured, hbody⟩
    exact .closure hcaptured hbody

/-- Closures apart, what captures nothing new is scoped. -/
theorem hereditary_scoped : Hereditary (Scoped n) where
  leaf := scoped_leaf
  list := scoped_list
  vector := scoped_vector
  map := scoped_map

end

end Value

theorem scoped_of_read {n : Nat} {source : String} {v : Value} (h : read source = .ok v) :
    Value.Scoped n v :=
  hereditary_of_read Value.hereditary_scoped h

end Lisp
