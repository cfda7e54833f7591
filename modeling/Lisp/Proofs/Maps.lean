import Lisp.Proofs.Equivalence
import Lisp.Value.Entries

/-!
# Maps keep their keys apart

`Entries.insert` compares a new key with the keys that are there, so no
map that is built with it has two equal keys. For the same reason
building a map from entries that have been in one changes nothing.
-/

namespace Lisp

namespace Entries

/-! ## What is in a map -/

theorem mem_insert {entries : List (Value × Value)} {key value : Value} {e : Value × Value}
    (h : e ∈ insert entries key value) :
    (e.1 = key ∨ ∃ e' ∈ entries, e.1 = e'.1) ∧ (e.2 = value ∨ ∃ e' ∈ entries, e.2 = e'.2) := by
  induction entries with
  | nil =>
    obtain rfl := List.mem_singleton.mp h
    exact ⟨Or.inl rfl, Or.inl rfl⟩
  | cons e' rest ih =>
    have hself : e' ∈ e' :: rest := List.mem_cons_self ..
    rw [insert] at h
    split at h
    · rcases List.mem_cons.mp h with rfl | h
      · exact ⟨Or.inr ⟨e', hself, rfl⟩, Or.inl rfl⟩
      · have hmem := List.mem_cons_of_mem e' h
        exact ⟨Or.inr ⟨e, hmem, rfl⟩, Or.inr ⟨e, hmem, rfl⟩⟩
    · rcases List.mem_cons.mp h with rfl | h
      · exact ⟨Or.inr ⟨e, hself, rfl⟩, Or.inr ⟨e, hself, rfl⟩⟩
      · obtain ⟨hkey, hvalue⟩ := ih h
        refine ⟨hkey.imp_right ?_, hvalue.imp_right ?_⟩ <;>
          exact fun ⟨x, hx, heq⟩ => ⟨x, List.mem_cons_of_mem _ hx, heq⟩

theorem mem_alternating_insert {entries : List (Value × Value)} {key value v : Value}
    (h : v ∈ Value.alternating (insert entries key value)) :
    v = key ∨ v = value ∨ v ∈ Value.alternating entries := by
  obtain ⟨e, he, hv⟩ := Value.mem_alternating.mp h
  obtain ⟨hkey, hvalue⟩ := mem_insert he
  rw [Value.mem_alternating]
  rcases hv with rfl | rfl
  · rcases hkey with hkey | ⟨e', he', hkey⟩
    · exact Or.inl hkey
    · exact Or.inr (Or.inr ⟨e', he', Or.inl hkey⟩)
  · rcases hvalue with hvalue | ⟨e', he', hvalue⟩
    · exact Or.inr (Or.inl hvalue)
    · exact Or.inr (Or.inr ⟨e', he', Or.inr hvalue⟩)

theorem mem_alternating_foldl_insert {v : Value} (added : List (Value × Value)) :
    ∀ entries : List (Value × Value),
      v ∈ Value.alternating (added.foldl (fun es e => insert es e.1 e.2) entries) →
        v ∈ Value.alternating entries ∨ v ∈ Value.alternating added := by
  induction added with
  | nil => exact fun entries h => Or.inl h
  | cons e rest ih =>
    intro entries h
    rw [Value.alternating_cons, List.mem_cons, List.mem_cons]
    rcases ih _ h with h | h
    · rcases mem_alternating_insert h with h | h | h
      · exact Or.inr (Or.inl h)
      · exact Or.inr (Or.inr (Or.inl h))
      · exact Or.inl h
    · exact Or.inr (Or.inr (Or.inr h))

theorem mem_of_mem_alternating_pairs {v : Value} {items : List Value}
    (h : v ∈ Value.alternating (pairs items)) : v ∈ items := by
  fun_induction pairs items with
  | case1 key value rest ih =>
    rw [Value.alternating_cons, List.mem_cons, List.mem_cons] at h
    rw [List.mem_cons, List.mem_cons]
    exact h.imp_right (Or.imp_right ih)
  | case2 => cases h

/-- A map that is built holds nothing but what it was built from. -/
theorem mem_of_mem_alternating_ofPairs {v : Value} {items : List Value}
    (h : v ∈ Value.alternating (ofPairs (pairs items))) : v ∈ items := by
  rcases mem_alternating_foldl_insert _ _ h with h | h
  · cases h
  · exact mem_of_mem_alternating_pairs h

/-! ## Keys stay distinct -/

theorem keysDistinct_insert {entries : List (Value × Value)} (h : Value.KeysDistinct entries)
    (hkeyed : ∀ e ∈ entries, e.1.WellKeyed) (key value : Value) :
    Value.KeysDistinct (insert entries key value) := by
  induction entries with
  | nil => exact List.pairwise_singleton ..
  | cons e rest ih =>
    obtain ⟨hhead, htail⟩ := List.pairwise_cons.mp h
    obtain ⟨hfirst, hkeyed⟩ := List.forall_mem_cons.mp hkeyed
    rw [insert]
    split
    · exact List.pairwise_cons.mpr ⟨hhead, htail⟩
    · next hne =>
      rw [Bool.not_eq_true] at hne
      have hne' : (e.1 == key) = false := by
        rw [Bool.eq_false_iff]
        intro heq
        rw [Value.beq_symm hfirst heq] at hne
        cases hne
      refine List.pairwise_cons.mpr ⟨?_, ih htail hkeyed⟩
      intro e' he'
      rcases (mem_insert he').1 with heq | ⟨x, hx, heq⟩
      · rw [heq]
        exact ⟨hne', hne⟩
      · rw [heq]
        exact hhead x hx

theorem keysDistinct_foldl_insert (added : List (Value × Value))
    (hadded : ∀ e ∈ added, e.1.WellKeyed) :
    ∀ entries : List (Value × Value), Value.KeysDistinct entries →
      (∀ e ∈ entries, e.1.WellKeyed) →
        Value.KeysDistinct (added.foldl (fun es e => insert es e.1 e.2) entries) := by
  induction added with
  | nil => exact fun entries h _ => h
  | cons e rest ih =>
    intro entries h hkeyed
    obtain ⟨hkey, hadded⟩ := List.forall_mem_cons.mp hadded
    refine ih hadded _ (keysDistinct_insert h hkeyed e.1 e.2) ?_
    intro e' he'
    rcases (mem_insert he').1 with heq | ⟨x, hx, heq⟩
    · rwa [heq]
    · rw [heq]
      exact hkeyed x hx

theorem keysDistinct_ofPairs {added : List (Value × Value)}
    (h : ∀ e ∈ added, e.1.WellKeyed) : Value.KeysDistinct (ofPairs added) :=
  keysDistinct_foldl_insert added h [] .nil fun _ he => nomatch he

/-! ## Building a map again -/

theorem insert_of_fresh {entries : List (Value × Value)} {key : Value}
    (h : ∀ e ∈ entries, (key == e.1) = false) (value : Value) :
    insert entries key value = entries ++ [(key, value)] := by
  induction entries with
  | nil => rfl
  | cons e rest ih =>
    obtain ⟨hfirst, hrest⟩ := List.forall_mem_cons.mp h
    rw [insert, if_neg (by simp [hfirst]), ih hrest]
    rfl

theorem foldl_insert_of_keysDistinct (added : List (Value × Value)) :
    ∀ entries : List (Value × Value), Value.KeysDistinct (entries ++ added) →
      added.foldl (fun es e => insert es e.1 e.2) entries = entries ++ added := by
  induction added with
  | nil => exact fun entries _ => (List.append_nil entries).symm
  | cons e rest ih =>
    intro entries h
    have hfresh : ∀ x ∈ entries, (e.1 == x.1) = false := fun x hx =>
      ((List.pairwise_append.mp h).2.2 x hx e (List.mem_cons_self ..)).2
    rw [List.append_cons] at h ⊢
    rw [List.foldl_cons, insert_of_fresh hfresh, ih _ h]

theorem ofPairs_of_keysDistinct {entries : List (Value × Value)}
    (h : Value.KeysDistinct entries) : ofPairs entries = entries :=
  foldl_insert_of_keysDistinct entries [] h

@[simp] theorem pairs_alternating (entries : List (Value × Value)) :
    pairs (Value.alternating entries) = entries := by
  induction entries with
  | nil => rfl
  | cons e rest ih => simp [pairs, ih]

theorem alternating_pairs {items : List Value} (h : items.length % 2 = 0) :
    Value.alternating (pairs items) = items := by
  fun_induction pairs items with
  | case1 key value rest ih =>
    simp only [List.length_cons] at h
    rw [Value.alternating_cons, ih (by omega)]
  | case2 items hshort =>
    -- without a first pair, an even number of items is none
    obtain _ | ⟨item, _ | ⟨next, rest⟩⟩ := items
    · rfl
    · cases h
    · exact absurd rfl (hshort item next rest)

end Entries

namespace Value

/-- Keys and values in turn make the map of these pairs. -/
theorem mapOf_alternating_pairs (pairs : List (Value × Value)) :
    mapOf (alternating pairs) = .ok (.map (Entries.ofPairs pairs)) := by
  rw [mapOf, length_alternating, if_pos (by omega), Entries.pairs_alternating]

/-- The keys and values of a map make this map again. -/
theorem mapOf_alternating {entries : List (Value × Value)} (h : KeysDistinct entries) :
    mapOf (alternating entries) = .ok (.map entries) := by
  rw [mapOf_alternating_pairs, Entries.ofPairs_of_keysDistinct h]

theorem pairs_of_mapOf {items : List Value} {v : Value} (h : mapOf items = .ok v) :
    ∃ pairs, items = alternating pairs ∧ v = .map (Entries.ofPairs pairs) := by
  rw [mapOf] at h
  split at h
  · next heven =>
    exact ⟨Entries.pairs items, (Entries.alternating_pairs heven).symm, (Except.ok.inj h).symm⟩
  · cases h

end Value

end Lisp
