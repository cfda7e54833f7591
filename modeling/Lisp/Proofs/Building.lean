import Lisp.Proofs.Digests
import Mathlib.Data.List.Induction

/-!
# What a map is built of

Pairs are put into a map one after the other, and each of them either
makes a new entry or replaces the value of an old one. So the entries can
be read off the list of pairs: the keys are the distinct keys in the
order in which they first came (`keys_ofPairs`), and what a search for a
key finds is the value of the last pair that has it (`lookup_ofPairs`).
Nothing else of the list matters. In particular lists that differ only in
the order of pairs with different keys make equal maps
(`beq_ofPairs_of_reordered`).
-/

namespace Lisp

namespace Entries

open Value

/-! ## Keys and values of pairs -/

/-- The distinct keys, in the order in which they first come. Of equal
keys the first one stands for all. -/
def firstKeys (pairs : List (Value × Value)) : List Value := (pairs.map Prod.fst).eraseDups

/-- The value of the last pair with a key that equals `key`. -/
def lastValue? (key : Value) (pairs : List (Value × Value)) : Option Value :=
  (pairs.filter fun pair => key == pair.1).getLast?.map Prod.snd

theorem lastValue?_concat (key : Value) (pairs : List (Value × Value)) (pair : Value × Value) :
    lastValue? key (pairs ++ [pair]) =
      if key == pair.1 then some pair.2 else lastValue? key pairs := by
  cases h : key == pair.1 <;> simp [lastValue?, h]

theorem ofPairs_concat (pairs : List (Value × Value)) (pair : Value × Value) :
    ofPairs (pairs ++ [pair]) = insert (ofPairs pairs) pair.1 pair.2 := by
  simp [ofPairs]

/-! ## The keys of a map -/

theorem keys_insert (entries : List (Value × Value)) (key value : Value) :
    (insert entries key value).map Prod.fst =
      if (entries.map Prod.fst).any (key == ·) then entries.map Prod.fst
      else entries.map Prod.fst ++ [key] := by
  induction entries with
  | nil => simp [insert]
  | cons entry rest ih =>
    rw [insert]
    cases h : key == entry.1 with
    | true => simp [h]
    | false =>
      simp only [Bool.false_eq_true, if_false, List.map_cons, ih, List.any_cons, h, Bool.false_or]
      split <;> simp

/-- One more key is a new one, or an equal one was there before. -/
theorem eraseDups_concat (keys : List Value) (key : Value) :
    (keys ++ [key]).eraseDups =
      if keys.eraseDups.any (key == ·) then keys.eraseDups else keys.eraseDups ++ [key] := by
  have hloop : ∀ seen : List Value,
      List.eraseDupsBy.loop (· == ·) (keys ++ [key]) seen =
        if (List.eraseDupsBy.loop (· == ·) keys seen).any (key == ·) then
          List.eraseDupsBy.loop (· == ·) keys seen
        else List.eraseDupsBy.loop (· == ·) keys seen ++ [key] := by
    induction keys with
    | nil =>
      intro seen
      cases h : seen.any (key == ·) <;> simp [List.eraseDupsBy.loop, h]
    | cons first rest ih =>
      intro seen
      rw [List.cons_append, List.eraseDupsBy.loop, List.eraseDupsBy.loop]
      split
      · exact ih seen
      · exact ih (first :: seen)
  exact hloop []

/-- The keys of a map are the distinct keys of what it is built of. -/
theorem keys_ofPairs (pairs : List (Value × Value)) :
    (ofPairs pairs).map Prod.fst = firstKeys pairs := by
  induction pairs using List.reverseRecOn with
  | nil => rfl
  | append_singleton pairs pair ih =>
    rw [ofPairs_concat, keys_insert, ih, firstKeys, firstKeys, List.map_append, List.map_singleton,
      eraseDups_concat]

theorem key_mem_ofPairs {pairs : List (Value × Value)} {e : Value × Value}
    (h : e ∈ ofPairs pairs) : ∃ pair ∈ pairs, e.1 = pair.1 := by
  induction pairs using List.reverseRecOn generalizing e with
  | nil => cases h
  | append_singleton pairs pair ih =>
    rw [ofPairs_concat] at h
    rcases (mem_insert h).1 with hkey | ⟨e', he', hkey⟩
    · exact ⟨pair, by simp, hkey⟩
    · obtain ⟨old, hold, heq⟩ := ih he'
      exact ⟨old, List.mem_append_left _ hold, hkey.trans heq⟩

/-! ## The values of a map -/

theorem find?_insert {entries : List (Value × Value)} {key sought : Value}
    (hkey : key.WellKeyed) (hsought : sought.WellKeyed) (value : Value) :
    (find? (insert entries key value) sought).map Prod.snd =
      if sought == key then some value else (find? entries sought).map Prod.snd := by
  induction entries with
  | nil => cases h : sought == key <;> simp [find?, insert, h]
  | cons entry rest ih =>
    rw [insert]
    cases hentry : key == entry.1 with
    | true =>
      cases h : sought == key with
      | true => simp [find?, beq_trans h hentry]
      | false =>
        have hother : (sought == entry.1) = false := by
          rw [Bool.eq_false_iff]
          intro heq
          rw [beq_trans heq (beq_symm hkey hentry)] at h
          cases h
        simp [find?, hother]
    | false =>
      cases hfirst : sought == entry.1 with
      | true =>
        have hother : (sought == key) = false := by
          rw [Bool.eq_false_iff]
          intro heq
          rw [beq_trans (beq_symm hsought heq) hfirst] at hentry
          cases hentry
        simp [find?, hfirst, hother]
      | false => simpa [find?, hfirst] using ih

section

variable {pairs : List (Value × Value)} (hpairs : ∀ pair ∈ pairs, pair.1.WellKeyed)

include hpairs

/-- A search in a map finds the value of the last pair with the key. -/
theorem lookup_ofPairs {key : Value} (hkey : key.WellKeyed) :
    (find? (ofPairs pairs) key).map Prod.snd = lastValue? key pairs := by
  induction pairs using List.reverseRecOn with
  | nil => rfl
  | append_singleton pairs pair ih =>
    have hold := ih fun other hother => hpairs other (List.mem_append_left _ hother)
    rw [ofPairs_concat, find?_insert (hpairs pair (by simp)) hkey, lastValue?_concat, hold]

theorem wellKeyed_of_mem_ofPairs {e : Value × Value} (h : e ∈ ofPairs pairs) :
    e.1.WellKeyed := by
  obtain ⟨pair, hpair, hkey⟩ := key_mem_ofPairs h
  rw [hkey]
  exact hpairs pair hpair

theorem lastValue?_of_mem_ofPairs {e : Value × Value} (h : e ∈ ofPairs pairs) :
    lastValue? e.1 pairs = some e.2 := by
  have hkey := wellKeyed_of_mem_ofPairs hpairs h
  have hfind : find? (ofPairs pairs) e.1 = some e :=
    (find?_eq_some_iff (keysDistinct_ofPairs hpairs) hkey).mpr ⟨h, beq_self e.1⟩
  rw [← lookup_ofPairs hpairs hkey, hfind]
  rfl

/-- The entries of a map, one after the other. -/
theorem entries_ofPairs :
    (ofPairs pairs).map (fun e => (e.1, some e.2)) =
      (firstKeys pairs).map fun key => (key, lastValue? key pairs) := by
  rw [← keys_ofPairs, List.map_map]
  refine List.map_congr_left fun e he => ?_
  rw [Function.comp_apply, lastValue?_of_mem_ofPairs hpairs he]

end

/-! ## Other orders -/

/-- The same pairs in another order, in which those with equal keys have
not changed places. -/
structure Reordered (pairs others : List (Value × Value)) : Prop where
  perm : pairs.Perm others
  inOrder : ∀ pair ∈ pairs, pairs.filter (pair.1 == ·.1) = others.filter (pair.1 == ·.1)

theorem Reordered.symm {pairs others : List (Value × Value)} (h : Reordered pairs others) :
    Reordered others pairs :=
  ⟨h.perm.symm, fun pair hpair => (h.inOrder pair (h.perm.mem_iff.mpr hpair)).symm⟩

/-- Each entry is an entry of the other map. -/
theorem Reordered.matched {pairs others : List (Value × Value)} (h : Reordered pairs others)
    (hpairs : ∀ pair ∈ pairs, pair.1.WellKeyed) :
    ∀ e ∈ ofPairs pairs, ∃ e' ∈ ofPairs others, SameEntry e e' := by
  intro e he
  have hothers : ∀ pair ∈ others, pair.1.WellKeyed := fun pair hpair =>
    hpairs pair (h.perm.mem_iff.mpr hpair)
  have hkey := wellKeyed_of_mem_ofPairs hpairs he
  obtain ⟨pair, hpair, heq⟩ := key_mem_ofPairs he
  have hsame : lastValue? e.1 others = some e.2 := by
    rw [lastValue?, heq, ← h.inOrder pair hpair, ← heq]
    exact lastValue?_of_mem_ofPairs hpairs he
  rw [← lookup_ofPairs hothers hkey, Option.map_eq_some_iff] at hsame
  obtain ⟨e', hfind, hvalue⟩ := hsame
  obtain ⟨he', hfound⟩ :=
    (find?_eq_some_iff (keysDistinct_ofPairs hothers) hkey).mp hfind
  refine ⟨e', he', hfound, ?_⟩
  rw [hvalue]
  exact beq_self e.2

/-- Distinct keys need a place each. -/
theorem length_le_of_matched {es es' : List (Value × Value)} (hes : KeysDistinct es)
    (hkeyed : ∀ e ∈ es, e.1.WellKeyed) (h : ∀ e ∈ es, ∃ e' ∈ es', SameEntry e e') :
    es.length ≤ es'.length := by
  have hdistinct : es.Pairwise fun e e' => ∀ x, SameEntry e x → ¬SameEntry e' x := by
    refine (List.Pairwise.and_mem.mp hes).imp ?_
    rintro e e' ⟨-, he', hne, -⟩ x hsame hsame'
    rw [beq_trans hsame.1 (beq_symm (hkeyed e' he') hsame'.1)] at hne
    cases hne
  obtain ⟨matched, hsub, hall⟩ := exists_subperm_of_forall_match h hdistinct
  rw [hall.length_eq]
  exact hsub.length_le

theorem beq_ofPairs_of_reordered {pairs others : List (Value × Value)}
    (h : Reordered pairs others) (hpairs : ∀ pair ∈ pairs, pair.1.WellKeyed) :
    (Value.map (ofPairs pairs) == Value.map (ofPairs others)) = true := by
  have hothers : ∀ pair ∈ others, pair.1.WellKeyed := fun pair hpair =>
    hpairs pair (h.perm.mem_iff.mpr hpair)
  have hle : ∀ {ps qs : List (Value × Value)}, Reordered ps qs →
      (∀ pair ∈ ps, pair.1.WellKeyed) → (ofPairs ps).length ≤ (ofPairs qs).length := by
    intro ps qs hpq hps
    exact length_le_of_matched (keysDistinct_ofPairs hps)
      (fun e he => wellKeyed_of_mem_ofPairs hps he) (hpq.matched hps)
  have hlength := Nat.le_antisymm (hle h hpairs) (hle h.symm hothers)
  exact equal_iff.mpr ⟨rfl, .nil, hlength, h.matched hpairs⟩

end Entries

namespace Value

open Entries

/-- Building a map fails exactly if the number of items is odd.
Otherwise no two keys of the map are equal. Its entries are the distinct
keys in the order in which they first come, each with the value that
comes last. So a search finds the last value for a key, and it does not
matter whether it goes by digests. Entries of a map make the same map
again, and another order of the pairs makes an equal map if it leaves
those with equal keys in theirs. -/
theorem mapOf_keeps_first_keys {items : List Value}
    (hkeys : ∀ pair ∈ pairs items, pair.1.WellKeyed) :
    ((∃ cause, mapOf items = .error cause ∧ cause.kind = .oddHashMap) ↔ items.length % 2 = 1) ∧
    (items.length % 2 = 0 → ∃ es, mapOf items = .ok (.map es) ∧ KeysDistinct es ∧
      es.map (fun e => (e.1, some e.2)) =
        (firstKeys (pairs items)).map (fun key => (key, lastValue? key (pairs items))) ∧
      (∀ key : Value, key.WellKeyed →
        (Entries.find? es key).map Prod.snd = lastValue? key (pairs items) ∧
          ∀ d : Digest, d.find? es key = Entries.find? es key) ∧
      mapOf (alternating es) = .ok (.map es) ∧
      ∀ others : List Value, others.length % 2 = 0 → Reordered (pairs items) (pairs others) →
        ∃ es', mapOf others = .ok (.map es') ∧ (Value.map es == Value.map es') = true) := by
  have hok : ∀ items : List Value, items.length % 2 = 0 →
      mapOf items = .ok (.map (ofPairs (pairs items))) := fun items heven => if_pos heven
  have hodd : items.length % 2 = 1 → mapOf items = .error (.oddItems items.length) :=
    fun hodd => if_neg (by omega)
  constructor
  · constructor
    · rintro ⟨cause, hfails, -⟩
      by_contra heven
      rw [hok items (by omega)] at hfails
      cases hfails
    · intro h
      exact ⟨_, hodd h, rfl⟩
  · intro heven
    have hdistinct := keysDistinct_ofPairs hkeys
    refine ⟨_, hok items heven, hdistinct, entries_ofPairs hkeys, fun key hkey => ?_,
      mapOf_alternating hdistinct, fun others hothers hreordered => ?_⟩
    · exact ⟨lookup_ofPairs hkeys hkey, fun d => d.find?_eq_scan hkey _⟩
    · exact ⟨_, hok others hothers, beq_ofPairs_of_reordered hreordered hkeys⟩

/-- A list, a NaN, an equal vector and the NaN again, with values. -/
def repeatedKeys : List Value :=
  [.list [.int 1], .keyword "a", .nan 7, .nil, .vector [.int 1], .keyword "b", .nan 7, .bool true]

/-- The pairs for the NaN before the others. -/
def repeatedKeysReordered : List Value :=
  [.nan 7, .nil, .nan 7, .bool true, .list [.int 1], .keyword "a", .vector [.int 1], .keyword "b"]

theorem wellKeyed_repeatedKeys : ∀ pair ∈ pairs repeatedKeys, pair.1.WellKeyed := by
  have hitem : ∀ child ∈ [Value.int 1], child.WellKeyed := by
    intro child hc
    rw [List.mem_singleton.mp hc]
    exact .leaf .nil rfl
  have hlist : (Value.list [.int 1]).WellKeyed := .node .nil hitem
  have hvector : (Value.vector [.int 1]).WellKeyed := .node .nil hitem
  have hnan : (Value.nan 7).WellKeyed := .leaf .nil rfl
  simp [repeatedKeys, pairs, hlist, hvector, hnan]

theorem reordered_repeatedKeys : Reordered (pairs repeatedKeys) (pairs repeatedKeysReordered) where
  perm := by
    refine (List.Perm.swap ..).trans (List.Perm.cons _ ?_)
    exact ((List.Perm.swap ..).cons _).trans (List.Perm.swap ..)
  inOrder := by
    simp only [repeatedKeys, pairs, List.forall_mem_cons]
    exact ⟨rfl, rfl, rfl, rfl, List.forall_mem_nil _⟩

theorem mapOf_keeps_first_keys_repeated :
    (∀ pair ∈ pairs repeatedKeys, pair.1.WellKeyed) ∧ repeatedKeys.length % 2 = 0 ∧
      Reordered (pairs repeatedKeys) (pairs repeatedKeysReordered) ∧
      ∃ es es', mapOf repeatedKeys = .ok (.map es) ∧
        es.map (fun e => (e.1, some e.2)) =
          [(.list [.int 1], some (.keyword "b")), (.nan 7, some (.bool true))] ∧
        (Entries.find? es (.vector [.int 1])).map Prod.snd = some (.keyword "b") ∧
        mapOf repeatedKeysReordered = .ok (.map es') ∧ (Value.map es == Value.map es') = true := by
  obtain ⟨-, heven⟩ := mapOf_keeps_first_keys wellKeyed_repeatedKeys
  obtain ⟨es, hmap, -, hentries, hsearch, -, hothers⟩ := heven rfl
  obtain ⟨es', hmap', heq⟩ := hothers repeatedKeysReordered rfl reordered_repeatedKeys
  have hvector : (Value.vector [.int 1]).WellKeyed :=
    wellKeyed_repeatedKeys (.vector [.int 1], .keyword "b") (by simp [repeatedKeys, pairs])
  refine ⟨wellKeyed_repeatedKeys, rfl, reordered_repeatedKeys, es, es', hmap, hentries.trans rfl,
    ?_, hmap', heq⟩
  rw [(hsearch _ hvector).1]
  rfl

end Value

end Lisp
