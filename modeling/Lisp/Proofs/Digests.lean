import Lisp.Proofs.Maps
import Lisp.Value.Digest
import Mathlib.Data.List.Pairwise

/-!
# Digests are coherent with equality

Equal values are written alike (`pieces_eq_of_beq`), whatever a digest
is made of. Almost everything that equality overlooks is overlooked
piece by piece. A map is the exception: its entries are written as one
sum, and equality finds the entries of one map among those of the other
in no particular order. As the keys of a map are distinct, it finds each
of them once (`matched_entries`), so the sums have the same terms.

Then a search that looks at digests first misses nothing. In what order
it goes through the entries does not matter either, because no two of
them have equal keys.
-/

namespace Lisp

/-- Numbers that compare as equal are the same, but for zero. -/
theorem Binary64.eq_of_ordinal_eq {x y : Binary64} (h : x.ordinal = y.ordinal)
    (hx : x.ordinal ≠ 0) : x = y := by
  obtain ⟨negative, rank, _⟩ := x
  obtain ⟨negative', rank', _⟩ := y
  rw [mk.injEq]
  cases negative <;> cases negative' <;> simp [ordinal] at h hx ⊢ <;> omega

namespace Digest

open Value

variable (d : Digest)

/-! ## Sums of entries -/

theorem entrySum_perm {es es' : List (Value × Value)} (h : es.Perm es') :
    d.entrySum es = d.entrySum es' := by
  induction h with
  | nil => rfl
  | cons e _ ih => rw [entrySum, entrySum, ih]
  | swap e e' rest =>
    simp only [entrySum]
    rw [← UInt64.add_assoc, ← UInt64.add_assoc, UInt64.add_comm (d.finish _)]
  | trans _ _ ih ih' => exact ih.trans ih'

theorem entrySum_congr {es es' : List (Value × Value)}
    (h : List.Forall₂
      (fun e e' => d.pieces e.1 = d.pieces e'.1 ∧ d.pieces e.2 = d.pieces e'.2) es es') :
    d.entrySum es = d.entrySum es' := by
  induction h with
  | nil => rfl
  | cons hentry _ ih => rw [entrySum, entrySum, ih, hentry.1, hentry.2]

theorem itemPieces_congr {as bs : List Value}
    (h : List.Forall₂ (fun a b => d.pieces a = d.pieces b) as bs) :
    d.itemPieces as = d.itemPieces bs := by
  induction h with
  | nil => rfl
  | cons hitem _ ih => rw [itemPieces, itemPieces, ih, hitem]

/-! ## Equal values are written alike -/

theorem pieces_float_congr {x y : Binary64} (h : x.ordinal = y.ordinal) :
    d.pieces (.float x) = d.pieces (.float y) := by
  rw [pieces, pieces, ← h]
  split
  · rfl
  · next hx => rw [Binary64.eq_of_ordinal_eq h hx]

/-- What is written of a value is made of its face and of what is
written of the values inside. -/
theorem pieces_congr {a b : Value} (hface : a.face = b.face)
    (hitems : List.Forall₂ (fun x y => d.pieces x = d.pieces y) a.elements b.elements)
    (hcount : a.entries.length = b.entries.length)
    (hsum : d.entrySum a.entries = d.entrySum b.entries) : d.pieces a = d.pieces b := by
  cases a with
  | float x =>
    cases b with
    | float y => exact d.pieces_float_congr (Face.number.inj hface)
    | _ => cases hface
  | list as | vector as =>
    have hitems' := d.itemPieces_congr hitems
    cases b <;> cases hface
    all_goals exact congrArg₂ (fun n ps => Piece.size n :: ps) hitems.length_eq hitems'
  | map es =>
    cases b <;> cases hface
    exact congrArg₂ (fun n sum => [Piece.size n, Piece.word sum]) hcount hsum
  | _ =>
    cases b <;> cases hface
    rfl

/-- Equal values are written alike. -/
theorem pieces_eq_of_beq {a b : Value} (ha : a.WellKeyed) (h : (a == b) = true) :
    d.pieces a = d.pieces b := by
  induction a using byChildren generalizing b with
  | step a ih =>
    have inside : ∀ child ∈ a.children, ∀ v, (child == v) = true →
        d.pieces child = d.pieces v := fun child hc v => ih child hc (ha.child hc)
    obtain ⟨hface, helements, hlength, -⟩ := equal_iff.mp h
    obtain ⟨es, hperm, hmatched⟩ := matched_entries ha.here
      (fun e he v => beq_symm (ha.child (key_mem_children he))) h
    refine d.pieces_congr hface ?_ hlength ?_
    · have hboth := (List.forall₂_and_left _ _).mpr
        ⟨fun x hx => inside x (element_mem_children hx), helements⟩
      exact hboth.imp fun x y hxy => hxy.1 y hxy.2
    · have hboth := (List.forall₂_and_left (p := (· ∈ a.entries)) _ _).mpr
        ⟨fun e he => he, hmatched⟩
      have hentries : d.entrySum a.entries = d.entrySum es :=
        d.entrySum_congr <| hboth.imp fun e e' ⟨he, hkey, hvalue⟩ =>
          ⟨inside e.1 (key_mem_children he) _ hkey, inside e.2 (value_mem_children he) _ hvalue⟩
      exact hentries.trans (d.entrySum_perm hperm)

/-! ## Searches -/

/-- Looking at digests first changes nothing, since the keys that are
passed over are not equal. -/
theorem find?_eq_scan {key : Value} (hkey : key.WellKeyed) (entries : List (Value × Value)) :
    d.find? entries key = Entries.find? entries key := by
  have hpredicate : (fun entry : Value × Value =>
      d.ofValue key == d.ofValue entry.1 && key == entry.1) = fun entry => key == entry.1 := by
    funext entry
    cases h : key == entry.1 with
    | false => rw [Bool.and_false]
    | true => rw [Bool.and_true, ofValue, ofValue, d.pieces_eq_of_beq hkey h, beq_self_eq_true]
  rw [find?, Entries.find?, hpredicate]

end Digest

namespace Entries

open Value

/-- A key has one place among distinct keys. -/
theorem eq_of_beq_keys {entries : List (Value × Value)} (hentries : KeysDistinct entries)
    {key : Value} (hkey : key.WellKeyed) {e e' : Value × Value} (he : e ∈ entries)
    (he' : e' ∈ entries) (h : (key == e.1) = true) (h' : (key == e'.1) = true) : e = e' := by
  by_contra hne
  have : Std.Symm fun e e' : Value × Value => (e.1 == e'.1) = false ∧ (e'.1 == e.1) = false :=
    ⟨fun _ _ h => ⟨h.2, h.1⟩⟩
  have hkeys := List.Pairwise.forall hentries he he' hne
  have heq : (e.1 == e'.1) = true := beq_trans (beq_symm hkey h) h'
  rw [heq] at hkeys
  cases hkeys.1

theorem find?_eq_some_iff {entries : List (Value × Value)} (hentries : KeysDistinct entries)
    {key : Value} (hkey : key.WellKeyed) {e : Value × Value} :
    find? entries key = some e ↔ e ∈ entries ∧ (key == e.1) = true := by
  have hfound : ∀ e, find? entries key = some e → e ∈ entries ∧ (key == e.1) = true := by
    intro e h
    have hsome := List.find?_some (p := fun entry : Value × Value => key == entry.1) h
    exact ⟨List.mem_of_find?_eq_some h, hsome⟩
  refine ⟨hfound e, fun ⟨he, h⟩ => ?_⟩
  cases hfind : find? entries key with
  | none => exact absurd h (List.find?_eq_none.mp hfind e he)
  | some e' =>
    obtain ⟨he', h'⟩ := hfound e' hfind
    rw [eq_of_beq_keys hentries hkey he he' h h']

/-- The order in which entries are gone through does not matter. -/
theorem find?_perm {entries probed : List (Value × Value)} (hentries : KeysDistinct entries)
    (h : probed.Perm entries) {key : Value} (hkey : key.WellKeyed) :
    find? probed key = find? entries key := by
  have hprobed : KeysDistinct probed := (h.pairwise_iff fun h => ⟨h.2, h.1⟩).mpr hentries
  refine Option.ext fun e => ?_
  rw [find?_eq_some_iff hprobed hkey, find?_eq_some_iff hentries hkey, h.mem_iff]

end Entries

namespace Value

/-- What is built as a map keeps its keys apart, at every depth. -/
theorem wellKeyed_of_mapOf {items : List Value} {m : Value} (hitems : ∀ v ∈ items, v.WellKeyed)
    (h : mapOf items = .ok m) : m.WellKeyed := by
  rw [mapOf] at h
  split at h
  · cases h
    refine .node (Entries.keysDistinct_ofPairs fun e he => ?_) fun child hc => ?_
    · exact hitems e.1 (Entries.mem_of_mem_alternating_pairs
        (mem_alternating.mpr ⟨e, he, Or.inl rfl⟩))
    · exact hitems child (Entries.mem_of_mem_alternating_ofPairs (by simpa [children] using hc))
  · cases h

/-- Maps are equal if they have the same number of entries and a search
for each key of the first finds an equal value in the second. -/
theorem map_beq_iff_scan {es es' : List (Value × Value)} (hes : (map es).WellKeyed)
    (hes' : (map es').WellKeyed) :
    (map es == map es') = true ↔ es.length = es'.length ∧
      ∀ e ∈ es, ∃ e', Entries.find? es' e.1 = some e' ∧ (e'.2 == e.2) = true := by
  have hkey : ∀ e ∈ es, e.1.WellKeyed := fun e he => hes.child (key_mem_children he)
  have hvalue : ∀ e ∈ es, e.2.WellKeyed := fun e he => hes.child (value_mem_children he)
  have hvalue' : ∀ e ∈ es', e.2.WellKeyed := fun e he => hes'.child (value_mem_children he)
  constructor
  · intro h
    obtain ⟨-, -, hlength, hentries⟩ := equal_iff.mp h
    refine ⟨hlength, fun e he => ?_⟩
    obtain ⟨e', he', hsame⟩ := hentries e he
    exact ⟨e', (Entries.find?_eq_some_iff hes'.here (hkey e he)).mpr ⟨he', hsame.1⟩,
      beq_symm (hvalue e he) hsame.2⟩
  · rintro ⟨hlength, hentries⟩
    refine equal_iff.mpr ⟨rfl, .nil, hlength, fun e he => ?_⟩
    obtain ⟨e', hfind, heq⟩ := hentries e he
    obtain ⟨he', hsame⟩ := (Entries.find?_eq_some_iff hes'.here (hkey e he)).mp hfind
    exact ⟨e', he', hsame, beq_symm (hvalue' e' he') heq⟩

end Value

namespace Digest

open Value

/-- Digests are coherent with equality, whatever they are made of. Equal
values are written alike. So a search by digest, in any order of the
entries, finds what a search through all of them with `==` finds, and
maps compare as they do if every search is one by digest. The keys of a
map are asked to be distinct, as they are in every map that is built. -/
theorem search_coherent_with_equality (d : Digest) :
    (∀ a b : Value, a.WellKeyed → (a == b) = true → d.pieces a = d.pieces b) ∧
      (∀ (entries probed : List (Value × Value)) (key : Value), KeysDistinct entries →
        key.WellKeyed → probed.Perm entries →
          d.find? probed key = Entries.find? entries key) ∧
      (∀ es es' probed : List (Value × Value), (map es).WellKeyed → (map es').WellKeyed →
        probed.Perm es' → ((map es == map es') = true ↔ es.length = es'.length ∧
          ∀ e ∈ es, ∃ e', d.find? probed e.1 = some e' ∧ (e'.2 == e.2) = true)) ∧
      ∀ (items : List Value) (m : Value), (∀ v ∈ items, v.WellKeyed) → mapOf items = .ok m →
        m.WellKeyed := by
  have hfind : ∀ (entries probed : List (Value × Value)) (key : Value), KeysDistinct entries →
      key.WellKeyed → probed.Perm entries → d.find? probed key = Entries.find? entries key :=
    fun entries probed key hentries hkey hperm =>
      (d.find?_eq_scan hkey probed).trans (Entries.find?_perm hentries hperm hkey)
  refine ⟨fun _ _ => d.pieces_eq_of_beq, hfind, fun es es' probed hes hes' hperm => ?_,
    fun _ _ => wellKeyed_of_mapOf⟩
  rw [map_beq_iff_scan hes hes']
  refine and_congr_right fun _ => forall₂_congr fun e he => ?_
  rw [hfind es' probed e.1 hes'.here (hes.child (key_mem_children he)) hperm]

/-- A simple digest: what was written counts, and where it stands. -/
def positional : Digest where
  finish ps := ps.foldl (fun sum p => 31 * sum + weight p) 7
  place ps := ps.foldl (fun sum p => 37 * sum + weight p) 11
  nanBits object := UInt64.ofNat (0x7FF8000000000000 + object)
where
  weight : Piece → UInt64
    | .byte n => n.toUInt64
    | .integer n => n.toUInt64
    | .word n => n
    | .size n | .closure n | .atom n => UInt64.ofNat n
    | .character c => UInt64.ofNat c.toNat
    | .text s => s.toList.foldl (fun sum c => 31 * sum + UInt64.ofNat c.toNat) 0
    | .builtin p => UInt64.ofNat p.name.length

def innerMap : Value :=
  .map [(.keyword "k", .float ⟨false, 0, Nat.zero_le _⟩), (.list [.int 1], .nan 7)]

/-- A map with a map for a key, with a zero and a NaN in it. -/
def mapKey : Value := .map [(innerMap, .atom 3), (.nil, .nil)]

/-- The map with the zero negative, a vector for the list and the
entries of both maps in the other order. -/
def mapKeyAltered : Value :=
  .map [(.nil, .nil), (.map [(.vector [.int 1], .nan 7),
    (.keyword "k", .float ⟨true, 0, Nat.zero_le _⟩)], .atom 3)]

theorem search_mapKeyAltered :
    mapKey.WellKeyed ∧ mapKeyAltered.WellKeyed ∧ (mapKey == mapKeyAltered) = true ∧
      positional.pieces mapKey = positional.pieces mapKeyAltered ∧
      positional.find? [(.nil, .nil), (mapKeyAltered, .bool true)] mapKey =
        some (mapKeyAltered, .bool true) ∧
      ∀ e ∈ mapKey.entries, ∃ e',
        positional.find? mapKeyAltered.entries.reverse e.1 = some e' ∧ (e'.2 == e.2) = true := by
  obtain ⟨hwrite, hsearch, hmaps, hbuilt⟩ := search_coherent_with_equality positional
  -- the maps are built, so that their keys are distinct
  have hlist : (Value.list [.int 1]).WellKeyed := by
    refine .node .nil fun child hc => ?_
    obtain rfl := List.mem_singleton.mp hc
    exact .leaf .nil rfl
  have hinner : innerMap.WellKeyed := by
    refine hbuilt [.keyword "k", .float ⟨false, 0, Nat.zero_le _⟩, .list [.int 1], .nan 7] _ ?_ rfl
    simpa using ⟨.leaf .nil rfl, .leaf .nil rfl, hlist, .leaf .nil rfl⟩
  have hkeyed : mapKey.WellKeyed := by
    refine hbuilt [innerMap, .atom 3, .nil, .nil] _ ?_ rfl
    simpa using ⟨hinner, .leaf .nil rfl, .leaf .nil rfl⟩
  have heq : (mapKey == mapKeyAltered) = true := by rfl
  have hkeyed' := hkeyed.of_beq heq
  have hdistinct : KeysDistinct [(mapKeyAltered, .bool true), (.nil, .nil)] :=
    .cons (fun e he => List.mem_singleton.mp he ▸ ⟨rfl, rfl⟩) (List.pairwise_singleton ..)
  refine ⟨hkeyed, hkeyed', heq, hwrite _ _ hkeyed heq, ?_, ?_⟩
  · exact hsearch _ _ _ hdistinct hkeyed (.swap ..)
  · exact ((hmaps _ _ _ hkeyed hkeyed' (List.reverse_perm _)).mp heq).2

end Digest

end Lisp
