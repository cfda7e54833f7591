import Lisp.Proofs.Parts
import Lisp.Value.Equality
import Mathlib.Data.List.Forall2
import Mathlib.Data.List.Perm.Basic
import Mathlib.Logic.Relation

/-!
# Equality is an equivalence and a congruence

What equality sees of a value by itself is its `face`; what it sees
inside is the elements and the entries, compared by equality again
(`equal_iff`). So reflexivity, symmetry and transitivity are each one
induction over the parts of a value, and no table of pairs of shapes.

Only symmetry asks for something. Equality of maps looks for the
entries of the first map in the second and not the other way round. It
is symmetric because no two keys of a map are equal: then no two
entries of the first find the same one in the second, and with equal
sizes none there is left over (`exists_match_of_forall_match`).
-/

namespace Lisp

namespace Value

/-! ## What equality sees -/

/-- A value without what is inside it. Lists and vectors look alike, and
so do the two zeros. -/
inductive Face where
  | nil
  | bool (b : Bool)
  | int (n : Int64)
  | number (ordinal : Int)
  | nan (object : ObjectId)
  | string (text : String)
  | keyword (name : String)
  | symbol (name : String)
  | sequence
  | map
  | closure (object : ObjectId)
  | builtin (p : Primitive)
  | atom (cell : CellId)

def face : Value → Face
  | nil => .nil
  | bool b => .bool b
  | int n => .int n
  | float x => .number x.ordinal
  | nan object => .nan object
  | string text => .string text
  | keyword name => .keyword name
  | symbol name => .symbol name
  | list _ | vector _ => .sequence
  | map _ => .map
  | closure object _ _ _ _ => .closure object
  | builtin p => .builtin p
  | atom cell => .atom cell

/-- Two entries with equal keys and equal values. -/
def SameEntry (e e' : Value × Value) : Prop := (e.1 == e'.1) = true ∧ (e.2 == e'.2) = true

theorem equalItems_iff {as bs : List Value} :
    equalItems as bs = true ↔ List.Forall₂ (fun a b => (a == b) = true) as bs := by
  induction as generalizing bs with
  | nil => cases bs <;> simp [equalItems]
  | cons a as ih => cases bs <;> simp [equalItems, ih, beq_def]

theorem equalEntries_iff {es es' : List (Value × Value)} :
    equalEntries es es' = true ↔ ∀ e ∈ es, ∃ e' ∈ es', SameEntry e e' := by
  induction es with
  | nil => simp [equalEntries]
  | cons e es ih =>
    obtain ⟨key, value⟩ := e
    simp [equalEntries, ih, SameEntry, beq_def]

/-- Equality, by parts. -/
theorem equal_iff {a b : Value} :
    (a == b) = true ↔ a.face = b.face ∧
      List.Forall₂ (fun x y => (x == y) = true) a.elements b.elements ∧
      a.entries.length = b.entries.length ∧
      ∀ e ∈ a.entries, ∃ e' ∈ b.entries, SameEntry e e' := by
  rw [beq_def]
  cases a <;> cases b <;>
    simp [equal, face, elements, entries, items?, equalItems_iff, equalEntries_iff,
      Binary64.same]

/-! ## Reflexivity and transitivity -/

theorem beq_self (v : Value) : (v == v) = true := by
  rw [beq_def, equal_self]

theorem sameEntry_self (e : Value × Value) : SameEntry e e := ⟨beq_self e.1, beq_self e.2⟩

theorem forall₂_beq_self (vs : List Value) : List.Forall₂ (fun x y => (x == y) = true) vs vs :=
  List.forall₂_same.mpr fun v _ => beq_self v

/-- Relations compose along lists; the law may use where the first
element is from. -/
theorem forall₂_comp {α β γ : Type} {R : α → β → Prop} {S : β → γ → Prop} {T : α → γ → Prop}
    {as : List α} {bs : List β} {cs : List γ} (hRS : ∀ a ∈ as, ∀ b c, R a b → S b c → T a c)
    (hab : List.Forall₂ R as bs) (hbc : List.Forall₂ S bs cs) : List.Forall₂ T as cs := by
  induction hab generalizing cs with
  | nil => cases hbc; exact .nil
  | @cons a b as bs hR _ ih =>
    obtain ⟨hfirst, hrest⟩ := List.forall_mem_cons.mp hRS
    obtain _ | ⟨hS, hbc⟩ := hbc
    exact .cons (hfirst b _ hR hS) (ih hrest hbc)

theorem exists_left_of_forall₂ {α β : Type} {R : α → β → Prop} {as : List α} {bs : List β}
    (h : List.Forall₂ R as bs) {b : β} (hb : b ∈ bs) : ∃ a ∈ as, R a b := by
  induction h with
  | nil => cases hb
  | @cons a b' as bs hR _ ih =>
    rcases List.mem_cons.mp hb with rfl | hb
    · exact ⟨a, List.mem_cons_self .., hR⟩
    · obtain ⟨a', ha', hR'⟩ := ih hb
      exact ⟨a', List.mem_cons_of_mem _ ha', hR'⟩

theorem beq_trans {a b c : Value} (hab : (a == b) = true) (hbc : (b == c) = true) :
    (a == c) = true := by
  induction a using byChildren generalizing b c with
  | step a ih =>
    obtain ⟨hface, helements, hlength, hentries⟩ := equal_iff.mp hab
    obtain ⟨hface', helements', hlength', hentries'⟩ := equal_iff.mp hbc
    refine equal_iff.mpr ⟨hface.trans hface', ?_, hlength.trans hlength', ?_⟩
    · refine forall₂_comp ?_ helements helements'
      exact fun x hx _ _ => ih x (element_mem_children hx)
    · intro e he
      obtain ⟨e', he', hkey, hvalue⟩ := hentries e he
      obtain ⟨e'', he'', hkey', hvalue'⟩ := hentries' e' he'
      exact ⟨e'', he'', ih e.1 (key_mem_children he) hkey hkey',
        ih e.2 (value_mem_children he) hvalue hvalue'⟩

/-! ## Distinct keys -/

/-- No two keys are equal, whichever is asked about the other. -/
def KeysDistinct (entries : List (Value × Value)) : Prop :=
  entries.Pairwise fun e e' => (e.1 == e'.1) = false ∧ (e'.1 == e.1) = false

/-- The keys of every map in a value are distinct. -/
def WellKeyed : Value → Prop := Every fun v => KeysDistinct v.entries

/-- If every element of `as` matches one of `bs`, and no two of them the
same, then those that are matched are among `bs`, each one once. -/
theorem exists_subperm_of_forall_match {α β : Type} {R : α → β → Prop} {as : List α}
    {bs : List β} (hmatch : ∀ a ∈ as, ∃ b ∈ bs, R a b)
    (hdistinct : as.Pairwise fun a a' => ∀ b, R a b → ¬R a' b) :
    ∃ bs', bs'.Subperm bs ∧ List.Forall₂ R as bs' := by
  induction as generalizing bs with
  | nil => exact ⟨[], List.nil_subperm, .nil⟩
  | cons a as ih =>
    obtain ⟨b, hb, hR⟩ := hmatch a (List.mem_cons_self ..)
    obtain ⟨front, back, rfl⟩ := List.append_of_mem hb
    obtain ⟨hhead, htail⟩ := List.pairwise_cons.mp hdistinct
    have hrest : ∀ a' ∈ as, ∃ b' ∈ front ++ back, R a' b' := by
      intro a' ha'
      obtain ⟨b', hb', hR'⟩ := hmatch a' (List.mem_cons_of_mem _ ha')
      have hne : b' ≠ b := by
        rintro rfl
        exact hhead a' ha' b' hR hR'
      refine ⟨b', ?_, hR'⟩
      simpa [hne] using hb'
    obtain ⟨bs', hsub, hall⟩ := ih hrest htail
    refine ⟨b :: bs', ?_, .cons hR hall⟩
    exact ((List.subperm_cons b).mpr hsub).trans List.perm_middle.symm.subperm

/-- If besides there are no more of `bs`, then each of `bs` is
matched. -/
theorem exists_match_of_forall_match {α β : Type} {R : α → β → Prop} {as : List α} {bs : List β}
    (hlen : bs.length ≤ as.length) (hmatch : ∀ a ∈ as, ∃ b ∈ bs, R a b)
    (hdistinct : as.Pairwise fun a a' => ∀ b, R a b → ¬R a' b) :
    ∃ bs', bs'.Perm bs ∧ List.Forall₂ R as bs' := by
  obtain ⟨bs', hsub, hall⟩ := exists_subperm_of_forall_match hmatch hdistinct
  exact ⟨bs', hsub.perm_of_length_le (hall.length_eq ▸ hlen), hall⟩

/-! ## Symmetry -/

/-- The entries of the first of two equal maps match those of the second
one by one, in some order. The keys of the first may be swapped around
an equality, as they may in the induction below. -/
theorem matched_entries {a b : Value} (hkeys : KeysDistinct a.entries)
    (hsymm : ∀ e ∈ a.entries, ∀ v, (e.1 == v) = true → (v == e.1) = true)
    (h : (a == b) = true) :
    ∃ es, es.Perm b.entries ∧ List.Forall₂ SameEntry a.entries es := by
  obtain ⟨-, -, hlength, hentries⟩ := equal_iff.mp h
  refine exists_match_of_forall_match (Nat.le_of_eq hlength.symm) hentries ?_
  refine (List.Pairwise.and_mem.mp hkeys).imp ?_
  rintro e e' ⟨he, he', hne, -⟩ e'' hsame hsame'
  have : (e.1 == e'.1) = true := beq_trans hsame.1 (hsymm e' he' _ hsame'.1)
  rw [hne] at this
  cases this

theorem beq_symm {a b : Value} (ha : a.WellKeyed) (h : (a == b) = true) : (b == a) = true := by
  induction a using byChildren generalizing b with
  | step a ih =>
    have hsymm : ∀ child ∈ a.children, ∀ v, (child == v) = true → (v == child) = true :=
      fun child hc v => ih child hc (ha.child hc)
    obtain ⟨hface, helements, hlength, -⟩ := equal_iff.mp h
    obtain ⟨es, hperm, hmatched⟩ :=
      matched_entries ha.here (fun e he => hsymm e.1 (key_mem_children he)) h
    refine equal_iff.mpr ⟨hface.symm, ?_, hlength.symm, ?_⟩
    · have := (List.forall₂_and_left _ _).mpr
        ⟨fun x hx => hsymm x (element_mem_children hx), helements⟩
      exact (this.imp fun x y hxy => hxy.1 y hxy.2).flip
    · intro e' he'
      obtain ⟨e, he, hkey, hvalue⟩ := exists_left_of_forall₂ hmatched (hperm.mem_iff.mpr he')
      exact ⟨e, he, hsymm e.1 (key_mem_children he) _ hkey,
        hsymm e.2 (value_mem_children he) _ hvalue⟩

theorem KeysDistinct.of_forall₂ {es es' : List (Value × Value)} (hes : KeysDistinct es)
    (hkeyed : ∀ e ∈ es, e.1.WellKeyed) (h : List.Forall₂ SameEntry es es') :
    KeysDistinct es' := by
  induction h with
  | nil => exact .nil
  | @cons e e' es es' hsame hrest ih =>
    obtain ⟨hhead, htail⟩ := List.pairwise_cons.mp hes
    obtain ⟨hfirst, hkeyed⟩ := List.forall_mem_cons.mp hkeyed
    refine List.pairwise_cons.mpr ⟨?_, ih htail hkeyed⟩
    intro x' hx'
    obtain ⟨x, hx, hsame'⟩ := exists_left_of_forall₂ hrest hx'
    obtain ⟨hne, hne'⟩ := hhead x hx
    have he := beq_symm hfirst hsame.1
    have hx := beq_symm (hkeyed x hx) hsame'.1
    constructor
    · rw [Bool.eq_false_iff] at hne ⊢
      intro heq
      exact hne (beq_trans hsame.1 (beq_trans heq hx))
    · rw [Bool.eq_false_iff] at hne' ⊢
      intro heq
      exact hne' (beq_trans hsame'.1 (beq_trans heq he))

/-- Distinctness of keys is a matter of the values and not of the maps
they stand in: an equal value has it too. -/
theorem WellKeyed.of_beq {a b : Value} (ha : a.WellKeyed) (h : (a == b) = true) :
    b.WellKeyed := by
  induction a using byChildren generalizing b with
  | step a ih =>
    obtain ⟨-, helements, -, -⟩ := equal_iff.mp h
    obtain ⟨es, hperm, hmatched⟩ := matched_entries ha.here
      (fun e he v => beq_symm (ha.child (key_mem_children he))) h
    refine .node ?_ fun child hc => ?_
    · exact (hperm.pairwise_iff fun h => ⟨h.2, h.1⟩).mp
        (ha.here.of_forall₂ (fun e he => ha.child (key_mem_children he)) hmatched)
    · rcases mem_children.mp hc with hc | ⟨e', he', hc⟩
      · obtain ⟨x, hx, heq⟩ := exists_left_of_forall₂ helements hc
        exact ih x (element_mem_children hx) (ha.child (element_mem_children hx)) heq
      · obtain ⟨e, he, hkey, hvalue⟩ := exists_left_of_forall₂ hmatched (hperm.mem_iff.mpr he')
        rcases hc with rfl | rfl
        · exact ih e.1 (key_mem_children he) (ha.child (key_mem_children he)) hkey
        · exact ih e.2 (value_mem_children he) (ha.child (value_mem_children he)) hvalue

/-! ## Congruence -/

/-- One change that equality does not see: a value replaced by an equal
one, a list made a vector or a vector a list, or the entries of a map
put into another order; the value itself, or one inside it, at any
depth. -/
inductive Altered : Value → Value → Prop
  | equal {a b : Value} (h : (a == b) = true) : Altered a b
  | toVector (items : List Value) : Altered (.list items) (.vector items)
  | toList (items : List Value) : Altered (.vector items) (.list items)
  | reorder {es es' : List (Value × Value)} (h : es.Perm es') : Altered (.map es) (.map es')
  | inList (front back : List Value) {a b : Value} (h : Altered a b) :
      Altered (.list (front ++ a :: back)) (.list (front ++ b :: back))
  | inVector (front back : List Value) {a b : Value} (h : Altered a b) :
      Altered (.vector (front ++ a :: back)) (.vector (front ++ b :: back))
  | inKey (front back : List (Value × Value)) (value : Value) {a b : Value} (h : Altered a b) :
      Altered (.map (front ++ (a, value) :: back)) (.map (front ++ (b, value) :: back))
  | inValue (front back : List (Value × Value)) (key : Value) {a b : Value} (h : Altered a b) :
      Altered (.map (front ++ (key, a) :: back)) (.map (front ++ (key, b) :: back))

theorem forall₂_beq_replace (front back : List Value) {a b : Value} (h : (a == b) = true) :
    List.Forall₂ (fun x y => (x == y) = true) (front ++ a :: back) (front ++ b :: back) := by
  induction front with
  | nil => exact .cons h (forall₂_beq_self back)
  | cons x front ih => exact .cons (beq_self x) ih

theorem map_beq_replace (front back : List (Value × Value)) {e e' : Value × Value}
    (h : SameEntry e e') :
    (Value.map (front ++ e :: back) == Value.map (front ++ e' :: back)) = true := by
  refine equal_iff.mpr ⟨rfl, .nil, by simp, fun x hx => ?_⟩
  rw [entries_map, List.mem_append, List.mem_cons] at hx
  rcases hx with hx | rfl | hx
  · exact ⟨x, by simp [hx], sameEntry_self x⟩
  · exact ⟨e', by simp, h⟩
  · exact ⟨x, by simp [hx], sameEntry_self x⟩

theorem Altered.beq {a b : Value} (h : Altered a b) : (a == b) = true := by
  induction h with
  | equal h => exact h
  | toVector items | toList items =>
    exact equal_iff.mpr ⟨rfl, forall₂_beq_self items, rfl, fun _ he => nomatch he⟩
  | reorder h =>
    exact equal_iff.mpr ⟨rfl, .nil, h.length_eq,
      fun e he => ⟨e, h.mem_iff.mp he, sameEntry_self e⟩⟩
  | inList front back _ ih | inVector front back _ ih =>
    exact equal_iff.mpr ⟨rfl, forall₂_beq_replace front back ih, rfl, fun _ he => nomatch he⟩
  | inKey front back value _ ih => exact map_beq_replace front back ⟨ih, beq_self value⟩
  | inValue front back key _ ih => exact map_beq_replace front back ⟨beq_self key, ih⟩

theorem beq_of_alterations {a b : Value} (h : Relation.ReflTransGen Altered a b) :
    (a == b) = true := by
  induction h with
  | refl => exact beq_self a
  | tail _ hlast ih => exact beq_trans ih hlast.beq

/-- A value that is told from others by what it is and not by what it
holds. -/
def HasIdentity : Value → Prop
  | nan _ | closure .. | builtin _ | atom _ => True
  | _ => False

theorem beq_iff_face_of_hasIdentity {a b : Value} (h : a.HasIdentity) :
    (a == b) = true ↔ a.face = b.face := by
  refine ⟨fun heq => (equal_iff.mp heq).1, fun hface => equal_iff.mpr ⟨hface, ?_⟩⟩
  cases a with
  | nan _ | closure _ _ _ _ _ | builtin _ | atom _ =>
    cases b <;> cases hface
    simp [elements, entries, items?]
  | _ => cases h

/-- Equality of values is an equivalence and a congruence. A NaN, a
function, a macro or an atom equals only itself. Values to which no
change was made but those that equality does not see are equal, however
many changes there were, and distinct keys stay distinct. -/
theorem beq_equivalence_and_congruence :
    (∀ a : Value, (a == a) = true) ∧
      (∀ a b : Value, a.WellKeyed → (a == b) = true → (b == a) = true) ∧
      (∀ a b c : Value, (a == b) = true → (b == c) = true → (a == c) = true) ∧
      (∀ a b : Value, a.HasIdentity → ((a == b) = true ↔ a.face = b.face)) ∧
      ∀ a b : Value, Relation.ReflTransGen Altered a b →
        (a == b) = true ∧ (a.WellKeyed → b.WellKeyed) :=
  ⟨beq_self, fun _ _ => beq_symm, fun _ _ _ => beq_trans,
    fun _ _ => beq_iff_face_of_hasIdentity,
    fun _ _ h => ⟨beq_of_alterations h, fun ha => ha.of_beq (beq_of_alterations h)⟩⟩

/-- A map with a NaN in it. -/
def mixedMap : Value := .map [(.list [.int 1], .nan 7), (.keyword "k", .nil)]

/-- The map in the other order, with a vector for a key. -/
def mixedMapAltered : Value := .map [(.keyword "k", .nil), (.vector [.int 1], .nan 7)]

theorem wellKeyed_mixedMap : mixedMap.WellKeyed := by
  refine .node (.cons ?_ (.cons (fun _ h => nomatch h) .nil)) fun child hc => ?_
  · intro e he
    obtain rfl := List.mem_singleton.mp he
    exact ⟨rfl, rfl⟩
  · obtain rfl | rfl | rfl | rfl : child = .list [.int 1] ∨ child = .nan 7 ∨
        child = .keyword "k" ∨ child = .nil := by
      simpa [mixedMap, children] using hc
    · refine .node .nil fun child hc => ?_
      obtain rfl := List.mem_singleton.mp hc
      exact .leaf .nil rfl
    all_goals exact .leaf .nil rfl

theorem alterations_mixedMap : Relation.ReflTransGen Altered mixedMap mixedMapAltered :=
  .tail (.single (.inKey [] _ _ (.toVector [.int 1]))) (.reorder (.swap ..))

theorem beq_mixedMapAltered :
    mixedMap.WellKeyed ∧ Relation.ReflTransGen Altered mixedMap mixedMapAltered ∧
      (mixedMap == mixedMapAltered) = true ∧ mixedMapAltered.WellKeyed ∧
      (mixedMapAltered == mixedMap) = true := by
  obtain ⟨-, hsymm, -, -, hcongr⟩ := beq_equivalence_and_congruence
  obtain ⟨heq, hkeyed⟩ := hcongr mixedMap mixedMapAltered alterations_mixedMap
  exact ⟨wellKeyed_mixedMap, alterations_mixedMap, heq, hkeyed wellKeyed_mixedMap,
    hsymm _ _ wellKeyed_mixedMap heq⟩

end Value

end Lisp
