import Lisp.Proofs.Behavior
import Lisp.Proofs.Soundness
import Lisp.Proofs.Adequacy
import Lisp.Proofs.Scripts
import Lisp.Session

/-!
# Map literals and calls of `hash-map`

A map literal is a map before it is evaluated: reading it has already
put its key forms into a map, and a key form that equals an earlier one
was no new entry. What evaluation sees are the entries that are left,
and there it does what a call of `hash-map` does on their keys and
values in turn (`evaluates_map`, `evaluates_hashMapCall`): each of them
is evaluated once, from left to right, and the map is built from what
comes out.

So a literal means the call on the forms that are left, and the call on
the forms as they are written if all of them are left. Key forms can be
equal and still mean different things, since a list equals a vector with
the same elements (`mapLiteral_collapses_forms`).
-/

namespace Lisp

open Behavior

/-- The call of `hash-map` on some forms. -/
def Form.hashMapCall (forms : List Value) : Value := .list (.symbol "hash-map" :: forms)

/-- The map of keys and values in turn. -/
def Value.mapOfItems (items : List Value) : Value := .map (Entries.ofPairs (Entries.pairs items))

theorem Value.mapOf_even {items : List Value} (h : items.length % 2 = 0) :
    Value.mapOf items = .ok (Value.mapOfItems items) := by
  rw [Value.mapOf, if_pos h, Value.mapOfItems]

section

variable {scope : ScopeId} {w : World}

/-- Keys and values of a map are evaluated in turn, and make a map
again. -/
theorem evaluates_map (entries : List (Value × Value)) :
    of (Evaluates (.map entries) scope) w = (do
      let vs ← of (EvaluatesEach (Value.alternating entries) scope)
      return Value.mapOfItems vs) w := by
  rw [evaluates_plain rfl]
  refine at_ext fun r w' => ?_
  constructor
  · intro h
    cases h with
    | self h => exact h.elim
    | @map _ _ _ _ vs h =>
      cases vs with
      | ok vs => exact Or.inl ⟨vs, w', h, rfl, rfl⟩
      | error e => exact Or.inr ⟨e, h, rfl⟩
  · rintro (⟨vs, w₁, h, rfl, rfl⟩ | ⟨e, h, rfl⟩)
    · exact .map h
    · exact .map h

/-- The same for the call of `hash-map`, on an even number of forms. -/
theorem evaluates_hashMapCall (hfind : w.find? scope "hash-map" = some (.builtin .hashMap))
    {forms : List Value} (heven : forms.length % 2 = 0) :
    of (Evaluates (Form.hashMapCall forms) scope) w = (do
      let vs ← of (EvaluatesEach forms scope)
      return Value.mapOfItems vs) w := by
  rw [Form.hashMapCall, evaluates_call hfind (by decide)]
  refine bind_congr_at rfl fun vs w₁ hvs => ?_
  have heven' : vs.length % 2 = 0 := by
    rw [length_of_each hvs]
    exact heven
  rw [applies_lift (x := Value.mapOf vs) (by decide) (by decide) fun _ => rfl,
    Value.mapOf_even heven', lift_ok]

theorem even_alternating (entries : List (Value × Value)) :
    (Value.alternating entries).length % 2 = 0 := by
  rw [Value.length_alternating]
  omega

/-- The values of some forms, and the map that is built from them. -/
theorem mapOfItems_iff {forms : List Value} {r : Except Error Value} {w' : World} :
    (do
      let vs ← of (EvaluatesEach forms scope)
      return Value.mapOfItems vs : Behavior Value) w r w' ↔
      ∃ vs, EvaluatesEach forms scope w vs w' ∧ r = vs.map Value.mapOfItems := by
  rw [bind_apply]
  constructor
  · rintro (⟨vs, w₁, h, rfl, rfl⟩ | ⟨e, h, rfl⟩)
    · exact ⟨.ok vs, h, rfl⟩
    · exact ⟨.error e, h, rfl⟩
  · rintro ⟨vs, h, rfl⟩
    cases vs with
    | ok vs => exact Or.inl ⟨vs, w', h, rfl, rfl⟩
    | error e => exact Or.inr ⟨e, h, rfl⟩

theorem finishes_map_iff {entries : List (Value × Value)} {r : Except Error Value} {w' : World} :
    Finishes (.map entries) scope w r w' ↔
      ∃ vs, EvaluatesEach (Value.alternating entries) scope w vs w' ∧ r = vs.map Value.mapOfItems := by
  rw [finishes_iff, ← mapOfItems_iff]
  exact at_iff (evaluates_map entries) r w'

theorem finishes_hashMapCall_iff (hfind : w.find? scope "hash-map" = some (.builtin .hashMap))
    {entries : List (Value × Value)} {r : Except Error Value} {w' : World} :
    Finishes (Form.hashMapCall (Value.alternating entries)) scope w r w' ↔
      ∃ vs, EvaluatesEach (Value.alternating entries) scope w vs w' ∧ r = vs.map Value.mapOfItems := by
  rw [finishes_iff, ← mapOfItems_iff]
  have hcall := evaluates_hashMapCall hfind (even_alternating entries)
  exact at_iff hcall r w'

end

/-! ## Literals in a text -/

namespace Form

theorem wraps_braces : Wraps "\x7b" "\x7d" .curly [] [] where
  settled := rfl
  unquoted := by decide
  front := ⟨_, _, rfl, rfl, .nil⟩
  back := ⟨_, rfl, .nil⟩

theorem wraps_hashMapCall : Wraps "(hash-map " ")" .round [.symbol "hash-map"] [] where
  settled := rfl
  unquoted := by decide
  front := by
    have hname : Literal.AtomMeans "hash-map".toList (.symbol "hash-map") :=
      Literal.ofAtom_eq_ok_iff.mp rfl
    exact ⟨_, _, rfl, rfl, .cons (.atom rfl hname) .nil⟩
  back := ⟨_, rfl, .nil⟩

end Form

/-- A text of key and value forms in turn, in curly brackets or as the
operands of `hash-map`: the literal is read as the map of the key and
value forms, where equal key forms are one. Where `hash-map` is the
primitive, to evaluate the literal is to evaluate the forms that are
left, each once and from left to right, and to build the map from them.
The call does the same on the same forms. So the two agree, in result
and world, on the forms that are left, and if no two key forms are
equal, on the forms of the text. -/
theorem mapLiteral_eq_hashMapCall {source : String} {pairs : List (Value × Value)}
    (hsource : Form.DenoteEach (tokenize source).tokens (Value.alternating pairs) [])
    {scope : ScopeId} {w : World}
    (hfind : w.find? scope "hash-map" = some (.builtin .hashMap)) :
    ∃ literal call,
      read ("\x7b" ++ source ++ "\n" ++ "\x7d") = .ok literal ∧
      read ("(hash-map " ++ source ++ "\n" ++ ")") = .ok call ∧
      literal = .map (Entries.ofPairs pairs) ∧
      call = Form.hashMapCall (Value.alternating pairs) ∧
      (∀ r w', Finishes literal scope w r w' ↔
        ∃ vs, EvaluatesEach (Value.alternating (Entries.ofPairs pairs)) scope w vs w' ∧
          r = vs.map Value.mapOfItems) ∧
      (∀ r w', Finishes literal scope w r w' ↔
        Finishes (Form.hashMapCall (Value.alternating (Entries.ofPairs pairs))) scope w r w') ∧
      (Value.KeysDistinct pairs → ∀ r w', Finishes literal scope w r w' ↔
        Finishes call scope w r w') := by
  have hliteral : Form.enclosed .curly ([] ++ (Value.alternating pairs ++ [])) =
      .ok (.map (Entries.ofPairs pairs)) := by
    rw [List.nil_append, List.append_nil, Form.enclosed, Value.mapOf_alternating_pairs]
  have hcall : Form.enclosed .round ([.symbol "hash-map"] ++ (Value.alternating pairs ++ [])) =
      .ok (Form.hashMapCall (Value.alternating pairs)) := by
    rw [List.append_nil, Form.enclosed, Form.hashMapCall, List.singleton_append]
  refine ⟨_, _, Form.wraps_braces.read hsource hliteral, Form.wraps_hashMapCall.read hsource hcall,
    rfl, rfl, fun r w' => finishes_map_iff, fun r w' => ?_, fun hdistinct r w' => ?_⟩
  · rw [finishes_map_iff, finishes_hashMapCall_iff hfind]
  · rw [Entries.ofPairs_of_keysDistinct hdistinct, finishes_map_iff, finishes_hashMapCall_iff hfind]

/-- The world of a session before its prelude, without files. -/
def bareWorld : World := Session.bare (fun _ => none) []

/-- A keyword and a vector as keys. -/
theorem mapLiteral_eq_hashMapCall_twoKeys :
    ∃ literal call,
      read "\x7b:a (list 1) [2] nil\n\x7d" = .ok literal ∧
      read "(hash-map :a (list 1) [2] nil\n)" = .ok call ∧
      Finishes literal Session.rootScope bareWorld
        (.ok (.map [(.keyword "a", .list [.int 1]), (.vector [.int 2], .nil)])) bareWorld ∧
      ∀ r w', Finishes literal Session.rootScope bareWorld r w' ↔
        Finishes call Session.rootScope bareWorld r w' := by
  have hsource : Form.DenoteEach (tokenize ":a (list 1) [2] nil").tokens
      (Value.alternating [(.keyword "a", .list [.symbol "list", .int 1]), (.vector [.int 2], .nil)])
      [] :=
    readScript_eq_ok_iff.mp rfl
  have hdistinct : ∀ v : Value, Value.KeysDistinct [(.keyword "a", v), (.vector [.int 2], .nil)] :=
    fun v => .cons (fun e he => List.mem_singleton.mp he ▸ ⟨rfl, rfl⟩) (List.pairwise_singleton ..)
  have hfind : bareWorld.find? Session.rootScope "hash-map" = some (.builtin .hashMap) := rfl
  obtain ⟨literal, call, hliteral, hcall, rfl, -, heach, -, hagree⟩ :=
    mapLiteral_eq_hashMapCall hsource hfind
  rw [Entries.ofPairs_of_keysDistinct (hdistinct _)] at hliteral heach hagree
  have hvalues : EvaluatesEach
      (Value.alternating [(.keyword "a", .list [.symbol "list", .int 1]), (.vector [.int 2], .nil)])
      Session.rootScope bareWorld
      (.ok (Value.alternating [(.keyword "a", .list [.int 1]), (.vector [.int 2], .nil)])) bareWorld :=
    evaluateEach_sound (evaluate_sound 9 9) rfl
  have hmap : Value.mapOfItems
      (Value.alternating [(.keyword "a", .list [.int 1]), (.vector [.int 2], .nil)]) =
        .map [(.keyword "a", .list [.int 1]), (.vector [.int 2], .nil)] := by
    rw [Value.mapOfItems, Entries.pairs_alternating, Entries.ofPairs_of_keysDistinct (hdistinct _)]
  refine ⟨_, call, hliteral, hcall, (heach _ _).mpr ⟨_, hvalues, ?_⟩, hagree (hdistinct _)⟩
  rw [Except.map, hmap]

/-- A vector and a list that are equal as forms, but not as values: the
literal has one entry, and the call makes two. -/
theorem mapLiteral_collapses_forms :
    ∃ literal call entries entries',
      read "\x7b[list 1] :a (list 1) :b\n\x7d" = .ok literal ∧
      read "(hash-map [list 1] :a (list 1) :b\n)" = .ok call ∧
      bareWorld.find? Session.rootScope "hash-map" = some (.builtin .hashMap) ∧
      Finishes literal Session.rootScope bareWorld (.ok (.map entries)) bareWorld ∧
      Finishes call Session.rootScope bareWorld (.ok (.map entries')) bareWorld ∧
      entries.length = 1 ∧ entries'.length = 2 := by
  let entries : List (Value × Value) := [(.vector [.symbol "list", .int 1], .keyword "a"),
    (.list [.symbol "list", .int 1], .keyword "b")]
  have hsource : Form.DenoteEach (tokenize "[list 1] :a (list 1) :b").tokens
      (Value.alternating entries) [] :=
    readScript_eq_ok_iff.mp rfl
  have hliteral : Form.enclosed .curly ([] ++ (Value.alternating entries ++ [])) =
      .ok (.map [(.vector [.symbol "list", .int 1], .keyword "b")]) := by
    rw [List.nil_append, List.append_nil, Form.enclosed, Value.mapOf_alternating_pairs]
    simp [entries, Entries.ofPairs, Entries.insert, Value.beq_def, Value.equal, Value.equalItems]
  have hleft : EvaluatesEach (Value.alternating [(.vector [.symbol "list", .int 1], .keyword "b")])
      Session.rootScope bareWorld (.ok [.vector [.builtin .list, .int 1], .keyword "b"]) bareWorld :=
    evaluateEach_sound (evaluate_sound 9 9) rfl
  have hall : EvaluatesEach (Value.alternating entries) Session.rootScope bareWorld
      (.ok [.vector [.builtin .list, .int 1], .keyword "a", .list [.int 1], .keyword "b"])
      bareWorld :=
    evaluateEach_sound (evaluate_sound 9 9) rfl
  have hread := Form.wraps_braces.read hsource hliteral
  have hcall : Form.enclosed .round ([.symbol "hash-map"] ++ (Value.alternating entries ++ [])) =
      .ok (Form.hashMapCall (Value.alternating entries)) := rfl
  have hread' := Form.wraps_hashMapCall.read hsource hcall
  have hfind : bareWorld.find? Session.rootScope "hash-map" = some (.builtin .hashMap) := rfl
  refine ⟨_, _, _, _, hread, hread', hfind, finishes_map_iff.mpr ⟨_, hleft, rfl⟩,
    (finishes_hashMapCall_iff hfind).mpr ⟨_, hall, rfl⟩, ?_, ?_⟩ <;>
  simp [Entries.pairs, Entries.ofPairs, Entries.insert, Value.beq_def, Value.equal,
    Value.equalItems]

end Lisp
