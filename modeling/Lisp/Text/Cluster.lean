import Lisp.Text.Joining

/-!
# Clusters

A cluster is a stretch of text that its reader takes for one character.
A text falls into clusters from left to right: each character either
joins the cluster before it or starts a new one. What has to be known of
the text on the left to decide that is little (`Edge`), and is kept up
to date character by character.

Nothing of the text is lost (`flatten_clusters`).
-/

namespace Lisp

/-- What the text up to a point says about the character that follows. -/
structure Edge where
  /-- The class of the last character. -/
  last : Joining
  /-- Is the last character the first half of a flag? -/
  halfFlag : Bool
  /-- Do a pictograph, extenders, and perhaps a joiner come last? -/
  pictured : Bool
  /-- Do a consonant and what extends it come last? If so, has a linker
  been among that? -/
  conjunct : Option Bool

namespace Edge

/-- Does a character of class `next` join what stands before it? -/
def joins (e : Edge) (next : Joining) : Bool :=
  match e.last, next with
  | .carriageReturn, .lineFeed => true
  | .carriageReturn, _ | .lineFeed, _ | .control, _ => false
  | _, .carriageReturn | _, .lineFeed | _, .control => false
  | .leadingJamo, .leadingJamo | .leadingJamo, .vowelJamo => true
  | .leadingJamo, .openBlock | .leadingJamo, .closedBlock => true
  | .openBlock, .vowelJamo | .openBlock, .trailingJamo => true
  | .vowelJamo, .vowelJamo | .vowelJamo, .trailingJamo => true
  | .closedBlock, .trailingJamo | .trailingJamo, .trailingJamo => true
  | _, .extender | _, .joiner | _, .spacing => true
  | .leader, _ => true
  | _, .consonant => e.conjunct == some true
  | .joiner, .pictograph => e.pictured
  | _, .regional => e.halfFlag
  | _, _ => false

/-- Does a character of class `next` keep a conjunct open? The zero width
non-joiner is an extender that does not. -/
def conjunctAfter (conjunct : Option Bool) (c : Char) (next : Joining) : Option Bool :=
  match next with
  | .consonant => some false
  | .joiner => conjunct
  | .extender =>
    if c = '\u200C' then none
    else conjunct.map (· || Joining.linkers.contains c)
  | _ => none

/-- The edge after one more character. -/
def after (e : Edge) (c : Char) : Edge where
  last := Joining.ofChar c
  halfFlag := Joining.ofChar c == .regional && !e.halfFlag
  pictured := match Joining.ofChar c with
    | .pictograph => true
    | .extender | .joiner => e.pictured && e.last != .joiner
    | _ => false
  conjunct := conjunctAfter e.conjunct c (Joining.ofChar c)

/-- The edge at the start of a text, which nothing joins. -/
def start : Edge := ⟨.control, false, false, none⟩

end Edge

/-- The clusters of a text of which a part has been read up to the edge
`e`. The last cluster of that part, in reverse, may still grow. -/
def clustersFrom (e : Edge) (cluster : List Char) : List Char → List (List Char)
  | [] => [cluster.reverse]
  | c :: rest =>
    if e.joins (Joining.ofChar c) then clustersFrom (e.after c) (c :: cluster) rest
    else cluster.reverse :: clustersFrom (e.after c) [c] rest

def clusters : List Char → List (List Char)
  | [] => []
  | c :: rest => clustersFrom (Edge.start.after c) [c] rest

theorem flatten_clustersFrom (e : Edge) (cluster text : List Char) :
    (clustersFrom e cluster text).flatten = cluster.reverse ++ text := by
  induction text generalizing e cluster with
  | nil => simp [clustersFrom]
  | cons c rest ih =>
    rw [clustersFrom]
    split <;> simp [ih]

theorem flatten_clusters (text : List Char) : (clusters text).flatten = text := by
  cases text with
  | nil => rfl
  | cons c rest => simp [clusters, flatten_clustersFrom]

end Lisp
