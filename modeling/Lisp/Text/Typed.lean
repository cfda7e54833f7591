import Lisp.Text.Cluster

/-!
# Typed text

In a text as it was typed, a backspace takes back what was typed before
it: the last cluster that is still there. Backspaces with nothing before
them take nothing back, and none of them is left in the text that was
meant.

How much a cluster takes up is noted in one byte. So a cluster of 256
bytes or more is not taken back as a whole, but only as much of its end
as the byte says.

A text without backspaces is meant as it was typed
(`meant_of_not_mem_backspace`).
-/

namespace Lisp

/-- The text that was meant so far, in reverse, and how many bytes a
backspace takes back, the next one's number first. -/
structure Typed where
  text : List Char
  sizes : List Nat

namespace Typed

def empty : Typed := ⟨[], []⟩

/-- Drops the characters that begin within the first `n` bytes. -/
def dropBytes : (n : Nat) → List Char → List Char
  | 0, text => text
  | _ + 1, [] => []
  | n + 1, c :: rest => dropBytes (n + 1 - c.utf8Size) rest

def byteSize (cluster : List Char) : Nat :=
  cluster.foldl (fun size c => size + c.utf8Size) 0

/-- What is meant after one more cluster. -/
def type (t : Typed) (cluster : List Char) : Typed :=
  if cluster = ['\x08'] then
    match t.sizes with
    | [] => t
    | n :: sizes => ⟨dropBytes n t.text, sizes⟩
  else ⟨cluster.reverse ++ t.text, byteSize cluster % 256 :: t.sizes⟩

/-- The text that is meant by a typed one. -/
def meant (s : String) : String :=
  String.ofList ((clusters s.toList).foldl type empty).text.reverse

theorem text_foldl_type {cs : List (List Char)} (h : ∀ cluster ∈ cs, cluster ≠ ['\x08'])
    (t : Typed) : (cs.foldl type t).text = cs.flatten.reverse ++ t.text := by
  induction cs generalizing t with
  | nil => simp
  | cons cluster cs ih =>
    rw [List.foldl_cons, ih fun c hc => h c (.tail _ hc), type, if_neg (h cluster (.head _))]
    simp

theorem meant_of_not_mem_backspace {s : String} (h : '\x08' ∉ s.toList) : meant s = s := by
  have hne : ∀ cluster ∈ clusters s.toList, cluster ≠ ['\x08'] := by
    rintro _ hmem rfl
    rw [← flatten_clusters s.toList] at h
    exact h (List.mem_flatten.mpr ⟨_, hmem, .head _⟩)
  simp [meant, text_foldl_type hne, flatten_clusters, empty]

end Typed

end Lisp
