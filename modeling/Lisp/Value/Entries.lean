import Lisp.Error
import Lisp.Value.Equality

/-!
# Maps

The entries of a map are kept in the order in which their keys first
came. Putting an equal key again replaces the value and nothing else.
-/

namespace Lisp

namespace Entries

/-- The entry with a key that equals `key`. -/
def find? (entries : List (Value × Value)) (key : Value) : Option (Value × Value) :=
  entries.find? fun entry => key == entry.1

/-- Replaces the value of the entry with an equal key, or adds an entry
at the end. -/
def insert : List (Value × Value) → Value → Value → List (Value × Value)
  | [], key, value => [(key, value)]
  | entry :: rest, key, value =>
    if key == entry.1 then (entry.1, value) :: rest else entry :: insert rest key value

/-- Cuts a list into pairs; a last item without a partner is left
out. -/
def pairs : List Value → List (Value × Value)
  | key :: value :: rest => (key, value) :: pairs rest
  | _ => []

def ofPairs (pairs : List (Value × Value)) : List (Value × Value) :=
  pairs.foldl (fun entries pair => insert entries pair.1 pair.2) []

end Entries

/-- The map of keys and values that alternate. -/
def Value.mapOf (items : List Value) : Except Cause Value :=
  if items.length % 2 = 0 then .ok (.map (Entries.ofPairs (Entries.pairs items)))
  else .error (.oddItems items.length)

end Lisp
