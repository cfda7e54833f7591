import Lisp.Value.Entries

/-!
# Digests of values

A search among many keys looks closely only at those with the digest
of the key that is sought. So a digest may depend on nothing that
equality does not look at: lists and vectors are written alike, and so
are the two zeros, and the entries of a map are summed up, so that
their order does not show.

How a digest is made of what is written is left open (`Digest`). It is
made in two ways: the entries of a map are always summed up alike, and
a search may go by digests of its own, chosen anew for every map.
-/

namespace Lisp

/-- A part of what is written of a value. What equals only itself is
written as what it is. -/
inductive Piece where
  | byte (n : UInt8)
  | integer (n : Int64)
  | word (n : UInt64)
  | size (n : Nat)
  | character (c : Char)
  | text (s : String)
  | closure (object : ObjectId)
  | builtin (p : Primitive)
  | atom (cell : CellId)
  deriving DecidableEq

/-- A way to make digests of what is written, from its start to its
end. -/
structure Digest where
  /-- The digest of an entry, for the sum over a map. -/
  finish : List Piece → UInt64
  /-- The digest of a key, for a search. -/
  place : List Piece → UInt64
  /-- The bits of a NaN. -/
  nanBits : ObjectId → UInt64

namespace Digest

variable (d : Digest)

mutual

/-- What is written of a value. -/
def pieces : Value → List Piece
  | .nil => [.byte 0]
  | .bool b => [.byte b.toUInt8]
  | .int n => [.integer n]
  | .float x => [.word (if x.ordinal = 0 then 0 else x.toBits)]
  | .nan object => [.word (d.nanBits object)]
  | .string s | .symbol s => [.text s]
  | .keyword name => [.character ':', .text name]
  | .list items | .vector items => .size items.length :: itemPieces items
  | .map entries => [.size entries.length, .word (entrySum entries)]
  | .closure object _ _ _ _ => [.closure object]
  | .builtin p => [.builtin p]
  | .atom cell => [.atom cell]

def itemPieces : List Value → List Piece
  | [] => []
  | v :: rest => pieces v ++ itemPieces rest

/-- The digests of the entries, added up. -/
def entrySum : List (Value × Value) → UInt64
  | [] => 0
  | (key, value) :: rest => d.finish (pieces key ++ pieces value) + entrySum rest

end

/-- The digest that a search for a value goes by. -/
def ofValue (v : Value) : UInt64 := d.place (d.pieces v)

/-- The entry with a key that equals `key`, looked for among the
entries whose keys have its digest. -/
def find? (entries : List (Value × Value)) (key : Value) : Option (Value × Value) :=
  entries.find? fun entry => d.ofValue key == d.ofValue entry.1 && key == entry.1

end Digest

end Lisp
