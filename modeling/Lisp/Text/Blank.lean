/-!
# White space

The characters with the Unicode property `White_Space`. The classes of
core's `Char` know only the ASCII part of it.
-/

namespace Lisp

/-- Tab to carriage return, the space, and the separators outside
ASCII. -/
def isWhite (c : Char) : Bool :=
  let n := c.toNat
  (0x9 ≤ n && n ≤ 0xD) || n == 0x20 || n == 0x85 || n == 0xA0 || n == 0x1680 ||
    (0x2000 ≤ n && n ≤ 0x200A) || n == 0x2028 || n == 0x2029 || n == 0x202F ||
    n == 0x205F || n == 0x3000

/-- The text without the white space at its two ends. -/
def trimWhite (s : String) : String :=
  String.ofList ((s.toList.dropWhile isWhite).reverse.dropWhile isWhite).reverse

end Lisp
