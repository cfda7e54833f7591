import Lisp.Text.Graphic

/-!
# Escaped text

Text in a report stands between quotation marks and shows every
character: those that are not graphic are written by their number in
hexadecimal, a few by a letter.
-/

namespace Lisp.Escaped

def hex (n : Nat) : List Char := Nat.toDigits 16 n

/-- A character as it is written in a report. -/
def char (c : Char) : List Char :=
  match c with
  | '\x00' => ['\\', '0']
  | '\t' => ['\\', 't']
  | '\n' => ['\\', 'n']
  | '\r' => ['\\', 'r']
  | '\\' => ['\\', '\\']
  | '\x22' => ['\\', '\x22']
  | c =>
    if isGraphic c then [c]
    else '\\' :: 'u' :: '\x7b' :: (hex c.toNat ++ ['\x7d'])

def write (s : String) : String :=
  String.ofList ('\x22' :: (s.toList.flatMap char ++ ['\x22']))

end Lisp.Escaped
