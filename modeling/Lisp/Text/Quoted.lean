/-!
# Quoted text

A string is written between quotation marks, with a backslash before
each quotation mark and backslash and `\n` for a line break. Reading is
more generous than writing: any other character may stand for itself,
line breaks included, and a backslash before a character that needs
none is a backslash.
-/

namespace Lisp.Quoted

/-- The text between the quotation marks, as it is written. -/
def encode : List Char → List Char
  | [] => []
  | '\n' :: rest => '\\' :: 'n' :: encode rest
  | c :: rest =>
    if c = '\x22' ∨ c = '\\' then '\\' :: c :: encode rest else c :: encode rest

/-- The text that is meant by what stands between the quotation
marks. -/
def decode : List Char → List Char
  | [] => []
  | '\\' :: 'n' :: rest => '\n' :: decode rest
  | '\\' :: c :: rest =>
    if c = '\x22' ∨ c = '\\' then c :: decode rest else '\\' :: c :: decode rest
  | c :: rest => c :: decode rest

/-- What is written is read back, whatever it is. -/
theorem decode_encode (text : List Char) : decode (encode text) = text := by
  fun_induction encode text with
  | case1 => rfl
  | case2 rest ih => simp [decode, ih]
  | case3 c rest _ hc ih => rcases hc with rfl | rfl <;> simp [decode, ih]
  | case4 c rest _ hc ih =>
    have : c ≠ '\\' := fun h => hc (Or.inr h)
    rw [decode.eq_def]
    split <;> simp_all

/-- A string in quotation marks. -/
def write (s : String) : String :=
  String.ofList ('\x22' :: (encode s.toList ++ ['\x22']))

/-- The string that a text in quotation marks stands for; the marks
themselves are not looked at. -/
def read (lexeme : String) : String :=
  String.ofList (decode (lexeme.toList.drop 1).dropLast)

end Lisp.Quoted
