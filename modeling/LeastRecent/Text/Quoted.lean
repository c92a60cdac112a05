import LeastRecent.Text.Printable

/-!
# Quoted text

`quoted s` is `s` between double quotes, on one line: the quote, the backslash and the common controls get a backslash
and a letter (`letterFor`), every other character that is not plain is written by its code point in lower-case
hexadecimal without leading zeros, and plain characters are copied (`escaped_of_plain`).
-/

namespace LeastRecent.Text

/-- The letter that stands for `c` behind a backslash, for the characters that have one. -/
def letterFor (c : Char) : Option Char :=
  if c = '"' then some '"'
  else if c = '\\' then some '\\'
  else if c = '\n' then some 'n'
  else if c = '\r' then some 'r'
  else if c = '\t' then some 't'
  else if c = '\x00' then some '0'
  else none

/-- The code point of `c` in hexadecimal, as in `\u{3000}`. -/
def codePoint (c : Char) : List Char :=
  ['\\', 'u', '{'] ++ Nat.toDigits 16 c.toNat ++ ['}']

/-- How one character is written inside quotes. -/
def escaped (c : Char) : List Char :=
  match letterFor c with
  | some l => ['\\', l]
  | none => if isPlain c then [c] else codePoint c

/-- `s` between double quotes. -/
def quoted (s : String) : String :=
  String.ofList ('"' :: (s.toList.flatMap escaped ++ ['"']))

/-- A plain character other than the quote and the backslash is copied. -/
theorem escaped_of_plain {c : Char} (h : letterFor c = none) (h' : isPlain c = true) : escaped c = [c] := by
  simp [escaped, h, h']

/-- `items` in square brackets, separated by commas. -/
def bracketed (items : List String) : String := "[" ++ ", ".intercalate items ++ "]"

end LeastRecent.Text
