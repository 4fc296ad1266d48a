/-
  Settle.Text.Listed — a list of texts on one printed line.

  Every text stands between quotes. Quotes, backslashes and three controls are escaped by
  a sign, the zero character by its digit, all other characters that cannot be read off
  the line (`isUnseen`) by their code point.
-/

import Settle.Text.Unseen

namespace Settle.Text

/-- A character between quotes. -/
def listedChar (c : Char) : List Char :=
  if c = '"' then ['\\', '"']
  else if c = '\\' then ['\\', '\\']
  else if c = '\n' then ['\\', 'n']
  else if c = '\t' then ['\\', 't']
  else if c = '\r' then ['\\', 'r']
  else if c.toNat = 0 then ['\\', '0']
  else if isUnseen c then ['\\', 'u', '\x7b'] ++ Nat.toDigits 16 c.toNat ++ ['\x7d']
  else [c]

/-- A text between quotes. -/
def listedText (s : String) : String := String.ofList ('"' :: (s.toList.flatMap listedChar ++ ['"']))

/-- Texts between quotes, a comma and a blank between two, brackets around all. -/
def listed (texts : List String) : String := "[" ++ ", ".intercalate (texts.map listedText) ++ "]"

end Settle.Text
