/-
  Settle.Value.Text — the compact text of a value.

  No blanks, object fields in key order. In strings the quote, the backslash and the
  characters below the blank are escaped (five of them by a letter, the others as four
  lower-case hex digits); every other character stands for itself.
-/

import Settle.Value

namespace Settle.Value

def hexDigit (n : Nat) : Char := (Nat.digitChar n)

/-- The `width` lowest hex digits of a number, highest first. -/
def hex (width n : Nat) : String :=
  String.ofList ((List.range width).reverse.map fun i => hexDigit ((n >>> (4 * i)) % 16))

def escape (c : Char) : List Char :=
  if c = '"' then ['\\', '"']
  else if c = '\\' then ['\\', '\\']
  else if c = '\n' then ['\\', 'n']
  else if c = '\t' then ['\\', 't']
  else if c = '\r' then ['\\', 'r']
  else if c.toNat = 8 then ['\\', 'b']
  else if c.toNat = 12 then ['\\', 'f']
  else if c.toNat < 32 then '\\' :: 'u' :: (hex 4 c.toNat).toList
  else [c]

/-- A string between quotes. -/
def quoted (s : String) : String := String.ofList ('"' :: (s.toList.flatMap escape ++ ['"']))

mutual
/-- The compact text of a value. -/
def text : Value → String
  | .null => "null"
  | .bool b => if b then "true" else "false"
  | .int i => toString i
  | .double d => d.text
  | .str s => quoted s
  | .arr items => "[" ++ ",".intercalate (textItems items) ++ "]"
  | .obj fields => "\x7b" ++ ",".intercalate (textFields fields) ++ "\x7d"
def textItems : List Value → List String
  | [] => []
  | v :: rest => text v :: textItems rest
def textFields : List (String × Value) → List String
  | [] => []
  | (k, v) :: rest => (quoted k ++ ":" ++ text v) :: textFields rest
end

/-- A string itself, nothing for `null`, otherwise the compact text. -/
def display : Value → String
  | .str s => s
  | .null => ""
  | v => v.text

end Settle.Value
