/-
  Settle.Formula.Record — formulas written as values.

  A formula is an object with one field: its name, and its operand or its list of
  operands.
-/

import Settle.Formula

namespace Settle.Formula

mutual
/-- The formula a value writes. -/
def ofValue? : Value → Option Formula
  | .obj fields => ofField? fields
  | _ => none
/-- The formula that the one field of an object writes. -/
def ofField? : List (String × Value) → Option Formula
  | [(name, v)] =>
    match name with
    | "const" => some (.const v)
    | "get" => v.asString?.map .get
    | "number" => v.asString?.map .number
    | "string" => v.asString?.map .string
    | "root" => some .root
    | "add" => (operands? v).map .add
    | "mul" => (operands? v).map .mul
    | "min" => (operands? v).map .least
    | "fadd" => (operands? v).map .fadd
    | "fmul" => (operands? v).map .fmul
    | "fdiv" => (operands? v).bind fun
      | [a, b] => some (.fdiv a b)
      | _ => none
    | "concat" => (operands? v).map .concat
    | "len" => (ofValue? v).map .length
    | "sum" => (ofValue? v).map .sum
    | "gt" => (operands? v).bind fun
      | [a, b] => some (.gt a b)
      | _ => none
    | "eq" => (operands? v).bind fun
      | [a, b] => some (.eq a b)
      | _ => none
    | "if" => (operands? v).bind fun
      | [c, a, b] => some (.cond c a b)
      | _ => none
    | "arr" => (operands? v).map .array
    | "obj" => (named? v).map .object
    | "fail" => v.asString?.map .fail
    | "panic" => v.asString?.map fun m => .panic (some m)
    | "panic_any" => some (.panic none)
    | _ => none
  | _ => none
/-- The formulas of a list of operands. -/
def operands? : Value → Option (List Formula)
  | .arr items => items? items
  | _ => none
def items? : List Value → Option (List Formula)
  | [] => some []
  | v :: rest => do return (← ofValue? v) :: (← items? rest)
/-- The formulas of an object's fields. -/
def named? : Value → Option (List (String × Formula))
  | .obj fields => fields? fields
  | _ => none
def fields? : List (String × Value) → Option (List (String × Formula))
  | [] => some []
  | (k, v) :: rest => do return (k, ← ofValue? v) :: (← fields? rest)
end

end Settle.Formula
