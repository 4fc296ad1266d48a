/-
  Settle.Value.Record — reading records, options and enumerations from a value.

  A record is an object by field name, or an array by field position. Fields it does
  not know are passed over, and a field that is missing takes its default. A variant
  without content is its name, or an object of that one name over `null`.
-/

import Settle.Value

namespace Settle.Value

/-- The fields of a record by name. -/
abbrev Lookup := String → Option Value

/-- Open a record whose fields have these names. -/
def openRecord? (names : List String) : Value → Option Lookup
  | .obj fs => some fun k => Fields.get? k fs
  | .arr items => if items.length ≤ names.length then some fun k => (names.zip items).lookup k else none
  | _ => none

/-- A field that may be missing. -/
def Lookup.get {α : Type} (l : Lookup) (name : String) (read : Value → Option α) (default : α) : Option α :=
  match l name with
  | none => some default
  | some v => read v

/-- A field that may not be missing. -/
def Lookup.need {α : Type} (l : Lookup) (name : String) (read : Value → Option α) : Option α :=
  (l name).bind read

/-- `null` for nothing. -/
def optional? {α : Type} (read : Value → Option α) : Value → Option (Option α)
  | .null => some none
  | v => (read v).map some

/-- A field that may be missing or `null`. -/
def Lookup.option {α : Type} (l : Lookup) (name : String) (read : Value → Option α) : Option (Option α) :=
  l.get name (optional? read) none

def bool? : Value → Option Bool
  | .bool b => some b
  | _ => none

/-- A natural number below `2 ^ 64`. -/
def nat? : Value → Option Nat
  | .int i => if 0 ≤ i ∧ i < 0x10000000000000000 then some i.toNat else none
  | _ => none

/-- Any number, as a double. -/
def double? (v : Value) : Option Double := v.asFloat?.bind Double.ofFloat?

/-- A variant of an enumeration given as a table of names. -/
def variant? {α : Type} (table : List (String × α)) : Value → Option α
  | .str s => table.lookup s
  | .obj [(s, .null)] => table.lookup s
  | _ => none

/-- All items, or nothing if one cannot be read. -/
def listOf? {α : Type} (read : Value → Option α) : Value → Option (List α)
  | .arr items => items.mapM read
  | _ => none

end Settle.Value
