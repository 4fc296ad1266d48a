/-
  Settle.Path.Location — concrete places in a state tree, where values are written.

  A location is a non-empty list of object keys and array positions. Its text writes
  keys between dots and positions in brackets; the reader also takes a position
  between dots. A number too large for a position is a key.
-/

import Settle.Path

namespace Settle

inductive Segment where
  | key (name : String)
  | index (position : Nat)
  deriving DecidableEq, Repr

structure Location where
  segments : List Segment
  nonempty : segments ≠ []
  deriving DecidableEq

instance : Inhabited Location := ⟨⟨[.index 0], by simp⟩⟩

namespace Location

/-- The largest position that can be written. -/
def maxIndex : Nat := 0xffffffffffffffff

/-- A position: decimal digits, one plus sign allowed in front. -/
def index? (cs : List Char) : Option Nat :=
  let digits := match cs with
    | '+' :: rest => rest
    | cs => cs
  if digits = [] || !Path.isDigits digits then none
  else
    let n := digits.foldl (fun n c => 10 * n + (c.toNat - '0'.toNat)) 0
    if n ≤ maxIndex then some n else none

/-- The positions of a run of brackets `[i][j]…`. -/
def brackets? : Nat → List Char → Option (List Segment)
  | _, [] => some []
  | 0, _ => none
  | fuel + 1, c :: rest =>
    if c ≠ '[' || !rest.contains ']' then none
    else
      match index? (rest.takeWhile (· ≠ ']')) with
      | none => none
      | some i => (brackets? fuel ((rest.dropWhile (· ≠ ']')).drop 1)).map (.index i :: ·)

/-- The segments of one part between dots: a key or a position, then brackets. -/
def partSegments (part : List Char) : Option (List Segment) :=
  if part = wildcard.toList || ((Path.dropLast? ']' part).bind (Path.dropLast? '[')).isSome then none
  else
    let base := part.takeWhile (· ≠ '[')
    let rest := part.dropWhile (· ≠ '[')
    if base.contains ']' then none
    else
      let front := if base = [] then [] else
        match index? base with
        | some i => [Segment.index i]
        | none => [Segment.key (String.ofList base)]
      (brackets? rest.length rest).map (front ++ ·)

def partsSegments (input : String) : List (List Char) → Except PathError (List Segment)
  | [] => .ok []
  | part :: rest =>
    match partSegments part with
    | none => .error (.malformed input (String.ofList part))
    | some segments => (partsSegments input rest).map (segments ++ ·)

/-- Read a location from its text. -/
def parse (input : String) : Except PathError Location :=
  let parts := (Path.splitAt '.' input.toList).filter (· ≠ [])
  match partsSegments input parts with
  | .error e => .error e
  | .ok segments => if h : segments = [] then .error .empty else .ok ⟨segments, h⟩

/-- The location whose segments are the keys that a path names. -/
def ofKeys (p : Path) : Location := ⟨p.segments.map .key, by simp [p.nonempty]⟩

/-- The location of a path that names no list item. -/
def ofPath? (p : Path) : Option Location := if p.hasWildcard then none else some (ofKeys p)

/-- The path that a write at this location touches. -/
def normalized (l : Location) : Except PathError Path :=
  Path.ofSegments (l.segments.map fun
    | .key k => k
    | .index _ => wildcard)

def segmentTexts : Bool → List Segment → List String
  | _, [] => []
  | atStart, .key k :: rest => ((if atStart then "" else ".") ++ k) :: segmentTexts false rest
  | _, .index n :: rest => s!"[{n}]" :: segmentTexts false rest

def text (l : Location) : String := String.join (segmentTexts true l.segments)

end Location

end Settle
