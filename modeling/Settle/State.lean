/-
  Settle.State — reading and writing a state tree.

  Reading goes by path: a wildcard maps the rest of the path over the items found
  there. Writing goes by location and makes what is missing on the way: whatever is no
  object where a key is needed becomes an empty one, whatever is no array where a
  position is needed becomes an empty one, and an array too short is filled with nulls.
-/

import Settle.Value
import Settle.Path.Location

namespace Settle.State

/-- The value at the segments, wildcards mapped over array items (an item without the
rest of the path reads as null); none if the place is absent. -/
def readSegments : Value → List String → Option Value
  | node, [] => some node
  | node, seg :: rest =>
    if seg = wildcard then
      node.asArray?.map fun items => .arr (items.map fun item => (readSegments item rest).getD .null)
    else (node.field? seg).bind fun child => readSegments child rest

def read (root : Value) (p : Path) : Option Value := readSegments root p.segments

/-- The value at keys, none of them the wildcard. -/
def lookupSegments : Value → List String → Option Value
  | node, [] => some node
  | node, seg :: rest =>
    if seg = wildcard then none else (node.field? seg).bind fun child => lookupSegments child rest

def lookup (root : Value) (p : Path) : Option Value := lookupSegments root p.segments

def childAt : Value → Segment → Option Value
  | node, .key k => node.field? k
  | node, .index i => node.item? i

/-- The value at a location. -/
def lookupAtSegments : Value → List Segment → Option Value
  | node, [] => some node
  | node, seg :: rest => (childAt node seg).bind fun child => lookupAtSegments child rest

def lookupAt (root : Value) (l : Location) : Option Value := lookupAtSegments root l.segments

/-- A state after a write, and whether structure was made or replaced on the way. -/
structure Written where
  state : Value
  materialized : Bool

/-- Write at the segments. -/
def writeSegments : Value → List Segment → Value → Written
  | _, [], v => ⟨v, false⟩
  | node, .key k :: rest, v =>
    let fields := match node with
      | .obj fs => fs
      | _ => []
    let child := (Fields.get? k fields).getD .null
    let below := writeSegments child rest v
    ⟨.obj (Fields.set k below.state fields), below.materialized || (node.field? k).isNone⟩
  | node, .index i :: rest, v =>
    let items := match node with
      | .arr items => items
      | _ => []
    let padded := items ++ List.replicate (i + 1 - items.length) Value.null
    let child := padded[i]?.getD .null
    let below := writeSegments child rest v
    ⟨.arr (padded.set i below.state), below.materialized || (node.item? i).isNone⟩

def writeAt (root : Value) (l : Location) (v : Value) : Written := writeSegments root l.segments v

/-- Write at a path that names no list item; on any other path nothing happens. -/
def write (root : Value) (p : Path) (v : Value) : Written :=
  match Location.ofPath? p with
  | some l => writeAt root l v
  | none => ⟨root, false⟩

/-! ## The paths present in a value -/

mutual
/-- Every path present below `above`, in the order of a walk. -/
def pathsBelow (above : List String) : Value → List Path
  | .obj fields => pathsOfFields above fields
  | .arr items =>
    if above = [] then []
    else
      let here := above ++ [wildcard]
      (Path.ofSegments here).toOption.toList ++ pathsOfItems here items
  | _ => []
def pathsOfFields (above : List String) : List (String × Value) → List Path
  | [] => []
  | (k, v) :: rest =>
    (Path.ofSegments (above ++ [k])).toOption.toList ++ pathsBelow (above ++ [k]) v ++ pathsOfFields above rest
def pathsOfItems (here : List String) : List Value → List Path
  | [] => []
  | v :: rest => pathsBelow here v ++ pathsOfItems here rest
end

def paths (v : Value) : List Path := pathsBelow [] v

end Settle.State
