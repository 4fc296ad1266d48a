/-
  Settle.Graph.PathTable — dense ids for the paths of a graph.

  The table holds the given paths and all their ancestors, sorted, each once. The id of
  a path is its position, so an ancestor has a smaller id than its descendants and the
  ids do not depend on the order of declaration.
-/

import Settle.Path

namespace Settle

abbrev PathId := Nat

structure PathTable where
  paths : List Path
  deriving DecidableEq

namespace PathTable

/-- The table of these paths. -/
def ofPaths (paths : List Path) : PathTable :=
  ⟨((paths.flatMap Path.ancestry).mergeSort Path.le).eraseReps⟩

def size (t : PathTable) : Nat := t.paths.length

/-- The id of a path of the table. -/
def id? (t : PathTable) (p : Path) : Option PathId := t.paths.idxOf? p

def path? (t : PathTable) (i : PathId) : Option Path := t.paths[i]?

def textOf (t : PathTable) (i : PathId) : String := ((t.path? i).map Path.text).getD ""

/-- The id of a path or else of its nearest ancestor in the table. -/
def resolve (t : PathTable) (p : Path) : Option PathId := p.ancestry.reverse.findSome? t.id?

/-- The ids of a path's ancestors from the top down, its own last. -/
def chain (t : PathTable) (i : PathId) : List PathId :=
  match t.path? i with
  | some p => p.ancestry.filterMap t.id?
  | none => []

/-- Segments of the longest path. -/
def depth (t : PathTable) : Nat := t.paths.foldl (fun n p => max n p.length) 0

/-- Whether the paths with these ids overlap. -/
def overlap (t : PathTable) (i j : PathId) : Bool :=
  match t.path? i, t.path? j with
  | some p, some q => p.overlaps q
  | _, _ => false

end PathTable

end Settle
