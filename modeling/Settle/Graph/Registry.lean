/-
  Settle.Graph.Registry — the paths of a table as a tree of segments.

  The paths come in their order, so every ancestor of a path is in the tree before it. A
  path takes the next id, and the ids met on the way to its place are its chain. The
  place of a path, and the nearest place above it that has an id, are found by walking
  down from the root. `PathTable` finds the same by searching a list, and roots are told
  by ids in both (`DirtySet.resolve`, `DirtySet.locate`).
-/

import Settle.Declaration
import Settle.Dirty

namespace Settle

/-- A place in the tree: its id, if it has one, and the places below it by segment. -/
inductive Trie where
  | node (id : Option PathId) (children : List (String × Trie))

namespace Trie

def empty : Trie := .node none []

def id : Trie → Option PathId
  | .node i _ => i

def children : Trie → List (String × Trie)
  | .node _ c => c

@[simp] theorem id_node (i : Option PathId) (c : List (String × Trie)) : (node i c).id = i := rfl

@[simp] theorem children_node (i : Option PathId) (c : List (String × Trie)) : (node i c).children = c := rfl

def child? (t : Trie) (segment : String) : Option Trie := t.children.lookup segment

/-- The place that segments lead to. -/
def find? : Trie → List String → Option Trie
  | t, [] => some t
  | t, s :: rest => (t.child? s).bind fun c => c.find? rest

/-- The id at the place that segments lead to. -/
def id? (t : Trie) (segments : List String) : Option PathId := (t.find? segments).bind id

/-- The ids met on the way down, the place arrived at included. -/
def along : Trie → List String → List PathId
  | _, [] => []
  | t, s :: rest =>
    match t.child? s with
    | none => []
    | some c => c.id.toList ++ c.along rest

/-- The last id met on the way down, or else the one found before. -/
def deepest : Trie → Option PathId → List String → Option PathId
  | _, found, [] => found
  | t, found, s :: rest =>
    match t.child? s with
    | none => found
    | some c => c.deepest (c.id.or found) rest

/-- Give the place that segments lead to an id. Places that are missing are made. -/
def put (i : PathId) : List String → Trie → Trie
  | [], t => .node (some i) t.children
  | s :: rest, t => .node t.id (Group.upsert s (put i rest ((t.child? s).getD empty)) t.children)

end Trie

structure Registry where
  paths : List Path
  /-- The ids of each path's ancestors from the top down, its own last. -/
  chains : List (List PathId)
  trie : Trie
  /-- Segments of the longest path. -/
  depth : Nat

namespace Registry

def empty : Registry := ⟨[], [], .empty, 0⟩

/-- Give the next id to a path. -/
def add (r : Registry) (p : Path) : Registry where
  paths := r.paths ++ [p]
  chains := r.chains ++ [r.trie.along p.segments ++ [r.paths.length]]
  trie := r.trie.put r.paths.length p.segments
  depth := max r.depth p.length

/-- The registry of the paths of a table. -/
def ofTable (t : PathTable) : Registry := t.paths.foldl add empty

def path? (r : Registry) (i : PathId) : Option Path := r.paths[i]?

/-- The id of a registered path. -/
def id? (r : Registry) (p : Path) : Option PathId := r.trie.id? p.segments

/-- The id of a path or else of its nearest registered ancestor. -/
def resolve (r : Registry) (p : Path) : Option PathId := r.trie.deepest none p.segments

def chain (r : Registry) (i : PathId) : List PathId := r.chains.getD i []

end Registry

/-- The roots in ids of a registry, as `DirtySet.resolve` gives them of a table. -/
def DirtySet.locate (r : Registry) : DirtySet → DirtyIds
  | .everything reason => ⟨[], some reason⟩
  | .roots ps => ⟨((Path.roots ((ps.filterMap r.resolve).filterMap r.path?)).filterMap r.id?).mergeSort, none⟩

end Settle
