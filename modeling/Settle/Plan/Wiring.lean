/-
  Settle.Plan.Wiring — the dense tables of a graph that passes work on.

  Everything is told by ids and belongs to one generation of the graph. A change of a
  path affects the steps that depend on or write a path overlapping it: those at one of
  its ancestors or itself (`exact`) and those at or under it (`under`). Which paths
  have changed is kept as two bit sets, of the changed ids and of all their ancestors;
  an input overlaps a changed path when it is one of the latter or has one of the
  former among its own ancestors. Where no path has more than one segment, overlap is
  equality and the first set alone decides.
-/

import Settle.Graph.Compile
import Settle.Plan.BitSet

namespace Settle

structure Wiring where
  generation : Nat
  pathCount : Nat
  /-- No path has more than one segment. -/
  shallow : Bool
  /-- Ancestors of each path, itself last. -/
  chains : List (List PathId)
  exact : List (List StepId)
  under : List (List StepId)
  /-- Inputs of each step. -/
  inputs : List (List PathId)
  /-- The field each step writes. -/
  outs : List PathId
  deferred : List Bool
  orders : PerScope (List StepId)
  backEdges : PerScope Bool

namespace Wiring

def ofGraph (g : Graph) : Wiring :=
  let ids := List.range g.table.size
  { generation := g.generation
    pathCount := g.table.size
    shallow := g.table.depth ≤ 1
    chains := ids.map g.table.chain
    exact := ids.map g.exact
    under := ids.map g.under
    inputs := g.steps.map (·.inputs)
    outs := g.steps.map (·.out)
    deferred := g.steps.map (·.scheduling = .deferred)
    orders := g.orders.map (·.order)
    backEdges := g.orders.map (·.hasBackEdges) }

def stepCount (w : Wiring) : Nat := w.outs.length

def order (w : Wiring) (scope : Scope) : List StepId := w.orders.get scope

def scopeSize (w : Wiring) (scope : Scope) : Nat := (w.order scope).length

/-- The position of a step in the order of a scope. -/
def position (w : Wiring) (scope : Scope) (s : StepId) : Option Nat := (w.order scope).idxOf? s

def out (w : Wiring) (s : StepId) : PathId := w.outs.getD s 0

def chain (w : Wiring) (p : PathId) : List PathId := w.chains.getD p []

def inputsOf (w : Wiring) (s : StepId) : List PathId := w.inputs.getD s []

/-- The steps a change of the path affects; a step may come more than once. -/
def affected (w : Wiring) (p : PathId) : List StepId :=
  (w.chain p).flatMap (fun a => w.exact.getD a []) ++ w.under.getD p []

def inScope (w : Wiring) (scope : Scope) (s : StepId) : Bool := (w.order scope).contains s

/-- Whether a change of the path affects a step of the scope. -/
def affectsScope (w : Wiring) (scope : Scope) (p : PathId) : Bool := (w.affected p).any (w.inScope scope)

/-- Whether a change of the path written by a step affects another step that comes
before it in the scope. -/
def affectsEarlier (w : Wiring) (scope : Scope) (p : PathId) (s : StepId) : Bool :=
  match w.position scope s with
  | none => false
  | some here => (w.affected p).any fun other =>
      other != s && match w.position scope other with
        | some pos => pos < here
        | none => false

end Wiring

/-- The paths marked as changed, and all their ancestors. -/
structure Marks where
  roots : BitSet
  ancestors : BitSet
  deriving DecidableEq

namespace Marks

def empty (w : Wiring) : Marks := ⟨.empty w.pathCount, .empty w.pathCount⟩

def clear (m : Marks) : Marks := ⟨m.roots.clear, m.ancestors.clear⟩

/-- Mark a path as changed. -/
def mark (w : Wiring) (m : Marks) (p : PathId) : Marks :=
  { roots := m.roots.set p
    ancestors := if w.shallow then m.ancestors.set p else (w.chain p).foldl BitSet.set m.ancestors }

/-- Whether the path overlaps a marked one. -/
def touches (w : Wiring) (m : Marks) (p : PathId) : Bool :=
  if w.shallow then m.roots.get p else m.ancestors.get p || (w.chain p).any m.roots.get

/-- Whether an input of the step overlaps a marked path. -/
def touchesStep (w : Wiring) (m : Marks) (s : StepId) : Bool := (w.inputsOf s).any (m.touches w)

end Marks

end Settle
