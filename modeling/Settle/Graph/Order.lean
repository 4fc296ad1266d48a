/-
  Settle.Graph.Order — which step reads which, and in what order steps run.

  A step reads another one if a dependency of it overlaps the field the other writes.
  Steps are peeled off in levels: each level is all remaining steps that read no other
  remaining one. What is left when a level would be empty lies on a cycle of reads or
  behind one.
-/

import Settle.Graph.Step

namespace Settle

/-- `reader` reads what `writer` writes, the two being different steps. -/
def Step.reads (table : PathTable) (reader writer : Step) : Bool :=
  writer.id != reader.id && reader.deps.any fun d => table.overlap writer.out d

/-- The order of a scope. -/
structure ScopeOrder where
  /-- Steps level by level; those left over by a cycle come last, in id order. -/
  order : List StepId
  /-- The steps left over. -/
  cyclic : List StepId
  deriving DecidableEq, Repr

def ScopeOrder.hasBackEdges (o : ScopeOrder) : Bool := !o.cyclic.isEmpty

namespace Order

/-- The step reads some other one of the remaining ones. -/
def blocked (table : PathTable) (remaining : List Step) (s : Step) : Bool :=
  remaining.any fun w => s.reads table w

/-- The steps that no level can take yet. -/
def waiting (table : PathTable) (remaining : List Step) : List Step := remaining.filter (blocked table remaining)

/-- The levels of the steps, and those left over. -/
def levels (table : PathTable) (remaining : List Step) : List (List Step) × List Step :=
  if (waiting table remaining).length < remaining.length then
    let (more, left) := levels table (waiting table remaining)
    (remaining.filter (fun s => !blocked table remaining s) :: more, left)
  else ([], remaining)
termination_by remaining.length

/-- The links from other fields. -/
def dropLink (node : PathId) (links : List (PathId × PathId)) : List (PathId × PathId) :=
  links.filter fun l => l.1 != node

theorem length_dropLink_lt {node next : PathId} {links : List (PathId × PathId)} (h : links.lookup node = some next) :
    (dropLink node links).length < links.length := by
  obtain ⟨l₁, l₂, hl, -⟩ := List.lookup_eq_some_iff.1 h
  exact List.length_filter_lt_length_iff_exists.2 ⟨(node, next), by simp [hl], by simp⟩

/-- The end of a walk along links from a field: the first one met again, if any. -/
def linkWalk (links : List (PathId × PathId)) (visited : List PathId) (node : PathId) : Option PathId :=
  if node ∈ visited then some node
  else
    match _h : links.lookup node with
    | none => none
    | some next => linkWalk (dropLink node links) (node :: visited) next
termination_by links.length
decreasing_by exact length_dropLink_lt _h

/-- The first field found to which a chain of links returns. -/
def linkCycle (steps : List Step) : Option PathId :=
  let links := (steps.filter (·.kind = .link)).filterMap fun s => s.source.map fun f => (s.out, f)
  links.findSome? fun l => linkWalk links [] l.1

end Order

end Settle
