/-
  Settle.Graph.Compile — from a declaration to its graph.

  Entries are checked group by group in the order of declaration; the first fault is
  the answer. Steps are then put in the order of the paths they write, so ids, orders
  and the digest do not depend on the order of declaration.

  The digest is the hash of a byte sequence (`digestBytes`) that holds the paths, each
  closed by a zero byte, the steps as words, a step's dependencies after their number,
  and the reserved paths, each closed by a one.
-/

import Settle.Error
import Settle.Digest
import Settle.Graph.Order

namespace Settle

/-- An entry that becomes a step, before ids are given. -/
structure Draft where
  out : Path
  deps : List Path
  source : Option Path
  body : Body
  scheduling : Scheduling
  group : String

/-- What the checked entries amount to. -/
structure Outline where
  /-- Each path declared and the group that did. -/
  owners : List (Path × String)
  drafts : List Draft
  /-- The paths of entries that are no steps. -/
  reserved : List Path

namespace Outline

def empty : Outline := ⟨[], [], []⟩

/-- Take the entry `raw` of a group. -/
def addEntry (group : String) (o : Outline) (raw : String) (e : Entry) : Except Error Outline := do
  let out ← Error.parsePath raw s!"group `{group}`"
  match o.owners.lookup out with
  | some first => throw (.duplicatePath out.text first group)
  | none => pure ()
  let o := { o with owners := o.owners ++ [(out, group)] }
  match e with
  | .computed c =>
    if c.deps = [] then throw (.missingDeps out.text)
    if out.hasWildcard then throw (.wildcardTarget out.text)
    let deps ← c.deps.mapM fun d => Error.parsePath d s!"deps of `{out.text}`"
    return { o with drafts := o.drafts ++ [⟨out, deps, none, .computed c.derive c.equality, c.scheduling, group⟩] }
  | .link raw scheduling =>
    if out.hasWildcard then throw (.wildcardTarget out.text)
    let source ← Error.parsePath raw s!"link source of `{out.text}`"
    if source = out then throw (.selfLink out.text)
    return { o with drafts := o.drafts ++ [⟨out, [source], some source, .link, scheduling, group⟩] }
  | .source deps =>
    let _ ← deps.mapM fun d => Error.parsePath d s!"source deps of `{out.text}`"
    return { o with reserved := o.reserved ++ [out] }
  | .node | .list => return { o with reserved := o.reserved ++ [out] }

def addGroup (o : Outline) (g : Group) : Except Error Outline :=
  g.entries.foldlM (fun o (raw, e) => o.addEntry g.name raw e) o

def ofDeclaration (d : Declaration) : Except Error Outline := d.groups.foldlM addGroup empty

/-- The drafts in the order of the paths they write. -/
def sorted (o : Outline) : List Draft := o.drafts.mergeSort fun a b => a.out.le b.out

def table (o : Outline) : PathTable := .ofPaths (o.sorted.flatMap fun d => d.out :: d.deps)

end Outline

/-- Compiled graph of a module. -/
structure Graph where
  moduleId : String
  table : PathTable
  /-- Steps in the order of the paths they write; a step's id is its position. -/
  steps : List Step
  /-- The bodies of the steps, in the same order. -/
  bodies : List Body
  orders : PerScope ScopeOrder
  /-- The levels of all steps, less those left over by a cycle. -/
  levels : List (List StepId)
  reserved : List Path
  /-- Fields written by a step that the declared shape lacks. -/
  shapeWarnings : List Path
  generation : Nat

namespace Graph

def step? (g : Graph) (i : StepId) : Option Step := g.steps[i]?

def body? (g : Graph) (i : StepId) : Option Body := g.bodies[i]?

def label (g : Graph) (i : StepId) : String := ((g.step? i).map (·.label)).getD ""

/-- The step that writes a field. -/
def stepFor? (g : Graph) (out : PathId) : Option StepId := g.steps.findIdx? (·.out = out)

/-- Steps that depend on the path or write it. -/
def exact (g : Graph) (p : PathId) : List StepId := (g.steps.filter fun s => s.inputs.contains p).map (·.id)

/-- Steps that depend on a path at or under this one, or write one. -/
def under (g : Graph) (p : PathId) : List StepId :=
  (g.steps.filter fun s => s.inputs.any fun i => (g.table.chain i).contains p).map (·.id)

def deferredCount (g : Graph) : Nat := g.orders.deferred.order.length

/-! ## Digest -/

def kindCode : StepKind → UInt32
  | .computed => 0
  | .link => 1

def schedulingCode : Scheduling → UInt32
  | .immediate => 0
  | .deferred => 1

/-- The bytes of one step: kind, scheduling, field, number of dependencies, dependencies. -/
def stepBytes (s : Step) : List UInt8 :=
  ([kindCode s.kind, schedulingCode s.scheduling, s.out.toUInt32, s.deps.length.toUInt32]
    ++ s.deps.map Nat.toUInt32).flatMap Digest.word

/-- The bytes a digest is taken of. -/
def digestBytes (table : PathTable) (steps : List Step) (reserved : List Path) : List UInt8 :=
  Digest.bytes "converge-ir"
    ++ table.paths.flatMap (fun p => Digest.bytes p.text ++ [0])
    ++ steps.flatMap stepBytes
    ++ reserved.flatMap (fun p => Digest.bytes p.text ++ [1])

/-- Digest of the content of a graph, its derive functions apart. -/
def digest (g : Graph) : UInt64 := Digest.ofBytes (digestBytes g.table g.steps g.reserved)

/-! ## Compilation -/

/-- The steps of the drafts, in order from an id on. -/
def stepsFrom (table : PathTable) : StepId → List Draft → List Step
  | _, [] => []
  | i, d :: rest =>
    { id := i
      kind := match d.body with
        | .computed _ _ => .computed
        | .link => .link
      out := (table.id? d.out).getD 0
      deps := (d.deps.filterMap table.id?).mergeSort.eraseReps
      source := d.source.bind table.id?
      scheduling := d.scheduling
      label := d.out.text
      group := d.group } :: stepsFrom table (i + 1) rest

/-- The order of a scope and its levels. -/
def orderOf (table : PathTable) (steps : List Step) (scope : Scope) : ScopeOrder × List (List StepId) :=
  let (levels, left) := Order.levels table (steps.filter fun s => scope.includes s.scheduling)
  let levels := levels.map fun l => l.map (·.id)
  let cyclic := left.map (·.id)
  (⟨levels.flatten ++ cyclic, cyclic⟩, levels)

/-- Compile a declaration. -/
def compile (d : Declaration) (generation : Nat) : Except Error Graph := do
  let o ← Outline.ofDeclaration d
  let table := o.table
  let steps := stepsFrom table 0 o.sorted
  match Order.linkCycle steps with
  | some out => throw (.linkCycle (table.textOf out))
  | none => pure ()
  let (all, levels) := orderOf table steps .all
  let (immediate, _) := orderOf table steps .immediate
  if immediate.hasBackEdges then
    throw (.immediateCycle (immediate.cyclic.filterMap fun i => (steps[i]?).map (·.label)))
  let (deferred, _) := orderOf table steps .deferred
  return {
    moduleId := d.moduleId
    table := table
    steps := steps
    bodies := o.sorted.map (·.body)
    orders := ⟨all, immediate, deferred⟩
    levels := levels
    reserved := o.reserved
    shapeWarnings := match d.shape with
      | some shape => (o.sorted.map (·.out)).filter fun p => !shape.contains p
      | none => []
    generation := generation }

/-- The description of a graph for tools. -/
def toValue (g : Graph) : Value :=
  .record [("module_id", .str g.moduleId), ("digest", .str (Value.hex 16 g.digest.toNat)),
    ("generation", .ofNat g.generation), ("field_paths", .ofList (.str ·.text) g.table.paths),
    ("steps", .ofList Step.toValue g.steps), ("topo_order", .ofList .ofNat g.orders.all.order),
    ("levels", .ofList (.ofList .ofNat) g.levels), ("reserved", .ofList (.str ·.text) g.reserved)]

end Graph

end Settle
