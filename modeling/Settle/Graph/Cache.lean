/-
  Settle.Graph.Cache — compiled modules, kept while their digest stands.

  The derive functions always come from the declaration just compiled; the wiring and
  the generation are kept while the digest is that of the kept entry. A new digest
  takes the next generation of the module.
-/

import Settle.Plan.Wiring

namespace Settle

/-- A graph and the wiring of the same generation. -/
structure Compiled where
  graph : Graph
  wiring : Wiring

structure GraphCache where
  /-- The digest and wiring kept for each module. -/
  entries : List (String × UInt64 × Wiring)
  generations : List (String × Nat)
  hits : Nat
  misses : Nat

namespace GraphCache

def empty : GraphCache := ⟨[], [], 0, 0⟩

instance : Inhabited GraphCache := ⟨empty⟩

/-- The generation of a module, zero before its first graph. -/
def generation (c : GraphCache) (moduleId : String) : Nat := (c.generations.lookup moduleId).getD 0

/-- How a request was answered. -/
structure Answer where
  compiled : Compiled
  /-- The wiring was kept from before. -/
  reused : Bool

/-- The compiled module of a declaration. -/
def get (c : GraphCache) (d : Declaration) : Except Error (Answer × GraphCache) := do
  let generation := c.generation d.moduleId
  let graph ← Graph.compile d (max 1 generation)
  let kept := (c.entries.lookup d.moduleId).filter (·.1 = graph.digest)
  match kept with
  | some (_, wiring) =>
    return (⟨⟨{ graph with generation := generation }, wiring⟩, true⟩, { c with hits := c.hits + 1 })
  | none =>
    let graph := { graph with generation := generation + 1 }
    let wiring := Wiring.ofGraph graph
    return (⟨⟨graph, wiring⟩, false⟩,
      { c with
        entries := Group.upsert d.moduleId (graph.digest, wiring) c.entries
        generations := Group.upsert d.moduleId (generation + 1) c.generations
        misses := c.misses + 1 })

end GraphCache

end Settle
