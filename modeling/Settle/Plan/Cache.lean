/-
  Settle.Plan.Cache — plans kept for one generation of a graph.

  Entries stand in the order of their last use, the stalest first. When the generation
  moves all entries go; a cache that has moved often without paying off turns itself
  off and stays off.
-/

import Settle.Dirty
import Settle.Graph.Step

namespace Settle

/-- What a plan is kept under. -/
structure PlanKey where
  scope : Scope
  roots : List PathId
  deriving DecidableEq, Repr

/-- What the cache reports about itself. -/
structure PlanCacheStats where
  hits : Nat
  misses : Nat
  evictions : Nat
  disabled : Bool
  deriving DecidableEq, Repr

namespace PlanCacheStats

def zero : PlanCacheStats := ⟨0, 0, 0, false⟩

def toValue (s : PlanCacheStats) : Value :=
  .record [("hits", .ofNat s.hits), ("misses", .ofNat s.misses), ("evictions", .ofNat s.evictions),
    ("disabled", .bool s.disabled)]

end PlanCacheStats

structure PlanCache where
  generation : Nat
  capacity : Nat
  entries : List (PlanKey × List StepId)
  stats : PlanCacheStats
  /-- How often the generation moved. -/
  moves : Nat

namespace PlanCache

def defaultCapacity : Nat := 128

/-- Moves of the generation after which a cache with fewer hits than misses is off. -/
def maxMoves : Nat := 4

/-- An empty cache for a generation, of at least one entry. -/
def ofCapacity (generation capacity : Nat) : PlanCache := ⟨generation, max 1 capacity, [], .zero, 0⟩

def ofGeneration (generation : Nat) : PlanCache := ofCapacity generation defaultCapacity

def size (c : PlanCache) : Nat := c.entries.length

/-- Follow the generation of the graph. -/
def syncGeneration (c : PlanCache) (generation : Nat) : PlanCache :=
  if generation = c.generation then c
  else
    let moves := c.moves + 1
    let off := maxMoves ≤ moves && c.stats.hits < c.stats.misses
    { c with
      generation := generation
      entries := []
      moves := moves
      stats := { c.stats with disabled := c.stats.disabled || off } }

/-- Look a plan up; a hit makes its entry the freshest. -/
def get (c : PlanCache) (k : PlanKey) : Option (List StepId) × PlanCache :=
  if c.stats.disabled then (none, c)
  else
    match c.entries.lookup k with
    | some plan =>
      (some plan, { c with
        entries := c.entries.filter (·.1 ≠ k) ++ [(k, plan)]
        stats := { c.stats with hits := c.stats.hits + 1 } })
    | none => (none, { c with stats := { c.stats with misses := c.stats.misses + 1 } })

/-- Put a plan in, as the freshest unless its key is there; the stalest go. -/
def insert (c : PlanCache) (k : PlanKey) (plan : List StepId) : PlanCache :=
  if c.stats.disabled then c
  else
    let entries :=
      if c.entries.any (·.1 = k) then c.entries.map fun e => if e.1 = k then (k, plan) else e
      else c.entries ++ [(k, plan)]
    let surplus := entries.length - c.capacity
    { c with entries := entries.drop surplus, stats := { c.stats with evictions := c.stats.evictions + surplus } }

end PlanCache

end Settle
