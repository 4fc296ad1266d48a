/-
  Settle.Plan.Flat — the tables of a graph laid out flat.

  Rows of ids stand one after another in one list, and a second list tells where each of
  them begins and ends. The triggers are made by going over the steps once: a step is put
  down at each of its inputs (`exact`) and at all ancestors of each (`under`), so it may
  come to a path more than once, and in the end every row is sorted, each step once. A
  table for each scope holds the position of every step in it.

  `Wiring` holds the same rows as lists, picks the triggers of a path out of the steps,
  and looks positions up in the orders.
-/

import Settle.Graph.Registry
import Settle.Plan.Wiring

namespace Settle

/-- Rows of ids, one after another. -/
structure Rows where
  /-- Where each row begins; the last one is the end of the last row. -/
  offsets : List Nat
  items : List Nat

namespace Rows

def empty : Rows := ⟨[0], []⟩

/-- Put a row at the end. -/
def push (r : Rows) (row : List Nat) : Rows := ⟨r.offsets ++ [(r.items ++ row).length], r.items ++ row⟩

def ofLists (rows : List (List Nat)) : Rows := rows.foldl push empty

def row (r : Rows) (i : Nat) : List Nat := (r.items.take (r.offsets.getD (i + 1) 0)).drop (r.offsets.getD i 0)

end Rows

/-- For each path, the steps to look at when it changes. -/
structure Triggers where
  /-- Steps with an input at the path. -/
  exact : List (List StepId)
  /-- Steps with an input at or under the path. -/
  under : List (List StepId)
  deriving DecidableEq, Repr

namespace Triggers

/-- No step is put down yet. -/
def blank (pathCount : Nat) : Triggers := ⟨List.replicate pathCount [], List.replicate pathCount []⟩

/-- Put a step down at a path. -/
def note (s : StepId) (rows : List (List StepId)) (p : PathId) : List (List StepId) := rows.modify p (· ++ [s])

/-- Put a step down at an input of it and at the input's ancestors. -/
def addInput (chains : List (List PathId)) (s : StepId) (t : Triggers) (input : PathId) : Triggers :=
  ⟨note s t.exact input, (chains.getD input []).foldl (note s) t.under⟩

def addStep (chains : List (List PathId)) (t : Triggers) (s : Step) : Triggers :=
  s.inputs.foldl (addInput chains s.id) t

/-- Every row sorted, each step once. -/
def tidy (rows : List (List StepId)) : List (List StepId) := rows.map fun row => row.mergeSort.eraseReps

def ofSteps (pathCount : Nat) (chains : List (List PathId)) (steps : List Step) : Triggers :=
  let noted := steps.foldl (addStep chains) (blank pathCount)
  ⟨tidy noted.exact, tidy noted.under⟩

def ofGraph (g : Graph) : Triggers := ofSteps g.table.size (Registry.ofTable g.table).chains g.steps

end Triggers

structure Flat where
  /-- Ancestors of each path, itself last. -/
  chains : Rows
  exact : Rows
  under : Rows
  /-- The position of each step in each scope, none where the scope leaves it out. -/
  positions : PerScope (List (Option Nat))

namespace Flat

/-- The positions in an order of so many steps. -/
def positionsOf (stepCount : Nat) (order : List StepId) : List (Option Nat) :=
  order.zipIdx.foldl (fun l e => l.set e.1 (some e.2)) (List.replicate stepCount none)

def ofGraph (g : Graph) : Flat :=
  let triggers := Triggers.ofGraph g
  { chains := .ofLists (Registry.ofTable g.table).chains
    exact := .ofLists triggers.exact
    under := .ofLists triggers.under
    positions := g.orders.map fun o => positionsOf g.steps.length o.order }

def position (f : Flat) (scope : Scope) (s : StepId) : Option Nat := ((f.positions.get scope)[s]?).join

/-- The steps a change of the path affects; a step may come more than once. -/
def affected (f : Flat) (p : PathId) : List StepId := (f.chains.row p).flatMap f.exact.row ++ f.under.row p

/-- Whether a change of the path affects a step of the scope. -/
def affectsScope (f : Flat) (scope : Scope) (p : PathId) : Bool :=
  (f.affected p).any fun s => (f.position scope s).isSome

/-- Whether a change of the path written by a step affects another step that comes
before it in the scope. -/
def affectsEarlier (f : Flat) (scope : Scope) (p : PathId) (s : StepId) : Bool :=
  match f.position scope s with
  | none => false
  | some here => (f.affected p).any fun other =>
      other != s && match f.position scope other with
        | some pos => pos < here
        | none => false

end Flat

end Settle
