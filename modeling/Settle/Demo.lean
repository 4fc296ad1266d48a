/-
  Settle.Demo — runs of the gallery, told line by line.

  A run prints the report of every tick, then what diagnostics kept, then the state of
  every instance. Its options stand in any order, each at most once, a value after its
  option or behind an equals sign.
-/

import Settle.Gallery
import Settle.Host

namespace Settle.Demo

inductive Scenario where
  /-- One computed field over one input. -/
  | a
  /-- A computed field that feeds a link. -/
  | b
  /-- A deferred step behind an immediate echo. -/
  | c
  /-- A cycle that the urgent step cap bounds. -/
  | cycle
  /-- An urgent and a background instance in one tick. -/
  | priority
  deriving DecidableEq, Repr

def Scenario.table : List (String × Scenario) :=
  [("a", .a), ("b", .b), ("c", .c), ("cycle", .cycle), ("priority", .priority)]

structure Options where
  scenario : Scenario
  level : Policy.Verbosity
  urgentStepCap : Nat
  maxSteps : Nat
  /-- Print the graph of every instance. -/
  showGraphs : Bool
  deriving DecidableEq, Repr

/-! ## Options -/

/-- The options given so far. -/
structure Given where
  scenario : Option Scenario
  level : Option Policy.Verbosity
  urgentStepCap : Option Nat
  maxSteps : Option Nat
  showGraphs : Bool

namespace Given

def nothing : Given := ⟨none, none, none, none, false⟩

/-- A value for an option that has none yet. -/
def once {α : Type} (old new : Option α) : Option (Option α) := if old.isSome then none else new.map some

/-- Give an option its value. -/
def set (g : Given) (name value : String) : Option Given :=
  match name with
  | "--scenario" => (once g.scenario (Scenario.table.lookup value)).map fun s => { g with scenario := s }
  | "--diagnostics" => (once g.level (Policy.Verbosity.table.lookup value)).map fun l => { g with level := l }
  | "--urgent-step-cap" =>
    (once g.urgentStepCap (Location.index? value.toList)).map fun n => { g with urgentStepCap := n }
  | "--max-steps" => (once g.maxSteps (Location.index? value.toList)).map fun n => { g with maxSteps := n }
  | _ => none

/-- Read arguments; none for a misuse. A lone `--` may end them. -/
def read : List String → Given → Option Given
  | [], g => some g
  | arg :: rest, g =>
    if arg = "--" then if rest = [] then some g else none
    else if arg = "--export-ir" then if g.showGraphs then none else read rest { g with showGraphs := true }
    else
      let name := arg.toList.takeWhile (· ≠ '=')
      match arg.toList.drop name.length with
      | _ :: value => (g.set (String.ofList name) (String.ofList value)).bind (read rest)
      | [] =>
        match rest with
        | value :: rest => (g.set arg value).bind (read rest)
        | [] => none

end Given

/-- The options that arguments ask for; none for a misuse. -/
def Options.ofArgs? (args : List String) : Option Options :=
  (Given.read args .nothing).map fun g =>
    { scenario := g.scenario.getD .a
      level := g.level.getD .full
      urgentStepCap := g.urgentStepCap.getD Policy.TickLimits.builtin.urgentStepCap
      maxSteps := g.maxSteps.getD Policy.TickLimits.builtin.maxSteps
      showGraphs := g.showGraphs }

def Options.config (o : Options) : Policy.Config :=
  { Policy.Config.builtin with
    tick := { Policy.TickLimits.builtin with urgentStepCap := o.urgentStepCap, maxSteps := o.maxSteps }
    reporting := { Policy.Reporting.builtin with level := o.level } }

/-! ## Runs -/

/-- A finished run. -/
structure Ran where
  keys : List Key
  reports : List TickReport
  engine : Engine

/-- One instance, one write, and ticks until nothing is queued. -/
def single (e : Engine) (d : Declaration) (id : String) (initial : Value) (path : String) (v : Value) (ticks : Nat) :
    Except Error Ran := do
  let (key, e) ← e.register d id initial
  let (reports, e) := (← e.set key path v).flushUntilIdle ticks
  return ⟨[key], reports, e⟩

/-- Two queries ten milliseconds apart, and time for the lane to flush. -/
def searching (e : Engine) : Except Error Ran := do
  let (key, e) ← e.register (Gallery.search 50 none) "box" Gallery.searchInitial
  let ask (e : Engine) (query : String) : Except Error (TickReport × Engine) := do
    let (r, e) := (← e.set key "query" (.str query)).flush
    return (r, (Host.ofEngine e |>.advance 10).engine)
  let (first, e) ← ask e "a"
  let (second, e) ← ask e "ab"
  return ⟨[key], [first, second], (Host.ofEngine e |>.advance 100).engine⟩

/-- A background and an urgent write that share a tick. -/
def sharing (e : Engine) : Except Error Ran := do
  let (urgent, e) ← e.register Gallery.counter "urgent" Gallery.counterInitial
  let (background, e) ← e.register Gallery.counter "background" Gallery.counterInitial
  let (_, _, e) := e.transact Engine.flush background .low [.set "n" (.int 7)]
  let (reports, e) := (← e.set urgent "n" (.int 3)).flushUntilIdle 8
  return ⟨[urgent, background], reports, e⟩

def Scenario.run (e : Engine) : Scenario → Except Error Ran
  | .a => single e Gallery.successor "a" Gallery.successorInitial "a" (.int 5) 8
  | .b => single e Gallery.checkout "cart" Gallery.checkoutInitial "profile.firstName" (.str "Grace") 8
  | .c => searching e
  | .cycle => single e (Gallery.clamp 20) "c" Gallery.clampInitial "y" (.int 1) 64
  | .priority => sharing e

/-- What is told of an instance at the end. -/
def instanceLines (o : Options) (i : Instance) : List Value :=
  .record [("instance", .str i.key.text), ("state", i.state)]
    :: if o.showGraphs then [i.executor.graph.toValue] else []

/-- The lines of a run. -/
def lines (o : Options) : Except Error (List Value) := do
  let ran ← o.scenario.run (.ofConfig o.config true true)
  return ran.reports.map (·.toValue) ++ ran.engine.diagnostics.events.map (·.toValue)
    ++ (ran.keys.filterMap ran.engine.store.find?).flatMap (instanceLines o)

end Settle.Demo
