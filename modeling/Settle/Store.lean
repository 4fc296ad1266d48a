/-
  Settle.Store — every instance of an engine, in the order of their registration.
-/

import Settle.Instance.Apply
import Settle.Link

namespace Settle

structure Store where
  instances : List Instance
  /-- The number of the last commit queued. -/
  seq : Nat

namespace Store

def empty : Store := ⟨[], 0⟩

def find? (s : Store) (key : Key) : Option Instance := s.instances.find? (·.key = key)

def contains (s : Store) (key : Key) : Bool := (s.find? key).isSome

def get (s : Store) (key : Key) : Except Error Instance :=
  match s.find? key with
  | some i => .ok i
  | none => .error (.unknownInstance key)

def add (s : Store) (i : Instance) : Store := { s with instances := s.instances ++ [i] }

/-- Put an instance in the place of the one with its key. -/
def put (s : Store) (i : Instance) : Store :=
  { s with instances := s.instances.map fun j => if j.key = i.key then i else j }

/-- Queue a commit under the next number. -/
def enqueue (s : Store) (key : Key) (c : Commit) : Except Error Store := do
  let i ← s.get key
  let seq := s.seq + 1
  return { s.put (i.enqueue { c with seq := seq }) with seq := seq }

/-- Instances with queued commits, urgent and not. -/
def backlog (s : Store) : Nat × Nat :=
  let ps := s.instances.filterMap (·.queuedPriority)
  (ps.count .normal, ps.count .low)

/-- Urgent first, then by the number of the oldest commit, then by key. -/
def comesBefore (a b : Priority × Nat × Key) : Bool :=
  if a.1 ≠ b.1 then a.1.rank ≤ b.1.rank else if a.2.1 ≠ b.2.1 then a.2.1 ≤ b.2.1 else a.2.2.le b.2.2

/-- Instances with queued commits that are not to be passed over, in the order in which
a tick takes them up. -/
def ready (s : Store) (skip : List Key) : List (Key × Priority) :=
  let waiting := (s.instances.filter fun i => !skip.contains i.key).filterMap fun i =>
    match i.queuedPriority, i.headSeq with
    | some p, some seq => some (p, seq, i.key)
    | _, _ => none
  (waiting.mergeSort comesBefore).map fun (p, _, key) => (key, p)

/-- The keys among these that have commits queued again. -/
def requeued (s : Store) (keys : List Key) : List Key :=
  keys.filter fun k => ((s.find? k).map (·.hasQueue)).getD false

/-- The committed value at a path. -/
def read (s : Store) (key : Key) (p : Path) : Except Error (Option Value) := do
  return State.read (← s.get key).state p

end Store

end Settle
