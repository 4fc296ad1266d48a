/-
  Settle.Plan.Scratch — planning in buffers that are kept between calls.

  An executor plans into buffers it never gives back: the marks of what has changed, the
  steps reached as a bit set, the queue and the plan itself. A call empties them first
  and leaves in them what it found, so the next one meets whatever was left, by a plan
  or by a call that was cut off. Scanning here goes over the whole order again and skips
  what is reached. The queue takes the path put in last, and the steps of a path as its
  triggers list them, so steps are discovered in another order than `Plan.close` does.
-/

import Settle.Plan.Reach
import Settle.Proofs.BitSet

namespace Settle

/-- Put an index in; none if it is in already, or there is no word for it. -/
def BitSet.add? (s : BitSet) (i : Nat) : Option BitSet :=
  if i / 64 < s.words.length && !s.get i then some (s.set i) else none

namespace Plan

structure Scratch where
  /-- The roots, and the fields of the steps reached by scanning. -/
  seeds : Marks
  reachable : BitSet
  /-- Changed paths, the one put in last first. -/
  queue : List PathId
  plan : List StepId
  deriving DecidableEq

namespace Scratch

variable (w : Wiring) (scope : Scope)

def ofWiring : Scratch := ⟨.empty w, .empty w.stepCount, [], []⟩

/-- The steps of the scope that are reached, in its order. -/
def picked (b : Scratch) : List StepId := (w.order scope).filter b.reachable.get

/-- The steps of a list that are not reached. -/
def missing (l : List StepId) (reachable : BitSet) : List StepId := l.filter fun s => !reachable.get s

/-! ## Scanning -/

/-- Take over the bit set with the step in it, and mark the field of the step. -/
def enter (b : Scratch) (reachable : BitSet) (s : StepId) : Scratch :=
  { b with reachable := reachable, seeds := b.seeds.mark w (w.out s) }

@[simp] theorem enter_seeds (b : Scratch) (r : BitSet) (s : StepId) :
    (enter w b r s).seeds = b.seeds.mark w (w.out s) := rfl

@[simp] theorem enter_reachable (b : Scratch) (r : BitSet) (s : StepId) : (enter w b r s).reachable = r := rfl

@[simp] theorem enter_plan (b : Scratch) (r : BitSet) (s : StepId) : (enter w b r s).plan = b.plan := rfl

/-- One scan; tells whether it reached a step. -/
def scan : List StepId → Scratch → Bool × Scratch
  | [], b => (false, b)
  | s :: rest, b =>
    match b.reachable.add? s with
    | none => scan rest b
    | some reachable =>
      if b.seeds.touchesStep w s then
        (true, (scan rest (enter w b reachable s)).2)
      else scan rest b

theorem get_of_add? {r r' : BitSet} {i : Nat} (h : r.add? i = some r') (j : Nat) :
    r'.get j = (r.get j || decide (i = j)) := by
  unfold BitSet.add? at h
  split at h
  · rename_i hi
    simp only [Bool.and_eq_true, decide_eq_true_eq] at hi
    cases h
    have hsized : r.Sized (64 * r.words.length) := by
      unfold BitSet.Sized
      omega
    exact BitSet.get_set hsized (by omega) j
  · cases h

theorem out_of_add? {r r' : BitSet} {i : Nat} (h : r.add? i = some r') : r.get i = false := by
  unfold BitSet.add? at h
  split at h
  · simp_all
  · cases h

theorem missing_of_add? {r r' : BitSet} {s : StepId} (h : r.add? s = some r') (l : List StepId) :
    missing l r' = (missing l r).filter fun t => t != s := by
  unfold missing
  rw [List.filter_filter]
  refine List.filter_congr fun t _ => ?_
  rw [get_of_add? h]
  by_cases ht : s = t
  · simp [ht]
  · simp [ht, Ne.symm ht]

/-- A step put in is one fewer missing. -/
theorem length_missing_of_add? {r r' : BitSet} {s : StepId} (h : r.add? s = some r') {l : List StepId} (hs : s ∈ l) :
    (missing l r').length < (missing l r).length := by
  rw [missing_of_add? h]
  refine List.length_filter_lt_length_iff_exists.2 ⟨s, ?_, by simp⟩
  simp [missing, hs, out_of_add? h]

/-- No scan loses a step, and one that reached a step leaves fewer missing. -/
theorem length_missing_scan {order : List StepId} (l : List StepId) (b : Scratch) (hl : ∀ s ∈ l, s ∈ order) :
    (missing order (scan w l b).2.reachable).length ≤ (missing order b.reachable).length ∧
      ((scan w l b).1 = true →
        (missing order (scan w l b).2.reachable).length < (missing order b.reachable).length) := by
  induction l generalizing b with
  | nil => exact ⟨Nat.le_refl _, nofun⟩
  | cons s rest ih =>
    have hrest : ∀ t ∈ rest, t ∈ order := fun t ht => hl t (List.mem_cons_of_mem s ht)
    rw [scan]
    cases ha : b.reachable.add? s with
    | none => exact ih b hrest
    | some reachable =>
      have hless := length_missing_of_add? ha (hl s List.mem_cons_self)
      simp only
      split
      · have hle := (ih (enter w b reachable s) hrest).1
        exact ⟨Nat.le_trans hle (Nat.le_of_lt hless), fun _ => Nat.lt_of_le_of_lt hle hless⟩
      · exact ih b hrest

/-- Scan until nothing is reached. -/
def scans (b : Scratch) : Scratch :=
  let r := scan w (w.order scope) b
  if r.1 then scans r.2 else r.2
termination_by (missing (w.order scope) b.reachable).length
decreasing_by
  rename_i hadded
  exact (length_missing_scan w (w.order scope) b fun _ hs => hs).2 hadded

/-- A forced step of the scope is reached and its field marked. -/
def force (b : Scratch) (s : StepId) : Scratch :=
  if w.inScope scope s then enter w b (b.reachable.set s) s else b

/-- Plan a small scope. -/
def linear (roots : List PathId) (forced : List StepId) (b : Scratch) : Scratch :=
  let b := { b with seeds := roots.foldl (Marks.mark w) b.seeds }
  let b := scans w scope (forced.foldl (force w scope) b)
  { b with plan := b.plan ++ b.picked w scope }

/-! ## The queue -/

/-- Reach a step of the scope that is not reached yet: its field goes into the queue.
The second part holds the steps discovered. -/
def visit (b : Scratch × List StepId) (s : StepId) : Scratch × List StepId :=
  match b.1.reachable.add? s with
  | none => b
  | some reachable =>
    if w.inScope scope s then
      ({ b.1 with reachable := reachable, queue := w.out s :: b.1.queue }, b.2 ++ [s])
    else b

theorem visit_measure (b : Scratch × List StepId) (s : StepId) :
    (missing (w.order scope) (visit w scope b s).1.reachable).length + (visit w scope b s).1.queue.length ≤
      (missing (w.order scope) b.1.reachable).length + b.1.queue.length := by
  unfold visit
  cases ha : b.1.reachable.add? s with
  | none => exact Nat.le_refl _
  | some reachable =>
    simp only
    split
    · rename_i hin
      have hs : s ∈ w.order scope := List.contains_iff_mem.1 hin
      have := length_missing_of_add? ha hs
      simp only [List.length_cons]
      omega
    · exact Nat.le_refl _

theorem foldl_visit_measure (l : List StepId) (b : Scratch × List StepId) :
    (missing (w.order scope) (l.foldl (visit w scope) b).1.reachable).length + (l.foldl (visit w scope) b).1.queue.length ≤
      (missing (w.order scope) b.1.reachable).length + b.1.queue.length := by
  induction l generalizing b with
  | nil => exact Nat.le_refl _
  | cons s rest ih => exact Nat.le_trans (ih _) (visit_measure w scope b s)

/-- Take paths from the queue until it is empty; the steps discovered, or none when cut
off. -/
def drain (expired : Bool) (b : Scratch) (found : List StepId) (popped : Nat) : Scratch × Option (List StepId) :=
  match _hq : b.queue with
  | [] => (b, some found)
  | p :: rest =>
    let popped := popped + 1
    if popped % deadlineInterval = 0 && expired then ({ b with queue := rest }, none)
    else
      let r := (w.affected p).foldl (visit w scope) ({ b with queue := rest }, found)
      drain expired r.1 r.2 popped
termination_by (missing (w.order scope) b.reachable).length + b.queue.length
decreasing_by
  have := foldl_visit_measure w scope (w.affected p) ({ b with queue := rest }, found)
  rw [_hq, List.length_cons]
  simp only at this
  omega

/-- Reach what the roots and the forced steps reach, by the queue. -/
def closure (roots : List PathId) (forced : List StepId) (expired : Bool) (b : Scratch) :
    Scratch × Option (List StepId) :=
  let r := forced.foldl (visit w scope) ({ b with queue := roots.reverse }, [])
  drain w scope expired r.1 r.2 0

/-- Plan any scope; tells whether the plan was made. -/
def queued (roots : List PathId) (forced : List StepId) (expired : Bool) (b : Scratch) : Bool × Scratch :=
  match closure w scope roots forced expired b with
  | (b, none) => (false, b)
  | (b, some found) =>
    if found.length * 8 < w.scopeSize scope then (true, { b with plan := b.plan ++ byPosition w scope found })
    else (true, { b with plan := b.plan ++ b.picked w scope })

/-- Everything a plan is made of emptied, except the queue, which a scan does not use. -/
def start (b : Scratch) : Scratch := { b with plan := [], reachable := b.reachable.clear, seeds := b.seeds.clear }

/-- Leave the plan of a scope in the buffer; tells whether it was made before the
deadline. -/
def compute (roots : List PathId) (forced : List StepId) (expired : Bool) (b : Scratch) : Bool × Scratch :=
  if w.scopeSize scope < smallScope && !w.backEdges.get scope then (true, linear w scope roots forced b.start)
  else queued w scope roots forced expired b.start

end Scratch

end Plan

end Settle
