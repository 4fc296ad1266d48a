/-
  Settle.Graph.Kahn — sorting steps by counting what they wait for.

  Every step of a scope counts the other steps of the scope that it reads and that are
  not taken yet. A round takes the steps that count nothing, in id order, and each of
  them lowers the counts of those that read it; whichever count comes to nothing is
  taken in the round after. Steps that count something when no round is left are those
  that a cycle keeps.

  A count that is nothing cannot be lowered, and a step without an entry in the lists of
  readers cannot be taken: either ends the sort with no result. `Order.levels` peels off
  the same levels without counting.
-/

import Settle.Graph.Order

namespace Settle.Kahn

/-! ## Readers -/

/-- Put an id at the end of a list, unless the list has it. -/
def insert (l : List StepId) (i : StepId) : List StepId := if i ∈ l then l else l ++ [i]

/-- The steps that read what a step writes. One that does by several dependencies is met
once for each, and put in once. -/
def readers (table : PathTable) (steps : List Step) (writer : Step) : List StepId :=
  steps.foldl (fun l reader =>
    reader.deps.foldl (fun l d =>
      if table.overlap writer.out d then
        if writer.id != reader.id then insert l reader.id else l
      else l) l) []

/-- The readers of each step, in the order of the steps. -/
def edges (table : PathTable) (steps : List Step) : List (List StepId) := steps.map (readers table steps)

/-! ## Counts -/

/-- What steps of a scope still count. -/
abbrev Counts := List (StepId × Nat)

def raise (c : Counts) (i : StepId) : Counts := c.map fun e => if e.1 = i then (e.1, e.2 + 1) else e

def lower (c : Counts) (i : StepId) : Counts := c.map fun e => if e.1 = i then (e.1, e.2 - 1) else e

/-- The counts to begin with: each step of the scope is counted by its readers there. -/
def start (edges : List (List StepId)) (members : List Step) : Option Counts :=
  members.foldlM (fun c w => (edges[w.id]?).map fun l => l.foldl raise c) (members.map fun s => (s.id, 0))

/-- Lower the count of a reader, if it has one. The second part holds the steps whose
count has come to nothing. -/
def release (b : Counts × List StepId) (i : StepId) : Option (Counts × List StepId) :=
  match b.1.lookup i with
  | none => some b
  | some 0 => none
  | some (n + 1) => some (lower b.1 i, if n = 0 then b.2 ++ [i] else b.2)

/-- Take a step: its readers no longer wait for it. -/
def take (edges : List (List StepId)) (b : Counts × List StepId) (i : StepId) : Option (Counts × List StepId) :=
  (edges[i]?).bind fun l => l.foldlM release b

/-! ## Rounds -/

/-- What all counts come to. -/
def total : Counts → Nat
  | [] => 0
  | e :: c => e.2 + total c

theorem total_lower_le (c : Counts) (i : StepId) : total (lower c i) ≤ total c := by
  induction c with
  | nil => exact Nat.le_refl _
  | cons e c ih =>
    simp only [total, lower, List.map_cons] at ih ⊢
    by_cases he : e.1 = i
    · simp only [he, if_true]
      omega
    · simp only [he, if_false]
      omega

theorem total_lower_lt {c : Counts} {i : StepId} {n : Nat} (h : c.lookup i = some (n + 1)) :
    total (lower c i) < total c := by
  induction c with
  | nil => cases h
  | cons e c ih =>
    obtain ⟨j, k⟩ := e
    have hle := total_lower_le c i
    simp only [total, lower, List.map_cons, List.lookup_cons] at h hle ih ⊢
    by_cases hj : j = i
    · simp only [hj, beq_self_eq_true, if_true, Option.some.injEq] at h ⊢
      omega
    · simp only [beq_eq_false_iff_ne.2 (Ne.symm hj), hj, if_false] at h ⊢
      have := ih h
      omega

/-- A step put into the next round costs a count. -/
theorem total_release {b b' : Counts × List StepId} {i : StepId} (h : release b i = some b') :
    total b'.1 + b'.2.length ≤ total b.1 + b.2.length := by
  unfold release at h
  split at h
  · cases h
    exact Nat.le_refl _
  · cases h
  · rename_i n hn
    cases h
    have hlt := total_lower_lt hn
    by_cases h0 : n = 0
    · simp only [h0, if_true, List.length_append, List.length_singleton]
      omega
    · simp only [h0, if_false]
      omega

/-- What no step of a fold raises is no higher at its end. -/
theorem foldlM_le {α β : Type} {f : β → α → Option β} {m : β → Nat} (hf : ∀ b a b', f b a = some b' → m b' ≤ m b)
    {l : List α} {b b' : β} (h : l.foldlM f b = some b') : m b' ≤ m b := by
  induction l generalizing b with
  | nil =>
    cases h
    exact Nat.le_refl _
  | cons a l ih =>
    rw [List.foldlM_cons] at h
    obtain ⟨c, hc, h⟩ := Option.bind_eq_some_iff.1 h
    exact Nat.le_trans (ih h) (hf b a c hc)

theorem total_take {edges : List (List StepId)} {b b' : Counts × List StepId} {i : StepId}
    (h : take edges b i = some b') : total b'.1 + b'.2.length ≤ total b.1 + b.2.length := by
  obtain ⟨l, -, h⟩ := Option.bind_eq_some_iff.1 h
  exact foldlM_le (fun _ _ _ => total_release) h

/-- Rounds until one has no step to take: the levels taken, the counts left and how many
steps were taken. -/
def rounds (edges : List (List StepId)) (c : Counts) (current : List StepId) (taken : Nat) :
    Option (List (List StepId) × Counts × Nat) :=
  if current = [] then some ([], c, taken)
  else
    match _h : current.mergeSort.foldlM (take edges) (c, []) with
    | none => none
    | some (c', next) =>
      (rounds edges c' next (taken + current.length)).map fun r => (current.mergeSort :: r.1, r.2)
termination_by 2 * total c + if current = [] then 0 else 1
decreasing_by
  rename_i hne
  have hle := foldlM_le (fun _ _ _ => total_take) _h
  simp only [List.length_nil, Nat.add_zero] at hle
  simp only [hne, if_false]
  by_cases hnext : next = []
  · simp only [hnext, if_true]
    omega
  · have := List.length_pos_iff.2 hnext
    simp only [hnext, if_false]
    omega

theorem rounds_of_take {edges : List (List StepId)} {c c' : Counts} {current next : List StepId} (hne : current ≠ [])
    (h : current.mergeSort.foldlM (take edges) (c, []) = some (c', next)) (taken : Nat) :
    rounds edges c current taken =
      (rounds edges c' next (taken + current.length)).map fun r => (current.mergeSort :: r.1, r.2) := by
  rw [rounds, if_neg hne]
  split
  · rename_i hnone
    rw [h] at hnone
    cases hnone
  · rename_i hsome
    rw [h] at hsome
    obtain ⟨rfl, rfl⟩ := Prod.mk.inj (Option.some.inj hsome)
    rfl

/-- The levels of a scope, and the steps that a cycle keeps, in id order. -/
def sort (table : PathTable) (steps : List Step) (scope : Scope) : Option (List (List StepId) × List StepId) :=
  let members := steps.filter fun s => scope.includes s.scheduling
  if members = [] then some ([], [])
  else
    let edges := edges table steps
    (start edges members).bind fun c =>
      (rounds edges c ((c.filter fun e => e.2 = 0).map (·.1)) 0).map fun (levels, c, taken) =>
        if taken ≠ members.length then (levels, ((c.filter fun e => 0 < e.2).map (·.1)).mergeSort) else (levels, [])

end Settle.Kahn
