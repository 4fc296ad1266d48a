/-
  Settle.Graph.Search — finding a step by the field it writes, and a cycle of links by marks.

  The steps of a graph stand in the order of the fields they write, so the step of a field
  is found by halving the stretch in which it must stand.

  A search for a cycle follows links from one field after the other and marks what it
  comes by: the fields of the walk it is on, and those of walks that are over. A walk that
  meets a field of its own has come back there. One that meets a field of a walk that is
  over is over too, since from there on it would go where that one went. Any other field it
  meets is one that was unvisited, so a walk ends.

  `Graph.stepFor?` and `Order.linkCycle` find the same, the one by going through all steps
  and the other by starting afresh from every link.
-/

import Settle.Graph.Compile

namespace Settle.Search

/-! ## The step of a field -/

/-- The place that halving leaves of the stretch of `size` places from `base` on: the
upper half is taken unless it begins after the field. -/
def narrow (outs : List PathId) (out : PathId) (base size : Nat) : Nat :=
  if _h : 1 < size then
    let mid := base + size / 2
    if (outs[mid]?).any (out < ·) then narrow outs out base (size - size / 2)
    else narrow outs out mid (size - size / 2)
  else base
termination_by size
decreasing_by all_goals omega

/-- The step that writes a field. -/
def stepFor? (g : Graph) (out : PathId) : Option StepId :=
  let outs := g.steps.map (·.out)
  let i := narrow outs out 0 outs.length
  if outs[i]? = some out then some i else none

/-! ## Cycles of links -/

/-- Give a field a value among those of other fields: in its place if it has one, or else
at the end. -/
def put {α : Type} (k : PathId) (a : α) : List (PathId × α) → List (PathId × α)
  | [] => [(k, a)]
  | e :: rest => if e.1 = k then (k, a) :: rest else e :: put k a rest

theorem lookup_put {α : Type} (k k' : PathId) (a : α) (l : List (PathId × α)) :
    (put k a l).lookup k' = if k' = k then some a else l.lookup k' := by
  induction l with
  | nil =>
    rw [put, List.lookup_cons]
    by_cases h : k' = k
    · simp [h]
    · simp [h, beq_false_of_ne h]
  | cons e l ih =>
    unfold put
    by_cases hk : e.1 = k
    · rw [if_pos hk, List.lookup_cons, List.lookup_cons, hk]
      by_cases h : k' = k
      · simp [h]
      · simp [h, beq_false_of_ne h]
    · rw [if_neg hk, List.lookup_cons, List.lookup_cons, ih]
      by_cases h : k' = e.1
      · simp [h, hk]
      · simp [beq_false_of_ne h]

/-- What each link copies, by the field it writes. -/
def links (steps : List Step) : List (PathId × PathId) :=
  ((steps.filter (·.kind = .link)).filterMap fun s => s.source.map fun f => (s.out, f)).foldl
    (fun l e => put e.1 e.2 l) []

inductive Mark where
  | unvisited
  /-- On the walk that is under way. -/
  | inProgress
  /-- On a walk that is over. -/
  | done
  deriving DecidableEq, Repr

/-- The marks of the fields that links write. -/
abbrev Marks := List (PathId × Mark)

/-- How many fields no walk has come by. -/
def unvisited (m : Marks) : Nat := m.countP fun e => e.2 = .unvisited

theorem unvisited_put_lt {m : Marks} {k : PathId} (h : m.lookup k = some .unvisited) :
    unvisited (put k .inProgress m) < unvisited m := by
  induction m with
  | nil => cases h
  | cons e m ih =>
    rw [List.lookup_cons] at h
    unfold put
    by_cases hk : e.1 = k
    · rw [hk, beq_self_eq_true] at h
      simp [unvisited, hk, Option.some.inj h]
    · rw [beq_false_of_ne (Ne.symm hk)] at h
      have hlt := ih h
      simp only [unvisited, if_neg hk, List.countP_cons] at hlt ⊢
      omega

/-- Follow links from a field: the field that the walk comes back to, or else the marks and
the path of a walk that is over. -/
def walk (links : List (PathId × PathId)) (marks : Marks) (path : List PathId) :
    Option PathId → Except PathId (Marks × List PathId)
  | none => .ok (marks, path)
  | some node =>
    match _h : marks.lookup node with
    | some .inProgress => .error node
    | some .unvisited => walk links (put node .inProgress marks) (path ++ [node]) (links.lookup node)
    | some .done => .ok (marks, path)
    | none => .ok (marks, path)
termination_by unvisited marks
decreasing_by exact unvisited_put_lt _h

/-- The marks once the walk along a path is over. -/
def settle (marks : Marks) (path : List PathId) : Marks := path.foldl (fun m n => put n .done m) marks

/-- Walk from each of these fields that no walk has come by, until one comes back. -/
def search (links : List (PathId × PathId)) : Marks → List PathId → Option PathId
  | _, [] => none
  | marks, start :: rest =>
    if marks.lookup start = some .unvisited then
      match walk links marks [] (some start) with
      | .error node => some node
      | .ok (marks, path) => search links (settle marks path) rest
    else search links marks rest

/-- A field to which a chain of links returns. -/
def linkCycle (steps : List Step) : Option PathId :=
  let links := links steps
  search links (links.map fun e => (e.1, .unvisited)) (links.map (·.1))

end Settle.Search
