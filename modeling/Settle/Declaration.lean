/-
  Settle.Declaration — the derived fields of a module, as declared.

  A module declares groups of entries, each at a path text. Computed and linked entries
  become steps of the compiled graph; the other kinds only reserve their path. A
  derive function is a function of the state that also tells which paths it read if its
  view is traced, and gives the same if it is not; one that carries a name has its calls
  written into the trace of a pass.
-/

import Settle.View
import Settle.Policy

namespace Settle

/-- Whether a step runs with the change that dirties it or may wait for the lane. -/
inductive Scheduling where
  | immediate
  | deferred
  deriving DecidableEq, Repr

def Scheduling.name : Scheduling → String
  | .immediate => "immediate"
  | .deferred => "deferred"

/-- What one call of a derive function gave, and the paths it read. -/
structure Derived where
  outcome : Except Fault Value
  reads : List Path

/-- A derive function. -/
structure Derive where
  /-- The name its calls are traced under. -/
  name : Option String
  /-- A call with a traced view. -/
  run : Value → Derived
  /-- What a call with a plain view gives. -/
  plain : Value → Except Fault Value
  plain_eq : ∀ state, plain state = (run state).outcome

namespace Derive

/-- The derive function of a reading of the state. -/
def ofView (name : Option String) (f : View → Except Fault Value × View) (hf : View.Blind f) : Derive where
  name := name
  run := fun state => let (outcome, v) := f (.ofState state); ⟨outcome, v.reads⟩
  plain := fun state => (f (.plain state)).1
  plain_eq := fun state => (hf (.ofState state) (.plain state) rfl).1

/-- A derive function told by what it gives and reads. -/
def ofRun (name : Option String) (run : Value → Derived) : Derive where
  name := name
  run := run
  plain := fun state => (run state).outcome
  plain_eq := fun _ => rfl

@[simp] theorem ofRun_run (name : Option String) (run : Value → Derived) (state : Value) :
    (ofRun name run).run state = run state := rfl

/-- A call, and what it read if that is traced. -/
def call (d : Derive) (state : Value) (traced : Bool) : Derived := if traced then d.run state else ⟨d.plain state, []⟩

theorem call_outcome (d : Derive) (state : Value) (traced : Bool) :
    (d.call state traced).outcome = (d.run state).outcome := by
  cases traced with
  | true => rfl
  | false => exact d.plain_eq state

end Derive

/-- Decides whether the next value counts as the previous one. -/
abbrev Equality := Value → Value → Bool

structure Computed where
  deps : List String
  derive : Derive
  /-- `Value.same` when there is none. -/
  equality : Option Equality
  scheduling : Scheduling

inductive Entry where
  /-- A function of other fields. -/
  | computed (c : Computed)
  /-- A copy of another field. -/
  | link (source : String) (scheduling : Scheduling)
  /-- A field some resource fills. -/
  | source (deps : List String)
  /-- A place in the structure. -/
  | node
  /-- A list. -/
  | list

/-- A named group of entries in order, no two at the same text. -/
structure Group where
  name : String
  entries : List (String × Entry)

namespace Group

/-- Replace the value under a key where it stands, or append it. -/
def upsert {α : Type} (k : String) (a : α) : List (String × α) → List (String × α)
  | [] => [(k, a)]
  | (k', a') :: rest => if k' = k then (k, a) :: rest else (k', a') :: upsert k a rest

theorem lookup_upsert {α : Type} (k k' : String) (a : α) (l : List (String × α)) :
    (upsert k a l).lookup k' = if k' = k then some a else l.lookup k' := by
  induction l with
  | nil =>
    rw [upsert, List.lookup_cons]
    by_cases h : k' = k
    · simp [h]
    · simp [h, beq_false_of_ne h]
  | cons e l ih =>
    obtain ⟨k₀, a₀⟩ := e
    unfold upsert
    by_cases hk : k₀ = k
    · subst hk
      rw [if_pos rfl, List.lookup_cons, List.lookup_cons]
      by_cases h : k' = k₀
      · simp [h]
      · simp [h, beq_false_of_ne h]
    · rw [if_neg hk, List.lookup_cons, List.lookup_cons, ih]
      by_cases h : k' = k₀
      · subst h
        simp [hk]
      · simp [beq_false_of_ne h]

def named (name : String) : Group := ⟨name, []⟩

/-- Declare an entry; a second one at the same text takes the place of the first. -/
def field (g : Group) (path : String) (e : Entry) : Group := { g with entries := upsert path e g.entries }

end Group

/-- The paths a state is known to have. -/
structure Shape where
  paths : List Path

namespace Shape

def ofValue (v : Value) : Shape := ⟨State.paths v⟩

/-- The paths among the texts; a text that is no path is passed over. -/
def ofTexts (texts : List String) : Shape := ⟨texts.filterMap fun t => (Path.parse t).toOption⟩

def contains (s : Shape) (p : Path) : Bool := s.paths.contains p

end Shape

/-- All that a module declares. -/
structure Declaration where
  moduleId : String
  groups : List Group
  shape : Option Shape
  options : Policy.Overrides

namespace Declaration

def named (moduleId : String) : Declaration := ⟨moduleId, [], none, .empty⟩

def group (d : Declaration) (g : Group) : Declaration := { d with groups := d.groups ++ [g] }

end Declaration

end Settle
