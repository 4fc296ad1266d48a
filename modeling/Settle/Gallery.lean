/-
  Settle.Gallery — ready-made declarations and the states they start from.
-/

import Settle.Formula

namespace Settle.Gallery

open Formula

def computed (deps : List String) (e : Formula) : Entry :=
  .computed ⟨deps, e.derive none, none, .immediate⟩

/-- `derivedA = a + 1`. -/
def successor : Declaration :=
  (Declaration.named "scenario-a").group
    ((Group.named "derived").field "derivedA" (computed ["a"] (.add [.get "a", .const (.int 1)])))

def successorInitial : Value := .record [("a", .int 0), ("derivedA", .int 1)]

/-- A full name, copied into the shipping address by a link. -/
def checkout : Declaration :=
  let first := "profile.firstName"
  let last := "profile.lastName"
  ((Declaration.named "checkout").group
    ((Group.named "profile").field "profile.fullName"
      (computed [first, last] (.concat [.string first, .const (.str " "), .string last])))).group
    ((Group.named "shipping").field "shipping.recipientName" (.link "profile.fullName" .immediate))

def checkoutInitial : Value :=
  .record [
    ("profile", .record [("firstName", .str "Ada"), ("lastName", .str "Lovelace"), ("fullName", .str "Ada Lovelace")]),
    ("shipping", .record [("recipientName", .str "Ada Lovelace")])]

/-- A search box: an immediate echo of the query and a deferred count of its bytes, with
time slicing on. -/
def search (debounceMs : Nat) (lane : Option Policy.Override) : Declaration :=
  let slicing : Policy.TimeSlicingPatch := ⟨some true, some debounceMs, some (debounceMs * 4)⟩
  let options : Policy.Overrides :=
    { convergence := { Policy.ConvergencePatch.empty with timeSlicing := some slicing }
      lanes := { Policy.LanePatch.empty with overrideMode := lane }
      concurrency := .empty }
  let count := Formula.length (.string "query")
  let group := ((Group.named "search").field "echo" (.link "query" .immediate)).field "results.count"
    (.computed ⟨["query"], count.derive none, none, .deferred⟩)
  { (Declaration.named "search").group group with options }

def searchInitial : Value :=
  .record [("query", .str ""), ("echo", .str ""), ("results", .record [("count", .int 0)])]

/-- `x = min (y + 1) limit` and a deferred `y = x`: a cycle that climbs to its limit. -/
def clamp (limit : Int) : Declaration :=
  (Declaration.named "clamp").group
    (((Group.named "cycle").field "x"
      (computed ["y"] (.least [.add [.get "y", .const (.int 1)], .const (.int limit)]))).field "y" (.link "x" .deferred))

def clampInitial : Value := .record [("x", .int 0), ("y", .int 0)]

/-- `double = n * 2`. -/
def counter : Declaration :=
  (Declaration.named "counter").group
    ((Group.named "derived").field "double" (computed ["n"] (.mul [.get "n", .const (.int 2)])))

def counterInitial : Value := .record [("n", .int 0), ("double", .int 0)]

/-- The text `sum=` and the compact text of the sum. -/
def sumLabel : Derive :=
  .ofView none (fun v => let (x, v) := v.get "sum"; (.ok (.str ("sum=" ++ x.text)), v)) fun v v' h =>
    ⟨congrArg (fun x : Value => Except.ok (Value.str ("sum=" ++ x.text))) (View.blind_get "sum" v v' h).1,
      (View.blind_get "sum" v v' h).2⟩

/-- A diamond `base → left, right → sum` with a label off the sum. -/
def diamond : Declaration :=
  let group := ((((Group.named "derived").field "label" (.computed ⟨["sum"], sumLabel, none, .immediate⟩)).field
    "sum" (computed ["left", "right"] (.add [.get "left", .get "right"]))).field
    "left" (computed ["base"] (.add [.get "base", .const (.int 1)]))).field
    "right" (computed ["base"] (.mul [.get "base", .const (.int 10)]))
  (Declaration.named "diamond").group group

end Settle.Gallery
