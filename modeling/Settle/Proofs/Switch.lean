/-
  Settle.Proofs.Switch — carried work under other policies (see `Settle.Instance.Apply`).

  Work that a stopped pass left behind waits in the queue without the scope it was made
  under. The unit that resumes it chooses its passes by the policies in force by then:
  - a single pass over all steps takes up every step that the work concerns;
  - a sliced unit takes the immediate steps up in its first pass. A deferred step it takes
    up when it comes with deferred work for it, or when the roots of the unit or a field
    that the first pass writes move it.

  A step is taken up when it is run (`Instance.ran`), is left to a later unit or the lane,
  or was due in a pass that failed (`Instance.TakesUp`). A sliced unit does not look at
  deferred steps that the carried work alone names, as a pass over all steps names them
  when it is stopped: its first pass leaves them out, and nothing hands them on
  (`Instance.carried_after_switch`). Such a switch leaves the fields stale, and the unit
  that drops them is stable (`Relay.forced_step_dropped`).
-/

import Settle.Proofs.Instance
import Settle.Proofs.Ran

namespace Settle

namespace Instance

namespace Run

variable {g : Graph} {w : Wiring} {r : Run} {scope : Scope} {carried : Option Carried} {j : StepId}

/-! ## The steps that a unit runs -/

/-- The steps that a pass within the budget runs. -/
def ran (r : Run) (scope : Scope) (carried : Option Carried) : List StepId :=
  if r.budget = some 0 then []
  else r.inst.executor.ran (r.clock r.report.passes) r.context ⟨scope, r.config scope, carried⟩

/-- Those of the pass in which immediate steps settle back. -/
def backRan (r : Run) (changed : List Path) : List StepId :=
  if r.inst.executor.affects .immediate (.ofPaths changed) then (r.on (.ofPaths changed)).ran .immediate none else []

/-- Those of deferred work that is run now. -/
def deferredRan (r : Run) (work : Deferred) : List StepId :=
  (r.takeUp work).ran .deferred work.carried ++ (r.ahead work).2.backRan (written (r.ahead work).1)

def turnRan (r : Run) (lane : Option Lane) (o : Option Deferred) : List StepId :=
  match o with
  | none => []
  | some work => (r.withLane lane).deferredRan work

/-- What a unit's report counts for a pass. -/
theorem pass_counts (h : Works g w r) (scope : Scope) (carried : Option Carried) :
    (r.pass scope carried).2.report.steps = r.report.steps + (r.ran scope carried).length ∧
      ∀ j ∈ r.ran scope carried, j ∈ w.order scope := by
  by_cases hb : r.budget = some 0
  · rw [pass_spent hb, ran, if_pos hb]
    refine ⟨?_, fun _ hj => absurd hj List.not_mem_nil⟩
    unfold leave
    dsimp only
    split <;> split <;> rfl
  · have hcount : (r.passed scope carried).outcome.summary.executedSteps = _ ∧ _ := Executor.pass_counts h.executor
    rw [ran, if_neg hb]
    refine ⟨?_, h.wiring ▸ hcount.2⟩
    rw [← hcount.1]
    unfold passed pass
    rw [if_neg hb]
    dsimp only
    split <;> split <;> rfl

theorem settleBack_counts (h : Works g w r) (changed : List Path) :
    (r.settleBack changed).report.steps = r.report.steps + (r.backRan changed).length := by
  unfold backRan
  rcases settleBack_cases r changed with ⟨ha, he⟩ | ⟨ha, he⟩
  · rw [he, if_neg (Bool.eq_false_iff.1 ha)]
    rfl
  · rw [he, if_pos ha, putBy_report]
    exact (pass_counts (r := r.on (.ofPaths changed)) (h.congr rfl) .immediate none).1

theorem turn_counts (h : Works g w r) (lane : Option Lane) (o : Option Deferred) :
    (r.turn lane o).report.steps = r.report.steps + (r.turnRan lane o).length := by
  cases o with
  | none => rfl
  | some work =>
    have htaken : Works g w ((r.withLane lane).takeUp work) := h.congr rfl
    have hahead : ((r.withLane lane).ahead work).2.report.steps =
        r.report.steps + (((r.withLane lane).takeUp work).ran .deferred work.carried).length :=
      (pass_counts htaken .deferred work.carried).1
    have hworks : Works g w ((r.withLane lane).ahead work).2 := pass_works htaken .deferred work.carried
    show ((r.withLane lane).runDeferred work).report.steps = r.report.steps + ((r.withLane lane).deferredRan work).length
    rw [runDeferred_eq, settleBack_counts hworks, hahead, deferredRan, List.length_append, Nat.add_assoc]

theorem settleBack_works (h : Works g w r) (changed : List Path) : Works g w (r.settleBack changed) := by
  rcases settleBack_cases r changed with ⟨-, he⟩ | ⟨-, he⟩
  · rw [he]
    exact h
  · have hback : Works g w (r.back changed).2 :=
      pass_works (r := r.on (.ofPaths changed)) (h.congr rfl) .immediate none
    rw [he]
    exact putBy_works hback _

theorem turn_works (h : Works g w r) (lane : Option Lane) (o : Option Deferred) : Works g w (r.turn lane o) := by
  cases o with
  | none => exact h.congr rfl
  | some work =>
    have hahead : Works g w ((r.withLane lane).ahead work).2 :=
      pass_works (r := (r.withLane lane).takeUp work) (h.congr rfl) .deferred work.carried
    show Works g w ((r.withLane lane).runDeferred work)
    rw [runDeferred_eq]
    exact settleBack_works hahead _

theorem turn_lane (r : Run) (lane : Option Lane) (o : Option Deferred) : (r.turn lane o).inst.lane = lane := by
  have hturn : Follows r.inst.executor.graph (r.withLane lane) (r.turn lane o) := turn_follows r lane o
  exact hturn.lane

/-! ## What is due is taken up -/

/-- A step that a pass has due is run or owed to its scope, unless the pass fails. -/
theorem pass_takes (h : Works g w r) (hj : j ∈ w.order scope) (hd : g.Due r.context.dirty carried j) :
    j ∈ r.ran scope carried ∨ (r.pass scope carried).2.Owes g scope j ∨
      ∃ t ∈ r.tried scope carried, t.failed = true ∧ t.Asks g w j := by
  by_cases hb : r.budget = some 0
  · rw [pass_spent hb]
    exact .inr (.inl (leave_owes (.inr hd)))
  obtain rfl := h.graph
  obtain rfl := h.wiring
  rw [ran, if_neg hb, tried_ran hb]
  have htaken : _ ∨ _ ∨ (r.passed scope carried).outcome.summary.degrade = _ := Executor.due_ran h.executor hj hd
  rcases htaken with hran | ho | hfail
  · exact .inl hran
  · exact .inr (.inl (pass_carries hb (.inr ho)))
  · exact .inr (.inr ⟨_, List.mem_singleton_self _, decide_eq_true hfail, hj, hd⟩)

/-- Deferred work that is run now takes up the steps that it has due. -/
theorem turn_takes (h : Works g w r) {lane : Option Lane} {o : Option Deferred} (hj : j ∈ w.order .deferred)
    (hd : g.Defers o j) :
    j ∈ r.turnRan lane o ∨ (r.turn lane o).Owes g .deferred j ∨
      ∃ t ∈ r.turnTries lane o, t.failed = true ∧ t.Asks g w j := by
  obtain ⟨work, rfl, hd⟩ := hd
  have htaken : Works g w ((r.withLane lane).takeUp work) := h.congr rfl
  rcases pass_takes htaken hj hd with hran | ho | ⟨t, ht, hfail⟩
  · exact .inl (List.mem_append_left _ hran)
  · refine .inr (.inl ?_)
    show ((r.withLane lane).runDeferred work).Owes g .deferred j
    rw [runDeferred_eq]
    exact (settleBack_follows _ _).owes .deferred j ho
  · exact .inr (.inr ⟨t, List.mem_append_left _ ht, hfail⟩)

/-- A pass over immediate steps that is run puts nothing by for deferred ones, and leaves
what its executor hands back. -/
theorem pass_leaves (hb : r.budget ≠ some 0) (carried : Option Carried) :
    (r.pass .immediate carried).2.deferred = r.deferred ∧ (r.pass .immediate carried).2.leftover = r.leftover ∧
      (r.pass .immediate carried).2.carried =
        Carried.merge? r.carried (r.passed .immediate carried).outcome.carried := by
  unfold pass
  rw [if_neg hb]
  exact ⟨rfl, rfl, rfl⟩

/-- What an immediate pass that feeds no deferred step leaves concerns none either, as its
own writes would have fed it. -/
theorem pass_owes_unfed (h : Works g w r) (hb : r.budget ≠ some 0) (hnone : r.carried = none)
    (hfed : r.inst.executor.affects .deferred (r.fed carried) = false) (hj : j ∈ w.order .deferred) :
    ¬ g.Due .empty (r.pass .immediate carried).2.carried j := by
  obtain rfl := h.graph
  obtain rfl := h.wiring
  intro hd
  rcases hd with hd | ⟨work, hwork, ho⟩
  · exact Graph.not_dirtied_of_isEmpty rfl hd
  · obtain ⟨hout, -, -⟩ := pass_ran hb .immediate carried
    have hleft : (r.passed .immediate carried).outcome.carried = some work := by
      rwa [(pass_leaves hb carried).2.2, hnone, Carried.none_merge?] at hwork
    unfold passed at hleft
    obtain ⟨p, hp, hm⟩ := Executor.moved_of_owes h.executor hleft ho (h.executor.wired.not_immediate hj)
    refine h.executor.not_dirtied hfed hj (dirtied_fed (.inr ⟨p, ?_, hm⟩))
    rw [hout]
    exact hp

/-- Whether roots can move a step is not for a pass to change. -/
theorem affects_pass (r : Run) (scope : Scope) (carried : Option Carried) (scope' : Scope) (d : DirtySet) :
    (r.pass scope carried).2.inst.executor.affects scope' d = r.inst.executor.affects scope' d := by
  by_cases hb : r.budget = some 0
  · rw [pass_spent hb, leave_inst]
  · obtain ⟨-, hi, -⟩ := pass_ran hb scope carried
    rw [hi]
    show (r.passed scope carried).executor.affects scope' d = _
    unfold passed
    rcases Executor.passUnder_executor (r.clock r.report.passes) r.inst.executor r.context
      ⟨scope, r.config scope, carried⟩ r.diagnostics with he | he
    · rw [he]
    · rw [he]
      rfl

/-- Nothing follows an immediate pass that feeds no deferred step and comes with no work
for one. -/
theorem turned_of_unfed {fed : DirtySet} (hfed : r.inst.executor.affects .deferred fed = false) (mode : DeferredMode)
    (now : Time) : r.turned mode none fed now = (r.inst.lane, none) := by
  unfold turned workFor
  rw [hfed]
  rfl

/-- What is queued after passes that put nothing by for deferred steps and left no roots:
the work that they carry. -/
theorem followUps_of_carried (hnone : r.deferred = .empty) (hleft : r.leftover = .empty) (hq : r.inst.queue = [])
    (now : Time) : (r.followUps now).lane = r.inst.lane ∧ ∀ c ∈ (r.followUps now).queue,
      c.change.dirty = .empty ∧ c.change.carried = r.carried ∧ c.change.deferred = none := by
  have hhand : r.handOn now = (none, r.inst.lane) := by
    unfold handOn
    rw [hnone]
    rfl
  have hqueue : (r.followUps now).queue = r.carryOn.toList := by
    unfold followUps
    rw [hhand, hq]
    exact List.append_nil _
  refine ⟨congrArg Prod.snd hhand, fun c hc => ?_⟩
  rw [hqueue, Option.mem_toList] at hc
  unfold carryOn at hc
  split at hc
  · cases hc
  · cases hc
    exact ⟨hleft, rfl, rfl⟩

end Run

section

variable {c : Compiled} {g : Graph} {w : Wiring} {i i₀ : Instance} {u : WorkUnit} {j : StepId}
  {clock : Nat → Nat → Bool} {d : Diagnostics} {budget : Option Nat}

/-- The steps that a unit runs, in order. -/
def ran (i : Instance) (clock : Nat → Nat → Bool) (u : WorkUnit) (now : Time) (d : Diagnostics) (budget : Option Nat) :
    List StepId :=
  let r := i.begin clock u d budget
  match i.deferredMode with
  | .inline => r.ran .all (i.carriedAll u)
  | mode =>
    let after := (r.pass .immediate u.change.carried).2
    let (lane, o) := after.turned mode u.change.deferred (r.fed u.change.carried) now
    r.ran .immediate u.change.carried ++ after.turnRan lane o

/-- What the unit and its pass over immediate steps changed. -/
def fed (i : Instance) (clock : Nat → Nat → Bool) (u : WorkUnit) (d : Diagnostics) (budget : Option Nat) : DirtySet :=
  (i.begin clock u d budget).fed u.change.carried

theorem begin_works (hs : i.executor.Sound) :
    Run.Works i.executor.graph i.executor.wiring (i.begin clock u d budget) := (begin_tracks hs).toWorks

theorem ran_inline (hm : i.deferredMode = .inline) (now : Time) :
    i.ran clock u now d budget = (i.begin clock u d budget).ran .all (i.carriedAll u) := by
  unfold ran
  rw [hm]

theorem ran_sliced (hm : i.deferredMode ≠ .inline) (now : Time) :
    let r := i.begin clock u d budget
    let after := (r.pass .immediate u.change.carried).2
    let t := after.turned i.deferredMode u.change.deferred (r.fed u.change.carried) now
    i.ran clock u now d budget = r.ran .immediate u.change.carried ++ after.turnRan t.1 t.2 := by
  unfold ran
  dsimp only
  split
  · exact absurd ‹_› hm
  · rfl

/-- A sliced unit takes its immediate pass and then its turn. -/
theorem converge_turned (hs : i.executor.Sound) (hm : i.deferredMode ≠ .inline) (clock : Nat → Nat → Bool) (u : WorkUnit)
    (now : Time) (d : Diagnostics) (budget : Option Nat) :
    let r := i.begin clock u d budget
    let after := (r.pass .immediate u.change.carried).2
    let t := after.turned i.deferredMode u.change.deferred (r.fed u.change.carried) now
    i.converge u now r = after.turn t.1 t.2 ∧
      i.unitTries clock u now d budget = r.tried .immediate u.change.carried ++ after.turnTries t.1 t.2 ∧
      ∀ j ∈ i.executor.wiring.order .deferred, Lane.Held i.executor.graph (i.begin clock u d budget).inst.lane j ∨
        i.executor.graph.Defers u.change.deferred j ∨ i.executor.graph.Dirtied (r.fed u.change.carried) j →
          Lane.Held i.executor.graph t.1 j ∨ i.executor.graph.Defers t.2 j :=
  sliced_turned (begin_works hs) (by rw [begin_inst]) hm now

/-- A unit reports as many steps as it runs. -/
theorem applyUnder_counts (hs : i.executor.Sound) (now : Time) :
    (i.applyUnder clock u now d budget).report.steps = (i.ran clock u now d budget).length := by
  have hworks : Run.Works i.executor.graph i.executor.wiring (i.begin clock u d budget) := begin_works hs
  have hzero : (i.begin clock u d budget).report.steps = 0 := by
    unfold begin
    dsimp only
    cases i.folded u <;> rfl
  show (i.converge u now (i.begin clock u d budget)).report.steps = _
  by_cases hm : i.deferredMode = .inline
  · rw [converge_inline hm, ran_inline hm, (Run.pass_counts hworks .all (i.carriedAll u)).1, hzero, Nat.zero_add]
  · obtain ⟨he, -, -⟩ := converge_turned hs hm clock u now d budget
    have hafter := Run.pass_works hworks .immediate u.change.carried
    rw [he, ran_sliced hm, Run.turn_counts hafter, (Run.pass_counts hworks .immediate u.change.carried).1, hzero,
      Nat.zero_add, List.length_append]

/-- A unit leaves the graph and the soundness of its executor alone. -/
theorem applyUnder_works (hs : i.executor.Sound) (now : Time) : let after := (i.applyUnder clock u now d budget).inst
    after.executor.Sound ∧ after.executor.graph = i.executor.graph ∧ after.executor.wiring = i.executor.wiring := by
  have hworks : Run.Works i.executor.graph i.executor.wiring (i.begin clock u d budget) := begin_works hs
  have hdone : Run.Works i.executor.graph i.executor.wiring (i.converge u now (i.begin clock u d budget)) := by
    by_cases hm : i.deferredMode = .inline
    · rw [converge_inline hm]
      exact Run.pass_works hworks .all _
    · obtain ⟨he, -, -⟩ := converge_turned hs hm clock u now d budget
      rw [he]
      exact Run.turn_works (Run.pass_works hworks .immediate _) _ _
  dsimp only
  rw [(applyUnder_leaves clock i u now d budget).executor]
  exact ⟨hdone.executor, hdone.graph, hdone.wiring⟩

/-! ## Resuming -/

/-- The unit takes the step up: it runs it, leaves it to a later unit or the lane, or a
pass that had it due failed. -/
def TakesUp (i : Instance) (clock : Nat → Nat → Bool) (u : WorkUnit) (now : Time) (d : Diagnostics)
    (budget : Option Nat) (j : StepId) : Prop :=
  j ∈ i.ran clock u now d budget ∨
    ((i.applyUnder clock u now d budget).inst.Queued i.executor.graph j ∨
      (i.applyUnder clock u now d budget).inst.PutOff i.executor.graph j) ∨
    ∃ t ∈ i.unitTries clock u now d budget, t.failed = true ∧ t.Asks i.executor.graph i.executor.wiring j

/-- The unit looks at the step, should work that it comes with concern it: in one pass over
all steps, or in the pass for steps of its kind. -/
def Reaches (i : Instance) (clock : Nat → Nat → Bool) (u : WorkUnit) (d : Diagnostics) (budget : Option Nat)
    (j : StepId) : Prop :=
  i.deferredMode = .inline ∨
    (j ∈ i.executor.wiring.order .immediate ∧ i.executor.graph.Due u.change.dirty u.change.carried j) ∨
    j ∈ i.executor.wiring.order .deferred ∧ (budget = some 0 ∨ i.executor.graph.Defers u.change.deferred j ∨
      i.executor.graph.Dirtied (i.fed clock u d budget) j)

/-- One pass over all steps takes up all that the unit has due. -/
theorem inline_takes (hs : i.executor.Sound) (hm : i.deferredMode = .inline) (now : Time)
    (hj : j ∈ i.executor.wiring.order .all)
    (hd : i.executor.graph.Due u.change.dirty u.change.carried j ∨ i.executor.graph.Defers u.change.deferred j) :
    i.TakesUp clock u now d budget j := by
  have howed := (applyUnder_leaves clock i u now d budget).queued i.executor.graph j
  rw [converge_inline hm] at howed
  unfold TakesUp
  rw [ran_inline hm, unitTries, tries_inline hm]
  exact (Run.pass_takes (begin_works hs) hj (begin_due hm hd)).imp id (Or.imp (fun ho => .inl (howed ho)) id)

/-- A sliced unit takes up the immediate steps that it has due. -/
theorem sliced_takes_immediate (hs : i.executor.Sound) (hm : i.deferredMode ≠ .inline) (now : Time)
    (hj : j ∈ i.executor.wiring.order .immediate) (hd : i.executor.graph.Due u.change.dirty u.change.carried j) :
    i.TakesUp clock u now d budget j := by
  have howed := (applyUnder_leaves clock i u now d budget).queued i.executor.graph j
  obtain ⟨he, htries, -⟩ := converge_turned hs hm clock u now d budget
  rw [he] at howed
  unfold TakesUp
  rw [ran_sliced hm, htries]
  have hdue : i.executor.graph.Due (i.begin clock u d budget).context.dirty u.change.carried j :=
    hd.imp begin_dirtied id
  rcases Run.pass_takes (begin_works hs) hj hdue with hran | ho | ⟨t, ht, hfail⟩
  · exact .inl (List.mem_append_left _ hran)
  · exact .inr (.inl (.inl (howed ((Run.turn_follows _ _ _).owes .immediate j ho))))
  · exact .inr (.inr ⟨t, List.mem_append_left _ ht, hfail⟩)

/-- Deferred steps that it came with work for or fed it takes up as well. -/
theorem sliced_takes_deferred (hs : i.executor.Sound) (hm : i.deferredMode ≠ .inline) (now : Time)
    (hj : j ∈ i.executor.wiring.order .deferred)
    (hd : i.executor.graph.Defers u.change.deferred j ∨ i.executor.graph.Dirtied (i.fed clock u d budget) j) :
    i.TakesUp clock u now d budget j := by
  have howed := (applyUnder_leaves clock i u now d budget).putOff i.executor.graph j
  obtain ⟨he, htries, hkeep⟩ := converge_turned hs hm clock u now d budget
  rw [he] at howed
  unfold TakesUp
  rw [ran_sliced hm, htries]
  rcases hkeep j hj (.inr hd) with hheld | hnow
  · refine .inr (.inl (.inr (howed (.inl ?_))))
    rw [Run.turn_lane]
    exact hheld
  · rcases Run.turn_takes (Run.pass_works (begin_works hs) .immediate u.change.carried) hj hnow with
      hran | ho | ⟨t, ht, hfail⟩
    · exact .inl (List.mem_append_right _ hran)
    · exact .inr (.inl (.inr (howed (.inr ho))))
    · exact .inr (.inr ⟨t, List.mem_append_right _ ht, hfail⟩)

/-- One that may run no step leaves what it carries to a later unit as it is. -/
theorem sliced_passes_on (hs : i.executor.Sound) (hm : i.deferredMode ≠ .inline) (now : Time)
    (hd : i.executor.graph.Due u.change.dirty u.change.carried j) : i.TakesUp clock u now d (some 0) j := by
  have howed := (applyUnder_leaves clock i u now d (some 0)).queued i.executor.graph j
  obtain ⟨he, -, -⟩ := converge_turned hs hm clock u now d (some 0)
  rw [he] at howed
  have hleft : ((i.begin clock u d (some 0)).pass .immediate u.change.carried).2.Owes i.executor.graph .immediate j := by
    rw [Run.pass_spent begin_budget]
    exact Run.leave_owes (.inr (hd.imp begin_dirtied id))
  exact .inr (.inl (.inl (howed ((Run.turn_follows _ _ _).owes .immediate j hleft))))

/-- What concerns a step that the unit looks at is taken up. -/
theorem takesUp_of_reaches (hs : i.executor.Sound) (now : Time) (hj : j ∈ i.executor.wiring.order .all)
    (hd : i.executor.graph.Due u.change.dirty u.change.carried j ∨ i.executor.graph.Defers u.change.deferred j)
    (hr : i.Reaches clock u d budget j) : i.TakesUp clock u now d budget j := by
  by_cases hm : i.deferredMode = .inline
  · exact inline_takes hs hm now hj hd
  rcases hr.resolve_left hm with ⟨himm, hdue⟩ | ⟨hdef, rfl | hfed⟩
  · exact sliced_takes_immediate hs hm now himm hdue
  · rcases hd with hdue | hdefers
    · exact sliced_passes_on hs hm now hdue
    · exact sliced_takes_deferred hs hm now hdef (.inl hdefers)
  · exact sliced_takes_deferred hs hm now hdef hfed

/-- A sliced unit without deferred work that feeds no deferred step takes its immediate
pass alone. -/
theorem sliced_alone (hs : i.executor.Sound) (hm : i.deferredMode ≠ .inline) (now : Time)
    (hnone : u.change.deferred = none) (hfed : i.executor.affects .deferred (i.fed clock u d budget) = false) :
    i.converge u now (i.begin clock u d budget) = ((i.begin clock u d budget).pass .immediate u.change.carried).2 ∧
      i.ran clock u now d budget = (i.begin clock u d budget).ran .immediate u.change.carried := by
  have hunfed : ((i.begin clock u d budget).pass .immediate u.change.carried).2.inst.executor.affects .deferred
      ((i.begin clock u d budget).fed u.change.carried) = false := by
    rw [Run.affects_pass, begin_inst]
    exact hfed
  obtain ⟨he, -, -⟩ := converge_turned hs hm clock u now d budget
  rw [hnone, Run.turned_of_unfed hunfed] at he
  refine ⟨he, ?_⟩
  rw [ran_sliced hm, hnone, Run.turned_of_unfed hunfed]
  exact List.append_nil _

/-- It runs no deferred step, hands none on and leaves the lane alone, whatever the work
that it carries names. -/
theorem sliced_drops (hs : i.executor.Sound) (hm : i.deferredMode ≠ .inline) (now : Time) (hq : i.queue = [])
    (hb : budget ≠ some 0) (hnone : u.change.deferred = none)
    (hfed : i.executor.affects .deferred (i.fed clock u d budget) = false) (hj : j ∈ i.executor.wiring.order .deferred) :
    j ∉ i.ran clock u now d budget ∧ (i.applyUnder clock u now d budget).inst.lane = i.lane ∧
      ¬ (i.applyUnder clock u now d budget).inst.Queued i.executor.graph j ∧
      ∀ c ∈ (i.applyUnder clock u now d budget).inst.queue, c.change.deferred = none := by
  obtain ⟨hdone, hran⟩ := sliced_alone hs hm now hnone hfed
  have hworks : Run.Works i.executor.graph i.executor.wiring (i.begin clock u d budget) := begin_works hs
  have hinst : (i.begin clock u d budget).inst = { i with txnSeq := i.txnSeq + 1 } := begin_inst
  obtain ⟨hdeferred, hleftover, hcarried⟩ := begin_unwritten i clock u d budget
  have hunfed : (i.begin clock u d budget).inst.executor.affects .deferred
      ((i.begin clock u d budget).fed u.change.carried) = false := by
    rw [hinst]
    exact hfed
  have hbudget : (i.begin clock u d budget).budget ≠ some 0 := by rwa [begin_budget]
  have howed := Run.pass_owes_unfed hworks hbudget hcarried hunfed hj
  have hfollows : Run.Follows i.executor.graph _ _ :=
    Run.pass_follows (i.begin clock u d budget) .immediate u.change.carried
  obtain ⟨hputby, hleft, -⟩ := Run.pass_leaves hbudget u.change.carried
  rw [hdeferred] at hputby
  rw [hleftover] at hleft
  have hlane := hfollows.lane
  have hqueue : ((i.begin clock u d budget).pass .immediate u.change.carried).2.inst.queue = [] := by
    rw [hfollows.inst, hinst]
    exact hq
  rw [hinst] at hlane
  refine ⟨fun hj' => ?_, ?_⟩
  · rw [hran] at hj'
    exact hs.wired.not_immediate hj ((Run.pass_counts hworks .immediate u.change.carried).2 j hj')
  unfold applyUnder
  dsimp only
  rw [hdone]
  generalize ((i.begin clock u d budget).pass .immediate u.change.carried).2 = done at *
  obtain ⟨hlane', hnew⟩ := Run.followUps_of_carried
    (r := { done with inst := { done.inst with state := done.context.draft } }) hputby hleft hqueue now
  refine ⟨hlane'.trans hlane, fun ⟨c, hc, hd⟩ => ?_, fun c hc => (hnew c hc).2.2⟩
  rw [(hnew c hc).1, (hnew c hc).2.1] at hd
  exact howed hd

end

/-- An instance of the module, whatever has happened to it. -/
inductive Lived : Compiled → Instance → Prop
  | registered {c : Compiled} {decl : Declaration} (key : Key) (options : Policy.Overrides) (policies : Policy.Policies)
      (initial : Value) : c.Of decl → Lived c (.ofCompiled key c options policies initial)
  | enqueue {c : Compiled} {i : Instance} (cm : Commit) : Lived c i → Lived c (i.enqueue cm)
  | unit {c : Compiled} {i : Instance} {u : WorkUnit} (clock : Nat → Nat → Bool) (now : Time) (d : Diagnostics)
      (budget : Option Nat) : Lived c i → i.takeUnit.1 = some u →
      Lived c (i.takeUnit.2.applyUnder clock u now d budget).inst
  | adjust {c : Compiled} {i : Instance} (policies : Policy.Policies) (lane : Option Lane) : Lived c i →
      Lived c { i with policies := policies, lane := lane }
  /-- It follows a new graph of its module; a generation names one graph. -/
  | rebind {c c' : Compiled} {decl : Declaration} {i : Instance} : Lived c i → c'.Of decl →
      (c'.graph.generation = i.executor.cache.generation → c' = c) → Lived c' (i.rebind c')

theorem Lived.works {c : Compiled} {i : Instance} (h : Lived c i) :
    i.executor.Sound ∧ i.executor.graph = c.graph ∧ i.executor.wiring = c.wiring := by
  induction h with
  | registered key options policies initial hc => exact ⟨⟨hc.wired, PlanCache.right_ofGeneration _⟩, rfl, rfl⟩
  | enqueue cm _ ih => exact ih
  | @unit c i u clock now d budget _ _ ih =>
    have htaken : i.takeUnit.2.executor.Sound := ih.1
    obtain ⟨hs, hg, hw⟩ := applyUnder_works (u := u) (d := d) htaken now
    exact ⟨hs, hg.trans ih.2.1, hw.trans ih.2.2⟩
  | adjust policies lane _ ih => exact ih
  | @rebind c c' decl i _ hc hgen ih =>
    obtain ⟨hs, hg, hw⟩ := ih
    refine ⟨⟨hc.wired, ?_⟩, rfl, rfl⟩
    show PlanCache.Right c'.graph c'.wiring (i.executor.cache.syncGeneration c'.graph.generation)
    unfold PlanCache.syncGeneration
    split
    · rename_i hsame
      rw [hgen hsame, ← hg, ← hw]
      exact hs.cache
    · exact fun _ _ hm => absurd hm List.not_mem_nil

/-- What may happen to an instance before what waits is taken up: its policies change,
with its lane after them, and commits are queued. -/
inductive Switched (i₀ : Instance) : Instance → Prop
  | refl : Switched i₀ i₀
  | override {i : Instance} (policies : Policy.Policies) (clocked : Bool) : Switched i₀ i →
      Switched i₀ ((({ i with policies := policies }).syncLane clocked).2.requeue
        (({ i with policies := policies }).syncLane clocked).1)
  | enqueue {i : Instance} (c : Commit) : Switched i₀ i → Switched i₀ (i.enqueue c)

/-- Nothing that waits is lost before it is taken up. -/
theorem Switched.keeps {i₀ i : Instance} (h : Switched i₀ i) : i.executor = i₀.executor ∧ ∀ c ∈ i₀.queue, c ∈ i.queue := by
  induction h with
  | refl => exact ⟨rfl, fun _ hc => hc⟩
  | @override i policies clocked _ ih =>
    obtain ⟨lane, f, he, -⟩ := syncLane_cases (g := i.executor.graph) { i with policies := policies } clocked
    rw [he]
    cases f with
    | none => exact ih
    | some f => exact ⟨ih.1, fun c hc => List.mem_append_left _ (ih.2 c hc)⟩
  | enqueue c _ ih => exact ⟨ih.1, fun c' hc => List.mem_append_left _ (ih.2 c' hc)⟩

/-- Whatever the policies become before a commit is taken up, each step that the work in it
concerns is taken up by its unit where that unit looks. A sliced unit that may run steps,
comes without deferred work and feeds no deferred step drops them all. -/
theorem carried_after_switch {c : Compiled} {i₀ i : Instance} {cm : Commit} {u : WorkUnit} (h : Lived c i₀)
    (hs : Switched i₀ i) (hcm : cm ∈ i₀.queue) (hu : i.takeUnit.1 = some u) (clock : Nat → Nat → Bool) (now : Time)
    (d : Diagnostics) (budget : Option Nat) :
    let resumed := i.takeUnit.2
    let after := resumed.applyUnder clock u now d budget
    after.report.steps = (resumed.ran clock u now d budget).length ∧
    (∀ j ∈ c.wiring.order .all,
      c.graph.Due cm.change.dirty cm.change.carried j ∨ c.graph.Defers cm.change.deferred j →
      resumed.Reaches clock u d budget j → resumed.TakesUp clock u now d budget j) ∧
    (resumed.deferredMode ≠ .inline → budget ≠ some 0 → u.change.deferred = none →
      resumed.executor.affects .deferred (resumed.fed clock u d budget) = false → ∀ j ∈ c.wiring.order .deferred,
        j ∉ resumed.ran clock u now d budget ∧ after.inst.lane = i.lane ∧ ¬ after.inst.Queued c.graph j ∧
          ∀ c' ∈ after.inst.queue, c'.change.deferred = none) := by
  obtain ⟨hsound, hg, hw⟩ := h.works
  obtain ⟨he, hqueue⟩ := hs.keeps
  rw [← he] at hsound hg hw
  obtain ⟨-, -, hdue, hdefers⟩ := WorkUnit.gathers_merge? (g := c.graph) hu
  have htaken : i.takeUnit.2.executor.Sound := hsound
  dsimp only
  rw [← hg, ← hw] at *
  refine ⟨applyUnder_counts htaken now, fun j hj hd hr => ?_, fun hm hb hnone hfed j hj => ?_⟩
  · exact takesUp_of_reaches htaken now hj (hd.imp (hdue cm (hqueue cm hcm) j) (hdefers cm (hqueue cm hcm) j)) hr
  · exact sliced_drops htaken hm now rfl hb hnone hfed hj

end Instance

namespace Relay

/-- Policies under which one pass covers every step and is stopped after one. -/
def short : Policy.Policies :=
  let p := Policy.Policies.resolve .builtin "relay" .empty none
  { p with convergence := ⟨config .full 1, .builtin⟩ }

/-- A relay after a unit that was stopped before `b`. -/
def stopped : Instance :=
  (after ((Instance.ofCompiled ⟨"relay", "1"⟩ compiled .empty short (state 1 1 1)).enqueue write)).inst

/-- The same under other policies. -/
def switched (policies : Policy.Policies) : Instance :=
  (({ stopped with policies := policies }).syncLane false).2.requeue
    (({ stopped with policies := policies }).syncLane false).1

/-- The unit that resumes its work. -/
def resuming (policies : Policy.Policies) : WorkUnit := (switched policies).takeUnit.1.getD unit

theorem stopped_lived : Instance.Lived compiled stopped :=
  .unit _ _ _ _ (.enqueue _ (.registered _ _ _ _ compiled_of)) rfl

theorem switched_switched (policies : Policy.Policies) : Instance.Switched stopped (switched policies) :=
  .override policies false .refl

/-- What it carries names `b`. -/
theorem stopped_carries : ∃ cm ∈ stopped.queue, graph.Due cm.change.dirty cm.change.carried 1 := by
  have hq : stopped.queue = [⟨0, .carry, .normal, { Change.empty with carried := some ⟨[], [b]⟩ }⟩] := by cbv
  rw [hq]
  exact ⟨_, List.mem_singleton_self _, .inr ⟨_, rfl, .inr ⟨_, b, rfl, rfl, List.mem_singleton_self _⟩⟩⟩

/-- One pass over all steps takes `b` up. -/
theorem forced_step_resumed :
    (switched inlined).takeUnit.2.TakesUp (fun _ _ => false) (resuming inlined) 0 (.ofReporting .builtin false) none 1 ∧
      (after (switched inlined)).inst.state = state 2 2 2 := by
  obtain ⟨cm, hcm, hd⟩ := stopped_carries
  have hu : (switched inlined).takeUnit.1 = some (resuming inlined) := by cbv
  refine ⟨(Instance.carried_after_switch stopped_lived (switched_switched inlined) hcm hu (fun _ _ => false) 0
    (.ofReporting .builtin false) none).2.1 1 (by decide) (.inl hd) (.inl rfl), ?_⟩
  cbv

/-- A sliced unit drops it: `b` stays as it was, the unit is stable and nothing waits. -/
theorem forced_step_dropped :
    Instance.Lived compiled stopped ∧ Instance.Switched stopped (switched sliced) ∧
    (∃ cm ∈ stopped.queue, graph.Due cm.change.dirty cm.change.carried 1) ∧
    ¬ (switched sliced).takeUnit.2.TakesUp (fun _ _ => false) (resuming sliced) 0 (.ofReporting .builtin false) none 1 ∧
    (after (switched sliced)).report.stable = true ∧ (after (switched sliced)).inst.queue = [] ∧
    ¬ graph.Settled (after (switched sliced)).inst.state 1 := by
  have hran : (switched sliced).takeUnit.2.ran (fun _ _ => false) (resuming sliced) 0 (.ofReporting .builtin false)
      none = [] := by
    cbv
  have hqueue : (after (switched sliced)).inst.queue = [] := by cbv
  have hlane : (after (switched sliced)).inst.lane = none := by cbv
  have hstate : (after (switched sliced)).inst.state = state 2 2 1 := by cbv
  have hstable : (after (switched sliced)).report.stable = true := by cbv
  have he : (switched sliced).takeUnit.2.executor = stopped.executor := (switched_switched sliced).keeps.1
  have htotal : (switched sliced).takeUnit.2.executor.graph.Total := by
    rw [he, stopped_lived.works.2.1]
    exact total
  refine ⟨stopped_lived, switched_switched sliced, stopped_carries, ?_, hstable, hqueue, ?_⟩
  · intro htaken
    rcases htaken with hj | (⟨c, hc, -⟩ | ⟨l, hl, -⟩ | ⟨c, hc, -⟩) | ⟨t, ht, hfail, -⟩
    · rw [hran] at hj
      cases hj
    · exact absurd (hqueue ▸ hc) List.not_mem_nil
    · cases hlane.symm.trans hl
    · exact absurd (hqueue ▸ hc) List.not_mem_nil
    · cases (Instance.unitTries_total htotal (he ▸ stopped_lived.works.1) _ _ _ _ t ht).symm.trans hfail
  · rw [hstate]
    intro h
    cases h

end Relay

end Settle
