/-
  Settle.Proofs.Failure — what a failing derive function leaves stale (see
  `Settle.Instance`).

  A failed pass hands nothing back, so a step that it had due may stay unsettled after the
  queue and the lane are empty. It can be told from the passes of the run which steps
  these are: where every immediate step was settled, one that is not settled any more is
  covered by queued work or by the lane, or a pass that failed had it due and none has
  taken it up since (`Recorded.settled_or_abandoned`). A pass that has the step due again,
  or runs every step, makes up for it, but nothing brings one about: a copy beside a check
  that failed stays stale though the check passes (`Guarded.a_copy_stays_stale`).
-/

import Settle.Proofs.Instance

namespace Settle

namespace Instance

variable {g : Graph} {w : Wiring} {X : StepId → Prop} {i₀ i i' : Instance} {ts : List Tried} {j : StepId}

/-- A unit counts up `txnSeq`. -/
theorem applyUnder_txnSeq (hs : i.executor.Sound) (clock : Nat → Nat → Bool) (u : WorkUnit) (now : Time)
    (d : Diagnostics) (budget : Option Nat) : (i.applyUnder clock u now d budget).inst.txnSeq = i.txnSeq + 1 := by
  have htracks : Run.Tracks i.executor.graph i.executor.wiring (u.change.applyTo i.state) u.change.patches
      (i.begin clock u d budget) := begin_tracks hs
  have hbegin : (i.begin clock u d budget).inst = { i with txnSeq := i.txnSeq + 1 } := begin_inst
  obtain ⟨lane, hfollows⟩ := converge_follows (i := i) (u := u) htracks.toWorks (by rw [hbegin]) now
  have hdone : (i.converge u now (i.begin clock u d budget)).inst.txnSeq = i.txnSeq + 1 := by
    rw [hfollows.inst]
    change (i.begin clock u d budget).inst.txnSeq = _
    rw [hbegin]
  exact (applyUnder_leaves clock i u now d budget).txnSeq.trans hdone

/-! ## Runs and their passes -/

/-- A run of an instance, with the passes of its units. What is no unit leaves `txnSeq` as
it is. -/
inductive Recorded (i₀ : Instance) : List Tried → Instance → Prop
  | refl : Recorded i₀ [] i₀
  | unit {ts : List Tried} {i : Instance} (u : WorkUnit) (clock : Nat → Nat → Bool) (now : Time) (d : Diagnostics)
      (budget : Option Nat) : Recorded i₀ ts i → i.takeUnit.1 = some u →
      State.fitsAll (u.change.applyTo i.state) (i.executor.graph.writesOf
        ((i.takeUnit.2.applyUnder clock u now d budget).report.patches.drop u.change.patches.length)) →
      Recorded i₀ (ts ++ i.takeUnit.2.unitTries clock u now d budget)
        (i.takeUnit.2.applyUnder clock u now d budget).inst
  | other {ts : List Tried} {i i' : Instance} : Recorded i₀ ts i → Step i i' → i'.txnSeq = i.txnSeq → Recorded i₀ ts i'

/-- Every run has its passes, and passes tell of a run. -/
theorem reached_iff : Reached i₀ i ↔ ∃ ts, Recorded i₀ ts i := by
  constructor
  · intro h
    induction h with
    | refl => exact ⟨[], .refl⟩
    | step _ hs ih =>
      obtain ⟨ts, ih⟩ := ih
      rcases hs.unit_or (g := i₀.executor.graph) (w := i₀.executor.wiring) with
        ⟨u, clock, now, d, budget, hu, rfl, hfit⟩ | ⟨hseq, -⟩
      · exact ⟨_, .unit u clock now d budget ih hu hfit⟩
      · exact ⟨ts, .other ih hs hseq⟩
  · rintro ⟨ts, h⟩
    induction h with
    | refl => exact .refl
    | unit u clock now d budget _ hu hfit ih => exact .step ih (.unit _ u clock now d budget _ hu rfl hfit)
    | other _ hs _ ih => exact .step ih hs

theorem Recorded.append {ts' : List Tried} (h : Recorded i₀ ts i) (h' : Recorded i ts' i') :
    Recorded i₀ (ts ++ ts') i' := by
  induction h' with
  | refl => rwa [List.append_nil]
  | unit u clock now d budget _ hu hfit ih =>
    rw [← List.append_assoc]
    exact .unit u clock now d budget ih hu hfit
  | other _ hs hseq ih => exact .other ih hs hseq

/-- The account of an instance after a run excuses what was given up on the way. -/
theorem Recorded.accounted (hl : g.Local) (hr : g.Reflexive) (hself : g.SelfFree) (h₀ : AccountedBut g w X i₀)
    (h : Recorded i₀ ts i) : AccountedBut g w (GivenUp g w X ts) i := by
  induction h with
  | refl => exact h₀.mono fun _ => GivenUp.nil.2
  | unit u clock now d budget _ hu hfit ih =>
    obtain rfl := ih.graph
    exact (ih.unit hl hr hself hu clock now d budget rfl hfit).mono fun _ => GivenUp.append
  | other _ hs hseq ih =>
    rcases hs.unit_or (g := g) (w := w) with ⟨u, clock, now, d, budget, hu, rfl, -⟩ | ⟨-, hkeep⟩
    · have hnext := applyUnder_txnSeq (i := Instance.takeUnit _ |>.2) ih.executor clock u now d budget
      exact absurd (hnext.symm.trans hseq) (Nat.succ_ne_self _)
    · exact hkeep _ ih

/-- The state that is pending follows from the queue, the queue tells what it changes, and
every immediate step is settled. -/
structure Level (c : Compiled) (i : Instance) : Prop where
  executor : Executor.Reached c i.executor
  pending : i.pending = i.queue.foldl (fun s c => c.change.applyTo s) i.state
  told : i.Told c.graph c.wiring
  settled : ∀ j ∈ c.wiring.order .immediate, c.graph.Settled i.state j

theorem Level.accounted {decl : Declaration} {c : Compiled} (hc : c.Of decl) (h : Level c i) :
    AccountedBut c.graph c.wiring (· ∉ c.wiring.order .immediate) i where
  executor := h.executor.sound hc
  graph := h.executor.same.1
  wiring := h.executor.same.2
  pending := h.pending
  told := h.told
  excused := fun j _ hn => .inl fun hj => hn (h.settled j hj)

/-- Whatever happens to an instance whose immediate steps were settled, each of them that
is not settled any more is covered by queued work or by the lane, or it was due in a pass
that failed and no pass has taken it up since. Once nothing is queued or in the lane, an
immediate step is settled or abandoned. -/
theorem Recorded.settled_or_abandoned {decl : Declaration} {c : Compiled} (hc : c.Of decl) (hl : c.graph.Local)
    (hr : c.graph.Reflexive) (hself : c.graph.SelfFree) (h₀ : Level c i₀) (h : Recorded i₀ ts i) :
    (∀ j ∈ c.wiring.order .immediate, ¬ c.graph.Settled i.state j →
      Abandoned c.graph c.wiring ts j ∨ i.Covered c.graph c.wiring j) ∧
    (i.queue = [] → i.lanePending = false → ∀ j ∈ c.wiring.order .immediate,
      c.graph.Settled i.state j ∨ Abandoned c.graph c.wiring ts j) := by
  have hacc := h.accounted hl hr hself (h₀.accounted hc)
  have hcovered : ∀ j ∈ c.wiring.order .immediate, ¬ c.graph.Settled i.state j →
      Abandoned c.graph c.wiring ts j ∨ i.Covered c.graph c.wiring j := fun j hj hn => by
    refine (hacc.excused j (hc.wired.mem_all hj) hn).imp (fun hgiven => ?_) id
    -- no immediate step was excused at the start
    exact hgiven.resolve_right fun hx => hx.1 hj
  refine ⟨hcovered, fun hq hlane j hj => or_iff_not_imp_left.2 fun hn => ?_⟩
  exact (hcovered j hj hn).resolve_right (not_covered hc.wired hq hlane (hc.wired.mem_all hj))

end Instance

/-! ## A copy beside a check -/

namespace Guarded

def x : Path := Relay.x

def a : Path := Relay.a

def ok : Path := ⟨["ok"], by decide⟩

def z : Path := ⟨["z"], by decide⟩

def check : Derive :=
  .ofRun none fun v =>
    ⟨if 10 < ((State.read v z).bind (·.asInt64?)).getD 0 then .error (.failed "z out of range") else .ok (.int 0), [z]⟩

/-- `a` copies `x`, and `ok` fails while `z` is more than 10. -/
def declaration : Declaration :=
  (Declaration.named "guarded").group
    (((Group.named "guarded").field "a" (.link "x" .immediate)).field "ok" (.computed ⟨["z"], check, none, .immediate⟩))

def graph : Graph where
  moduleId := "guarded"
  table := ⟨[a, ok, x, z]⟩
  steps := [⟨0, .link, 0, [2], some 2, .immediate, "a", "guarded"⟩,
    ⟨1, .computed, 1, [3], none, .immediate, "ok", "guarded"⟩]
  bodies := [.link, .computed check none]
  orders := ⟨⟨[0, 1], []⟩, ⟨[0, 1], []⟩, ⟨[], []⟩⟩
  levels := [[0, 1]]
  reserved := []
  shapeWarnings := []
  generation := 1

def compiled : Compiled := ⟨graph, .ofGraph graph⟩

def state (x z a : Int) : Value := .obj [("a", .int a), ("ok", .int 0), ("x", .int x), ("z", .int z)]

theorem compiled_of : compiled.Of declaration := by
  refine ⟨⟨1, ?_⟩, rfl⟩
  unfold compiled graph
  cbv

theorem local_ : graph.Local := by
  refine Graph.local_of_zip fun s d eq hs v w hd => ?_
  obtain ⟨rfl, rfl, rfl⟩ : s = graph.steps[1] ∧ d = check ∧ eq = none := by simpa [graph] using hs
  have hz := hd 3 List.mem_cons_self z rfl
  simp only [check, Derive.ofRun_run, hz]

theorem reflexive : graph.Reflexive := Graph.reflexive_of_mem (by simp [graph])

theorem selfFree : graph.SelfFree := by decide

/-- Policies under which a pass runs the steps that are dirty. -/
def policies : Policy.Policies :=
  let p := Policy.Policies.resolve .builtin "guarded" .empty none
  { p with convergence := ⟨Relay.config .dirty 8, .builtin⟩ }

def rest : Instance := .ofCompiled ⟨"guarded", "1"⟩ compiled .empty policies (state 1 1 1)

/-- A commit that moves `x` and puts `z` out of range. -/
def trip : Commit :=
  ⟨1, .transaction, .normal,
    { Change.empty with writes := [(.ofKeys x, .int 2), (.ofKeys z, .int 11)], dirty := .ofPaths [x, z] }⟩

/-- A commit that puts `z` in range again. -/
def reset : Commit :=
  ⟨2, .transaction, .normal, { Change.empty with writes := [(.ofKeys z, .int 1)], dirty := .ofPaths [z] }⟩

/-- The unit of one commit. -/
def after (i : Instance) (c : Commit) : Instance.Applied :=
  (i.enqueue c).takeUnit.2.applyUnder (fun _ _ => false) (.ofCommit c) 0 (.ofReporting .builtin false) none

/-- The passes of that unit. -/
def tries (i : Instance) (c : Commit) : List Tried :=
  (i.enqueue c).takeUnit.2.unitTries (fun _ _ => false) (.ofCommit c) 0 (.ofReporting .builtin false) none

def tripped : Instance.Applied := after rest trip

def recovered : Instance.Applied := after tripped.inst reset

theorem after_recorded {i : Instance} {c : Commit} (hq : i.queue = [])
    (hc : i.executor.graph.Covers (i.executor.wiring.order .all) c.change.dirty i.pending (c.change.applyTo i.pending))
    (hfit : State.fitsAll (c.change.applyTo i.state)
      (i.executor.graph.writesOf ((after i c).report.patches.drop c.change.patches.length))) :
    Instance.Recorded i (tries i c) (after i c).inst := by
  refine .unit (.ofCommit c) _ _ _ _ (.other .refl (.enqueue i c hc) rfl) ?_ hfit
  change WorkUnit.merge? (i.queue ++ [c]) = _
  rw [hq]
  rfl

theorem tripped_recorded : Instance.Recorded rest (tries rest trip) tripped.inst := by
  refine after_recorded rfl (Graph.covers_of_paths (List.forall_mem_cons.2 ?_)) (by cbv)
  simp only [List.forall_mem_cons, List.not_mem_nil, false_implies, implies_true, and_true]
  exact ⟨.inl (by cbv), .inl (by cbv), .inr (by cbv), .inr (by cbv)⟩

theorem tripped_seen : tripped.report.degrade = some .deriveFailed ∧ tripped.inst.executor.graph = graph ∧
    tripped.inst.queue = [] := by cbv

theorem recovered_recorded : Instance.Recorded tripped.inst (tries tripped.inst reset) recovered.inst := by
  obtain ⟨-, hgraph, hqueue⟩ := tripped_seen
  refine after_recorded hqueue ?_ (by cbv)
  rw [hgraph]
  refine Graph.covers_of_paths (List.forall_mem_cons.2 ?_)
  simp only [List.forall_mem_cons, List.not_mem_nil, false_implies, implies_true, and_true]
  exact ⟨.inl (by cbv), .inl (by cbv), .inl (by cbv), .inr (by cbv)⟩

theorem rest_level : Instance.Level compiled rest where
  executor := .ofCompiled _
  pending := rfl
  told := fun _ _ _ _ _ _ _ _ hne => absurd rfl hne
  settled := fun j hj => by
    rcases List.mem_cons.1 (show j ∈ [0, 1] from hj) with rfl | hj
    · cbv
    · obtain rfl := List.mem_singleton.1 hj
      cbv

theorem recovered_seen : recovered.report.stable = true ∧ recovered.inst.state = state 2 1 1 ∧
    recovered.inst.queue = [] ∧ recovered.inst.lanePending = false := by cbv

theorem recovered_stale : ¬ graph.Settled recovered.inst.state 0 := by
  rw [recovered_seen.2.1]
  intro h
  cases h

/-- The pass in which the check failed had the copy due, and no pass has taken it up since. -/
theorem copy_given_up :
    Instance.Level compiled rest ∧ Instance.Recorded rest (tries rest trip ++ tries tripped.inst reset) recovered.inst ∧
      Abandoned graph compiled.wiring (tries rest trip ++ tries tripped.inst reset) 0 := by
  have hrec := tripped_recorded.append recovered_recorded
  obtain ⟨-, hdone⟩ := hrec.settled_or_abandoned compiled_of local_ reflexive selfFree rest_level
  obtain ⟨-, -, hqueue, hlane⟩ := recovered_seen
  exact ⟨rest_level, hrec, (hdone hqueue hlane 0 (by decide)).resolve_left recovered_stale⟩

/-- A unit in which the check fails leaves the copy stale, and a later one that ends stable,
with nothing queued or in the lane, does too. -/
theorem a_copy_stays_stale :
    compiled.Of declaration ∧ graph.Local ∧ graph.Reflexive ∧ graph.SelfFree ∧ Instance.Level compiled rest ∧
      Instance.Reached rest tripped.inst ∧ tripped.report.degrade = some .deriveFailed ∧
      Instance.Reached tripped.inst recovered.inst ∧ recovered.report.stable = true ∧
      ¬ (recovered.inst.queue = [] → recovered.inst.lanePending = false →
        ∀ j ∈ compiled.wiring.order .immediate, graph.Settled recovered.inst.state j) := by
  have hfirst := Instance.reached_iff.2 ⟨_, tripped_recorded⟩
  have hsecond := Instance.reached_iff.2 ⟨_, recovered_recorded⟩
  obtain ⟨hstable, -, hqueue, hlane⟩ := recovered_seen
  refine ⟨compiled_of, local_, reflexive, selfFree, rest_level, hfirst, tripped_seen.1, hsecond, hstable, fun h => ?_⟩
  exact recovered_stale (h hqueue hlane 0 (by decide))

end Guarded

end Settle
