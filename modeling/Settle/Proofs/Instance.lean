/-
  Settle.Proofs.Instance — no dirtiness is lost inside an instance (see `Settle.Instance`).

  A step that the committed state leaves unsettled is covered (`Instance.Covered`): work
  that is queued on the instance, or waits in its lane, will take the step up. Under
  policies that slice steps the two parts of queued work are kept apart, for deferred work
  never runs immediate steps and other work never runs deferred ones. Enqueueing keeps
  this because commits tell what they change, the lane because what leaves it is queued
  again, and a unit because each of its passes accounts for its scope (`Tracks`, `Owes`),
  and what they owe it leaves in the queue or the lane (`applyUnder_leaves`), but for the
  steps that a failed pass gave up (`AccountedBut.unit`). So where derive
  functions never fail, the committed state is settled once the queue and the lane are
  empty (`Reached.covered`).
-/

import Settle.Proofs.Unit

namespace Settle

namespace Wired

variable {g : Graph} {w : Wiring} {j : StepId}

theorem mem_all (h : Wired g w) {scope : Scope} (hj : j ∈ w.order scope) : j ∈ w.order .all := by
  obtain ⟨s, hs, -⟩ := h.mem_order.1 hj
  exact h.mem_order.2 ⟨s, hs, rfl⟩

theorem mem_immediate_or_deferred (h : Wired g w) (hj : j ∈ w.order .all) :
    j ∈ w.order .immediate ∨ j ∈ w.order .deferred := by
  obtain ⟨s, hs, -⟩ := h.mem_order.1 hj
  cases hk : s.scheduling with
  | immediate => exact .inl (h.mem_order.2 ⟨s, hs, by rw [hk]; rfl⟩)
  | deferred => exact .inr (h.mem_order.2 ⟨s, hs, by rw [hk]; rfl⟩)

end Wired

namespace Instance

variable {g : Graph} {w : Wiring} {i i' : Instance} {j : StepId}

/-! ## Covered steps -/

/-- A queued commit accounts for the step. -/
def Queued (g : Graph) (i : Instance) (j : StepId) : Prop := ∃ c ∈ i.queue, g.Due c.change.dirty c.change.carried j

/-- Deferred work that is queued, or waits in the lane, accounts for the step. -/
def PutOff (g : Graph) (i : Instance) (j : StepId) : Prop :=
  Lane.Held g i.lane j ∨ ∃ c ∈ i.queue, g.Defers c.change.deferred j

/-- Work that waits will take the step up: any under policies that slice nothing, and
else the kind that runs such steps. -/
def Covered (g : Graph) (w : Wiring) (i : Instance) (j : StepId) : Prop :=
  if i.deferredMode = .inline then i.Queued g j ∨ i.PutOff g j
  else (j ∈ w.order .immediate → i.Queued g j) ∧ (j ∈ w.order .deferred → i.PutOff g j)

/-- The policies and the graph decide whether steps are sliced. -/
theorem inline_congr (hp : i'.policies = i.policies) (hg : i'.executor.graph = i.executor.graph) :
    i'.deferredMode = .inline ↔ i.deferredMode = .inline := by
  have hs : i'.sliced = i.sliced := by
    unfold sliced
    rw [hp, hg]
  have ho : i'.override? = i.override? := by
    unfold override?
    rw [hp]
  unfold deferredMode
  rw [hs, ho]
  cases i.sliced with
  | false => exact Iff.rfl
  | true =>
    rcases i.override? with _ | _ | _
    · cases i'.lane.isSome <;> cases i.lane.isSome <;> simp
    · exact Iff.rfl
    · exact Iff.rfl

theorem lane_of_deferredMode (h : i.deferredMode = .lane) : i.lane.isSome = true := by
  unfold deferredMode at h
  split at h
  · cases h
  · split at h
    · cases h
    · cases h
    · split at h
      · assumption
      · cases h

/-- More work covers no fewer steps. -/
theorem Covered.mono (h : i.Covered g w j) (hp : i'.policies = i.policies)
    (hg : i'.executor.graph = i.executor.graph) (hq : i.Queued g j → i'.Queued g j) (hd : i.PutOff g j → i'.PutOff g j) :
    i'.Covered g w j := by
  unfold Covered at h ⊢
  simp only [inline_congr hp hg]
  split at h
  · rw [if_pos ‹_›]
    exact h.imp hq hd
  · rw [if_neg ‹_›]
    exact ⟨fun hj => hq (h.1 hj), fun hj => hd (h.2 hj)⟩

/-- With nothing queued and nothing in the lane no step is covered. -/
theorem not_covered (hw : Wired g w) (hq : i.queue = []) (hlane : i.lanePending = false) (hj : j ∈ w.order .all) :
    ¬ i.Covered g w j := by
  have hqueued : ¬ i.Queued g j := by
    intro ⟨c, hc, _⟩
    rw [hq] at hc
    cases hc
  have hputoff : ¬ i.PutOff g j := by
    intro hcase
    rcases hcase with ⟨l, hl, b, hb, -⟩ | ⟨c, hc, -⟩
    · simp [lanePending, Lane.hasPending, hl, hb] at hlane
    · rw [hq] at hc
      cases hc
  unfold Covered
  split
  · exact not_or.2 ⟨hqueued, hputoff⟩
  · intro ⟨hi, hd⟩
    exact (hw.mem_immediate_or_deferred hj).elim (fun hj => hqueued (hi hj)) fun hj => hputoff (hd hj)

/-! ## What happens to an instance -/

/-- Queue a batch that the lane handed out. -/
def requeue (i : Instance) : Option Lane.Flush → Instance
  | none => i
  | some f => i.enqueue (i.deferredCommit (.ofFlush f))

/-- What may happen to an instance while its declaration and its policies stand. A commit
tells every read that it changes, and no write of a pass meets an array or scalar on the
way to its field. -/
inductive Step : Instance → Instance → Prop
  | enqueue (i : Instance) (c : Commit) :
      i.executor.graph.Covers (i.executor.wiring.order .all) c.change.dirty i.pending (c.change.applyTo i.pending) →
      Step i (i.enqueue c)
  | unit (i : Instance) (u : WorkUnit) (clock : Nat → Nat → Bool) (now : Time) (d : Diagnostics) (budget : Option Nat)
      (a : Applied) : i.takeUnit.1 = some u → a = i.takeUnit.2.applyUnder clock u now d budget →
      State.fitsAll (u.change.applyTo i.state)
        (i.executor.graph.writesOf (a.report.patches.drop u.change.patches.length)) →
      Step i a.inst
  | signal (i : Instance) (l : Lane) (now : Time) (d : DirtySet) : i.lane = some l →
      Step i ({ i with lane := some (l.signal now d).2 }.requeue (l.signal now d).1)
  | flush (i : Instance) (l : Lane) : i.lane = some l → Step i ({ i with lane := some l.fire.2 }.requeue l.fire.1)
  | cancel (i : Instance) (l : Lane) (reason : LaneReason) : i.lane = some l →
      Step i ({ i with lane := some (l.cancel reason).2 }.requeue (l.cancel reason).1)
  /-- The lane is started, reconfigured or stopped. -/
  | sync (i : Instance) (clocked : Bool) : Step i ((i.syncLane clocked).2.requeue (i.syncLane clocked).1)

inductive Reached (i₀ : Instance) : Instance → Prop
  | refl : Reached i₀ i₀
  | step {i i' : Instance} : Reached i₀ i → Step i i' → Reached i₀ i'

/-- Queued commits tell every read that they change. -/
def Told (g : Graph) (w : Wiring) (i : Instance) : Prop :=
  ∀ j ∈ w.order .all, ∀ s k q, g.step? j = some s → k ∈ s.inputs → g.table.path? k = some q →
    State.read i.state q ≠ State.read i.pending q → ∃ c ∈ i.queue, c.change.dirty.touches q = true

/-- The state that is pending follows from the queue, and the queue tells what it changes. -/
structure Consistent (g : Graph) (w : Wiring) (i : Instance) : Prop where
  executor : i.executor.Sound
  graph : i.executor.graph = g
  wiring : i.executor.wiring = w
  pending : i.pending = i.queue.foldl (fun s c => c.change.applyTo s) i.state
  told : i.Told g w

/-- What is unsettled is covered. -/
structure Accounted (g : Graph) (w : Wiring) (i : Instance) : Prop extends Consistent g w i where
  covered : ∀ j ∈ w.order .all, ¬ g.Settled i.state j → i.Covered g w j

/-- What is unsettled is covered, but for the excused steps. -/
structure AccountedBut (g : Graph) (w : Wiring) (X : StepId → Prop) (i : Instance) : Prop extends Consistent g w i where
  excused : ∀ j ∈ w.order .all, ¬ g.Settled i.state j → X j ∨ i.Covered g w j

theorem Accounted.but (h : Accounted g w i) (X : StepId → Prop) : AccountedBut g w X i :=
  { h with excused := fun j hj hn => .inr (h.covered j hj hn) }

namespace AccountedBut

variable {X Y : StepId → Prop}

theorem mono (h : AccountedBut g w X i) (hXY : ∀ j, X j → Y j) : AccountedBut g w Y i :=
  { h with excused := fun j hj hn => (h.excused j hj hn).imp (hXY j) id }

theorem accounted (h : AccountedBut g w X i) (hX : ∀ j, ¬ X j) : Accounted g w i :=
  { h with covered := fun j hj hn => (h.excused j hj hn).resolve_left (hX j) }

/-- Queueing keeps what is queued and what is put off. -/
theorem enqueue (h : AccountedBut g w X i) {c : Commit}
    (hc : g.Covers (w.order .all) c.change.dirty i.pending (c.change.applyTo i.pending)) :
    AccountedBut g w X (i.enqueue c) where
  executor := h.executor
  graph := h.graph
  wiring := h.wiring
  pending := by
    change c.change.applyTo i.pending = (i.queue ++ [c]).foldl _ i.state
    rw [h.pending, List.foldl_append]
    rfl
  told := fun j hj s k q hs hk hq hne => by
    by_cases hold : State.read i.state q = State.read i.pending q
    · exact ⟨c, List.mem_append_right _ (List.mem_singleton.2 rfl), hc j hj s k q hs hk hq (hold ▸ hne)⟩
    · obtain ⟨c', hc', ht⟩ := h.told j hj s k q hs hk hq hold
      exact ⟨c', List.mem_append_left _ hc', ht⟩
  excused := fun j hj hn => by
    have hqueued : i.Queued g j → (i.enqueue c).Queued g j := fun ⟨c', hc', hd⟩ => ⟨c', List.mem_append_left _ hc', hd⟩
    have hputoff : i.PutOff g j → (i.enqueue c).PutOff g j := fun h =>
      h.imp id fun ⟨c', hc', hd⟩ => ⟨c', List.mem_append_left _ hc', hd⟩
    exact (h.excused j hj hn).imp id fun hcov => hcov.mono rfl rfl hqueued hputoff

/-- A new lane keeps the account when what the old one held is in it or queued. -/
theorem requeue (h : AccountedBut g w X i) {lane : Option Lane} {f : Option Lane.Flush}
    (hkeep : ∀ j, Lane.Held g i.lane j → Lane.Held g lane j ∨ Lane.Hands g f j) :
    AccountedBut g w X ({ i with lane := lane }.requeue f) := by
  cases f with
  | none =>
    refine ⟨⟨h.executor, h.graph, h.wiring, h.pending, h.told⟩, fun j hj hn => ?_⟩
    refine (h.excused j hj hn).imp id fun hcov => hcov.mono rfl rfl id fun hd => ?_
    refine hd.imp (fun hd => (hkeep j hd).resolve_right ?_) id
    intro ⟨f, hf, _⟩
    cases hf
  | some f =>
    refine ⟨⟨h.executor, h.graph, h.wiring, ?_, fun j hj s k q hs hk hq hne => ?_⟩, fun j hj hn => ?_⟩
    · change i.pending = (i.queue ++ [_]).foldl _ i.state
      rw [h.pending, List.foldl_append]
      rfl
    · obtain ⟨c, hc, ht⟩ := h.told j hj s k q hs hk hq hne
      exact ⟨c, List.mem_append_left _ hc, ht⟩
    · refine (h.excused j hj hn).imp id fun hcov => hcov.mono rfl rfl ?_ ?_
      · intro ⟨c, hc, hd⟩
        exact ⟨c, List.mem_append_left _ hc, hd⟩
      · intro hcase
        rcases hcase with hd | ⟨c, hc, hd⟩
        · refine (hkeep j hd).imp id fun hf => ⟨_, List.mem_append_right _ (List.mem_singleton.2 rfl), ?_⟩
          obtain ⟨_, he, hd⟩ := hf
          cases he
          exact deferredCommit_defers _ (.inl hd)
        · exact .inr ⟨c, List.mem_append_left _ hc, hd⟩

end AccountedBut

theorem requeue_txnSeq (i : Instance) (f : Option Lane.Flush) : (i.requeue f).txnSeq = i.txnSeq := by
  cases f <;> rfl

/-- What the lane held is still there after it is started, reconfigured or stopped, or is
handed out. -/
theorem syncLane_cases (i : Instance) (clocked : Bool) :
    ∃ lane f, (i.syncLane clocked).2.requeue (i.syncLane clocked).1 = { i with lane := lane }.requeue f ∧
      ∀ j, Lane.Held g i.lane j → Lane.Held g lane j ∨ Lane.Hands g f j := by
  unfold syncLane
  split
  · rename_i l hlane _
    refine ⟨_, _, rfl, ?_⟩
    intro j ⟨l', he, hd⟩
    cases hlane.symm.trans he
    exact .inl ⟨_, rfl, hd⟩
  · rename_i hlane _
    refine ⟨_, _, rfl, ?_⟩
    intro j ⟨l', he, _⟩
    cases hlane.symm.trans he
  · rename_i l _ _ hlane _
    refine ⟨_, _, rfl, ?_⟩
    intro j ⟨l', he, hd⟩
    cases hlane.symm.trans he
    exact .inr (Lane.cancel_hands _ hd)
  · rename_i hlane _
    refine ⟨i.lane, none, rfl, fun j hd => .inl hd⟩

/-- A step is a unit, or it keeps whatever account there is and begins no unit. -/
theorem Step.unit_or (hs : Step i i') :
    (∃ u clock now d budget, i.takeUnit.1 = some u ∧ i' = (i.takeUnit.2.applyUnder clock u now d budget).inst ∧
      State.fitsAll (u.change.applyTo i.state) (i.executor.graph.writesOf
        ((i.takeUnit.2.applyUnder clock u now d budget).report.patches.drop u.change.patches.length))) ∨
    i'.txnSeq = i.txnSeq ∧ ∀ X, AccountedBut g w X i → AccountedBut g w X i' := by
  cases hs with
  | enqueue c hc =>
    refine .inr ⟨rfl, fun X h => ?_⟩
    obtain rfl := h.graph
    obtain rfl := h.wiring
    exact h.enqueue hc
  | unit u clock now d budget a hu ha hfit =>
    subst ha
    exact .inl ⟨u, clock, now, d, budget, hu, rfl, hfit⟩
  | signal l now d hlane =>
    refine .inr ⟨requeue_txnSeq _ _, fun X h => h.requeue fun j hd => ?_⟩
    rw [hlane] at hd
    obtain ⟨_, he, hd⟩ := hd
    cases he
    exact (Lane.signal_keeps now d hd).imp (fun hd => ⟨_, rfl, hd⟩) id
  | flush l hlane =>
    refine .inr ⟨requeue_txnSeq _ _, fun X h => h.requeue fun j hd => ?_⟩
    rw [hlane] at hd
    obtain ⟨_, he, hd⟩ := hd
    cases he
    exact .inr (Lane.fire_hands hd)
  | cancel l reason hlane =>
    refine .inr ⟨requeue_txnSeq _ _, fun X h => h.requeue fun j hd => ?_⟩
    rw [hlane] at hd
    obtain ⟨_, he, hd⟩ := hd
    cases he
    exact .inr (Lane.cancel_hands reason hd)
  | sync clocked =>
    obtain ⟨lane, f, he, hkeep⟩ := syncLane_cases (g := g) i clocked
    rw [he]
    exact .inr ⟨requeue_txnSeq _ _, fun X h => h.requeue hkeep⟩

/-! ## Units -/

section

variable {u : WorkUnit} {clock : Nat → Nat → Bool} {d : Diagnostics} {budget : Option Nat}

theorem begin_inst : (i.begin clock u d budget).inst = { i with txnSeq := i.txnSeq + 1 } := by
  unfold begin
  dsimp only
  cases i.folded u <;> rfl

theorem begin_draft : (i.begin clock u d budget).context.draft = u.change.applyTo i.state := by
  unfold begin
  dsimp only
  cases i.folded u <;> rfl

theorem begin_patches : (i.begin clock u d budget).context.patches = u.change.patches := by
  unfold begin
  dsimp only
  cases i.folded u <;> rfl

theorem begin_budget : (i.begin clock u d budget).budget = budget := by
  unfold begin
  dsimp only
  cases i.folded u <;> rfl

/-- A unit begins with nothing put by. -/
theorem begin_unwritten (i : Instance) (clock : Nat → Nat → Bool) (u : WorkUnit) (d : Diagnostics) (budget : Option Nat) :
    (i.begin clock u d budget).deferred = .empty ∧ (i.begin clock u d budget).leftover = .empty ∧
      (i.begin clock u d budget).carried = none := by
  unfold begin
  dsimp only
  cases i.folded u <;> exact ⟨rfl, rfl, rfl⟩

theorem begin_tracks (hs : i.executor.Sound) :
    Run.Tracks i.executor.graph i.executor.wiring (u.change.applyTo i.state) u.change.patches
      (i.begin clock u d budget) := by
  refine ⟨⟨?_, ?_, ?_⟩, [], ?_, ?_⟩
  · rw [begin_inst]
    exact hs
  · rw [begin_inst]
  · rw [begin_inst]
  · rw [begin_patches, List.append_nil]
  · rw [begin_draft]
    rfl

theorem begin_dirtied (h : g.Dirtied u.change.dirty j) : g.Dirtied (i.begin clock u d budget).context.dirty j := by
  unfold begin
  dsimp only
  cases i.folded u with
  | none => exact h
  | some work => exact h.union_left _

/-- The carried work of a unit that is not sliced. -/
def carriedAll (i : Instance) (u : WorkUnit) : Option Carried :=
  match i.folded u with
  | some w => Carried.merge? u.change.carried w.carried
  | none => u.change.carried

/-- Without slicing a unit takes deferred work up with everything else. -/
theorem begin_due (hm : i.deferredMode = .inline)
    (h : g.Due u.change.dirty u.change.carried j ∨ g.Defers u.change.deferred j) :
    g.Due (i.begin clock u d budget).context.dirty (i.carriedAll u) j := by
  have hf : i.folded u = u.change.deferred := if_pos hm
  unfold begin carriedAll
  dsimp only
  rw [hf]
  cases hw : u.change.deferred with
  | none =>
    rw [hw] at h
    refine h.resolve_right ?_
    intro ⟨work, he, _⟩
    cases he
  | some work =>
    rw [hw] at h
    refine Graph.Due.union (h.imp id ?_)
    intro ⟨_, he, hd⟩
    cases he
    exact hd

theorem converge_inline (hm : i.deferredMode = .inline) (now : Time) (r : Run) :
    i.converge u now r = (r.pass .all (i.carriedAll u)).2 := by
  unfold converge
  rw [hm]
  rfl

/-- What a sliced unit and its immediate pass changed. -/
def Run.fed (r : Run) (carried : Option Carried) : DirtySet :=
  (Run.written (r.pass .immediate carried).1).foldl (fun d p => d.insert p) r.context.dirty

theorem Run.dirtied_fed {r : Run} {carried : Option Carried}
    (h : g.Dirtied r.context.dirty j ∨ ∃ p ∈ Run.written (r.pass .immediate carried).1, g.Moves p j) :
    g.Dirtied (r.fed carried) j := by
  rcases h with h | ⟨p, hp, hm⟩
  · exact h.mono fun q ht => DirtySet.touches_foldl_insert.2 (.inl ht)
  · exact hm.dirtied_insert hp _

theorem converge_sliced (hm : i.deferredMode ≠ .inline) (now : Time) (r : Run) :
    i.converge u now r = (r.pass .immediate u.change.carried).2.afterImmediate i.deferredMode u.change.deferred
      (r.fed u.change.carried) now := by
  unfold converge Run.fed
  generalize r.pass .immediate u.change.carried = p
  obtain ⟨_ | out, r'⟩ := p <;> split
  · exact absurd ‹_› hm
  · rfl
  · exact absurd ‹_› hm
  · rfl

/-- The passes in which a unit converges. -/
def tries (i : Instance) (u : WorkUnit) (now : Time) (r : Run) : List Tried :=
  match i.deferredMode with
  | .inline => r.tried .all (i.carriedAll u)
  | mode =>
    r.tried .immediate u.change.carried ++ (r.pass .immediate u.change.carried).2.afterTries mode u.change.deferred
      (r.fed u.change.carried) now

theorem tries_inline (hm : i.deferredMode = .inline) (now : Time) (r : Run) :
    i.tries u now r = r.tried .all (i.carriedAll u) := by
  unfold tries
  rw [hm]

theorem tries_sliced (hm : i.deferredMode ≠ .inline) (now : Time) (r : Run) :
    i.tries u now r = r.tried .immediate u.change.carried ++
      (r.pass .immediate u.change.carried).2.afterTries i.deferredMode u.change.deferred (r.fed u.change.carried) now := by
  unfold tries
  split
  · exact absurd ‹_› hm
  · rfl

/-- A sliced unit takes its immediate pass and then a turn, before which deferred work is
in the lane or run now. -/
theorem sliced_turned {r : Run} (h : Run.Works g w r) (hlane : r.inst.lane = i.lane) (hm : i.deferredMode ≠ .inline)
    (now : Time) :
    let after := (r.pass .immediate u.change.carried).2
    let t := after.turned i.deferredMode u.change.deferred (r.fed u.change.carried) now
    i.converge u now r = after.turn t.1 t.2 ∧
      i.tries u now r = r.tried .immediate u.change.carried ++ after.turnTries t.1 t.2 ∧
      ∀ j ∈ w.order .deferred, Lane.Held g r.inst.lane j ∨ g.Defers u.change.deferred j ∨
        g.Dirtied (r.fed u.change.carried) j → Lane.Held g t.1 j ∨ g.Defers t.2 j := by
  have hp : Run.Follows g r (r.pass .immediate u.change.carried).2 := Run.pass_follows r .immediate u.change.carried
  obtain ⟨he, htries, hkeep⟩ := Run.afterImmediate_turned (Run.pass_works h .immediate u.change.carried) hm
    (fun hm => hp.lane.trans hlane ▸ lane_of_deferredMode hm) u.change.deferred (r.fed u.change.carried) now
  rw [hp.lane] at hkeep
  refine ⟨?_, ?_, hkeep⟩
  · rw [converge_sliced hm, he]
  · rw [tries_sliced hm, htries]

theorem sliced_cases {r : Run} (h : Run.Works g w r) (hlane : r.inst.lane = i.lane) (hm : i.deferredMode ≠ .inline)
    (now : Time) :
    ∃ lane o, i.converge u now r = (r.pass .immediate u.change.carried).2.turn lane o ∧
      i.tries u now r = r.tried .immediate u.change.carried ++
        (r.pass .immediate u.change.carried).2.turnTries lane o ∧
      ∀ j ∈ w.order .deferred, Lane.Held g r.inst.lane j ∨ g.Defers u.change.deferred j ∨
        g.Dirtied (r.fed u.change.carried) j → Lane.Held g lane j ∨ g.Defers o j :=
  ⟨_, _, sliced_turned h hlane hm now⟩

end

/-- The run has work for what its draft leaves unsettled, but for the excused steps: in one
place for every step, or for steps of either kind in a place of their own. -/
def Run.Ended (g : Graph) (w : Wiring) (X : StepId → Prop) (mode : DeferredMode) (r : Run) : Prop :=
  if mode = .inline then
    ∀ j ∈ w.order .all, ¬ g.Settled r.context.draft j → X j ∨ Lane.Held g r.inst.lane j ∨ r.Owes g .immediate j
  else
    (∀ j ∈ w.order .immediate, ¬ g.Settled r.context.draft j → X j ∨ r.Owes g .immediate j) ∧
      ∀ j ∈ w.order .deferred, ¬ g.Settled r.context.draft j → X j ∨ Lane.Held g r.inst.lane j ∨ r.Owes g .deferred j

section

variable {u : WorkUnit} {r : Run} {v : Value} {p₀ : List Patch} {X : StepId → Prop}

/-- Apart from the lane, converging only adds to a run. -/
theorem converge_follows (h : Run.Works g w r) (hlane : r.inst.lane = i.lane) (now : Time) :
    ∃ lane, Run.Follows g (r.withLane lane) (i.converge u now r) := by
  by_cases hm : i.deferredMode = .inline
  · rw [converge_inline hm]
    exact ⟨r.inst.lane, Run.pass_follows r .all _⟩
  · obtain ⟨lane, o, he, -, -⟩ := sliced_cases (u := u) h hlane hm now
    have hp : Run.Follows g r (r.pass .immediate u.change.carried).2 := Run.pass_follows r .immediate u.change.carried
    have hlaned : Run.Follows g (r.withLane lane) ((r.pass .immediate u.change.carried).2.withLane lane) :=
      ⟨congrArg (fun i : Instance => { i with lane := lane }) hp.inst, hp.graph, hp.owes, hp.patches⟩
    rw [he]
    exact ⟨lane, hlaned.trans (Run.turn_follows _ lane o)⟩

/-- However it converges, the draft of a unit is what its patches make of the state at the
start. -/
theorem converge_tracks (h : Run.Tracks g w v p₀ r) (hlane : r.inst.lane = i.lane) (now : Time) :
    Run.Tracks g w v p₀ (i.converge u now r) := by
  by_cases hm : i.deferredMode = .inline
  · rw [converge_inline hm]
    exact Run.pass_tracks h .all _
  · obtain ⟨lane, o, he, -, -⟩ := sliced_cases (u := u) h.toWorks hlane hm now
    rw [he]
    exact Run.turn_tracks (Run.pass_tracks h .immediate u.change.carried) lane o

/-- Derive functions that never fail make no pass of a unit fail. -/
theorem tries_total (ht : g.Total) (h : Run.Works g w r) (hlane : r.inst.lane = i.lane) (now : Time) :
    ∀ t ∈ i.tries u now r, t.failed = false := by
  by_cases hm : i.deferredMode = .inline
  · rw [tries_inline hm]
    exact Run.tried_total ht h.graph
  · obtain ⟨lane, o, -, he, -⟩ := sliced_cases (u := u) h hlane hm now
    rw [he]
    intro t hmem
    rcases List.mem_append.1 hmem with hmem | hmem
    · exact Run.tried_total ht h.graph t hmem
    · exact Run.turnTries_total ht (Run.pass_works h .immediate u.change.carried).graph lane o t hmem

variable (hl : g.Local) (hr : g.Reflexive) (hself : g.SelfFree)

include hl hr hself

/-- A unit that is not sliced ends with what its pass leaves unsettled accounted for. -/
theorem ended_inline {qs : List Patch} (hfit : State.fitsAll v (g.writesOf qs)) (h : Run.Tracks g w v p₀ r)
    (hm : i.deferredMode = .inline) (now : Time) (hps : (i.converge u now r).context.patches <+: p₀ ++ qs)
    (hdue : ∀ j ∈ w.order .all, ¬ g.Settled r.context.draft j →
      X j ∨ Lane.Held g r.inst.lane j ∨ g.Due r.context.dirty (i.carriedAll u) j) :
    (i.converge u now r).Ended g w (GivenUp g w X (i.tries u now r)) i.deferredMode := by
  rw [converge_inline hm] at hps ⊢
  rw [tries_inline hm]
  have hp : Run.Follows g r (r.pass .all (i.carriedAll u)).2 := Run.pass_follows r .all _
  unfold Run.Ended
  rw [if_pos hm, hp.lane]
  intro j hj hn
  have hdue' : ∀ j ∈ w.order .all, ¬ g.Settled r.context.draft j →
      (X j ∨ Lane.Held g r.inst.lane j) ∨ g.Due r.context.dirty (i.carriedAll u) j := fun j hj hn =>
    or_assoc.2 (hdue j hj hn)
  exact or_assoc.1 ((Run.pass_owes hl hr hself hfit h hps hdue' hj hn).imp GivenUp.or id)

/-- A sliced unit ends with what its passes leave unsettled accounted for, in the place
of its kind. -/
theorem ended_sliced {qs : List Patch} (hfit : State.fitsAll v (g.writesOf qs)) (h : Run.Tracks g w v p₀ r)
    (hlane : r.inst.lane = i.lane) (hm : i.deferredMode ≠ .inline) (now : Time)
    (hps : (i.converge u now r).context.patches <+: p₀ ++ qs)
    (himm : ∀ j ∈ w.order .immediate, ¬ g.Settled r.context.draft j → X j ∨ g.Due r.context.dirty u.change.carried j)
    (hdef : ∀ j ∈ w.order .deferred, ¬ g.Settled r.context.draft j →
      X j ∨ Lane.Held g r.inst.lane j ∨ g.Defers u.change.deferred j ∨ g.Dirtied r.context.dirty j) :
    (i.converge u now r).Ended g w (GivenUp g w X (i.tries u now r)) i.deferredMode := by
  obtain ⟨lane, o, he, htries, hkeep⟩ := sliced_cases (u := u) h.toWorks hlane hm now
  rw [he] at hps ⊢
  rw [htries]
  have hturn : Run.Follows g _ _ := Run.turn_follows (r.pass .immediate u.change.carried).2 lane o
  have hps' := hturn.patches.trans hps
  have hfirst := Run.pass_tracks h .immediate u.change.carried
  unfold Run.Ended
  rw [if_neg hm, hturn.lane]
  constructor
  · intro j hj hn
    refine (Run.turn_immediate hl hr hself hfit hfirst hps (fun k hk hn => ?_) hj hn).imp GivenUp.append id
    exact Run.pass_owes hl hr hself hfit h hps' himm hk hn
  · intro j hj hn
    -- the pass over immediate steps has no deferred one due
    have hstay : ∀ k ∈ w.order .deferred, X k → GivenUp g w X (r.tried .immediate u.change.carried) k :=
      fun k hk hx => by
        obtain rfl := h.graph
        obtain rfl := h.wiring
        exact .of_scope hx Run.tried_scope (h.executor.wired.not_immediate hk)
    have hstart : ∀ k ∈ w.order .deferred, ¬ g.Settled (r.pass .immediate u.change.carried).2.context.draft k →
        (GivenUp g w X (r.tried .immediate u.change.carried) k ∨ Lane.Held g lane k) ∨ g.Defers o k :=
      fun k hk hn => by
        -- unsettled before the pass, or moved by what it wrote: fed either way
        rcases Run.pass_moved hl hr hself hfit h hps' hn with hn | hmoved
        · rcases hdef k hk hn with hx | hd
          · exact .inl (.inl (hstay k hk hx))
          · exact or_assoc.2 (.inr (hkeep k hk (hd.imp id (Or.imp id fun hd => Run.dirtied_fed (.inl hd)))))
        · exact or_assoc.2 (.inr (hkeep k hk (.inr (.inr (Run.dirtied_fed (.inr hmoved))))))
    exact or_assoc.1 ((Run.turn_deferred hl hr hself hfit hfirst hps hstart hj hn).imp
      (Or.imp GivenUp.append id) id)

end

/-! ## What a unit leaves -/

/-- An instance as a unit leaves it: the draft that its passes came to is the state, and
what they owe is queued behind what was queued, or in the lane. -/
structure Run.Leaves (done : Run) (after : Instance) : Prop where
  inst : after = refreshPending { done.inst with state := done.context.draft, lane := after.lane, queue := after.queue }
  queue : ∃ cs, after.queue = done.inst.queue ++ cs ∧ ∀ c ∈ cs, c.Writeless ∧ c.seq = 0
  queued : ∀ g j, done.Owes g .immediate j → after.Queued g j
  putOff : ∀ g j, Lane.Held g done.inst.lane j ∨ done.Owes g .deferred j → after.PutOff g j

theorem applyUnder_leaves (clock : Nat → Nat → Bool) (i : Instance) (u : WorkUnit) (now : Time) (d : Diagnostics)
    (budget : Option Nat) :
    (i.converge u now (i.begin clock u d budget)).Leaves (i.applyUnder clock u now d budget).inst := by
  unfold applyUnder
  dsimp only
  generalize i.converge u now (i.begin clock u d budget) = done
  obtain ⟨lane, cs, he, hcs, hdue, hdefers⟩ :=
    Run.followUps_cases { done with inst := { done.inst with state := done.context.draft } } now
  rw [he]
  refine ⟨rfl, ⟨cs, rfl, hcs⟩, fun g j ho => ?_, fun g j ho => ?_⟩
  · obtain ⟨c, hc, hd⟩ := hdue g j ho
    exact ⟨c, List.mem_append_right _ hc, hd⟩
  · exact (hdefers g j ho).imp id fun ⟨c, hc, hd⟩ => ⟨c, List.mem_append_right _ hc, hd⟩

namespace Run.Leaves

variable {done : Run} {after : Instance}

theorem key (h : done.Leaves after) : after.key = done.inst.key := (congrArg Instance.key h.inst :)

theorem state (h : done.Leaves after) : after.state = done.context.draft := (congrArg Instance.state h.inst :)

theorem executor (h : done.Leaves after) : after.executor = done.inst.executor := (congrArg Instance.executor h.inst :)

theorem policies (h : done.Leaves after) : after.policies = done.inst.policies := (congrArg Instance.policies h.inst :)

theorem txnSeq (h : done.Leaves after) : after.txnSeq = done.inst.txnSeq := (congrArg Instance.txnSeq h.inst :)

theorem refreshed (h : done.Leaves after) :
    after.pending = after.queue.foldl (fun s c => c.change.applyTo s) after.state := by
  rw [h.state]
  exact congrArg Instance.pending h.inst

/-- Where no commit of users is left behind, the draft of the passes is pending. -/
theorem pending (h : done.Leaves after) (hq : done.inst.queue = []) : after.pending = done.context.draft := by
  obtain ⟨cs, hqueue, hcs⟩ := h.queue
  rw [h.refreshed, hqueue, hq, List.nil_append, h.state]
  exact Commit.foldl_writeless (fun c hc => (hcs c hc).1) _

end Run.Leaves

/-! ## Runs of an instance -/

section

variable {u : WorkUnit} {X : StepId → Prop}

/-- What a unit starts with unsettled was unsettled before, and excused or covered, or is
dirtied by the commits in it. -/
theorem AccountedBut.start (h : AccountedBut g w X i) (hl : g.Local) (hu : WorkUnit.merge? i.queue = some u)
    (hj : j ∈ w.order .all) (hn : ¬ g.Settled (u.change.applyTo i.state) j) :
    X j ∨ i.Covered g w j ∨ g.Dirtied u.change.dirty j := by
  by_cases hs : g.Settled i.state j
  · right
    right
    have hgather := WorkUnit.gathers_merge? (g := g) hu
    have hcovers : g.Covers (w.order .all) u.change.dirty i.state (u.change.applyTo i.state) := by
      intro j hj s k q hs hk hq hne
      rw [hgather.applyTo, ← h.pending] at hne
      obtain ⟨c, hc, ht⟩ := h.told j hj s k q hs hk hq hne
      exact hgather.touches c hc q ht
    obtain rfl := h.graph
    exact hcovers.dirtied h.executor.wired.graph hl hj hs hn
  · exact (h.excused j hj hs).imp id .inl

/-- A unit that is not sliced begins with work for all that it has unsettled. -/
theorem AccountedBut.begin_inline (h : AccountedBut g w X i) (hl : g.Local) (hu : WorkUnit.merge? i.queue = some u)
    (hm : i.deferredMode = .inline) (clock : Nat → Nat → Bool) (d : Diagnostics) (budget : Option Nat)
    (hj : j ∈ w.order .all) (hn : ¬ g.Settled (u.change.applyTo i.state) j) :
    X j ∨ Lane.Held g i.lane j ∨
      g.Due (i.takeUnit.2.begin clock u d budget).context.dirty (i.takeUnit.2.carriedAll u) j := by
  have hgather := WorkUnit.gathers_merge? (g := g) hu
  refine (h.start hl hu hj hn).imp id fun hcase => ?_
  rcases hcase with hc | hd
  · unfold Covered at hc
    rw [if_pos hm] at hc
    rcases hc with ⟨c, hc, hd⟩ | hd | ⟨c, hc, hd⟩
    · exact .inr (begin_due hm (.inl (hgather.due c hc j hd)))
    · exact .inl hd
    · exact .inr (begin_due hm (.inr (hgather.defers c hc j hd)))
  · exact .inr (begin_due hm (.inl (.inl hd)))

/-- A sliced one begins with work for the steps of either kind in a place of their own. -/
theorem AccountedBut.begin_sliced (h : AccountedBut g w X i) (hl : g.Local) (hu : WorkUnit.merge? i.queue = some u)
    (hm : i.deferredMode ≠ .inline) (clock : Nat → Nat → Bool) (d : Diagnostics) (budget : Option Nat)
    (hj : j ∈ w.order .all) (hn : ¬ g.Settled (u.change.applyTo i.state) j) :
    X j ∨ (j ∈ w.order .immediate → g.Due (i.takeUnit.2.begin clock u d budget).context.dirty u.change.carried j) ∧
      (j ∈ w.order .deferred → Lane.Held g i.lane j ∨ g.Defers u.change.deferred j ∨
        g.Dirtied (i.takeUnit.2.begin clock u d budget).context.dirty j) := by
  have hgather := WorkUnit.gathers_merge? (g := g) hu
  refine (h.start hl hu hj hn).imp id fun hcase => ?_
  rcases hcase with hc | hd
  · unfold Covered at hc
    rw [if_neg hm] at hc
    refine ⟨fun hi => ?_, fun hd => ?_⟩
    · obtain ⟨c, hc, hd⟩ := hc.1 hi
      exact (hgather.due c hc j hd).imp begin_dirtied id
    · rcases hc.2 hd with hd | ⟨c, hc, hd⟩
      · exact .inl hd
      · exact .inr (.inl (hgather.defers c hc j hd))
  · exact ⟨fun _ => .inl (begin_dirtied hd), fun _ => .inr (.inr (begin_dirtied hd))⟩

/-- The passes that a unit takes an instance through. -/
def unitTries (i : Instance) (clock : Nat → Nat → Bool) (u : WorkUnit) (now : Time) (d : Diagnostics)
    (budget : Option Nat) : List Tried :=
  i.tries u now (i.begin clock u d budget)

theorem unitTries_total (ht : i.executor.graph.Total) (hs : i.executor.Sound) (clock : Nat → Nat → Bool) (now : Time)
    (d : Diagnostics) (budget : Option Nat) : ∀ t ∈ i.unitTries clock u now d budget, t.failed = false := by
  have htracks : Run.Tracks i.executor.graph i.executor.wiring (u.change.applyTo i.state) u.change.patches
      (i.begin clock u d budget) := begin_tracks hs
  refine tries_total ht htracks.toWorks ?_ now
  rw [begin_inst]

variable (hl : g.Local) (hr : g.Reflexive) (hself : g.SelfFree)

include hl hr hself

/-- The passes of a unit account for all that its commits and the instance had. -/
theorem AccountedBut.ended (h : AccountedBut g w X i) (hu : WorkUnit.merge? i.queue = some u)
    (clock : Nat → Nat → Bool) (now : Time) (d : Diagnostics) (budget : Option Nat) {done : Run}
    (hdone : i.takeUnit.2.converge u now (i.takeUnit.2.begin clock u d budget) = done)
    (hfit : State.fitsAll (u.change.applyTo i.state)
      (g.writesOf (done.context.patches.drop u.change.patches.length))) :
    Run.Tracks g w (u.change.applyTo i.state) u.change.patches done ∧
      done.Ended g w (GivenUp g w X (i.takeUnit.2.unitTries clock u now d budget)) i.deferredMode ∧
      done.inst.policies = i.policies ∧ done.inst.queue = [] := by
  obtain rfl := h.graph
  obtain rfl := h.wiring
  have htracks : Run.Tracks i.executor.graph i.executor.wiring (u.change.applyTo i.state) u.change.patches
      (i.takeUnit.2.begin clock u d budget) := begin_tracks (i := i.takeUnit.2) h.executor
  have hinst : (i.takeUnit.2.begin clock u d budget).inst = { i.takeUnit.2 with txnSeq := i.txnSeq + 1 } := begin_inst
  have hlane : (i.takeUnit.2.begin clock u d budget).inst.lane = i.takeUnit.2.lane := by
    rw [hinst]
  obtain ⟨lane, hfollows⟩ := converge_follows (i := i.takeUnit.2) (u := u) htracks.toWorks hlane now
  obtain ⟨qs, hqs⟩ := hfollows.patches
  have hpatches : u.change.patches ++ qs = done.context.patches := by
    rw [← hdone, ← hqs]
    exact congrArg (· ++ qs) begin_patches.symm
  rw [← hpatches, List.drop_left] at hfit
  have hps : done.context.patches <+: u.change.patches ++ qs := hpatches ▸ List.prefix_refl _
  have hdraft : (i.takeUnit.2.begin clock u d budget).context.draft = u.change.applyTo i.state := begin_draft
  rw [hdone] at hfollows
  suffices hend : done.Ended i.executor.graph i.executor.wiring
      (GivenUp i.executor.graph i.executor.wiring X (i.takeUnit.2.unitTries clock u now d budget)) i.deferredMode by
    refine ⟨hdone ▸ converge_tracks htracks hlane now, hend, ?_, ?_⟩
    · rw [hfollows.inst]
      change (i.takeUnit.2.begin clock u d budget).inst.policies = _
      rw [hinst]
      rfl
    · rw [hfollows.inst]
      change (i.takeUnit.2.begin clock u d budget).inst.queue = _
      rw [hinst]
      rfl
  rw [← hdone] at hps ⊢
  by_cases hm : i.deferredMode = .inline
  · refine ended_inline hl hr hself hfit htracks hm now hps fun j hj hn => ?_
    rw [hdraft] at hn
    rw [hinst]
    exact h.begin_inline hl hu hm clock d budget hj hn
  · refine ended_sliced hl hr hself hfit htracks hlane hm now hps (fun j hj hn => ?_) fun j hj hn => ?_
    · rw [hdraft] at hn
      exact (h.begin_sliced hl hu hm clock d budget (h.executor.wired.mem_all hj) hn).imp id fun hd => hd.1 hj
    · rw [hdraft] at hn
      rw [hinst]
      exact (h.begin_sliced hl hu hm clock d budget (h.executor.wired.mem_all hj) hn).imp id fun hd => hd.2 hj

/-- A unit keeps the account, but for what its passes gave up. -/
theorem AccountedBut.unit (h : AccountedBut g w X i) (hu : i.takeUnit.1 = some u) (clock : Nat → Nat → Bool)
    (now : Time) (d : Diagnostics) (budget : Option Nat) {a : Applied}
    (ha : a = i.takeUnit.2.applyUnder clock u now d budget)
    (hfit : State.fitsAll (u.change.applyTo i.state)
      (g.writesOf (a.report.patches.drop u.change.patches.length))) :
    AccountedBut g w (GivenUp g w X (i.takeUnit.2.unitTries clock u now d budget)) a.inst := by
  subst ha
  have hleaves := applyUnder_leaves clock i.takeUnit.2 u now d budget
  obtain ⟨hworks, hended, hpol, hqueue⟩ := h.ended hl hr hself hu clock now d budget rfl hfit
  generalize i.takeUnit.2.converge u now (i.takeUnit.2.begin clock u d budget) = done at hleaves hworks hended hpol hqueue
  generalize (i.takeUnit.2.applyUnder clock u now d budget).inst = after at hleaves ⊢
  obtain ⟨hsound, hg, hw⟩ : after.executor.Sound ∧ after.executor.graph = g ∧ after.executor.wiring = w := by
    rw [hleaves.executor]
    exact ⟨hworks.executor, hworks.graph, hworks.wiring⟩
  have hstill : after.pending = after.state := (hleaves.pending hqueue).trans hleaves.state.symm
  refine ⟨⟨hsound, hg, hw, hleaves.refreshed, ?_⟩, ?_⟩
  · intro j hj s k q hs hk hq hne
    exact absurd (congrArg (State.read · q) hstill.symm) hne
  · intro j hj hn
    rw [hleaves.state] at hn
    have hsame : after.deferredMode = .inline ↔ i.deferredMode = .inline :=
      inline_congr (hleaves.policies.trans hpol) (hg.trans h.graph.symm)
    unfold Covered
    unfold Run.Ended at hended
    by_cases hm : i.deferredMode = .inline
    · rw [if_pos (hsame.2 hm)]
      rw [if_pos hm] at hended
      refine (hended j hj hn).imp id fun hcase => ?_
      exact hcase.elim (fun hd => .inr (hleaves.putOff g j (.inl hd))) fun hd => .inl (hleaves.queued g j hd)
    · rw [if_neg fun e => hm (hsame.1 e)]
      rw [if_neg hm] at hended
      have hwired : Wired g w := hg ▸ hw ▸ hsound.wired
      rcases hwired.mem_immediate_or_deferred hj with himm | hdef
      · refine (hended.1 j himm hn).imp id fun ho => ⟨fun _ => hleaves.queued g j ho, fun hdef => ?_⟩
        exact absurd himm (hwired.not_immediate hdef)
      · refine (hended.2 j hdef hn).imp id fun ho => ⟨fun himm => ?_, fun _ => hleaves.putOff g j ho⟩
        exact absurd himm (hwired.not_immediate hdef)

variable (ht : g.Total)

include ht

/-- Whatever happens to an instance keeps the account. -/
theorem Accounted.step (h : Accounted g w i) (hs : Step i i') : Accounted g w i' := by
  rcases hs.unit_or (g := g) (w := w) with ⟨u, clock, now, d, budget, hu, rfl, hfit⟩ | ⟨-, hkeep⟩
  · obtain rfl := h.graph
    have hran := unitTries_total (i := i.takeUnit.2) (u := u) ht h.executor clock now d budget
    exact ((h.but fun _ => False).unit hl hr hself hu clock now d budget rfl hfit).accounted fun j hj => hj.of_ran hran
  · exact (hkeep _ (h.but fun _ => False)).accounted fun _ => id

theorem Accounted.reached (h : Accounted g w i) (hr' : Reached i i') : Accounted g w i' := by
  induction hr' with
  | refl => exact h
  | step _ hs ih => exact ih.step hl hr hself ht hs

end

/-- Nothing is queued and every step is settled. -/
structure Quiet (c : Compiled) (i : Instance) : Prop where
  executor : Executor.Reached c i.executor
  queue : i.queue = []
  pending : i.pending = i.state
  settled : ∀ j ∈ c.wiring.order .all, c.graph.Settled i.state j

theorem Quiet.accounted {decl : Declaration} {c : Compiled} (hc : c.Of decl) (h : Quiet c i) :
    Accounted c.graph c.wiring i where
  executor := h.executor.sound hc
  graph := h.executor.same.1
  wiring := h.executor.same.2
  pending := by
    rw [h.queue, h.pending]
    rfl
  told := fun _ _ _ _ _ _ _ _ hne => absurd (h.pending ▸ rfl) hne
  covered := fun j hj hn => absurd (h.settled j hj) hn

/-- Whatever happens to an instance that was settled, each step that its committed state
leaves unsettled is covered by queued work or by the lane. Once both are empty it is
settled again. -/
theorem Reached.covered {decl : Declaration} {c : Compiled} (hc : c.Of decl) (hl : c.graph.Local)
    (hr : c.graph.Reflexive) (hself : c.graph.SelfFree) (ht : c.graph.Total) {i₀ i : Instance} (h₀ : Quiet c i₀)
    (h : Reached i₀ i) :
    (∀ j ∈ c.wiring.order .all, ¬ c.graph.Settled i.state j → i.Covered c.graph c.wiring j) ∧
      (i.queue = [] → i.lanePending = false → ∀ j ∈ c.wiring.order .all, c.graph.Settled i.state j) := by
  have hacc := (h₀.accounted hc).reached hl hr hself ht h
  refine ⟨hacc.covered, fun hq hlane j hj => Classical.byContradiction fun hn => ?_⟩
  exact not_covered hc.wired hq hlane hj (hacc.covered j hj hn)

end Instance

namespace Relay

/-- Policies under which one pass covers every step. -/
def inlined : Policy.Policies :=
  let p := Policy.Policies.resolve .builtin "relay" .empty none
  { p with convergence := ⟨config .full 8, .builtin⟩ }

/-- Policies that slice deferred steps. -/
def sliced : Policy.Policies :=
  let p := Policy.Policies.resolve .builtin "relay" .empty none
  { p with convergence := ⟨{ config .dirty 8 with timeSlicing := ⟨true, 0, 0⟩ }, .builtin⟩ }

/-- A relay at rest, with a lane. -/
def rest : Instance :=
  { Instance.ofCompiled ⟨"relay", "1"⟩ compiled .empty sliced (state 1 1 1) with
    lane := some (.ofSettings ⟨0, 0, true, 8⟩) }

/-- A commit that writes `x`. -/
def write : Commit :=
  ⟨1, .transaction, .normal,
    { Change.empty with writes := [(⟨[.key "x"], by decide⟩, .int 2)], dirty := .ofPaths [x] }⟩

def unit : WorkUnit := .ofCommit write

/-- The relay after a unit of that commit: `b` is left to the lane. -/
def waiting : Instance.Applied :=
  (rest.enqueue write).takeUnit.2.applyUnder (fun _ _ => false) unit 0 (.ofReporting .builtin false) none

/-- The relay after its queue is taken up. -/
def after (i : Instance) : Instance.Applied :=
  i.takeUnit.2.applyUnder (fun _ _ => false) ((i.takeUnit.1).getD unit) 0 (.ofReporting .builtin false) none

theorem rest_quiet : Instance.Quiet compiled rest := ⟨.ofCompiled _, rfl, rfl, settled_at_rest⟩

end Relay

/-- The lane covers the deferred step of a relay whose unit left it unsettled. -/
theorem Relay.covered_waiting :
    ¬ Relay.graph.Settled Relay.waiting.inst.state 1 ∧
      Relay.waiting.inst.Covered Relay.graph Relay.compiled.wiring 1 := by
  have hn : ¬ Relay.graph.Settled Relay.waiting.inst.state 1 := by
    have hd : Relay.waiting.inst.state = Relay.state 2 2 1 := by cbv
    rw [hd]
    intro h
    cases h
  have henqueue : Instance.Step Relay.rest (Relay.rest.enqueue Relay.write) := by
    refine .enqueue _ _ ?_
    exact Relay.covers_x 1 2 1 1
  have hunit : Instance.Step (Relay.rest.enqueue Relay.write) Relay.waiting.inst := by
    refine .unit _ Relay.unit _ _ _ _ Relay.waiting rfl rfl ?_
    cbv
  exact ⟨hn, (Instance.Reached.covered Relay.compiled_of Relay.local_ Relay.reflexive Relay.selfFree Relay.total
    Relay.rest_quiet ((Instance.Reached.refl.step henqueue).step hunit)).1 1 (by decide) hn⟩

end Settle
