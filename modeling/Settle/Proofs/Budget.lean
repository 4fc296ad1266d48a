/-
  Settle.Proofs.Budget — a unit stays within its budget (see `Settle.Instance.Apply`).

  A sweep runs at most as many steps as its cap, over all its rounds. A pass under a
  budget has a cap no larger than what is left of it, and what the pass ran is taken
  off. So all passes of a unit together run at most what it was given
  (`applyUnder_answers`). A unit reports the key it is for, and the priority and the kinds
  of the commits it was made of; what it leaves undone it queues on itself, unnumbered.
  The patches it reports after those of its commits are all that it wrote besides.
-/

import Settle.Proofs.Instance

namespace Settle.Pass

variable {f : Frame}

theorem step_executed_le (f : Frame) (r : Run) (i : StepId) : (r.step f i).1.executed ≤ r.executed + 1 := by
  unfold Run.step
  split
  · dsimp only
    split
    · exact Nat.le_refl _
    · split <;> split <;> exact Nat.le_refl _
  · exact Nat.le_succ _

theorem round_executed_le (f : Frame) (u : Bool) (l : List StepId) (r : Run) :
    (round f u l r).1.executed ≤ max r.executed f.cap := by
  fun_induction round f u l r with
  | case1 | case3 | case4 => exact Nat.le_max_left _ _
  | case2 _ _ _ _ ih => exact ih
  | case5 i _ r _ hcap _ r' _ he =>
    have hstep := step_executed_le f r i
    rw [he] at hstep
    dsimp only at hstep ⊢
    omega
  | case6 i _ r _ hcap _ r' he ih =>
    have hstep := step_executed_le f r i
    rw [he] at hstep
    dsimp only at hstep
    omega

/-- No sweep runs more steps than its cap. -/
theorem rounds_executed_le (f : Frame) (u : Bool) (l : List StepId) (r : Run) (n : Nat) :
    (rounds f u l r n).run.executed ≤ max r.executed f.cap := by
  refine Pass.rounds_rule (motive := fun r s => s.run.executed ≤ max r.executed f.cap) ?_ ?_ u l r n
  · exact fun u l r _ => round_executed_le f u l { r with again := [] }
  · intro u l r s hrest
    have hround := round_executed_le f u l { r with again := [] }
    dsimp only [Run.renewed] at hround hrest
    omega

end Settle.Pass

namespace Settle

/-- A pass runs at most as many steps as its policy caps it at. -/
theorem Executor.passUnder_steps_le (late : Nat → Bool) (e : Executor) (ctx : Context) (req : Executor.Request)
    (d : Diagnostics) : (e.passUnder late ctx req d).outcome.summary.executedSteps ≤
      req.config.stepCapFor (e.wiring.scopeSize req.scope) := by
  have hsweep : (e.sweep late ctx req).run.executed ≤ _ := Pass.rounds_executed_le (frame late e req) _ _ _ _
  rw [passUnder_eq]
  split
  · exact Nat.zero_le _
  · simpa [close, frame, start] using hsweep

namespace Instance

namespace Run

/-- The log of a run went on from one context to another: the draft is what the new
patches make of it. -/
def Logged (g : Graph) (c c' : Context) : Prop :=
  ∃ ps, c'.patches = c.patches ++ ps ∧ c'.draft = State.writeAll c.draft (g.writesOf ps)

theorem Logged.of_eq {g : Graph} {c c' : Context} (hpatches : c'.patches = c.patches) (hdraft : c'.draft = c.draft) :
    Logged g c c' := ⟨[], by rw [hpatches, List.append_nil], hdraft⟩

theorem Logged.trans {g : Graph} {c₁ c₂ c₃ : Context} (h : Logged g c₁ c₂) (h' : Logged g c₂ c₃) : Logged g c₁ c₃ := by
  obtain ⟨ps, hps, hd⟩ := h
  obtain ⟨qs, hqs, hd'⟩ := h'
  refine ⟨ps ++ qs, ?_, ?_⟩
  · rw [hqs, hps, List.append_assoc]
  · rw [hd', hd, Graph.writesOf_append, State.writeAll_append]

/-- From one run to a later one of the same unit, what was run was taken off the budget,
and the patches grew at their end by what was written. -/
structure Spends (r r' : Run) : Prop where
  key : r'.inst.key = r.inst.key
  queue : r'.inst.queue = r.inst.queue
  graph : r'.inst.executor.graph = r.inst.executor.graph
  of : r'.report.key = r.report.key
  priority : r'.report.priority = r.report.priority
  kinds : r'.report.kinds = r.report.kinds
  patches : r.context.patches <+: r'.context.patches
  logged : r.inst.executor.graph.WellFormed → Logged r.inst.executor.graph r.context r'.context
  steps : ∃ n, r'.report.steps = r.report.steps + n ∧ r'.budget = r.budget.map (· - n) ∧ ∀ b ∈ r.budget, n ≤ b

theorem Spends.refl (r : Run) : Spends r r :=
  ⟨rfl, rfl, rfl, rfl, rfl, rfl, List.prefix_refl _, fun _ => .of_eq rfl rfl, 0, rfl, by simp, fun _ _ => Nat.zero_le _⟩

theorem Spends.trans {r₁ r₂ r₃ : Run} (h : Spends r₁ r₂) (h' : Spends r₂ r₃) : Spends r₁ r₃ := by
  obtain ⟨n, hn, hb, hle⟩ := h.steps
  obtain ⟨n', hn', hb', hle'⟩ := h'.steps
  refine ⟨h'.key.trans h.key, h'.queue.trans h.queue, h'.graph.trans h.graph, h'.of.trans h.of,
    h'.priority.trans h.priority, h'.kinds.trans h.kinds, h.patches.trans h'.patches,
    fun hg => (h.logged hg).trans (h.graph ▸ h'.logged (h.graph.symm ▸ hg)), n + n', by rw [hn', hn, Nat.add_assoc],
    ?_, fun b hm => ?_⟩
  · rw [hb', hb]
    cases r₁.budget with
    | none => rfl
    | some b => simp [Nat.sub_sub]
  · rw [Option.mem_def] at hm
    rw [hm] at hb
    have hleft := hle' (b - n) (by rw [hb]; rfl)
    have := hle b hm
    omega

/-- Changes to a run that are not to its steps spend nothing. -/
theorem Spends.of_eq {r r' : Run} (hkey : r'.inst.key = r.inst.key) (hqueue : r'.inst.queue = r.inst.queue)
    (hgraph : r'.inst.executor.graph = r.inst.executor.graph) (hof : r'.report.key = r.report.key)
    (hpriority : r'.report.priority = r.report.priority) (hkinds : r'.report.kinds = r.report.kinds)
    (hpatches : r'.context.patches = r.context.patches) (hdraft : r'.context.draft = r.context.draft)
    (hsteps : r'.report.steps = r.report.steps) (hbudget : r'.budget = r.budget) : Spends r r' :=
  ⟨hkey, hqueue, hgraph, hof, hpriority, hkinds, hpatches ▸ List.prefix_refl _, fun _ => .of_eq hpatches hdraft, 0,
    hsteps, by simp [hbudget], fun _ _ => Nat.zero_le _⟩

theorem leave_spends (r : Run) (scope : Scope) (carried : Option Carried) : Spends r (r.leave scope carried) := by
  unfold leave
  dsimp only
  split <;> split <;> exact .of_eq rfl rfl rfl rfl rfl rfl rfl rfl rfl rfl

/-- What is left of a budget caps a pass. -/
theorem config_cap_le (r : Run) (scope : Scope) {left : Nat} (hb : r.budget = some left) (hleft : left ≠ 0) (n : Nat) :
    (r.config scope).stepCapFor n ≤ left := by
  unfold config
  rw [hb]
  simp only [Policy.Convergence.stepCapFor, Option.getD_some]
  omega

theorem pass_spends (r : Run) (scope : Scope) (carried : Option Carried) : Spends r (r.pass scope carried).2 := by
  by_cases hb : r.budget = some 0
  · rw [pass_spent hb]
    exact leave_spends r scope carried
  · have hran := Executor.passUnder_steps_le (r.clock r.report.passes) r.inst.executor r.context
      ⟨scope, r.config scope, carried⟩ r.diagnostics
    unfold pass
    rw [if_neg hb]
    dsimp only
    refine ⟨?_, ?_, ?_, ?_, ?_, ?_, ?_, fun hg => ?_, _, ?_, ?_, fun b hm => Nat.le_trans hran ?_⟩
    · split <;> rfl
    · split <;> rfl
    · split <;> exact Executor.passUnder_graph _ _ _ _ _
    · split <;> split <;> rfl
    · split <;> split <;> rfl
    · split <;> split <;> rfl
    · split <;> exact Executor.passUnder_patches _ _ _ _ _
    · split <;> exact Executor.pass_logged hg (Logged.of_eq rfl rfl)
    · split <;> split <;> rfl
    · split <;> rfl
    · exact config_cap_le r scope hm (fun e => hb (e ▸ hm)) _

theorem putBy_spends (r : Run) (d : DirtySet) : Spends r (r.putBy d) := by
  unfold putBy
  split <;> exact .of_eq rfl rfl rfl rfl rfl rfl rfl rfl rfl rfl

theorem settleBack_spends (r : Run) (changed : List Path) : Spends r (r.settleBack changed) := by
  rcases settleBack_cases r changed with ⟨-, he⟩ | ⟨-, he⟩
  · rw [he]
    exact .refl r
  · have hon : Spends r (r.on (.ofPaths changed)) := .of_eq rfl rfl rfl rfl rfl rfl rfl rfl rfl rfl
    rw [he]
    exact (hon.trans (pass_spends _ _ _)).trans (putBy_spends _ _)

theorem runDeferred_spends (r : Run) (work : Deferred) : Spends r (r.runDeferred work) := by
  have hup : Spends r (r.takeUp work) := .of_eq rfl rfl rfl rfl rfl rfl rfl rfl rfl rfl
  rw [runDeferred_eq]
  exact (hup.trans (pass_spends _ _ _)).trans (settleBack_spends _ _)

theorem dueNow_spends (r : Run) (mode : DeferredMode) (handed : Option Deferred) (work : Deferred) (now : Time) :
    Spends r (r.dueNow mode handed work now).2 := by
  unfold dueNow
  split <;> try exact .refl r
  split
  · exact .refl r
  · exact .of_eq rfl rfl rfl rfl rfl rfl rfl rfl rfl rfl

theorem afterImmediate_spends (r : Run) (mode : DeferredMode) (handed : Option Deferred) (fed : DirtySet) (now : Time) :
    Spends r (r.afterImmediate mode handed fed now) := by
  unfold afterImmediate
  dsimp only
  split
  · exact .refl r
  · have hdue := dueNow_spends r mode handed (r.workFor handed fed) now
    generalize r.dueNow mode handed (r.workFor handed fed) now = p at hdue
    obtain ⟨_ | work, r'⟩ := p
    · exact hdue
    · exact hdue.trans (runDeferred_spends r' work)

end Run

variable {i : Instance} {u : WorkUnit}

theorem converge_spends (i : Instance) (u : WorkUnit) (now : Time) (r : Run) : Run.Spends r (i.converge u now r) := by
  by_cases hm : i.deferredMode = .inline
  · rw [converge_inline hm]
    exact Run.pass_spends _ _ _
  · rw [converge_sliced hm]
    exact (Run.pass_spends _ _ _).trans (Run.afterImmediate_spends _ _ _ _ _)

/-- What a unit reports of the commits it was made of, with the patches of callers first,
that its steps are within the budget, what it queues on its instance, and that it writes
what its patches record and nothing else. -/
structure Answers (i : Instance) (u : WorkUnit) (budget : Option Nat) (a : Applied) : Prop where
  key : a.inst.key = i.key
  queue : ∃ added, a.inst.queue = i.queue ++ added ∧ ∀ c ∈ added, c.seq = 0
  graph : a.inst.executor.graph = i.executor.graph
  of : a.report.key = i.key
  priority : a.report.priority = u.priority
  kinds : a.report.kinds = u.kinds
  patches : u.change.patches <+: a.report.patches
  logged : i.executor.graph.WellFormed → ∃ ps, a.report.patches = u.change.patches ++ ps ∧
    a.inst.state = State.writeAll (u.change.applyTo i.state) (i.executor.graph.writesOf ps)
  steps : ∀ b ∈ budget, a.report.steps ≤ b

theorem begin_report (clock : Nat → Nat → Bool) (i : Instance) (u : WorkUnit) (d : Diagnostics) (budget : Option Nat) :
    (i.begin clock u d budget).report.key = i.key ∧ (i.begin clock u d budget).report.priority = u.priority ∧
      (i.begin clock u d budget).report.kinds = u.kinds ∧ (i.begin clock u d budget).report.steps = 0 ∧
      (i.begin clock u d budget).budget = budget := by
  unfold begin
  dsimp only
  cases i.folded u <;> exact ⟨rfl, rfl, rfl, rfl, rfl⟩

theorem applyUnder_answers (clock : Nat → Nat → Bool) (i : Instance) (u : WorkUnit) (now : Time) (d : Diagnostics)
    (budget : Option Nat) : Answers i u budget (i.applyUnder clock u now d budget) := by
  obtain ⟨hof, hpriority, hkinds, hsteps, hbudget⟩ := begin_report clock i u d budget
  have hs := converge_spends i u now (i.begin clock u d budget)
  have hleaves := applyUnder_leaves clock i u now d budget
  obtain ⟨n, hn, -, hle⟩ := hs.steps
  have hpatches : (i.begin clock u d budget).context.patches = u.change.patches := begin_patches
  have hinst : (i.begin clock u d budget).inst = { i with txnSeq := i.txnSeq + 1 } := begin_inst
  refine ⟨?_, ?_, ?_, hs.of.trans hof, hs.priority.trans hpriority, hs.kinds.trans hkinds, ?_, fun hg => ?_,
    fun b hb => ?_⟩
  · rw [hleaves.key, hs.key, hinst]
  · obtain ⟨added, hadded, hown⟩ := hleaves.queue
    refine ⟨added, hadded.trans ?_, fun c hc => (hown c hc).2⟩
    rw [hs.queue, hinst]
  · rw [hleaves.executor, hs.graph, hinst]
  · exact hpatches ▸ hs.patches
  · have hlogged := hs.logged
    rw [hinst] at hlogged
    obtain ⟨ps, hps, hdraft⟩ := hlogged hg
    refine ⟨ps, hps.trans (by rw [hpatches]), ?_⟩
    rw [hleaves.state, hdraft, begin_draft]
  · change (i.converge u now (i.begin clock u d budget)).report.steps ≤ b
    rw [hn, hsteps, Nat.zero_add]
    refine hle b ?_
    rw [hbudget]
    exact hb

theorem apply_answers (i : Instance) (u : WorkUnit) (now : Time) (d : Diagnostics) (budget : Option Nat) :
    Answers i u budget (i.apply u now d budget) := by
  unfold apply
  exact applyUnder_answers _ i u now d budget

end Instance

end Settle
