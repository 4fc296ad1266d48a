/-
  Settle.Proofs.Unit — what a unit leaves undone is kept somewhere (see
  `Settle.Instance.Apply`).

  A unit on its way owes immediate steps what its run has left over and carries, and
  deferred steps what its run has put by for them. A pass, or a pass left out because the
  budget is spent, accounts for the unsettled steps of its scope there and unsettles no
  step of another scope but by the fields it writes (`Run.pass_owes`, `Run.pass_moved`).
  A pass that fails owes nothing, so what it had due is given up (`GivenUp`) until another
  pass takes it up; steps excused at the start (`X`) are followed through the passes that
  are run (`Run.tried` and on). So each turn a unit can take (deferred work run now, put
  into the lane, or handed back) leaves every unsettled step given up, owed by the run or
  held by the lane (`Run.turn_deferred`, `Run.turn_immediate`), and what it owes is queued
  at the end (`Run.followUps_cases`).
-/

import Settle.Instance.Apply
import Settle.Proofs.Tried
import Settle.Proofs.Work

namespace Settle

/-- No step is both immediate and deferred. -/
theorem Wired.not_immediate {g : Graph} {w : Wiring} (h : Wired g w) {j : StepId} (hj : j ∈ w.order .deferred) :
    j ∉ w.order .immediate := fun hi => by
  obtain ⟨s, hs, hsd⟩ := h.mem_order.1 hj
  obtain ⟨s', hs', hsi⟩ := h.mem_order.1 hi
  obtain rfl := Option.some.inj (hs.symm.trans hs')
  cases hk : s.scheduling <;> rw [hk] at hsd hsi
  · cases hsd
  · cases hsi

namespace Instance

namespace Run

variable {g : Graph} {w : Wiring} {v : Value} {p₀ qs : List Patch} {r : Run} {scope : Scope} {carried : Option Carried}
  {j : StepId} {X : StepId → Prop}

/-- The run works on this graph. -/
structure Works (g : Graph) (w : Wiring) (r : Run) : Prop where
  executor : r.inst.executor.Sound
  graph : r.inst.executor.graph = g
  wiring : r.inst.executor.wiring = w

theorem Works.congr {r' : Run} (h : Works g w r) (he : r'.inst.executor = r.inst.executor) : Works g w r' :=
  ⟨he ▸ h.executor, he ▸ h.graph, he ▸ h.wiring⟩

/-- The draft is what the patches of the run, those of the caller apart, make of the state
it began with. -/
structure Tracks (g : Graph) (w : Wiring) (v : Value) (p₀ : List Patch) (r : Run) : Prop extends Works g w r where
  logged : ∃ ps, r.context.patches = p₀ ++ ps ∧ r.context.draft = State.writeAll v (g.writesOf ps)

/-- What the run has left for the steps of the scope accounts for the step. -/
def Owes (g : Graph) (r : Run) (scope : Scope) (j : StepId) : Prop :=
  if scope = .deferred then g.Due r.deferred.dirty r.deferred.carried j else g.Due r.leftover r.carried j

/-- What passes keep of a run: all but the context, the executor and what they add. -/
structure Follows (g : Graph) (r r' : Run) : Prop where
  inst : r'.inst = { r.inst with executor := r'.inst.executor }
  graph : r'.inst.executor.graph = r.inst.executor.graph
  owes : ∀ scope j, r.Owes g scope j → r'.Owes g scope j
  patches : r.context.patches <+: r'.context.patches

theorem Follows.refl (r : Run) : Follows g r r := ⟨rfl, rfl, fun _ _ h => h, List.prefix_refl _⟩

theorem Follows.trans {r₁ r₂ r₃ : Run} (h : Follows g r₁ r₂) (h' : Follows g r₂ r₃) : Follows g r₁ r₃ := by
  refine ⟨?_, h'.graph.trans h.graph, fun s j ho => h'.owes s j (h.owes s j ho), h.patches.trans h'.patches⟩
  rw [h'.inst, h.inst]

theorem Follows.lane {r r' : Run} (h : Follows g r r') : r'.inst.lane = r.inst.lane := by
  rw [h.inst]

/-! ## One pass -/

/-- The fields that a pass wrote, none when it was left out. -/
def written (o : Option Executor.Outcome) : List Path := (o.map (·.changed)).getD []

theorem leave_inst (r : Run) (scope : Scope) (carried : Option Carried) : (r.leave scope carried).inst = r.inst := by
  unfold leave
  dsimp only
  split <;> split <;> rfl

theorem leave_context (r : Run) (scope : Scope) (carried : Option Carried) :
    (r.leave scope carried).context = r.context := by
  unfold leave
  dsimp only
  split <;> split <;> rfl

/-- What is left out is owed to its scope, besides what was. -/
theorem leave_owes (h : r.Owes g scope j ∨ g.Due r.context.dirty carried j) : (r.leave scope carried).Owes g scope j := by
  unfold Owes at h ⊢
  unfold leave
  dsimp only
  by_cases hs : scope = .deferred
  · simp only [hs, if_true] at h ⊢
    split <;> exact .union h
  · simp only [hs, if_false] at h ⊢
    split <;> exact .union h

/-- What adds to the work for one kind of step and leaves the other alone keeps what is
owed. -/
theorem owes_keeps {r' : Run} {scope' : Scope} (h : r.Owes g scope' j) (hsame : r.Owes g scope j → r'.Owes g scope j)
    (himm : scope ≠ .deferred → r'.deferred = r.deferred)
    (hdef : scope = .deferred → r'.leftover = r.leftover ∧ r'.carried = r.carried) : r'.Owes g scope' j := by
  unfold Owes at h hsame ⊢
  by_cases hs : scope = .deferred
  · obtain ⟨hleft, hcarried⟩ := hdef hs
    simp only [hs, if_true] at hsame
    rw [hleft, hcarried]
    by_cases hs' : scope' = .deferred
    · rw [if_pos hs'] at h ⊢
      exact hsame h
    · rw [if_neg hs'] at h ⊢
      exact h
  · simp only [hs, if_false] at hsame
    rw [himm hs]
    by_cases hs' : scope' = .deferred
    · rw [if_pos hs'] at h ⊢
      exact h
    · rw [if_neg hs'] at h ⊢
      exact hsame h

theorem leave_keeps {scope' : Scope} (h : r.Owes g scope' j) : (r.leave scope carried).Owes g scope' j := by
  refine owes_keeps h (fun ho => leave_owes (.inl ho)) (fun hs => ?_) fun hs => ?_
  all_goals
    unfold leave
    dsimp only
  · rw [if_neg hs]
    split <;> rfl
  · rw [if_pos hs]
    split <;> exact ⟨rfl, rfl⟩

theorem leave_follows (r : Run) (scope : Scope) (carried : Option Carried) : Follows g r (r.leave scope carried) := by
  refine ⟨?_, ?_, fun _ _ h => leave_keeps h, ?_⟩
  · rw [leave_inst]
  · rw [leave_inst]
  · simp only [leave_context, List.prefix_refl]

theorem leave_works (h : Works g w r) (scope : Scope) (carried : Option Carried) : Works g w (r.leave scope carried) :=
  h.congr (by rw [leave_inst])

/-- What the executor answers when it is asked for the pass. -/
def passed (r : Run) (scope : Scope) (carried : Option Carried) : Executor.Passed :=
  r.inst.executor.passUnder (r.clock r.report.passes) r.context ⟨scope, r.config scope, carried⟩ r.diagnostics

theorem pass_spent (hb : r.budget = some 0) : r.pass scope carried = (none, r.leave scope carried) := by
  unfold pass
  rw [if_pos hb]

theorem pass_ran (hb : r.budget ≠ some 0) (scope : Scope) (carried : Option Carried) :
    (r.pass scope carried).1 = some (r.passed scope carried).outcome ∧
      (r.pass scope carried).2.inst = { r.inst with executor := (r.passed scope carried).executor } ∧
      (r.pass scope carried).2.context = (r.passed scope carried).context := by
  unfold pass
  rw [if_neg hb]
  dsimp only
  refine ⟨rfl, ?_, ?_⟩
  all_goals split <;> rfl

theorem pass_works (h : Works g w r) (scope : Scope) (carried : Option Carried) : Works g w (r.pass scope carried).2 := by
  by_cases hb : r.budget = some 0
  · rw [pass_spent hb]
    exact leave_works h scope carried
  · obtain ⟨-, hi, -⟩ := pass_ran hb scope carried
    refine ⟨?_, ?_, ?_⟩
    · rw [hi]
      exact h.executor.passUnder _ _ _ _
    · rw [hi]
      exact (Executor.passUnder_graph _ _ _ _ _).trans h.graph
    · rw [hi]
      exact (Executor.passUnder_wiring _ _ _ _ _).trans h.wiring

/-- What a pass carries is owed to its scope, besides what was. -/
theorem pass_carries (hb : r.budget ≠ some 0)
    (h : r.Owes g scope j ∨ ∃ work, (r.passed scope carried).outcome.carried = some work ∧ g.Owes work j) :
    (r.pass scope carried).2.Owes g scope j := by
  unfold Owes at h ⊢
  unfold pass
  rw [if_neg hb]
  dsimp only
  by_cases hs : scope = .deferred
  · simp only [hs, if_true] at h ⊢
    exact .merge_carried h
  · simp only [hs, if_false] at h ⊢
    exact .merge_carried h

theorem pass_keeps {scope' : Scope} (hb : r.budget ≠ some 0) (h : r.Owes g scope' j) :
    (r.pass scope carried).2.Owes g scope' j := by
  refine owes_keeps h (fun ho => pass_carries hb (.inl ho)) (fun hs => ?_) fun hs => ?_
  all_goals
    unfold pass
    rw [if_neg hb]
    dsimp only
  · rw [if_neg hs]
  · rw [if_pos hs]
    exact ⟨rfl, rfl⟩

/-- A pass that failed is as if it had not been run. -/
theorem pass_failed (hb : r.budget ≠ some 0) (hfail : (r.passed scope carried).outcome.degrade = some .deriveFailed) :
    (r.pass scope carried).2.context = r.context ∧ written (r.pass scope carried).1 = [] := by
  obtain ⟨ho, -, hc⟩ := pass_ran hb scope carried
  obtain ⟨hctx, hchanged, -⟩ := Executor.passUnder_failed hfail
  rw [hc, ho]
  exact ⟨hctx, hchanged⟩

theorem pass_follows (r : Run) (scope : Scope) (carried : Option Carried) : Follows g r (r.pass scope carried).2 := by
  by_cases hb : r.budget = some 0
  · rw [pass_spent hb]
    exact leave_follows r scope carried
  · obtain ⟨-, hi, hc⟩ := pass_ran hb scope carried
    refine ⟨by rw [hi], ?_, fun _ _ h => pass_keeps hb h, ?_⟩
    · rw [hi]
      exact Executor.passUnder_graph _ _ _ _ _
    · rw [hc]
      exact Executor.passUnder_patches _ _ _ _ _

/-- The pass, if it is run. -/
def tried (r : Run) (scope : Scope) (carried : Option Carried) : List Tried :=
  match (r.pass scope carried).1 with
  | none => []
  | some o => [⟨scope, r.context.dirty, carried, o.summary.executed = .full, o.degrade = some .deriveFailed⟩]

theorem tried_spent (hb : r.budget = some 0) : r.tried scope carried = [] := by
  unfold tried
  rw [pass_spent hb]

theorem tried_ran (hb : r.budget ≠ some 0) : r.tried scope carried =
    [⟨scope, r.context.dirty, carried, (r.passed scope carried).outcome.summary.executed = .full,
      (r.passed scope carried).outcome.degrade = some .deriveFailed⟩] := by
  unfold tried
  rw [(pass_ran hb scope carried).1]

theorem tried_scope : ∀ t ∈ r.tried scope carried, t.scope = scope := by
  unfold tried
  split
  · exact fun _ h => absurd h List.not_mem_nil
  · exact fun _ h => List.mem_singleton.1 h ▸ rfl

/-- Whatever a pass does, the draft stays what the patches make of the state at the start. -/
theorem pass_tracks (h : Tracks g w v p₀ r) (scope : Scope) (carried : Option Carried) :
    Tracks g w v p₀ (r.pass scope carried).2 := by
  refine ⟨pass_works h.toWorks scope carried, ?_⟩
  by_cases hb : r.budget = some 0
  · rw [pass_spent hb, leave_context]
    exact h.logged
  · obtain ⟨-, -, hc⟩ := pass_ran hb scope carried
    obtain rfl := h.graph
    rw [hc]
    exact Executor.pass_logged h.executor.wired.graph h.logged

section

variable (hl : g.Local) (hr : g.Reflexive) (hself : g.SelfFree) (hfit : State.fitsAll v (g.writesOf qs))

include hfit

/-- The writes of a pass are part of the log of its unit, so they meet no array. -/
theorem fits_of_tracks (h : Tracks g w v p₀ r) (hb : r.budget ≠ some 0)
    (hok : (r.passed scope carried).outcome.degrade ≠ some .deriveFailed)
    (hps : (r.pass scope carried).2.context.patches <+: p₀ ++ qs) :
    State.fitsAll r.context.draft
      (r.inst.executor.writes (r.clock r.report.passes) r.context ⟨scope, r.config scope, carried⟩) := by
  obtain ⟨-, -, hc⟩ := pass_ran hb scope carried
  obtain rfl := h.graph
  rw [hc] at hps
  exact Executor.pass_fits h.logged hfit hok hps

include hl hr hself

/-- After a pass, or in its place, the unsettled steps of its scope are owed to it, unless
they are excused and it did not take them up, or it had them due and failed. -/
theorem pass_owes (h : Tracks g w v p₀ r) (hps : (r.pass scope carried).2.context.patches <+: p₀ ++ qs)
    (hdue : ∀ j ∈ w.order scope, ¬ g.Settled r.context.draft j → X j ∨ g.Due r.context.dirty carried j)
    (hj : j ∈ w.order scope) (hn : ¬ g.Settled (r.pass scope carried).2.context.draft j) :
    GivenUp g w X (r.tried scope carried) j ∨ (r.pass scope carried).2.Owes g scope j := by
  by_cases hb : r.budget = some 0
  · rw [pass_spent hb] at hn ⊢
    rw [leave_context] at hn
    rw [tried_spent hb]
    exact (hdue j hj hn).imp GivenUp.nil.2 fun hd => leave_owes (.inr hd)
  rw [tried_ran hb]
  by_cases hfail : (r.passed scope carried).outcome.degrade = some .deriveFailed
  · rw [(pass_failed hb hfail).1] at hn
    exact .inl (.of_failed (decide_eq_true hfail) ((hdue j hj hn).imp id fun hd => ⟨hj, hd⟩))
  · have hfits := fits_of_tracks hfit h hb hfail hps
    obtain ⟨-, -, hc⟩ := pass_ran hb scope carried
    rw [hc] at hn
    -- what is taken up is not excused any more
    have hcases : ∀ j ∈ w.order scope, ¬ g.Settled r.context.draft j →
        (X j ∧ ∀ t ∈ r.tried scope carried, ¬ t.TakesUp g w j) ∨
          g.Due r.context.dirty carried j ∨ (r.passed scope carried).outcome.summary.executed = .full := fun j hj hn => by
      refine or_iff_not_imp_right.2 fun hup => ?_
      obtain ⟨hd, hfull⟩ := not_or.1 hup
      refine ⟨(hdue j hj hn).resolve_right hd, fun t ht ⟨_, _, ha⟩ => ?_⟩
      rw [tried_ran hb] at ht
      obtain rfl := List.mem_singleton.1 ht
      exact ha.elim hd fun he => hfull (of_decide_eq_true he)
    rw [tried_ran hb] at hcases
    obtain rfl := h.graph
    obtain rfl := h.wiring
    rcases Executor.pass_accounts_full h.executor hl hr hself hcases hfits hfail hj hn with ⟨hx, hup⟩ | ho
    · exact .inl (.of_not_takesUp hx hup)
    · exact .inr (pass_carries hb (.inr ho))

/-- A pass unsettles only what a field that it wrote may move. -/
theorem pass_moved (h : Tracks g w v p₀ r) (hps : (r.pass scope carried).2.context.patches <+: p₀ ++ qs)
    (hn : ¬ g.Settled (r.pass scope carried).2.context.draft j) :
    ¬ g.Settled r.context.draft j ∨ ∃ p ∈ written (r.pass scope carried).1, g.Moves p j := by
  by_cases hb : r.budget = some 0
  · rw [pass_spent hb, leave_context] at hn
    exact .inl hn
  by_cases hfail : (r.passed scope carried).outcome.degrade = some .deriveFailed
  · rw [(pass_failed hb hfail).1] at hn
    exact .inl hn
  · have hfits := fits_of_tracks hfit h hb hfail hps
    obtain ⟨ho, -, hc⟩ := pass_ran hb scope carried
    obtain rfl := h.graph
    rw [hc] at hn
    rw [ho]
    by_cases hs : r.inst.executor.graph.Settled r.context.draft j
    · exact .inr (Executor.pass_moved h.executor hl hr hself hfits hfail hs hn)
    · exact .inl hs

end

/-! ## Deferred work -/

theorem putBy_context (r : Run) (d : DirtySet) : (r.putBy d).context = r.context := by
  unfold putBy
  split <;> rfl

theorem putBy_inst (r : Run) (d : DirtySet) : (r.putBy d).inst = r.inst := by
  unfold putBy
  split <;> rfl

theorem putBy_report (r : Run) (d : DirtySet) : (r.putBy d).report = r.report := by
  unfold putBy
  split <;> rfl

theorem putBy_follows (r : Run) (d : DirtySet) : Follows g r (r.putBy d) := by
  refine ⟨?_, ?_, fun scope j h => ?_, ?_⟩
  · rw [putBy_inst]
  · rw [putBy_inst]
  · unfold putBy
    split
    · unfold Owes at h ⊢
      by_cases hs : scope = .deferred
      · simp only [hs, if_true] at h ⊢
        exact .union_dirty (.inl h)
      · simp only [hs, if_false] at h ⊢
        exact h
    · exact h
  · simp only [putBy_context, List.prefix_refl]

theorem putBy_works (h : Works g w r) (d : DirtySet) : Works g w (r.putBy d) := h.congr (by rw [putBy_inst])

theorem putBy_tracks (h : Tracks g w v p₀ r) (d : DirtySet) : Tracks g w v p₀ (r.putBy d) := by
  refine ⟨putBy_works h.toWorks d, ?_⟩
  rw [putBy_context]
  exact h.logged

/-- Roots put by are owed to the deferred steps they touch. -/
theorem putBy_owes (h : Tracks g w v p₀ r) {d : DirtySet} (hj : j ∈ w.order .deferred) (hd : g.Dirtied d j) :
    (r.putBy d).Owes g .deferred j := by
  unfold putBy
  split
  · exact Graph.Due.union_dirty (.inr hd)
  · rename_i ha
    obtain rfl := h.graph
    obtain rfl := h.wiring
    exact absurd hd (h.executor.not_dirtied (Bool.eq_false_iff.2 ha) hj)

/-- A run that goes on with other roots. -/
def on (r : Run) (d : DirtySet) : Run := { r with context := { r.context with dirty := d } }

theorem on_follows (r : Run) (d : DirtySet) : Follows g r (r.on d) :=
  ⟨rfl, rfl, fun _ _ h => h, List.prefix_refl _⟩

theorem on_tracks (h : Tracks g w v p₀ r) (d : DirtySet) : Tracks g w v p₀ (r.on d) :=
  ⟨h.congr rfl, h.logged⟩

theorem affects_nil (e : Executor) (scope : Scope) : e.affects scope (.ofPaths []) = false := by
  unfold Executor.affects
  rw [if_pos (.inr rfl)]

theorem putBy_nil (r : Run) : r.putBy (.ofPaths []) = r := by
  unfold putBy
  rw [affects_nil]
  rfl

/-- The pass in which immediate steps settle back. -/
def back (r : Run) (changed : List Path) : Option Executor.Outcome × Run := (r.on (.ofPaths changed)).pass .immediate none

/-- That pass, if it is run. -/
def backTries (r : Run) (changed : List Path) : List Tried :=
  if r.inst.executor.affects .immediate (.ofPaths changed) then (r.on (.ofPaths changed)).tried .immediate none else []

theorem backTries_scope {changed : List Path} : ∀ t ∈ r.backTries changed, t.scope = .immediate := by
  unfold backTries
  split
  · exact tried_scope
  · exact fun _ h => absurd h List.not_mem_nil

theorem settleBack_cases (r : Run) (changed : List Path) :
    (r.inst.executor.affects .immediate (.ofPaths changed) = false ∧ r.settleBack changed = r) ∨
      (r.inst.executor.affects .immediate (.ofPaths changed) = true ∧
        r.settleBack changed = (r.back changed).2.putBy (.ofPaths (written (r.back changed).1))) := by
  unfold settleBack
  dsimp only
  split
  · rename_i ha
    exact .inl ⟨by simpa using ha, rfl⟩
  · rename_i ha
    refine .inr ⟨by simpa using ha, ?_⟩
    unfold back on
    generalize Run.pass _ .immediate none = p
    obtain ⟨_ | out, r'⟩ := p
    · exact (putBy_nil r').symm
    · rfl

theorem settleBack_follows (r : Run) (changed : List Path) : Follows g r (r.settleBack changed) := by
  have hback : Follows g r (r.back changed).2 := (on_follows r _).trans (pass_follows _ .immediate none)
  rcases settleBack_cases r changed with ⟨-, he⟩ | ⟨-, he⟩
  · rw [he]
    exact .refl r
  · rw [he]
    exact hback.trans (putBy_follows _ _)

theorem settleBack_tracks (h : Tracks g w v p₀ r) (changed : List Path) : Tracks g w v p₀ (r.settleBack changed) := by
  rcases settleBack_cases r changed with ⟨-, he⟩ | ⟨-, he⟩
  · rwa [he]
  · rw [he]
    exact putBy_tracks (pass_tracks (on_tracks h (.ofPaths changed)) .immediate none) _

section

variable (hl : g.Local) (hr : g.Reflexive) (hself : g.SelfFree) (hfit : State.fitsAll v (g.writesOf qs))

include hl hr hself hfit

/-- Settling back owes the deferred steps that it unsettles. -/
theorem settleBack_deferred (h : Tracks g w v p₀ r) {changed : List Path}
    (hps : (r.settleBack changed).context.patches <+: p₀ ++ qs)
    (hdue : ∀ j ∈ w.order .deferred, ¬ g.Settled r.context.draft j → X j ∨ r.Owes g .deferred j)
    (hj : j ∈ w.order .deferred) (hn : ¬ g.Settled (r.settleBack changed).context.draft j) :
    GivenUp g w X (r.backTries changed) j ∨ (r.settleBack changed).Owes g .deferred j := by
  have hfollows : Follows g r (r.settleBack changed) := settleBack_follows r changed
  have hkeep : X j → GivenUp g w X (r.backTries changed) j := fun hx => by
    obtain rfl := h.graph
    obtain rfl := h.wiring
    exact .of_scope hx backTries_scope (h.executor.wired.not_immediate hj)
  rcases settleBack_cases r changed with ⟨-, he⟩ | ⟨-, he⟩
  · rw [he] at hn ⊢
    exact (hdue j hj hn).imp hkeep id
  · rw [he] at hps hn hfollows ⊢
    rw [putBy_context] at hps hn
    have htr := on_tracks h (.ofPaths changed)
    rcases pass_moved hl hr hself hfit htr hps hn with hn | ⟨p, hp, hm⟩
    · exact (hdue j hj hn).imp hkeep (hfollows.owes .deferred j)
    · have hback := pass_tracks htr .immediate none
      exact .inr (putBy_owes hback hj (hm.dirtied_insert hp .empty))

/-- Settling back accounts for the immediate steps that the fields it is told of move. -/
theorem settleBack_immediate (h : Tracks g w v p₀ r) {changed : List Path}
    (hps : (r.settleBack changed).context.patches <+: p₀ ++ qs)
    (hdue : ∀ j ∈ w.order .immediate, ¬ g.Settled r.context.draft j →
      (X j ∨ r.Owes g .immediate j) ∨ ∃ p ∈ changed, g.Moves p j)
    (hj : j ∈ w.order .immediate) (hn : ¬ g.Settled (r.settleBack changed).context.draft j) :
    GivenUp g w X (r.backTries changed) j ∨ (r.settleBack changed).Owes g .immediate j := by
  have hfollows : Follows g r (r.settleBack changed) := settleBack_follows r changed
  have hroots : ∀ j, (∃ p ∈ changed, g.Moves p j) → g.Dirtied (.ofPaths changed) j := fun _ ⟨_, hp, hm⟩ =>
    hm.dirtied_insert hp .empty
  unfold backTries
  rcases settleBack_cases r changed with ⟨ha, he⟩ | ⟨ha, he⟩
  · rw [he] at hn ⊢
    rw [if_neg (Bool.eq_false_iff.1 ha)]
    obtain rfl := h.graph
    obtain rfl := h.wiring
    have hold := (hdue j hj hn).resolve_right fun hm => h.executor.not_dirtied ha hj (hroots j hm)
    exact hold.imp GivenUp.nil.2 id
  · rw [he] at hps hn hfollows ⊢
    rw [if_pos ha]
    rw [putBy_context] at hps hn
    have hstart : ∀ i ∈ w.order .immediate, ¬ g.Settled r.context.draft i →
        (X i ∨ r.Owes g .immediate i) ∨ g.Due (.ofPaths changed) none i := fun i hi hn =>
      (hdue i hi hn).imp id fun hm => .inl (hroots i hm)
    rcases pass_owes hl hr hself hfit (on_tracks h (.ofPaths changed)) hps hstart hj hn with hx | ho
    · exact hx.or.imp id (hfollows.owes .immediate j)
    · exact .inr ((putBy_follows _ _).owes .immediate j ho)

end

theorem settleBack_nil (r : Run) : r.settleBack [] = r := by
  unfold settleBack
  dsimp only
  rw [affects_nil]
  rfl

theorem takeUp_follows (r : Run) (work : Deferred) : Follows g r (r.takeUp work) :=
  ⟨rfl, rfl, fun _ _ h => h, List.prefix_refl _⟩

theorem takeUp_tracks (h : Tracks g w v p₀ r) (work : Deferred) : Tracks g w v p₀ (r.takeUp work) :=
  ⟨h.congr rfl, h.logged⟩

/-- The pass over deferred steps. -/
def ahead (r : Run) (work : Deferred) : Option Executor.Outcome × Run := (r.takeUp work).pass .deferred work.carried

theorem runDeferred_eq (r : Run) (work : Deferred) :
    r.runDeferred work = (r.ahead work).2.settleBack (written (r.ahead work).1) := by
  unfold runDeferred ahead
  generalize (r.takeUp work).pass .deferred work.carried = p
  obtain ⟨_ | out, r'⟩ := p
  · exact (settleBack_nil r').symm
  · rfl

/-- That pass and the one in which immediate steps settle back, if they are run. -/
def deferredTries (r : Run) (work : Deferred) : List Tried :=
  (r.takeUp work).tried .deferred work.carried ++ (r.ahead work).2.backTries (written (r.ahead work).1)

theorem ahead_follows (r : Run) (work : Deferred) : Follows g r (r.ahead work).2 :=
  (takeUp_follows r work).trans (pass_follows _ .deferred work.carried)

theorem runDeferred_follows (r : Run) (work : Deferred) : Follows g r (r.runDeferred work) := by
  rw [runDeferred_eq]
  exact (ahead_follows r work).trans (settleBack_follows _ _)

theorem ahead_tracks (h : Tracks g w v p₀ r) (work : Deferred) : Tracks g w v p₀ (r.ahead work).2 :=
  pass_tracks (takeUp_tracks h work) .deferred work.carried

theorem runDeferred_tracks (h : Tracks g w v p₀ r) (work : Deferred) : Tracks g w v p₀ (r.runDeferred work) := by
  rw [runDeferred_eq]
  exact settleBack_tracks (ahead_tracks h work) _

section

variable (hl : g.Local) (hr : g.Reflexive) (hself : g.SelfFree) (hfit : State.fitsAll v (g.writesOf qs))

include hl hr hself hfit

/-- Running deferred work owes the deferred steps that it leaves unsettled. -/
theorem runDeferred_deferred (h : Tracks g w v p₀ r) {work : Deferred}
    (hps : (r.runDeferred work).context.patches <+: p₀ ++ qs)
    (hdue : ∀ j ∈ w.order .deferred, ¬ g.Settled r.context.draft j → X j ∨ g.Due work.dirty work.carried j)
    (hj : j ∈ w.order .deferred) (hn : ¬ g.Settled (r.runDeferred work).context.draft j) :
    GivenUp g w X (r.deferredTries work) j ∨ (r.runDeferred work).Owes g .deferred j := by
  rw [runDeferred_eq] at hps hn ⊢
  have hback : Follows g _ _ := settleBack_follows (r.ahead work).2 (written (r.ahead work).1)
  have hps' := hback.patches.trans hps
  have hahead := ahead_tracks h work
  refine (settleBack_deferred hl hr hself hfit hahead hps (fun i hi hn => ?_) hj hn).imp GivenUp.append id
  exact pass_owes hl hr hself hfit (takeUp_tracks h work) hps' hdue hi hn

/-- Running deferred work owes the immediate steps that its outputs unsettle. -/
theorem runDeferred_immediate (h : Tracks g w v p₀ r) {work : Deferred}
    (hps : (r.runDeferred work).context.patches <+: p₀ ++ qs)
    (hdue : ∀ j ∈ w.order .immediate, ¬ g.Settled r.context.draft j → X j ∨ r.Owes g .immediate j)
    (hj : j ∈ w.order .immediate) (hn : ¬ g.Settled (r.runDeferred work).context.draft j) :
    GivenUp g w X (r.deferredTries work) j ∨ (r.runDeferred work).Owes g .immediate j := by
  have hfollows : Follows g r (r.ahead work).2 := ahead_follows r work
  -- the pass over deferred steps has no immediate one due
  have hkeep : ∀ i ∈ w.order .immediate, X i → GivenUp g w X ((r.takeUp work).tried .deferred work.carried) i :=
    fun i hi hx => by
      obtain rfl := h.graph
      obtain rfl := h.wiring
      exact .of_scope hx tried_scope fun hd => h.executor.wired.not_immediate hd hi
  rw [runDeferred_eq] at hps hn ⊢
  have hback : Follows g _ _ := settleBack_follows (r.ahead work).2 (written (r.ahead work).1)
  have hps' := hback.patches.trans hps
  have hahead := ahead_tracks h work
  refine (settleBack_immediate hl hr hself hfit hahead hps (fun i hi hn => ?_) hj hn).imp GivenUp.append id
  refine (pass_moved hl hr hself hfit (takeUp_tracks h work) hps' hn).imp (fun hn => ?_) id
  exact (hdue i hi hn).imp (hkeep i hi) (hfollows.owes .immediate i)

end

/-! ## After the immediate pass -/

/-- The run with this lane. -/
def withLane (r : Run) (lane : Option Lane) : Run := { r with inst := { r.inst with lane := lane } }

/-- The run with this lane, once it has run deferred work that has to run now. -/
def turn (r : Run) (lane : Option Lane) (o : Option Deferred) : Run :=
  match o with
  | none => r.withLane lane
  | some work => (r.withLane lane).runDeferred work

/-- The deferred work of a unit accounts for what it came with and for what it fed. -/
theorem workFor_due (h : Works g w r) {handed : Option Deferred} {fed : DirtySet} (hj : j ∈ w.order .deferred)
    (hd : g.Defers handed j ∨ g.Dirtied fed j) :
    g.Due (r.workFor handed fed).dirty (r.workFor handed fed).carried j := by
  have hgetD : g.Defers handed j → g.Due (handed.getD .empty).dirty (handed.getD .empty).carried j := by
    intro hcase
    obtain ⟨work, rfl, hdue⟩ := hcase
    exact hdue
  unfold workFor
  dsimp only
  split
  · exact .union_dirty (hd.imp hgetD id)
  · rename_i ha
    refine hgetD (hd.resolve_right fun hfed => ?_)
    obtain rfl := h.graph
    obtain rfl := h.wiring
    exact h.executor.not_dirtied (Bool.eq_false_iff.2 ha) hj hfed

theorem workFor_carried (r : Run) (fed : DirtySet) : (r.workFor none fed).carried = none := by
  unfold workFor
  dsimp only
  split <;> rfl

/-- What comes due is run now, or goes into the lane in place of what is run now. -/
theorem dueNow_cases (r : Run) {mode : DeferredMode} (hmode : mode ≠ .inline) (hlane : mode = .lane → r.inst.lane.isSome)
    {handed : Option Deferred} {work : Deferred} (hnone : handed = none → work.carried = none) (now : Time) :
    ∃ lane o, r.dueNow mode handed work now = (o, r.withLane lane) ∧
      ∀ j, Lane.Held g r.inst.lane j ∨ g.Due work.dirty work.carried j → Lane.Held g lane j ∨ g.Defers o j := by
  unfold dueNow
  split
  · exact absurd rfl hmode
  · exact ⟨r.inst.lane, _, rfl, fun j hj => hj.imp id fun hd => ⟨_, rfl, hd⟩⟩
  · exact ⟨r.inst.lane, _, rfl, fun j hj => hj.imp id fun hd => ⟨_, rfl, hd⟩⟩
  · exact ⟨r.inst.lane, _, rfl, fun j hj => hj.imp id fun hd => ⟨_, rfl, hd⟩⟩
  · obtain ⟨l, hl⟩ := Option.isSome_iff_exists.1 (hlane rfl)
    rw [hl]
    refine ⟨_, _, rfl, fun j hj => Lane.signal_held now (hj.imp id fun hd => ?_)⟩
    refine hd.resolve_right ?_
    intro ⟨c, hc, _⟩
    rw [hnone rfl] at hc
    cases hc

/-- The passes of deferred work that has to run now. -/
def turnTries (r : Run) (lane : Option Lane) (o : Option Deferred) : List Tried :=
  match o with
  | none => []
  | some work => (r.withLane lane).deferredTries work

/-- The passes that follow the immediate one. -/
def afterTries (r : Run) (mode : DeferredMode) (handed : Option Deferred) (fed : DirtySet) (now : Time) : List Tried :=
  let work := r.workFor handed fed
  if work.isEmpty then []
  else
    match r.dueNow mode handed work now with
    | (none, _) => []
    | (some work, r) => r.deferredTries work

/-- What is in the lane after the immediate pass, and what is run now. -/
def turned (r : Run) (mode : DeferredMode) (handed : Option Deferred) (fed : DirtySet) (now : Time) :
    Option Lane × Option Deferred :=
  let work := r.workFor handed fed
  if work.isEmpty then (r.inst.lane, none)
  else
    let (o, r) := r.dueNow mode handed work now
    (r.inst.lane, o)

/-- Deferred work that the unit came with, what waits in the lane and what the unit fed
are in the lane afterwards, or run now. -/
theorem afterImmediate_turned (h : Works g w r) {mode : DeferredMode} (hmode : mode ≠ .inline)
    (hlane : mode = .lane → r.inst.lane.isSome) (handed : Option Deferred) (fed : DirtySet) (now : Time) :
    r.afterImmediate mode handed fed now =
      r.turn (r.turned mode handed fed now).1 (r.turned mode handed fed now).2 ∧
    r.afterTries mode handed fed now =
      r.turnTries (r.turned mode handed fed now).1 (r.turned mode handed fed now).2 ∧
    ∀ j ∈ w.order .deferred, Lane.Held g r.inst.lane j ∨ g.Defers handed j ∨ g.Dirtied fed j →
      Lane.Held g (r.turned mode handed fed now).1 j ∨ g.Defers (r.turned mode handed fed now).2 j := by
  unfold afterImmediate afterTries turned
  dsimp only
  have hdue := fun j hj => @workFor_due g w r j h handed fed hj
  by_cases hempty : (r.workFor handed fed).isEmpty = true
  · simp only [if_pos hempty]
    refine ⟨rfl, rfl, fun j hj hd => .inl (hd.resolve_right fun hd => ?_)⟩
    obtain ⟨hdirty, hcarried⟩ := Bool.and_eq_true_iff.1 hempty
    exact Graph.not_due_of_isEmpty hdirty hcarried (hdue j hj hd)
  · simp only [if_neg hempty]
    obtain ⟨lane, o, he, hkeep⟩ := @dueNow_cases g r mode hmode hlane handed (r.workFor handed fed)
      (fun e => e ▸ workFor_carried r fed) now
    rw [he]
    refine ⟨?_, ?_, fun j hj hd => hkeep j (hd.imp id (hdue j hj))⟩
    all_goals cases o <;> rfl

theorem withLane_tracks (h : Tracks g w v p₀ r) (lane : Option Lane) : Tracks g w v p₀ (r.withLane lane) :=
  ⟨h.congr rfl, h.logged⟩

theorem turn_follows (r : Run) (lane : Option Lane) (o : Option Deferred) :
    Follows g (r.withLane lane) (r.turn lane o) := by
  cases o with
  | none => exact .refl _
  | some work => exact runDeferred_follows (r.withLane lane) work

theorem turn_tracks (h : Tracks g w v p₀ r) (lane : Option Lane) (o : Option Deferred) :
    Tracks g w v p₀ (r.turn lane o) := by
  cases o with
  | none => exact withLane_tracks h lane
  | some work => exact runDeferred_tracks (withLane_tracks h lane) work

section

variable (hl : g.Local) (hr : g.Reflexive) (hself : g.SelfFree) (hfit : State.fitsAll v (g.writesOf qs))

include hl hr hself hfit

/-- A turn leaves each unsettled deferred step in the lane or owes it. -/
theorem turn_deferred (h : Tracks g w v p₀ r) {lane : Option Lane} {o : Option Deferred}
    (hps : (r.turn lane o).context.patches <+: p₀ ++ qs)
    (hdue : ∀ j ∈ w.order .deferred, ¬ g.Settled r.context.draft j → (X j ∨ Lane.Held g lane j) ∨ g.Defers o j)
    (hj : j ∈ w.order .deferred) (hn : ¬ g.Settled (r.turn lane o).context.draft j) :
    (GivenUp g w X (r.turnTries lane o) j ∨ Lane.Held g lane j) ∨ (r.turn lane o).Owes g .deferred j := by
  cases o with
  | none =>
    have hold := (hdue j hj hn).resolve_right fun ⟨_, hw, _⟩ => by cases hw
    exact .inl (hold.imp GivenUp.nil.2 id)
  | some work =>
    have hwork : ∀ i ∈ w.order .deferred, ¬ g.Settled r.context.draft i →
        (X i ∨ Lane.Held g lane i) ∨ g.Due work.dirty work.carried i := fun i hi hn =>
      (hdue i hi hn).imp id fun ⟨_, hw, hd⟩ => by
        cases hw
        exact hd
    exact (runDeferred_deferred hl hr hself hfit (withLane_tracks h lane) hps hwork hj hn).imp GivenUp.or id

/-- A turn owes each immediate step that it leaves unsettled. -/
theorem turn_immediate (h : Tracks g w v p₀ r) {lane : Option Lane} {o : Option Deferred}
    (hps : (r.turn lane o).context.patches <+: p₀ ++ qs)
    (hdue : ∀ j ∈ w.order .immediate, ¬ g.Settled r.context.draft j → X j ∨ r.Owes g .immediate j)
    (hj : j ∈ w.order .immediate) (hn : ¬ g.Settled (r.turn lane o).context.draft j) :
    GivenUp g w X (r.turnTries lane o) j ∨ (r.turn lane o).Owes g .immediate j := by
  cases o with
  | none => exact (hdue j hj hn).imp GivenUp.nil.2 id
  | some work => exact runDeferred_immediate hl hr hself hfit (withLane_tracks h lane) hps hdue hj hn

end

/-! ## Derive functions that never fail -/

section

variable (ht : g.Total)

include ht

theorem tried_total (hg : r.inst.executor.graph = g) : ∀ t ∈ r.tried scope carried, t.failed = false := by
  by_cases hb : r.budget = some 0
  · rw [tried_spent hb]
    exact fun _ h => absurd h List.not_mem_nil
  · rw [tried_ran hb]
    intro t h
    rw [List.mem_singleton.1 h]
    exact decide_eq_false (Executor.pass_total (hg ▸ ht) _ _ _ _)

theorem backTries_total (hg : r.inst.executor.graph = g) (changed : List Path) :
    ∀ t ∈ r.backTries changed, t.failed = false := by
  unfold backTries
  split
  · exact tried_total (r := r.on (.ofPaths changed)) ht hg
  · exact fun _ h => absurd h List.not_mem_nil

theorem turnTries_total (hg : r.inst.executor.graph = g) (lane : Option Lane) (o : Option Deferred) :
    ∀ t ∈ r.turnTries lane o, t.failed = false := by
  cases o with
  | none => exact fun _ h => absurd h List.not_mem_nil
  | some work =>
    have hahead : Follows g (r.withLane lane) ((r.withLane lane).ahead work).2 := ahead_follows _ work
    intro t h
    rcases List.mem_append.1 h with h | h
    · exact tried_total (r := (r.withLane lane).takeUp work) ht hg t h
    · exact backTries_total ht (hahead.graph.trans hg) _ t h

end

end Run

/-! ## Queueing what is left -/

section

variable {g : Graph} {j : StepId}

theorem deferredCommit_defers (i : Instance) {work : Deferred} (h : g.Due work.dirty work.carried j) :
    g.Defers (i.deferredCommit work).change.deferred j := by
  unfold deferredCommit
  dsimp only
  split <;> exact ⟨_, rfl, h⟩

theorem deferredCommit_own (i : Instance) (work : Deferred) :
    (i.deferredCommit work).Writeless ∧ (i.deferredCommit work).seq = 0 :=
  ⟨fun _ => rfl, rfl⟩

namespace Run

variable {r : Run}

theorem carryOn_due (h : r.Owes g .immediate j) :
    ∃ c, r.carryOn = some c ∧ g.Due c.change.dirty c.change.carried j := by
  unfold carryOn
  split
  · rename_i hempty
    obtain ⟨hcarried, hdirty⟩ := Bool.and_eq_true_iff.1 hempty
    exact absurd h (Graph.not_due_of_isEmpty hdirty hcarried)
  · exact ⟨_, rfl, h⟩

theorem carryOn_own {c : Commit} (h : r.carryOn = some c) : c.Writeless ∧ c.seq = 0 := by
  unfold carryOn at h
  split at h
  · cases h
  · cases h
    exact ⟨fun _ => rfl, rfl⟩

theorem handOn_keeps (now : Time) (h : Lane.Held g r.inst.lane j ∨ r.Owes g .deferred j) :
    Lane.Held g (r.handOn now).2 j ∨ g.Defers (r.handOn now).1 j := by
  unfold handOn
  split
  · rename_i hempty
    obtain ⟨hdirty, hcarried⟩ := Bool.and_eq_true_iff.1 hempty
    exact .inl (h.resolve_right (Graph.not_due_of_isEmpty hdirty hcarried))
  · split
    · rename_i l hlane hnone
      rw [hlane] at h
      refine Lane.signal_held now (h.imp id fun hd => Or.resolve_right hd ?_)
      intro ⟨work, hw, _⟩
      rw [hnone] at hw
      cases hw
    · exact h.imp id fun hd => ⟨_, rfl, hd⟩

/-- What is left after the turns of a unit is queued, or in the lane. What a unit queues on
its own instance writes nothing and has no number. -/
theorem followUps_cases (r : Run) (now : Time) :
    ∃ lane cs, r.followUps now = { r.inst with lane := lane, queue := r.inst.queue ++ cs } ∧
      (∀ c ∈ cs, c.Writeless ∧ c.seq = 0) ∧
      (∀ g j, r.Owes g .immediate j → ∃ c ∈ cs, g.Due c.change.dirty c.change.carried j) ∧
      ∀ g j, Lane.Held g r.inst.lane j ∨ r.Owes g .deferred j →
        Lane.Held g lane j ∨ ∃ c ∈ cs, g.Defers c.change.deferred j := by
  refine ⟨(r.handOn now).2, r.carryOn.toList ++ ((r.handOn now).1.map r.inst.deferredCommit).toList, rfl,
    fun c hc => ?_, fun g j h => ?_, fun g j h => ?_⟩
  · rcases List.mem_append.1 hc with hc | hc
    · exact carryOn_own (Option.mem_toList.1 hc)
    · obtain ⟨work, -, rfl⟩ := Option.map_eq_some_iff.1 (Option.mem_toList.1 hc)
      exact deferredCommit_own _ work
  · obtain ⟨c, hc, hd⟩ := carryOn_due h
    exact ⟨c, List.mem_append_left _ (Option.mem_toList.2 hc), hd⟩
  · refine (handOn_keeps now h).imp id ?_
    intro ⟨work, hw, hd⟩
    refine ⟨r.inst.deferredCommit work, List.mem_append_right _ (Option.mem_toList.2 ?_), deferredCommit_defers _ hd⟩
    rw [hw]
    rfl

end Run

end

end Instance

end Settle
