/-
  Settle.Proofs.Ran — the steps that a pass runs (see `Settle.Pass.Sweep`).

  A round runs the steps of its list that are due, up to where it is stopped
  (`Pass.ranIn`), and a pass those of its rounds (`Executor.ran`). A step that is due when
  a pass begins stays due while others run, so its first round comes to it: it is run,
  handed back with what the round was still to run, or the pass fails before
  (`Executor.due_ran`). A pass runs and hands back steps of its own scope only; what else
  the work it carries concerns, a field that it wrote moves (`Executor.moved_of_owes`).
-/

import Settle.Proofs.Carry

namespace Settle

namespace Pass

variable {f : Frame} {u : Bool} {l : List StepId} {r r' : Run} {i j : StepId}

/-- The steps that a round runs, in order. -/
def ranIn (f : Frame) (u : Bool) : List StepId → Run → List StepId
  | [], _ => []
  | i :: rest, r =>
    if !u && !r.marks.touchesStep f.wiring i then ranIn f u rest r
    else if f.cap ≤ r.executed then []
    else if 0 < r.executed ∧ r.executed % budgetInterval = 0 ∧ f.late r.executed then []
    else
      match r.step f i with
      | (_, some _) => [i]
      | (r, none) => i :: ranIn f u rest r

/-- The steps that a sweep runs, in order. -/
def ran (f : Frame) (u : Bool) (steps : List StepId) (r : Run) : List StepId :=
  let (r', stop) := round f u steps { r with again := [] }
  ranIn f u steps { r with again := [] } ++
    if stop.isSome || r'.again.isEmpty then []
    else if r.executed < r'.executed ∧ r.executed < f.cap then ran f false (nextRound f r') (r'.renewed f)
    else []
termination_by f.cap - r.executed
decreasing_by
  simp only [Run.renewed]
  omega

/-- A round runs steps of its list, in their order. -/
theorem ranIn_sublist : (ranIn f u l r).Sublist l := by
  induction l generalizing r with
  | nil => exact List.Sublist.refl _
  | cons i l ih =>
    rw [ranIn]
    split
    · exact ih.cons i
    split
    · exact List.nil_sublist _
    split
    · exact List.nil_sublist _
    split
    · exact (List.nil_sublist l).cons_cons i
    · exact ih.cons_cons i

/-- Along a round and the steps that it runs: it passes over what is not due, is stopped
before a step, ends with one that fails, or runs it and goes on. -/
theorem round_induct {motive : List StepId → Run → List StepId → Run × Option Stop → Prop}
    (ended : ∀ r, motive [] r [] (r, none))
    (skip : ∀ i L r steps out, u = false → r.marks.touchesStep f.wiring i = false → motive L r steps out →
      motive (i :: L) r steps out)
    (stop : ∀ i L r reason, motive (i :: L) r [] (r, some (.cap reason (i :: L))))
    (fail : ∀ i L r r' fault, i ∈ l → r.step f i = (r', some fault) →
      motive (i :: L) r [i] (r', some (.failed i fault)))
    (run : ∀ i L r r' steps out, i ∈ l → r.step f i = (r', none) → motive L r' steps out →
      motive (i :: L) r (i :: steps) out)
    (r : Run) : motive l r (ranIn f u l r) (round f u l r) := by
  suffices h : ∀ L ⊆ l, ∀ r, motive L r (ranIn f u L r) (round f u L r) from h l (List.Subset.refl l) r
  intro L hL r
  induction L generalizing r with
  | nil => exact ended r
  | cons i L ih =>
    obtain ⟨hi, hL⟩ := List.cons_subset.1 hL
    rw [ranIn, round]
    split
    · rename_i hskip
      simp only [Bool.and_eq_true, Bool.not_eq_true'] at hskip
      exact skip i L r _ _ hskip.1 hskip.2 (ih hL r)
    split
    · exact stop i L r _
    split
    · exact stop i L r _
    cases he : r.step f i with
    | mk r' o =>
      cases o with
      | some fault => exact fail i L r r' fault hi he
      | none => exact run i L r r' _ _ hi he (ih hL r')

/-- A round counts the steps that it runs. -/
theorem round_counts (h : Wired f.graph f.wiring) (hl : ∀ j ∈ l, j ∈ f.wiring.order f.scope) (r : Run) :
    (round f u l r).1.executed = r.executed + (ranIn f u l r).length := by
  refine round_induct (motive := fun _ r steps out => out.1.executed = r.executed + steps.length) ?_ ?_ ?_ ?_ ?_ r
  · exact fun _ => rfl
  · exact fun _ _ _ _ _ _ _ ih => ih
  · exact fun _ _ _ _ => rfl
  · intro i _ r r' fault hi he
    have hst := (stepped (r := r) h (hl i hi)).executed
    rw [he] at hst
    exact hst
  · intro i _ r r' steps out hi he ih
    have hst := (stepped (r := r) h (hl i hi)).executed
    rw [he] at hst
    dsimp only at hst
    rw [ih, hst, List.length_cons]
    omega

/-- A step that is due when a round begins is run, or the round is stopped before it comes
to it, or a derive function fails. -/
theorem round_takes (h : Wired f.graph f.wiring) (hl : ∀ j ∈ l, j ∈ f.wiring.order f.scope)
    (hm : ∃ ids, r.marks.Of f.graph ids) (hj : j ∈ l) (hdue : u = true ∨ r.marks.touchesStep f.wiring j = true) :
    j ∈ ranIn f u l r ∨
      (∃ reason rest, (round f u l r).2 = some (.cap reason rest) ∧ j ∈ rest ∧
        (u = true ∨ (round f u l r).1.marks.touchesStep f.wiring j = true)) ∨
      ∃ i fault, (round f u l r).2 = some (.failed i fault) := by
  revert hm hdue
  refine round_induct (motive := fun L r steps out => j ∈ L → (∃ ids, r.marks.Of f.graph ids) →
    (u = true ∨ r.marks.touchesStep f.wiring j = true) →
    j ∈ steps ∨ (∃ reason rest, out.2 = some (.cap reason rest) ∧ j ∈ rest ∧
      (u = true ∨ out.1.marks.touchesStep f.wiring j = true)) ∨ ∃ i fault, out.2 = some (.failed i fault))
    ?_ ?_ ?_ ?_ ?_ r hj
  · exact fun _ => nofun
  · intro i L r steps out hu hskip ih hj hm hdue
    -- what is passed over is not due
    rcases List.mem_cons.1 hj with rfl | hj
    · rw [hu, hskip] at hdue
      rcases hdue with hu | ht
      · cases hu
      · cases ht
    · exact ih hj hm hdue
  · exact fun _ _ _ _ hj _ hdue => .inr (.inl ⟨_, _, rfl, hj, hdue⟩)
  · exact fun _ _ _ _ _ _ _ _ _ _ => .inr (.inr ⟨_, _, rfl⟩)
  · intro i L r r' steps out hi he ih hj hm hdue
    have hst := stepped (r := r) h (hl i hi)
    rw [he] at hst
    rcases List.mem_cons.1 hj with rfl | hj
    · exact .inl List.mem_cons_self
    -- a step that runs only adds marks
    have hkeep : (∃ ids, r'.marks.Of f.graph ids) ∧ (u = true ∨ r'.marks.touchesStep f.wiring j = true) := by
      cases hst with
      | settled _ _ hmarks _ =>
        rw [hmarks]
        exact ⟨hm, hdue⟩
      | wrote _ hout _ _ hmarks _ =>
        rw [hmarks, touchesStep_mark h hm hout]
        obtain ⟨ids, hids⟩ := hm
        exact ⟨⟨_, hids.mark h (PathTable.lt_size hout)⟩, hdue.imp id .inl⟩
    exact (ih hj hkeep.1 hkeep.2).imp (List.mem_cons_of_mem i) id

/-- What a round that is stopped leaves comes after what it ran. -/
theorem ranIn_append_rest {reason : Degrade} {rest : List StepId} (hs : (round f u l r).2 = some (.cap reason rest)) :
    (ranIn f u l r ++ rest).Sublist l := by
  revert hs
  refine round_induct (motive := fun l _ steps out => out.2 = some (.cap reason rest) → (steps ++ rest).Sublist l)
    ?_ ?_ ?_ ?_ ?_ r
  · exact fun _ => nofun
  · exact fun i _ _ _ _ _ _ ih hs => (ih hs).cons i
  · intro i L r reason hs
    cases hs
    exact List.Sublist.refl _
  · exact fun _ _ _ _ _ _ _ => nofun
  · exact fun i _ _ _ _ _ _ _ ih hs => (ih hs).cons_cons i

/-- A round runs no more steps than it passes. -/
theorem round_executed (h : Wired f.graph f.wiring) (hl : ∀ j ∈ l, j ∈ f.wiring.order f.scope) {reason : Degrade}
    {rest : List StepId} (hs : (round f u l r).2 = some (.cap reason rest)) :
    (round f u l r).1.executed + rest.length ≤ r.executed + l.length := by
  have hlen := (ranIn_append_rest hs).length_le
  rw [List.length_append] at hlen
  rw [round_counts h hl r]
  omega

/-- What is kept for another round was written. -/
theorem round_again_changed (h : Wired f.graph f.wiring) (hl : ∀ j ∈ l, j ∈ f.wiring.order f.scope)
    (hr : r.again ⊆ r.changed) : (round f u l r).1.again ⊆ (round f u l r).1.changed := by
  have hkeep : ∀ {i : StepId} {r : Run}, i ∈ f.wiring.order f.scope → r.again ⊆ r.changed →
      (r.step f i).1.trail.again ⊆ (r.step f i).1.trail.changed := by
    intro i r hi hr
    have hst := stepped (r := r) h hi
    generalize r.step f i = out at hst
    cases hst with
    | failed _ ht _ => exact ht ▸ hr
    | settled _ ht _ _ => exact ht ▸ hr
    | @wrote s _ _ _ _ _ _ _ ht _ _ =>
      rw [ht, Trail.write]
      dsimp only
      split
      · exact List.append_subset.2 ⟨List.subset_append_of_subset_left _ hr, List.subset_append_right _ _⟩
      · exact List.subset_append_of_subset_left _ hr
  fun_induction round f u l r with
  | case1 | case3 | case4 => exact hr
  | case2 _ _ _ _ ih => exact ih (List.forall_mem_cons.1 hl).2 hr
  | case5 i _ r _ _ _ r' fault he =>
    have hstep := hkeep (hl i List.mem_cons_self) hr
    rw [he] at hstep
    exact hstep
  | case6 i _ r _ _ _ r' he ih =>
    have hstep := hkeep (hl i List.mem_cons_self) hr
    rw [he] at hstep
    exact ih (List.forall_mem_cons.1 hl).2 hstep

/-! ## Sweeps -/

theorem nextRound_subset (h : Wired f.graph f.wiring) (ha : ∀ k ∈ r.again, k < f.graph.table.size) :
    ∀ j ∈ nextRound f r, j ∈ f.wiring.order f.scope := fun _ hj =>
  ((nextRound_isPlan h ha).mem_iff _ |>.1 hj).mem_order

theorem ran_eq (h : Wired f.graph f.wiring) (hl : ∀ j ∈ l, j ∈ f.wiring.order f.scope) (r : Run) :
    ran f u l r =
      let out := round f u l { r with again := [] }
      ranIn f u l { r with again := [] } ++
        if out.2.isSome || out.1.again.isEmpty then [] else ran f false (nextRound f out.1) (out.1.renewed f) := by
  rw [ran]
  dsimp only
  split
  · rfl
  · rename_i hs
    exact congrArg _ (if_pos (round_grew h hl r hs))

/-- What holds of every round that ends a sweep, and of a round and the sweep after it if it
holds of that sweep, holds of all sweeps and the steps that they run. -/
theorem rounds_induct (h : Wired f.graph f.wiring) {motive : Run → Nat → List StepId → Swept → Prop}
    (last : ∀ u l r n r' stop, (∀ j ∈ l, j ∈ f.wiring.order f.scope) → round f u l { r with again := [] } = (r', stop) →
      (stop = none → r'.again = []) → motive r n (ranIn f u l { r with again := [] }) ⟨r', stop, n, u⟩)
    (next : ∀ u l r n r' steps s, (∀ j ∈ l, j ∈ f.wiring.order f.scope) →
      round f u l { r with again := [] } = (r', none) → r.executed < r'.executed → motive (r'.renewed f) (n + 1) steps s →
      motive r n (ranIn f u l { r with again := [] } ++ steps) s)
    (hl : ∀ j ∈ l, j ∈ f.wiring.order f.scope) (r : Run) (n : Nat) : motive r n (ran f u l r) (rounds f u l r n) := by
  -- a round that another one follows leaves less of the cap
  induction hN : f.cap - r.executed using Nat.strongRecOn generalizing u l r n with
  | _ N ih =>
  have hgrew := round_grew (u := u) h hl r
  have hlt := round_again_lt (u := u) h hl { r with again := [] } nofun
  rw [rounds_eq h hl, ran_eq h hl]
  cases hround : round f u l { r with again := [] } with
  | mk r' stop =>
    rw [hround] at hgrew hlt
    dsimp only at hgrew hlt ⊢
    by_cases hstop : (stop.isSome || r'.again.isEmpty) = true
    · rw [if_pos hstop, if_pos hstop, List.append_nil]
      refine last u l r n r' stop hl hround fun hnone => ?_
      rw [hnone] at hstop
      exact List.isEmpty_iff.1 hstop
    · rw [if_neg hstop, if_neg hstop]
      have hnone : stop = none := by
        cases stop with
        | none => rfl
        | some _ => exact absurd rfl hstop
      obtain ⟨hless, hcap⟩ := hgrew hstop
      have hcost : f.cap - (r'.renewed f).executed < N := by
        have hsame : (r'.renewed f).executed = r'.executed := rfl
        omega
      exact next u l r n r' _ _ hl (hnone ▸ hround) hless (ih _ hcost (nextRound_subset h hlt) (r'.renewed f) (n + 1) rfl)

/-- A sweep counts the steps that it runs, all of its scope. -/
theorem rounds_counts (h : Wired f.graph f.wiring) (hl : ∀ j ∈ l, j ∈ f.wiring.order f.scope) (n : Nat) :
    (rounds f u l r n).run.executed = r.executed + (ran f u l r).length ∧
      ∀ j ∈ ran f u l r, j ∈ f.wiring.order f.scope := by
  refine rounds_induct h (motive := fun r _ steps s => s.run.executed = r.executed + steps.length ∧
    ∀ j ∈ steps, j ∈ f.wiring.order f.scope) ?_ ?_ hl r n
  · intro u l r n r' stop hl hround _
    have hcount := round_counts (u := u) h hl { r with again := [] }
    rw [hround] at hcount
    exact ⟨hcount, fun j hj => hl j (ranIn_sublist.subset hj)⟩
  · intro u l r n r' steps s hl hround _ ⟨hrest, hscope⟩
    have hcount := round_counts (u := u) h hl { r with again := [] }
    rw [hround] at hcount
    refine ⟨?_, fun j hj => (List.mem_append.1 hj).elim (fun hj => hl j (ranIn_sublist.subset hj)) (hscope j)⟩
    rw [hrest, List.length_append, ← Nat.add_assoc, ← hcount]
    rfl

/-- A sweep ends with a round over steps of its scope. -/
theorem exists_last_round (h : Wired f.graph f.wiring) (hl : ∀ j ∈ l, j ∈ f.wiring.order f.scope) (n : Nat) :
    ∃ u' l' r' n', (∀ j ∈ l', j ∈ f.wiring.order f.scope) ∧ r'.again = [] ∧
      rounds f u l r n = ⟨(round f u' l' r').1, (round f u' l' r').2, n', u'⟩ := by
  refine rounds_induct h (motive := fun _ _ _ s => ∃ u' l' r' n', (∀ j ∈ l', j ∈ f.wiring.order f.scope) ∧
    r'.again = [] ∧ s = ⟨(round f u' l' r').1, (round f u' l' r').2, n', u'⟩) ?_ ?_ hl r n
  · intro u l r n r' stop hl hround _
    exact ⟨u, l, { r with again := [] }, n, hl, rfl, by rw [hround]⟩
  · exact fun _ _ _ _ _ _ _ _ _ _ hrest => hrest

/-- A step that is due when a sweep begins is run, handed back, or not reached for a
failure: its first round comes to it. -/
theorem rounds_take (h : Wired f.graph f.wiring) (hl : ∀ j ∈ l, j ∈ f.wiring.order f.scope)
    (hm : ∃ ids, r.marks.Of f.graph ids) (hj : j ∈ l) (hdue : u = true ∨ r.marks.touchesStep f.wiring j = true) (n : Nat) :
    j ∈ ran f u l r ∨
      (∃ reason rest, (rounds f u l r n).stop = some (.cap reason rest) ∧ j ∈ rest ∧
        ((rounds f u l r n).unconditional = true ∨ (rounds f u l r n).run.marks.touchesStep f.wiring j = true)) ∨
      ∃ i fault, (rounds f u l r n).stop = some (.failed i fault) := by
  rw [ran_eq h hl, rounds_eq h hl]
  rcases round_takes (r := { r with again := [] }) h hl hm hj hdue with hran | ⟨reason, rest, hs, hrest⟩ | ⟨i, fault, hs⟩
  · exact .inl (List.mem_append_left _ hran)
  · simp only [hs, Option.isSome_some, Bool.true_or, if_true]
    exact .inr (.inl ⟨reason, rest, rfl, hrest⟩)
  · simp only [hs, Option.isSome_some, Bool.true_or, if_true]
    exact .inr (.inr ⟨i, fault, rfl⟩)

end Pass

/-! ## Passes -/

namespace Executor

variable {e : Executor} {late : Nat → Bool} {ctx : Context} {req : Request} {d : Diagnostics} {j : StepId}

/-- The steps that a pass runs, in order. -/
def ran (late : Nat → Bool) (e : Executor) (ctx : Context) (req : Request) : List StepId :=
  if e.idle ctx req then []
  else Pass.ran (frame late e req) ((e.choice ctx req).executed = .full) (e.choice ctx req).steps (e.start ctx req)

/-- A pass counts the steps that it runs, all of its scope. -/
theorem pass_counts (h : e.Sound) : (e.passUnder late ctx req d).outcome.summary.executedSteps = (e.ran late ctx req).length ∧
    ∀ j ∈ e.ran late ctx req, j ∈ e.wiring.order req.scope := by
  rw [passUnder_eq]
  unfold ran
  cases hidle : e.idle ctx req with
  | true => exact ⟨rfl, fun _ hj => absurd hj List.not_mem_nil⟩
  | false =>
    obtain ⟨hcount, hscope⟩ := Pass.rounds_counts (f := frame late e req) (u := (e.choice ctx req).executed = .full)
      (r := e.start ctx req) h.wired (choice_mem h ctx req) 1
    refine ⟨hcount.trans (Nat.zero_add _), hscope⟩

/-- A step that is due is run by a pass or owed by what it carries, unless it fails. -/
theorem due_ran (h : e.Sound) (hj : j ∈ e.wiring.order req.scope) (hd : e.graph.Due ctx.dirty req.carried j) :
    j ∈ e.ran late ctx req ∨
      (∃ work, (e.passUnder late ctx req d).outcome.carried = some work ∧ e.graph.Owes work j) ∨
      (e.passUnder late ctx req d).outcome.summary.degrade = some .deriveFailed := by
  have hidle : e.idle ctx req = false := Bool.eq_false_iff.2 fun hidle => not_due_of_idle h hidle hj hd
  obtain ⟨hmem, hmarked⟩ := due_picked h hj hd
  unfold ran
  rw [hidle, passUnder_carried hidle, passUnder_degrade hidle]
  rcases Pass.rounds_take (f := frame late e req) (u := (e.choice ctx req).executed = .full) h.wired
    (choice_mem h ctx req) ⟨_, start_marks h ctx req⟩ hmem (hmarked.imp decide_eq_true id) 1 with
    hran | ⟨reason, rest, hs, hrest, hu⟩ | ⟨i, fault, hs⟩
  · exact .inl hran
  · exact .inr (.inl (owes_of_rest h hs hj hrest hu))
  · refine .inr (.inr ?_)
    show stopDegrade (e.sweep late ctx req).stop = _
    rw [show (e.sweep late ctx req).stop = _ from hs]
    rfl

theorem leftBehind_eq_some {s : Pass.Swept} {work : Carried} (h : e.leftBehind s = some work) :
    ∃ reason rest, s.stop = some (.cap reason rest) ∧ work = ⟨e.pathsOf s.run.again,
      e.pathsOf ((rest.filter fun i => s.unconditional || s.run.marks.touchesStep e.wiring i).map e.wiring.out)⟩ := by
  unfold leftBehind at h
  split at h
  · rename_i reason rest hs
    dsimp only at h
    split at h
    · cases h
    · exact ⟨reason, rest, hs, (Option.some.inj h).symm⟩
  · cases h

/-- The sweep of a pass ends with a round over steps of its scope. -/
theorem exists_last_round (h : e.Sound) (late : Nat → Bool) (ctx : Context) (req : Request) :
    ∃ u l r n, (∀ j ∈ l, j ∈ e.wiring.order req.scope) ∧ r.again = [] ∧ e.sweep late ctx req =
      ⟨(Pass.round (frame late e req) u l r).1, (Pass.round (frame late e req) u l r).2, n, u⟩ :=
  Pass.exists_last_round (f := frame late e req) h.wired (choice_mem h ctx req) 1

/-- A step of another scope that the work a pass carries concerns is moved by a field that
the pass wrote. -/
theorem moved_of_owes (h : e.Sound) {work : Carried} (hc : (e.passUnder late ctx req d).outcome.carried = some work)
    (ho : e.graph.Owes work j) (hj : j ∉ e.wiring.order req.scope) :
    ∃ p ∈ (e.passUnder late ctx req d).outcome.changed, e.graph.Moves p j := by
  cases hidle : e.idle ctx req with
  | true =>
    rw [(passUnder_idle hidle).2.1] at hc
    cases hc
  | false =>
    rw [passUnder_carried hidle] at hc
    obtain ⟨reason, rest, hs, rfl⟩ := leftBehind_eq_some hc
    obtain ⟨u, l, r, n, hl, hnone, hsweep⟩ := exists_last_round h late ctx req
    have hok : stopDegrade (e.sweep late ctx req).stop ≠ some .deriveFailed := fun hfail => by
      rw [hs] at hfail
      rcases Pass.rounds_reason hs with rfl | rfl <;> cases hfail
    rw [passUnder_changed hidle hok]
    rcases ho with ⟨p, hp, hm⟩ | ⟨st, p, hst, hout, hp⟩
    · -- what was kept for another round was written
      obtain ⟨k, hk, hkp⟩ := List.mem_filterMap.1 hp
      have hchanged : (e.sweep late ctx req).run.again ⊆ (e.sweep late ctx req).run.changed := by
        rw [hsweep]
        exact Pass.round_again_changed (f := frame late e req) h.wired hl (hnone ▸ List.nil_subset _)
      exact ⟨p, mem_pathsOf (hchanged hk) hkp, hm⟩
    · -- a field it was still to write is that of a step of its scope
      obtain ⟨k, hk, hkp⟩ := List.mem_filterMap.1 hp
      obtain ⟨i, hi, rfl⟩ := List.mem_map.1 hk
      have hscope : i ∈ e.wiring.order req.scope := by
        rw [hsweep] at hs
        exact hl i ((Pass.ranIn_append_rest hs).subset (List.mem_append_right _ (List.mem_filter.1 hi).1))
      obtain ⟨si, pi, hsi, hpi⟩ := h.wired.exists_out hscope
      have hsame : si.out = st.out :=
        h.wired.graph.table.path?_inj (h.wired.out_eq hsi ▸ hkp) hout
      exact absurd (h.wired.graph.out_inj hsi hst hsame ▸ hscope) hj

end Executor

end Settle
