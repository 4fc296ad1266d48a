/-
  Settle.Proofs.Tracing — what derive functions read has no part in a pass (see
  `Settle.Executor`).

  No derive function can tell a traced view from a plain one (`Derive.plain_eq`), so a
  sweep over plain views does what one over traced views does, and they differ in the reads
  they tell of alone (`Executor.plainSweep_alike`). Those are looked at where the detail of
  a pass is that of steps, so every pass is one whose sweep is traced, whatever its detail
  (`Executor.passUnder_eq`).
-/

import Settle.Executor

namespace Settle

namespace Pass

variable {f : Frame} {r r' : Run}

/-- The runs differ in what they tell of reads. -/
def Run.Alike (r r' : Run) : Prop := ∃ reads, r' = { r with reads := reads }

/-- Two evaluations of a step differ in what they tell of reads. -/
theorem evaluate_alike (g : Graph) (s : Step) (body : Body) (draft : Value) (traced traced' : Bool) :
    ∃ reads, evaluate g s body draft traced' = (evaluate g s body draft traced).map ({ · with reads := reads }) := by
  cases body with
  | link => exact ⟨[], rfl⟩
  | computed derive equality =>
    have hsame : (derive.call draft traced').outcome = (derive.call draft traced).outcome := by
      rw [derive.call_outcome, derive.call_outcome]
    refine ⟨(derive.call draft traced').reads, ?_⟩
    dsimp only [evaluate]
    rw [hsame]
    cases (derive.call draft traced).outcome <;> rfl

variable {traced : Bool}

theorem Run.Alike.marks (h : r.Alike r') : r'.marks = r.marks := by
  obtain ⟨_, rfl⟩ := h
  rfl

theorem Run.Alike.executed (h : r.Alike r') : r'.executed = r.executed := by
  obtain ⟨_, rfl⟩ := h
  rfl

theorem Run.Alike.write (h : r.Alike r') (f : Frame) (s : Step) (prev : Option Value) (next : Value) :
    (r.write f s prev next).Alike (r'.write { f with traced := traced } s prev next) := by
  obtain ⟨reads, rfl⟩ := h
  exact ⟨reads, rfl⟩

/-- Neither or both fail, with the same fault. -/
theorem Run.Alike.step (h : r.Alike r') (f : Frame) (i : StepId) :
    (r'.step { f with traced := traced } i).2 = (r.step f i).2 ∧
      (r.step f i).1.Alike (r'.step { f with traced := traced } i).1 := by
  obtain ⟨reads, rfl⟩ := h
  unfold Run.step
  dsimp only
  split
  · rename_i s body _ _
    obtain ⟨read, hread⟩ := evaluate_alike f.graph s body r.draft f.traced traced
    rw [hread]
    cases evaluate f.graph s body r.draft f.traced with
    | error fault => exact ⟨rfl, reads, rfl⟩
    | ok e =>
      dsimp only [Except.map]
      cases e.change with
      | none =>
        refine ⟨rfl, ?_⟩
        dsimp only
        split <;> split <;> exact ⟨_, rfl⟩
      | some change =>
        refine ⟨rfl, Run.Alike.write ?_ f ..⟩
        split <;> split <;> exact ⟨_, rfl⟩
  · exact ⟨rfl, reads, rfl⟩

theorem Run.Alike.round (h : r.Alike r') (f : Frame) (u : Bool) (l : List StepId) :
    (round { f with traced := traced } u l r').2 = (round f u l r).2 ∧
      (round f u l r).1.Alike (round { f with traced := traced } u l r').1 := by
  induction l generalizing r r' with
  | nil => exact ⟨rfl, h⟩
  | cons i l ih =>
    obtain ⟨hfault, hnext⟩ := h.step f i
    rw [Pass.round, Pass.round, h.marks, h.executed]
    dsimp only
    generalize r.step f i = x at hfault hnext ⊢
    generalize r'.step { f with traced := traced } i = x' at hfault hnext ⊢
    obtain ⟨s, fault⟩ := x
    obtain ⟨s', fault'⟩ := x'
    cases hfault
    split
    · exact ih h
    split
    · exact ⟨rfl, h⟩
    split
    · exact ⟨rfl, h⟩
    cases fault with
    | none => exact ih hnext
    | some fault => exact ⟨rfl, hnext⟩

/-- The sweeps differ in what they tell of reads. -/
def Swept.Alike (s s' : Swept) : Prop := ∃ reads, s' = { s with run := { s.run with reads := reads } }

/-- Rounds that begin alike end alike. -/
theorem Run.Alike.begun {u : Bool} {steps : List StepId} {s : Run} {stop : Option Stop} (h : r.Alike r')
    (hround : Pass.round f u steps { r with again := [] } = (s, stop)) :
    ∃ s', Pass.round { f with traced := traced } u steps { r' with again := [] } = (s', stop) ∧ s.Alike s' := by
  have hbegun : Run.Alike { r with again := [] } { r' with again := [] } := by
    obtain ⟨reads, rfl⟩ := h
    exact ⟨reads, rfl⟩
  obtain ⟨hstop, hs⟩ := hbegun.round f u steps
  rw [hround] at hstop hs
  exact ⟨_, Prod.ext rfl hstop, hs⟩

/-- A sweep does the same whether reads are traced or not. -/
theorem rounds_alike (u : Bool) (steps : List StepId) (n : Nat) (h : r.Alike r') :
    (rounds f u steps r n).Alike (rounds { f with traced := traced } u steps r' n) := by
  induction u, steps, r, n using rounds.induct f generalizing r' with
  | case1 u steps r n s stop hround hlast =>
    obtain ⟨s', hround', reads, rfl⟩ := h.begun hround
    rw [rounds, rounds, hround, hround']
    dsimp only
    rw [if_pos hlast, if_pos hlast]
    exact ⟨reads, rfl⟩
  | case2 u steps r n s stop hround hlast hgrew ih =>
    obtain ⟨s', hround', reads, rfl⟩ := h.begun hround
    rw [rounds, rounds, hround, hround', h.executed]
    dsimp only
    rw [if_neg hlast, if_pos hgrew, if_neg hlast, if_pos hgrew]
    exact ih ⟨reads, rfl⟩
  | case3 u steps r n s stop hround hlast hgrew =>
    obtain ⟨s', hround', reads, rfl⟩ := h.begun hround
    rw [rounds, rounds, hround, hround', h.executed]
    dsimp only
    rw [if_neg hlast, if_neg hgrew, if_neg hlast, if_neg hgrew]
    exact ⟨reads, rfl⟩

end Pass

namespace Executor

theorem plainSweep_alike (late : Nat → Bool) (e : Executor) (ctx : Context) (req : Request) :
    (e.sweep late ctx req).Alike (e.plainSweep late ctx req) :=
  Pass.rounds_alike _ _ _ ⟨_, rfl⟩

/-- A pass is one whose sweep is traced. -/
theorem passUnder_eq (late : Nat → Bool) (e : Executor) (ctx : Context) (req : Request) (d : Diagnostics) :
    e.passUnder late ctx req d =
      if e.idle ctx req then e.stay ctx req d else e.close ctx req d (e.sweep late ctx req) := by
  unfold passUnder
  split
  · rfl
  · dsimp only
    split
    · rfl
    · rename_i hdetail
      obtain ⟨reads, hplain⟩ := plainSweep_alike late e ctx req
      rw [hplain]
      -- the reads of a sweep are looked at where the detail is that of steps
      simp only [close, if_neg hdetail]
      rfl

theorem passUnder_of_idle {late : Nat → Bool} {e : Executor} {ctx : Context} {req : Request} (d : Diagnostics)
    (h : e.idle ctx req = true) : e.passUnder late ctx req d = e.stay ctx req d := by
  rw [passUnder_eq, h, if_pos rfl]

theorem passUnder_of_due {late : Nat → Bool} {e : Executor} {ctx : Context} {req : Request} (d : Diagnostics)
    (h : e.idle ctx req = false) : e.passUnder late ctx req d = e.close ctx req d (e.sweep late ctx req) := by
  rw [passUnder_eq, h, if_neg Bool.false_ne_true]

end Executor

end Settle
