/-
  Settle.Proofs.Story — the patches of a pass tell what it did (see `Settle.Executor`).

  Steps run one after another over a state. Each does nothing there, writes its field, or
  fails and ends the run (`Course`), in whichever round it is. A step that writes adds one
  patch: what was at its field in that state, and what its derive function gave or its
  link source held there (`Graph.Tells`). So replaying the patches of a pass passes
  through the states that its steps met, patch by patch, to the draft it returns; and
  whether a derive function failed can be told from the steps it ran, in which case
  nothing of it stays (`Executor.pass_story`).
-/

import Settle.Proofs.Acyclic

namespace Settle

namespace Graph

/-- A patch tells what a step did to a state. -/
def Tells (g : Graph) (v : Value) (p : Patch) : Prop :=
  ∃ i s out next, g.step? i = some s ∧ g.table.path? s.out = some out ∧ g.target? v i = some next ∧
    p = ⟨s.label, Pass.patchReason s.kind, State.lookup v out, some next, some i⟩

/-- The derive function of a step fails on a state. -/
def Fails (g : Graph) (v : Value) (i : StepId) (fault : Fault) : Prop :=
  ∃ derive equality, g.body? i = some (.computed derive equality) ∧ (derive.run v).outcome = .error fault

/-- The ids of the fields that patches of steps write. -/
def fieldsOf (g : Graph) (ps : List Patch) : List PathId :=
  ps.filterMap fun p => p.step.bind fun i => (g.step? i).map (·.out)

variable {g : Graph} {i : StepId} {s : Step} {v : Value}

theorem fieldsOf_append (g : Graph) (ps qs : List Patch) : g.fieldsOf (ps ++ qs) = g.fieldsOf ps ++ g.fieldsOf qs :=
  List.filterMap_append

theorem writesOf_cons (hs : g.step? i = some s) {out : Path} (hout : g.table.path? s.out = some out) {label : String}
    {reason : PatchReason} {prev : Option Value} {next : Value} (ps : List Patch) :
    g.writesOf (⟨label, reason, prev, some next, some i⟩ :: ps) = (out, next) :: g.writesOf ps := by
  simp only [writesOf, List.filterMap_cons, writeOf?, Option.bind_some, hs, hout, Option.map_some]

/-- What a step would write is what it comes to, over what is there. -/
theorem effect_eq_some (hg : g.WellFormed) (hs : g.step? i = some s) {out : Path} (hout : g.table.path? s.out = some out)
    {prev : Option Value} {next : Value} (he : g.effect i v = .ok (some (prev, next))) :
    prev = State.lookup v out ∧ g.target? v i = some next := by
  obtain ⟨body, hb⟩ := hg.exists_body hs
  cases body with
  | computed derive equality =>
    rw [effect_computed hs hb, hout, Option.bind_some] at he
    rw [target?_computed hs hb]
    cases hd : (derive.run v).outcome with
    | error fault =>
      rw [hd] at he
      cases he
    | ok value =>
      rw [hd] at he
      obtain ⟨hprev, rfl⟩ := changeTo_eq_some (Except.ok.inj he)
      exact ⟨hprev.symm, rfl⟩
  | link =>
    rw [effect_link hs hb, hout, Option.bind_some] at he
    rw [target?_link hs hb]
    obtain ⟨value, hvalue, he⟩ := Option.bind_eq_some_iff.1 (Except.ok.inj he)
    obtain ⟨hprev, rfl⟩ := changeTo_eq_some he
    exact ⟨hprev.symm, hvalue⟩

/-- Only a derive function makes a step fail. -/
theorem effect_eq_error (hg : g.WellFormed) {fault : Fault} : g.effect i v = .error fault ↔ g.Fails v i fault := by
  constructor
  · intro he
    cases hs : g.step? i with
    | none => simp [effect, hs] at he
    | some s =>
      obtain ⟨body, hb⟩ := hg.exists_body hs
      cases body with
      | computed derive equality =>
        rw [effect_computed hs hb] at he
        refine ⟨derive, equality, hb, ?_⟩
        cases hd : (derive.run v).outcome with
        | error fault' =>
          rw [hd] at he
          cases he
          rfl
        | ok value =>
          rw [hd] at he
          cases he
      | link =>
        rw [effect_link hs hb] at he
        cases he
  · rintro ⟨derive, equality, hb, hd⟩
    have hlt : i < g.steps.length := hg.length_bodies ▸ (List.getElem?_eq_some_iff.1 hb).1
    rw [effect_computed (List.getElem?_eq_getElem hlt) hb, hd]
    rfl

/-! ## Steps that run -/

/-- Steps run in order from a state: the patches they make, the state after them, and the
failure that ended it, if one did. -/
inductive Course (g : Graph) : Value → List StepId → List Patch → Value → Option (StepId × Fault) → Prop
  | done (v : Value) : Course g v [] [] v none
  | failed {v : Value} {i : StepId} {fault : Fault} : g.effect i v = .error fault →
      Course g v [i] [] v (some (i, fault))
  | settled {v w : Value} {i : StepId} {l : List StepId} {ps : List Patch} {o : Option (StepId × Fault)} :
      g.Settled v i → Course g v l ps w o → Course g v (i :: l) ps w o
  | wrote {v w : Value} {i : StepId} {s : Step} {out : Path} {prev : Option Value} {next : Value} {l : List StepId}
      {ps : List Patch} {o : Option (StepId × Fault)} : g.step? i = some s → g.table.path? s.out = some out →
      g.effect i v = .ok (some (prev, next)) → Course g (State.write v out next).state l ps w o →
      Course g v (i :: l) (⟨s.label, Pass.patchReason s.kind, prev, some next, some i⟩ :: ps) w o

namespace Course

variable {w x : Value} {l l' : List StepId} {ps qs : List Patch} {o : Option (StepId × Fault)}

theorem append (h : Course g v l ps w none) (h' : Course g w l' qs x o) : Course g v (l ++ l') (ps ++ qs) x o := by
  generalize ho : (none : Option (StepId × Fault)) = o₁ at h
  induction h with
  | done => exact h'
  | failed => cases ho
  | settled hs _ ih => exact .settled hs (ih h' ho)
  | wrote hs hout he _ ih => exact .wrote hs hout he (ih h' ho)

/-- The patches write what the steps wrote. -/
theorem writeAll_eq (h : Course g v l ps w o) : w = State.writeAll v (g.writesOf ps) := by
  induction h with
  | done => rfl
  | failed => rfl
  | settled _ _ ih => exact ih
  | wrote hs hout _ _ ih =>
    rw [ih, writesOf_cons hs hout]
    rfl

/-- Each patch tells what its step did to the state that the patches before it make. -/
theorem tells (hg : g.WellFormed) (h : Course g v l ps w o) {before later : List Patch} {p : Patch}
    (hps : ps = before ++ p :: later) : g.Tells (State.writeAll v (g.writesOf before)) p := by
  induction h generalizing before with
  | done => simp at hps
  | failed => simp at hps
  | settled _ _ ih => exact ih hps
  | @wrote v w i s out prev next l ps o hs hout he _ ih =>
    cases before with
    | nil =>
      obtain ⟨rfl, -⟩ := List.cons.inj hps
      obtain ⟨rfl, htarget⟩ := effect_eq_some hg hs hout he
      exact ⟨i, s, out, next, hs, hout, htarget, rfl⟩
    | cons q before =>
      obtain ⟨hq, htail⟩ := List.cons.inj hps
      rw [← hq, writesOf_cons hs hout]
      exact ih htail

/-- Patches and the fields they write stand side by side. -/
theorem fields (h : Course g v l ps w o) :
    ((g.fieldsOf ps).filterMap g.table.path?).map some = ps.map fun p => p.step.bind g.out? := by
  induction h with
  | done => rfl
  | failed => rfl
  | settled _ _ ih => exact ih
  | wrote hs hout _ _ ih =>
    rw [fieldsOf, List.filterMap_cons, List.map_cons, ← ih]
    simp only [Option.bind_some, hs, Option.map_some, List.filterMap_cons, hout, List.map_cons, out?]
    rfl

/-- A step that does not fail first is no part of a failure. -/
theorem failed_cons {x : Value} (hstep : ∀ before, g.runAll (i :: before) v = g.runAll before x)
    (hhead : ∀ fault, g.effect i v ≠ .error fault) :
    (∃ before j later fault, l = before ++ j :: later ∧ g.effect j (g.runAll before x) = .error fault) ↔
      ∃ before j later fault, i :: l = before ++ j :: later ∧ g.effect j (g.runAll before v) = .error fault := by
  constructor
  · intro ⟨before, j, later, fault, hl, he⟩
    exact ⟨i :: before, j, later, fault, by rw [hl, List.cons_append], by rw [hstep, he]⟩
  · intro ⟨before, j, later, fault, hl, he⟩
    cases before with
    | nil =>
      obtain ⟨rfl, -⟩ := List.cons.inj hl
      exact absurd he (hhead fault)
    | cons k before =>
      obtain ⟨hk, htail⟩ := List.cons.inj hl
      exact ⟨before, j, later, fault, htail, by rw [← hstep, hk, he]⟩

/-- The steps ended in a failure just when one of them failed on the state it met. -/
theorem failed_iff (h : Course g v l ps w o) : o.isSome = true ↔
    ∃ before i later fault, l = before ++ i :: later ∧ g.effect i (g.runAll before v) = .error fault := by
  induction h with
  | done v => simp
  | @failed v i fault he => exact ⟨fun _ => ⟨[], i, [], fault, rfl, he⟩, fun _ => rfl⟩
  | @settled v w i l ps o hs _ ih =>
    have hskip : ∀ before, g.runAll (i :: before) v = g.runAll before v := fun before => by rw [runAll, hs]
    have hhead : ∀ fault, g.effect i v ≠ .error fault := fun fault he => by rw [hs] at he; cases he
    rw [ih]
    exact failed_cons hskip hhead
  | @wrote v w i s out prev next l ps o hs hout he _ ih =>
    have hstep : ∀ before, g.runAll (i :: before) v = g.runAll before (State.write v out next).state := fun before => by
      rw [runAll, he, hs, Option.bind_some, hout]
    have hhead : ∀ fault, g.effect i v ≠ .error fault := fun fault he' => by rw [he] at he'; cases he'
    rw [ih]
    exact failed_cons hstep hhead

end Course

end Graph

/-! ## Sweeps -/

namespace Pass

/-- The failure that a stop tells of. -/
def failure : Option Stop → Option (StepId × Fault)
  | some (.failed i fault) => some (i, fault)
  | _ => none

/-- From one run to a later one, steps ran and the log went on. -/
def Runs (g : Graph) (r : Run) (l : List StepId) (r' : Run) (o : Option (StepId × Fault)) : Prop :=
  ∃ new, r'.patches = r.patches ++ new ∧ r'.changed = r.changed ++ g.fieldsOf new ∧ g.Course r.draft l new r'.draft o

variable {f : Frame} {u : Bool} {l l' : List StepId} {r r' r'' : Run} {i : StepId} {o : Option (StepId × Fault)}

theorem Runs.refl (g : Graph) (r : Run) : Runs g r [] r none :=
  ⟨[], (List.append_nil _).symm, (List.append_nil _).symm, .done _⟩

theorem Runs.append {g : Graph} (h : Runs g r l r' none) (h' : Runs g r' l' r'' o) : Runs g r (l ++ l') r'' o := by
  obtain ⟨ps, hps, hfields, hcourse⟩ := h
  obtain ⟨qs, hqs, hfields', hcourse'⟩ := h'
  refine ⟨ps ++ qs, ?_, ?_, hcourse.append hcourse'⟩
  · rw [hqs, hps, List.append_assoc]
  · rw [hfields', hfields, Graph.fieldsOf_append, List.append_assoc]

/-- One step. -/
theorem Stepped.runs (h : Wired f.graph f.wiring) {out : Run × Option Fault} (hst : Stepped f i r out) :
    Runs f.graph r [i] out.1 (out.2.map fun fault => (i, fault)) := by
  cases hst with
  | @failed fault r' he ht _ =>
    refine ⟨[], (congrArg Trail.patches ht).trans (List.append_nil _).symm,
      (congrArg Trail.changed ht).trans (List.append_nil _).symm, ?_⟩
    have hd : r'.draft = r.draft := congrArg Trail.draft ht
    rw [hd]
    exact .failed he
  | @settled r' hs ht _ _ =>
    refine ⟨[], (congrArg Trail.patches ht).trans (List.append_nil _).symm,
      (congrArg Trail.changed ht).trans (List.append_nil _).symm, ?_⟩
    have hd : r'.draft = r.draft := congrArg Trail.draft ht
    rw [hd]
    exact .settled hs (.done _)
  | @wrote s out prev next r' hs hout he ht _ _ =>
    have hid := h.graph.id_eq hs
    refine ⟨[⟨s.label, patchReason s.kind, prev, some next, some i⟩], ?_, ?_, ?_⟩
    · rw [← hid]
      exact congrArg Trail.patches ht
    · have hfield : f.graph.fieldsOf [⟨s.label, patchReason s.kind, prev, some next, some i⟩] = [s.out] := by
        simp [Graph.fieldsOf, hs]
      rw [hfield]
      exact congrArg Trail.changed ht
    · have hd : r'.draft = (State.write r.draft out next).state := congrArg Trail.draft ht
      rw [hd]
      exact .wrote hs hout he (.done _)

/-- A round. -/
theorem round_runs (h : Wired f.graph f.wiring) (hl : ∀ j ∈ l, j ∈ f.wiring.order f.scope) (r : Run) :
    Runs f.graph r (ranIn f u l r) (round f u l r).1 (failure (round f u l r).2) := by
  refine round_induct (motive := fun _ r steps out => Runs f.graph r steps out.1 (failure out.2)) ?_ ?_ ?_ ?_ ?_ r
  · exact fun r => .refl _ r
  · exact fun _ _ _ _ _ _ _ ih => ih
  · exact fun _ _ r _ => .refl _ r
  · intro i _ r r' fault hi he
    have hruns := (stepped (r := r) h (hl i hi)).runs h
    rw [he] at hruns
    exact hruns
  · intro i _ r r' steps out hi he ih
    have hruns := (stepped (r := r) h (hl i hi)).runs h
    rw [he] at hruns
    exact hruns.append ih

/-- All rounds of a sweep. -/
theorem rounds_runs (h : Wired f.graph f.wiring) (hl : ∀ j ∈ l, j ∈ f.wiring.order f.scope) (n : Nat) :
    Runs f.graph r (ran f u l r) (rounds f u l r n).run (failure (rounds f u l r n).stop) := by
  refine rounds_induct h (motive := fun r _ steps s => Runs f.graph r steps s.run (failure s.stop)) ?_ ?_ hl r n
  · intro u l r n r' stop hl hround _
    have hruns : Runs f.graph r _ _ _ := round_runs (u := u) h hl { r with again := [] }
    rw [hround] at hruns
    exact hruns
  · intro u l r n r' steps s hl hround _ hrest
    have hruns : Runs f.graph r _ _ _ := round_runs (u := u) h hl { r with again := [] }
    rw [hround] at hruns
    exact hruns.append hrest

end Pass

/-! ## Passes -/

namespace Executor

variable {e : Executor} {late : Nat → Bool} {ctx : Context} {req : Request} {d : Diagnostics}

/-- What a pass answers is what it did. -/
structure Story (late : Nat → Bool) (e : Executor) (ctx : Context) (req : Request) (d : Diagnostics) : Prop where
  /-- The log it was given stays in front. Replaying what it adds makes the draft it
  returns, and each patch tells what its step did to the draft made so far. -/
  log : ∃ new, (e.passUnder late ctx req d).context.patches = ctx.patches ++ new ∧
    (e.passUnder late ctx req d).context.draft = State.writeAll ctx.draft (e.graph.writesOf new) ∧
    (∀ before p later, new = before ++ p :: later →
      e.graph.Tells (State.writeAll ctx.draft (e.graph.writesOf before)) p) ∧
    (e.passUnder late ctx req d).outcome.changed.map some = new.map fun p => p.step.bind e.graph.out?
  /-- It reports a failure just when the derive function of a step that it ran failed on
  the draft that the step met, in whichever round. -/
  failed : (e.passUnder late ctx req d).outcome.degrade = some .deriveFailed ↔
    ∃ before i later fault, e.ran late ctx req = before ++ i :: later ∧
      e.graph.Fails (e.graph.runAll before ctx.draft) i fault
  /-- Then nothing of it stays. -/
  undone : (e.passUnder late ctx req d).outcome.degrade = some .deriveFailed →
    (e.passUnder late ctx req d).context = ctx ∧ (e.passUnder late ctx req d).outcome.changed = [] ∧
      (e.passUnder late ctx req d).outcome.carried = none

/-- What a sweep did, over the draft of its pass. -/
theorem sweep_runs (h : e.Sound) (hidle : e.idle ctx req = false) (late : Nat → Bool) :
    Pass.Runs e.graph (e.start ctx req) (e.ran late ctx req) (e.sweep late ctx req).run
      (Pass.failure (e.sweep late ctx req).stop) := by
  rw [ran, hidle, if_neg Bool.false_ne_true]
  exact Pass.rounds_runs (f := frame late e req) h.wired (choice_mem h ctx req) 1

theorem stopDegrade_failed (late : Nat → Bool) (e : Executor) (ctx : Context) (req : Request) :
    stopDegrade (e.sweep late ctx req).stop = some .deriveFailed ↔
      (Pass.failure (e.sweep late ctx req).stop).isSome = true := by
  cases hs : (e.sweep late ctx req).stop with
  | none => exact ⟨nofun, nofun⟩
  | some stop =>
    cases stop with
    | failed i fault => exact ⟨fun _ => rfl, fun _ => rfl⟩
    | cap reason rest =>
      refine ⟨fun hd => ?_, nofun⟩
      obtain rfl : reason = .deriveFailed := Option.some.inj hd
      rcases Pass.rounds_reason hs with he | he <;> cases he

/-- A pass whose sweep failed is undone. -/
theorem close_failed {s : Pass.Swept} (hs : (Pass.failure s.stop).isSome = true) :
    (e.close ctx req d s).context = ctx ∧ (e.close ctx req d s).outcome.changed = [] ∧
      (e.close ctx req d s).outcome.carried = none := by
  obtain ⟨run, _ | _ | ⟨i, fault⟩, n, u⟩ := s
  · cases hs
  · cases hs
  · exact ⟨rfl, rfl, rfl⟩

/-- Any other one leaves what its sweep wrote. -/
theorem close_ran {s : Pass.Swept} (hs : (Pass.failure s.stop).isSome = false) :
    (e.close ctx req d s).context.patches = ctx.patches ++ s.run.patches ∧
      (e.close ctx req d s).context.draft = s.run.draft ∧
      (e.close ctx req d s).outcome.changed = e.pathsOf s.run.changed := by
  obtain ⟨run, _ | _ | ⟨i, fault⟩, n, u⟩ := s
  · exact ⟨rfl, rfl, rfl⟩
  · exact ⟨rfl, rfl, rfl⟩
  · cases hs

/-- A pass that is idle has nothing to tell. -/
theorem story_of_idle (hidle : e.idle ctx req = true) (late : Nat → Bool) (d : Diagnostics) :
    Story late e ctx req d := by
  obtain ⟨hctx, -, hchanged, hdegrade, -⟩ := @passUnder_idle e late ctx req d hidle
  have hnone : (e.passUnder late ctx req d).outcome.degrade = none := hdegrade
  refine ⟨⟨[], ?_, ?_, by simp, ?_⟩, ⟨?_, ?_⟩, ?_⟩
  · rw [hctx, List.append_nil]
  · rw [hctx]
    rfl
  · rw [hchanged]
    rfl
  · rw [hnone]
    nofun
  · intro ⟨before, i, later, fault, hran, _⟩
    rw [ran, hidle, if_pos rfl] at hran
    simp at hran
  · rw [hnone]
    nofun

/-- The story of every pass of a compiled declaration. -/
theorem pass_story {decl : Declaration} {c : Compiled} (hc : c.Of decl) (he : Reached c e) (late : Nat → Bool)
    (ctx : Context) (req : Request) (d : Diagnostics) : Story late e ctx req d := by
  have h := he.sound hc
  cases hidle : e.idle ctx req with
  | true => exact story_of_idle hidle late d
  | false =>
    obtain ⟨new, hpatches, hfields, hcourse⟩ := sweep_runs h hidle late
    have hdegrade : (e.passUnder late ctx req d).outcome.degrade = some .deriveFailed ↔ _ :=
      passUnder_degrade (d := d) hidle ▸ stopDegrade_failed late e ctx req
    refine ⟨?_, ?_, fun hfail => ?_⟩
    · rw [passUnder_of_due d hidle]
      cases hs : (Pass.failure (e.sweep late ctx req).stop).isSome with
      | true =>
        obtain ⟨hctx, hchanged, -⟩ := @close_failed e ctx req d _ hs
        refine ⟨[], ?_, ?_, by simp, ?_⟩
        · rw [hctx, List.append_nil]
        · rw [hctx]
          rfl
        · rw [hchanged]
          rfl
      | false =>
        obtain ⟨hlog, hdraft, hchanged⟩ := @close_ran e ctx req d _ hs
        refine ⟨new, ?_, ?_, fun before p later hnew => hcourse.tells h.wired.graph hnew, ?_⟩
        · rw [hlog, hpatches]
          rfl
        · rw [hdraft]
          exact hcourse.writeAll_eq
        · rw [hchanged, hfields]
          exact hcourse.fields
    · rw [hdegrade, hcourse.failed_iff]
      simp only [Graph.effect_eq_error h.wired.graph]
      rfl
    · rw [passUnder_of_due d hidle]
      exact close_failed (hdegrade.1 hfail)

end Executor

namespace Relay

/-- Such a story is that of the relay after `x` moved. -/
theorem moved_story : compiled.Of declaration ∧ Executor.Reached compiled executor ∧
    Executor.Story (fun _ => false) executor moved ⟨.all, config .dirty 9, none⟩ (.ofReporting .builtin false) :=
  ⟨compiled_of, .ofCompiled _, Executor.pass_story compiled_of (.ofCompiled _) _ _ _ _⟩

end Relay

end Settle
