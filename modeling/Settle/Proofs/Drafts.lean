/-
  Settle.Proofs.Drafts — what a transaction leaves as it was when it closes (see
  `Settle.Transaction`).

  A transaction edits a copy of what was pending when it opened, and the engine goes on
  meanwhile: ticks commit derived fields, links copy values in, other transactions close.
  - Writes are kept as writes and made on what is pending when the transaction closes. A
    path that they miss reads as it did then.
  - A draft that was replaced is taken whole. A path that the body left reads as it did
    when the transaction opened, so whatever was committed there meanwhile is undone.

  Neither depends on what the body tells of its replacement. Applying the commit changes
  nothing else: a unit writes the fields of its steps and what its commits write
  (`Instance.UpToDate.unit_state`).
  - `Engine.closing_leaves`: what a path reads once the commit is applied, for any body,
    at any time, with any commits queued behind it.
  - `Relay.a_tick_is_undone`: a body that replaces a note, and derived fields that go
    back to what they were before the tick it ran.
-/

import Settle.Proofs.Pending
import Settle.Proofs.Tracked

namespace Settle

/-! ## Bodies -/

namespace Transaction

variable {t : Transaction} {k : Key} {base pending : Value} {q : Path} {priority : Priority} {c : Commit}

/-- Transactions on a draft, after any edits. -/
inductive Made (k : Key) (base : Value) : Transaction → Prop
  | start : Made k base (.start k base)
  | set {t t' : Transaction} (path : String) (v : Value) : Made k base t → t.set path v = .ok t' → Made k base t'
  | update {t : Transaction} (f : Value → Value) : Made k base t → Made k base (t.update f)
  | record {t : Transaction} (path : String) (reason : PatchReason) : Made k base t → Made k base (t.record path reason)
  | markAll {t : Transaction} (reason : DirtyReason) : Made k base t → Made k base (t.markAll reason)

theorem record_kept (t : Transaction) (path : String) (reason : PatchReason) :
    (t.record path reason).key = t.key ∧ (t.record path reason).draft = t.draft ∧
      (t.record path reason).writes = t.writes ∧ (t.record path reason).replaced = t.replaced := by
  unfold record
  dsimp only
  split
  · exact ⟨rfl, rfl, rfl, rfl⟩
  · split <;> exact ⟨rfl, rfl, rfl, rfl⟩

theorem Made.key (h : t.Made k base) : t.key = k := by
  induction h with
  | start => rfl
  | set path v _ hset ih =>
    rcases set_cases hset with rfl | ⟨l, p, -, hkey, -⟩
    · exact ih
    · exact hkey.trans ih
  | update f _ ih => exact ih
  | @record t path reason _ ih => exact (record_kept t path reason).1.trans ih
  | markAll reason _ ih => exact ih

/-- Until it is replaced, the draft is what the writes make of the state it was copied from. -/
theorem Made.draft (h : t.Made k base) (hr : t.replaced = false) :
    t.draft = t.writes.foldl (fun s w => (State.writeAt s w.1 w.2).state) base := by
  induction h with
  | start => rfl
  | set path v _ hset ih =>
    rcases set_cases hset with rfl | ⟨l, p, -, -, hdraft, hwrites, -, hreplaced⟩
    · exact ih hr
    · rw [hdraft, hwrites, List.foldl_append, ih (hreplaced.symm.trans hr)]
      rfl
  | update f _ _ => cases hr
  | @record t path reason _ ih =>
    obtain ⟨-, hdraft, hwrites, hreplaced⟩ := record_kept t path reason
    rw [hdraft, hwrites]
    exact ih (hreplaced.symm.trans hr)
  | markAll reason _ ih => exact ih hr

/-- The body left the path alone: a draft that was replaced reads there as it did when it
was copied, and writes miss the path and make nothing on their way. -/
def Leaves (t : Transaction) (base pending : Value) (q : Path) : Prop :=
  if t.replaced then State.read t.draft q = State.read base q
  else State.fitsAtAll pending t.writes = true ∧ ∀ w ∈ t.writes, State.Misses q w.1

/-- A commit takes a replaced draft whole, and makes writes on what it finds. -/
theorem applyTo_commit (hc : t.commit? priority = some c) (v : Value) :
    c.change.applyTo v =
      if t.replaced then t.draft else t.writes.foldl (fun s w => (State.writeAt s w.1 w.2).state) v := by
  unfold commit? at hc
  dsimp only at hc
  generalize (if t.untracked then t.dirty.markAll .customMutation else t.dirty) = dirty at hc
  split at hc
  · cases hc
  · cases hc
    cases hr : t.replaced <;> simp [Change.applyTo]

/-- What a commit makes of a path that its body left. -/
theorem read_commit (hc : t.commit? priority = some c) (hl : t.Leaves base pending q) :
    State.read (c.change.applyTo pending) q = State.read (if t.replaced then base else pending) q := by
  unfold Leaves at hl
  rw [applyTo_commit hc]
  cases hr : t.replaced with
  | true => simpa [hr] using hl
  | false =>
    rw [hr] at hl
    exact State.read_writeAtAll hl.1 hl.2

namespace Running

variable {flush : Flushing} {b : Running}

theorem resume_txn (b inner : Running) (priority : Priority) : (b.resume inner priority).txn = b.txn := by
  unfold resume
  dsimp only
  split <;> rfl

/-- Whatever else an edit does, it edits the one transaction. -/
theorem edit_made (flush : Flushing) (x : Edit) (h : b.txn.Made k base) : (b.edit flush x).txn.Made k base := by
  have hwrite : ∀ path v, (b.write path v).2.txn.Made k base := fun path v => by
    unfold write
    split
    · exact h.set path v ‹_›
    · exact h
  cases x with
  | set path v =>
    have hw := hwrite path v
    unfold edit
    split
    · rename_i he
      rwa [he] at hw
    · rename_i he
      rw [he] at hw
      exact hw
  | trySet path v =>
    unfold edit
    exact hwrite path v
  | update writes =>
    unfold edit
    exact h.update fun s => writes.foldl (fun s w => (State.writeAt s w.1 w.2).state) s
  | replace v =>
    unfold edit
    exact h.update fun _ => v
  | remove field =>
    unfold edit
    exact h.update (without field)
  | record path reason =>
    unfold edit
    exact h.record path reason
  | markAll reason =>
    unfold edit
    exact h.markAll reason
  | nested key priority body =>
    unfold edit
    split
    · exact h
    · rw [resume_txn]
      exact h
  | _ =>
    unfold edit
    exact h

theorem edits_made (flush : Flushing) (xs : List Edit) (h : b.txn.Made k base) : (b.edits flush xs).txn.Made k base := by
  induction xs generalizing b with
  | nil =>
    unfold edits
    exact h
  | cons x rest ih =>
    have hx := edit_made flush x h
    unfold edits
    dsimp only
    split
    · exact ih hx
    · exact hx

end Running

end Transaction

/-! ## Units -/

namespace Instance

variable {j : Instance} {u : WorkUnit}

/-- A unit commits what was pending, with the fields written that its patches record. -/
theorem UpToDate.unit_state (h : j.UpToDate none) (hg : j.executor.graph.WellFormed) (hu : j.takeUnit.1 = some u)
    (clock : Nat → Nat → Bool) (now : Time) (d : Diagnostics) (budget : Option Nat) :
    ∃ ps, (j.takeUnit.2.applyUnder clock u now d budget).report.patches = u.change.patches ++ ps ∧
      (j.takeUnit.2.applyUnder clock u now d budget).inst.state =
        State.writeAll j.pending (j.executor.graph.writesOf ps) := by
  obtain ⟨ps, hpatches, hstate⟩ := (applyUnder_answers clock j.takeUnit.2 u now d budget).logged hg
  refine ⟨ps, hpatches, hstate.trans ?_⟩
  rw [show j.pending = u.change.applyTo j.state from h.take hu]
  rfl

/-- A path that no step of the unit writes reads as it was pending. -/
theorem read_unit {g : Graph} (hg : g.WellFormed) {v : Value} {ps : List Patch} {q : Path}
    (hq : ∀ w ∈ g.writesOf ps, ¬ q.overlaps w.1) (hfit : q.hasWildcard = true → State.fitsAll v (g.writesOf ps) = true) :
    State.read (State.writeAll v (g.writesOf ps)) q = State.read v q := by
  refine State.read_writeAll (fun w hw => ?_) hq hfit
  obtain ⟨i, -, ho⟩ := List.mem_filterMap.1 (Graph.mem_outs_of_writesOf hg hw)
  obtain ⟨s, hs, ho⟩ := Graph.out?_eq_some.1 ho
  obtain ⟨o, hout, hplain⟩ := hg.out hs
  exact Option.some.inj (hout.symm.trans ho) ▸ hplain

theorem foldl_enqueue (cs : List Commit) (j : Instance) :
    (cs.foldl enqueue j).queue = j.queue ++ cs ∧ (cs.foldl enqueue j).executor = j.executor := by
  induction cs generalizing j with
  | nil => exact ⟨(List.append_nil _).symm, rfl⟩
  | cons c cs ih =>
    obtain ⟨hqueue, hexecutor⟩ := ih (j.enqueue c)
    refine ⟨?_, hexecutor⟩
    rw [List.foldl_cons, hqueue]
    exact List.append_assoc j.queue [c] cs

theorem UpToDate.foldl_enqueue (h : j.UpToDate none) (cs : List Commit) :
    (cs.foldl Instance.enqueue j).UpToDate none := by
  induction cs generalizing j with
  | nil => exact h
  | cons c cs ih => exact ih (h.enqueue c)

end Instance

/-! ## Closing -/

namespace Engine

variable {config : Policy.Config} {e : Engine} {k : Key} {t : Transaction} {i : Instance}

/-- Closing queues the commit behind all that waits. -/
theorem find?_commitTxn (hk : t.key = k) {priority : Priority} {c : Commit} (hc : t.commit? priority = some c)
    (hi : e.store.find? k = some i) :
    (e.commitTxn t priority).store.find? k = some (i.enqueue { c with seq := e.store.seq + 1 }) := by
  subst hk
  have hkey : (i.enqueue { c with seq := e.store.seq + 1 }).key = t.key := (Store.key_of_find? hi : i.key = t.key)
  have hget : e.store.get t.key = .ok i := by
    unfold Store.get
    rw [hi]
  have henqueue : e.store.enqueue t.key c =
      .ok { e.store.put (i.enqueue { c with seq := e.store.seq + 1 }) with seq := e.store.seq + 1 } := by
    unfold Store.enqueue
    rw [hget]
    rfl
  have hput := Store.find?_put e.store (i.enqueue { c with seq := e.store.seq + 1 }) t.key
  rw [if_pos hkey, hi] at hput
  unfold commitTxn enqueue abandon
  rw [hc]
  simp only [henqueue]
  exact hput

/-- A transaction that closes is queued behind all that waits. Once it is applied, with
whatever was queued after it, a path that its body left, that no later commit changed and
that no step wrote reads as it was pending when the transaction closed; but where the body
replaced its draft it reads as it was when the transaction opened. That goes for the body
of every script, which edits a copy of what is pending when it opens, while ticks, links
and other transactions run. -/
theorem closing_leaves (he : Reached config e) (k : Key) :
    (∀ (base : Value) (t : Transaction) (priority : Priority) (c : Commit) (i : Instance),
      t.Made k base → t.commit? priority = some c → e.store.find? k = some i →
      ∃ i', (e.commitTxn t priority).store.find? k = some i' ∧
        i'.queue = i.queue ++ [{ c with seq := e.store.seq + 1 }] ∧
        ∀ (later : List Commit), ∃ u, (later.foldl Instance.enqueue i').takeUnit.1 = some u ∧
        ∀ (clock : Nat → Nat → Bool) (now : Time) (d : Diagnostics) (budget : Option Nat),
          let j := later.foldl Instance.enqueue i'
          let a := j.takeUnit.2.applyUnder clock u now d budget
          ∃ ps, a.report.patches = u.change.patches ++ ps ∧
            ∀ q, t.Leaves base i.pending q → State.read j.pending q = State.read i'.pending q →
              (∀ w ∈ i.executor.graph.writesOf ps, ¬ q.overlaps w.1) →
              (q.hasWildcard = true → State.fitsAll j.pending (i.executor.graph.writesOf ps) = true) →
              State.read a.inst.state q = State.read (if t.replaced then base else i.pending) q) ∧
    (∀ (t : Transaction) (opened : Engine) (body : List Edit), e.openTxn k = .ok (t, opened) →
      let b := Transaction.Running.edits Engine.flush ⟨opened, t, [], .done⟩ body
      Reached config b.engine ∧ b.txn.Made k t.draft ∧ ∃ i, e.store.find? k = some i ∧ t.draft = i.pending) := by
  refine ⟨fun base t priority c i ht hc hi => ?_, fun t opened body ho => ?_⟩
  · refine ⟨_, find?_commitTxn ht.key hc hi, rfl, fun later => ?_⟩
    have huptodate := ((he.upToDate.find? hi).enqueue { c with seq := e.store.seq + 1 }).foldl_enqueue later
    have hgraph : i.executor.graph.WellFormed := he.wellFormed.find? hi
    obtain ⟨hqueue, hexecutor⟩ := Instance.foldl_enqueue later (i.enqueue { c with seq := e.store.seq + 1 })
    generalize hj : later.foldl Instance.enqueue (i.enqueue { c with seq := e.store.seq + 1 }) = j at *
    obtain ⟨u, hu⟩ : ∃ u, j.takeUnit.1 = some u := by
      unfold Instance.takeUnit Instance.enqueue at *
      rw [hqueue]
      cases i.queue <;> exact ⟨_, rfl⟩
    refine ⟨u, hu, fun clock now d budget => ?_⟩
    have hgraphs : j.executor.graph = i.executor.graph := congrArg Executor.graph hexecutor
    obtain ⟨ps, hpatches, hstate⟩ := huptodate.unit_state (hgraphs ▸ hgraph) hu clock now d budget
    rw [hgraphs] at hstate
    refine ⟨ps, hpatches, fun q hleaves hlater hq hfit => ?_⟩
    calc State.read (j.takeUnit.2.applyUnder clock u now d budget).inst.state q
      _ = State.read j.pending q := by rw [hstate, Instance.read_unit hgraph hq hfit]
      _ = State.read (c.change.applyTo i.pending) q := hlater
      _ = State.read (if t.replaced then base else i.pending) q := Transaction.read_commit hc hleaves
  · obtain ⟨i, hi, rfl, -⟩ := openTxn_eq_ok ho
    exact ⟨Reached.edits (sound_flush config) _ body (he.opened ho), Transaction.Running.edits_made _ body .start,
      i, hi, rfl⟩

end Engine

namespace Relay

def one : Key := ⟨"relay", "1"⟩

/-- A relay in an engine: its `x` was set, and no tick has run. -/
def unticked : Engine :=
  match (Engine.ofConfig .builtin false false).register declaration "1" (state 1 1 1) with
  | .error _ => .ofConfig .builtin false false
  | .ok (_, e) =>
    match e.set one "x" (.int 5) with
    | .error _ => e
    | .ok e => e

theorem unticked_reached : Engine.Reached .builtin unticked := by
  unfold unticked
  split
  · exact .start false false
  · rename_i he
    split
    · exact (Engine.Reached.start false false).register _ _ _ he
    · rename_i hset
      exact ((Engine.Reached.start false false).register _ _ _ he).write hset

def memo : Path := ⟨["memo"], by decide⟩

/-- A transaction on the unticked relay after the edits of its body. -/
def edited (body : List Edit) : Transaction.Running :=
  match unticked.openTxn one with
  | .error _ => ⟨unticked, .start one .null, [], .done⟩
  | .ok (t, opened) => .edits Engine.flush ⟨opened, t, [], .done⟩ body

/-- A body that runs a tick and writes the memo. -/
def jotting : List Edit := [.flush, .set "memo" (.int 1)]

/-- A write closes on top of what the tick committed. -/
theorem a_write_keeps_the_tick :
    ∃ i i' u, (edited jotting).engine.store.find? one = some i ∧
      ((edited jotting).engine.commitTxn (edited jotting).txn .normal).store.find? one = some i' ∧
      i'.takeUnit.1 = some u ∧
      ∀ (clock : Nat → Nat → Bool) (now : Time) (d : Diagnostics) (budget : Option Nat), ∃ ps,
        (i'.takeUnit.2.applyUnder clock u now d budget).report.patches = u.change.patches ++ ps ∧
          ((∀ w ∈ i.executor.graph.writesOf ps, ¬ a.overlaps w.1) →
            State.read (i'.takeUnit.2.applyUnder clock u now d budget).inst.state a = some (.int 5)) := by
  have hopens : (unticked.openTxn one).isOk = true := by cbv
  cases ho : unticked.openTxn one with
  | error err =>
    rw [ho] at hopens
    cases hopens
  | ok p =>
    obtain ⟨t, opened⟩ := p
    obtain ⟨hreached, hmade, -⟩ := (Engine.closing_leaves unticked_reached one).2 t opened jotting ho
    have hedited : edited jotting = .edits Engine.flush ⟨opened, t, [], .done⟩ jotting := by
      unfold edited
      rw [ho]
    rw [← hedited] at hreached hmade
    have hwrites : (edited jotting).txn.writes = [(.ofKeys memo, .int 1)] := by cbv
    have hwrote : (edited jotting).txn.replaced = false ∧ ((edited jotting).txn.commit? .normal).isSome = true ∧
        ((edited jotting).engine.store.find? one).map (·.pending) = some (state 5 5 5) := by cbv
    obtain ⟨hreplaced, hcommits, hpending⟩ := hwrote
    obtain ⟨c, hc⟩ := Option.isSome_iff_exists.1 hcommits
    obtain ⟨i, hi, hstate⟩ := Option.map_eq_some_iff.1 hpending
    have hleaves : (edited jotting).txn.Leaves t.draft i.pending a := by
      unfold Transaction.Leaves
      rw [hreplaced, hwrites, hstate, if_neg Bool.false_ne_true]
      refine ⟨rfl, fun w hw => ?_⟩
      rw [List.mem_singleton.1 hw]
      unfold State.Misses
      decide
    obtain ⟨i', hi', -, happlied⟩ := (Engine.closing_leaves hreached one).1 t.draft _ .normal c i hmade hc hi
    obtain ⟨u, hu, happly⟩ := happlied []
    refine ⟨i, i', u, hi, hi', hu, fun clock now d budget => ?_⟩
    obtain ⟨ps, hps, hread⟩ := happly clock now d budget
    refine ⟨ps, hps, fun hq => ?_⟩
    have hplain : a.hasWildcard = true → State.fitsAll i'.pending (i.executor.graph.writesOf ps) = true :=
      fun hw => absurd hw (by decide)
    have hkept := hread a hleaves rfl hq hplain
    rw [hreplaced, hstate] at hkept
    exact hkept.trans rfl

/-- A body that runs a tick and replaces its draft by one with a memo in it. -/
def noting : List Edit := [.flush, .update [(.ofKeys memo, .int 1)], .record "memo" .reducer]

/-- What is pending there. -/
def pendingAt (e : Engine) (p : Path) : Option Value := (e.store.find? one).bind fun i => State.read i.pending p

/-- A body that leaves `a` closes, and no step runs: `a` goes back to what it was before the
tick that committed 5 there. -/
theorem a_tick_is_undone :
    (edited noting).ending = .done ∧
      State.read (edited noting).txn.draft a = pendingAt unticked a ∧
      pendingAt (edited noting).engine a = some (.int 5) ∧
      ((edited noting).close .normal).flush.1.units.map (fun r => r.patches.map (·.path)) = [["memo"]] ∧
      pendingAt ((edited noting).close .normal).flush.2 a = some (.int 1) := by
  cbv

end Relay

end Settle
