/-
  Settle.Proofs.Marks — open transactions stay open, whatever else is asked of an engine
  (see `Settle.Engine` and `Settle.Call`).

  A transaction marks its instance while it is open, and takes back that mark alone when it
  closes (`Keeps.abandon`). So all that can be asked of a host, transactions of bodies,
  listeners and handlers included, leaves the marks it finds, and every instance
  (`Host.perform_keeps`).
-/

import Settle.Call
import Settle.Proofs.Links

namespace Settle

namespace Engine

variable {e e' e'' : Engine} {k : Key} {t : Transaction} {flush : Flushing}

/-- The same transactions are open, in the same order, and no instance has gone. -/
structure Keeps (e e' : Engine) : Prop where
  active : e'.active = e.active
  contains : ∀ k, e.store.contains k = true → e'.store.contains k = true

theorem Keeps.refl (e : Engine) : e.Keeps e := ⟨rfl, fun _ h => h⟩

theorem Keeps.trans (h : e.Keeps e') (h' : e'.Keeps e'') : e.Keeps e'' :=
  ⟨h'.active.trans h.active, fun k hk => h'.contains k (h.contains k hk)⟩

theorem Keeps.of_eq (hactive : e'.active = e.active) (hstore : e'.store = e.store) : e.Keeps e' :=
  ⟨hactive, fun _ h => hstore ▸ h⟩

theorem Keeps.of_keys (hactive : e'.active = e.active)
    (hkeys : e'.store.instances.map (·.key) = e.store.instances.map (·.key)) : e.Keeps e' :=
  ⟨hactive, fun k h => (Store.contains_of_keys hkeys k).trans h⟩

theorem Keeps.foldl {α : Type} {f : Engine → α → Engine} (hf : ∀ (e : Engine) a, e.Keeps (f e a)) (l : List α)
    (e : Engine) : e.Keeps (l.foldl f e) :=
  List.foldlRecOn l f (motive := e.Keeps) (.refl e) fun _ h a _ => h.trans (hf _ a)

theorem emit_keeps (e : Engine) (ev : Event) : e.Keeps (e.emit ev) := .of_eq rfl rfl

theorem note_keeps (e : Engine) (n : Note) : e.Keeps (e.note n) := .of_eq rfl rfl

theorem reportPanic_keeps (e : Engine) (key : Key) (action : String) (message : Option String) :
    e.Keeps (e.reportPanic key action message) := by
  unfold reportPanic
  split <;> exact e.emit_keeps _

/-! ## Instances -/

theorem put_keeps (e : Engine) (i : Instance) : e.Keeps { e with store := e.store.put i } :=
  .of_keys rfl (Store.keys_put e.store i)

theorem enqueue_keeps (e : Engine) (k : Key) (c : Commit) : e.Keeps (e.enqueue k c) := by
  unfold enqueue
  split
  · exact .of_keys rfl (Store.enqueue_keys ‹_›)
  · exact .refl e

theorem syncLane_keeps (e : Engine) (k : Key) : e.Keeps (e.syncLane k) := by
  unfold syncLane
  split
  · exact .refl e
  · dsimp only
    split
    · exact (e.put_keeps _).trans (enqueue_keeps _ k _)
    · exact e.put_keeps _

theorem acceptDeferred_keeps (e : Engine) (k : Key) (f : Lane.Flush) : e.Keeps (e.acceptDeferred k f) := by
  unfold acceptDeferred
  split
  · exact .refl e
  · exact e.enqueue_keeps k _

theorem register_keeps {d : Declaration} {id : String} {v : Value} (he : e.register d id v = .ok (k, e')) :
    e.Keeps e' := by
  refine ⟨?_, fun _ h => (register_stays he).2.2.contains h⟩
  unfold register at he
  dsimp only at he
  split at he
  · cases he
  · obtain ⟨⟨answer, graphs⟩, -, he⟩ := Except.bind_eq_ok.1 he
    cases he
    rw [(syncLane_keeps _ _).active]
    exact (Keeps.foldl syncLane_keeps _ _).active

theorem override_keeps {provider : Option Policy.Overrides} (he : e.override k provider = .ok e') : e.Keeps e' := by
  obtain ⟨i, -, he⟩ := Except.bind_eq_ok.1 he
  cases he
  exact (e.put_keeps _).trans (syncLane_keeps _ k)

theorem link_keeps {new : Bool} {source target : Key} {sourcePath targetPath : String}
    (he : e.link source sourcePath target targetPath = .ok (new, e')) : e.Keeps e' := by
  obtain ⟨l, -, he⟩ := Except.bind_eq_ok.1 he
  obtain ⟨i, -, he⟩ := Except.bind_eq_ok.1 he
  obtain ⟨j, -, he⟩ := Except.bind_eq_ok.1 he
  have hadded : e.Keeps { e with links := e.links ++ [l] } := .of_eq rfl rfl
  split at he
  · cases he
    exact .refl e
  · split at he
    · cases he
      exact hadded
    · cases he
      split
      · exact hadded
      · exact hadded.trans (enqueue_keeps _ target _)

theorem subscribe_keeps {key target : Key} {label : String} {acts : List Act} {id : Nat}
    (he : e.subscribe key label target acts = .ok (id, e')) : e.Keeps e' := by
  obtain ⟨i, -, he⟩ := Except.bind_eq_ok.1 he
  cases he
  exact .of_eq rfl rfl

theorem tick_keeps (e : Engine) : e.Keeps e.tick.2.2 := .of_keys rfl (tick_keys e)

/-! ## Transactions -/

/-- On an instance that has one open it does not open. -/
theorem openTxn_nested_iff :
    e.openTxn k = .error (.nestedTransaction k) ↔ k ∈ e.active ∧ e.store.contains k = true := by
  cases hi : e.store.find? k with
  | none => simp [openTxn, Store.get, Store.contains, hi, bind, Except.bind]
  | some i =>
    by_cases hk : k ∈ e.active
    · simp [openTxn, Store.get, Store.contains, hi, hk, bind, Except.bind, throw, throwThe, MonadExceptOf.throw]
    · simp [openTxn, Store.get, hi, hk, bind, Except.bind, pure, Except.pure]

theorem openTxn_ok_iff : (∃ t e', e.openTxn k = .ok (t, e')) ↔ k ∉ e.active ∧ e.store.contains k = true := by
  constructor
  · rintro ⟨t, e', ho⟩
    obtain ⟨i, hi, hk, -⟩ := openTxn_eq_ok_iff.1 ho
    exact ⟨hk, Store.contains_of_find? hi⟩
  · rintro ⟨hk, hi⟩
    obtain ⟨i, hi⟩ := Store.exists_find? hi
    exact ⟨_, _, openTxn_eq_ok_iff.2 ⟨i, hi, hk, rfl, rfl⟩⟩

/-- Whatever went on while a transaction was open, when it closes the marks are what they
were before. -/
theorem Keeps.abandon (h : Keeps { e with active := k :: e.active } e') (hk : k ∉ e.active) :
    e.Keeps (e'.abandon k) := by
  refine ⟨?_, h.contains⟩
  have hothers : ∀ j ∈ e.active, decide (j ≠ k) = true := fun j hj => decide_eq_true fun he => hk (he ▸ hj)
  calc (e'.abandon k).active
    _ = (k :: e.active).filter (· ≠ k) := congrArg (List.filter (· ≠ k)) h.active
    _ = e.active := (List.filter_cons_of_neg (by simp)).trans (List.filter_eq_self.2 hothers)

theorem Keeps.commitTxn (h : Keeps { e with active := k :: e.active } e') (hk : k ∉ e.active) (ht : t.key = k)
    (priority : Priority) : e.Keeps (e'.commitTxn t priority) := by
  have hclosed := ht ▸ h.abandon hk
  unfold Engine.commitTxn
  dsimp only
  split
  · exact hclosed.trans (enqueue_keeps _ _ _)
  · exact hclosed

/-- A transaction of one write. -/
theorem write_keeps {f : Transaction → Except Error Transaction}
    (hf : ∀ t, ∃ path v, f t = t.set path v) (hw : e.write k f = .ok e') : e.Keeps e' := by
  obtain ⟨⟨t, opened⟩, ho, hw⟩ := Except.bind_eq_ok.1 hw
  obtain ⟨t', ht, hw⟩ := Except.bind_eq_ok.1 hw
  cases hw
  obtain ⟨i, -, hk, rfl, rfl⟩ := openTxn_eq_ok_iff.1 ho
  obtain ⟨path, v, hset⟩ := hf (.start k i.pending)
  exact Keeps.commitTxn (.refl _) hk (Transaction.Made.start.set path v (hset ▸ ht)).key .normal

/-! ## Scripts -/

/-- Ticks run from inside a script leave the marks they find. -/
def Flushing.Keeps (flush : Flushing) : Prop := ∀ e : Engine, e.Keeps (flush e).2

theorem ofWrite_keeps {f : Transaction → Except Error Transaction} (hf : ∀ t, ∃ path v, f t = t.set path v) :
    e.Keeps (Act.ofWrite e (e.write k f)).2 := by
  unfold Act.ofWrite
  split
  · exact write_keeps hf ‹_›
  · exact .refl e

theorem act_keeps (hf : Flushing.Keeps flush) (target : Key) (payload : Value) (e : Engine) (a : Act) :
    e.Keeps (a.run flush target payload e).2 := by
  cases a with
  | set path v => exact ofWrite_keeps (f := fun t => t.set path v) fun _ => ⟨path, v, rfl⟩
  | setPayload path => exact ofWrite_keeps (f := fun t => t.set path payload) fun _ => ⟨path, payload, rfl⟩
  | addPayload path =>
    simp only [Act.run]
    split
    · exact .refl e
    · exact ofWrite_keeps fun _ => ⟨path, _, rfl⟩
  | flush => exact hf e
  | _ => exact .refl e

theorem follow_keeps (hf : Flushing.Keeps flush) (l : Listener) (payload : Value) (acts : List Act) (e : Engine) :
    e.Keeps (l.follow flush payload acts e) := by
  induction acts generalizing e with
  | nil => exact .refl e
  | cons a rest ih =>
    have hact := act_keeps hf l.target payload e a
    unfold Listener.follow
    split
    all_goals
      rename_i hrun
      rw [hrun] at hact
    · exact hact.trans (ih _)
    · exact hact.trans ((note_keeps _ _).trans (ih _))
    · exact hact.trans (reportPanic_keeps _ _ _ _)

theorem call_keeps (hf : Flushing.Keeps flush) (l : Listener) (state : Value) (e : Engine) :
    e.Keeps (l.call flush state e) := (note_keeps e _).trans (follow_keeps hf l state l.acts _)

/-- How a body ended does not matter. -/
theorem Keeps.close {b : Transaction.Running} (h : Keeps { e with active := k :: e.active } b.engine)
    (hk : k ∉ e.active) (hb : b.txn.key = k) (priority : Priority) : e.Keeps (b.close priority) := by
  unfold Transaction.Running.close
  split
  · exact h.commitTxn hk hb priority
  · exact hb ▸ h.abandon hk

theorem resume_engine (b inner : Transaction.Running) (priority : Priority) :
    (b.resume inner priority).engine = inner.close priority := by
  unfold Transaction.Running.resume
  dsimp only
  split <;> rfl

mutual

theorem edit_keeps (hf : Flushing.Keeps flush) (b : Transaction.Running) (x : Edit) :
    b.engine.Keeps (b.edit flush x).engine := by
  cases x with
  | set path v | trySet path v =>
    unfold Transaction.Running.edit Transaction.Running.write
    cases b.txn.set path v <;> exact .refl b.engine
  | flush =>
    unfold Transaction.Running.edit
    exact hf b.engine
  | nested key priority body =>
    unfold Transaction.Running.edit
    split
    · exact .refl b.engine
    · rename_i t opened ho
      obtain ⟨i, -, hk, rfl, rfl⟩ := openTxn_eq_ok_iff.1 ho
      have hbody := edits_keeps hf
        ⟨{ b.engine with active := key :: b.engine.active }, .start key i.pending, b.replies, .done⟩ body
      rw [resume_engine]
      exact Keeps.close hbody hk (Transaction.Running.edits_made flush body .start).key priority
  | _ =>
    unfold Transaction.Running.edit
    exact .refl b.engine

theorem edits_keeps (hf : Flushing.Keeps flush) (b : Transaction.Running) (xs : List Edit) :
    b.engine.Keeps (b.edits flush xs).engine := by
  cases xs with
  | nil =>
    unfold Transaction.Running.edits
    exact .refl b.engine
  | cons x rest =>
    have hedit := edit_keeps hf b x
    unfold Transaction.Running.edits
    dsimp only
    split
    · exact hedit.trans (edits_keeps hf _ rest)
    · exact hedit

end

theorem transact_keeps (hf : Flushing.Keeps flush) (e : Engine) (k : Key) (priority : Priority) (body : List Edit) :
    e.Keeps (e.transact flush k priority body).2.2 := by
  unfold Engine.transact
  split
  · exact .refl e
  · rename_i t opened ho
    obtain ⟨i, -, hk, rfl, rfl⟩ := openTxn_eq_ok_iff.1 ho
    have hbody := edits_keeps hf ⟨{ e with active := k :: e.active }, .start k i.pending, [], .done⟩ body
    exact Keeps.close hbody hk (Transaction.Running.edits_made flush body .start).key priority

/-- The induction is on how deep the flushes of listeners may nest. -/
theorem flushNested_keeps (depth : Nat) (e : Engine) : e.Keeps (flushNested depth e).2 := by
  induction depth generalizing e with
  | zero => exact e.tick_keeps
  | succ depth ih =>
    have htold (e : Engine) (r : TickReport) : e.Keeps (e.tellTelemetry r) := by
      unfold tellTelemetry
      split
      · exact e.note_keeps _
      · exact .refl e
    have hcalls (e : Engine) (calls : List (Listener × Value)) :
        e.Keeps (calls.foldl (fun e c => c.1.call (flushNested depth) c.2 e) e) :=
      Keeps.foldl (fun e c => call_keeps ih c.1 c.2 e) calls e
    unfold flushNested
    exact (e.tick_keeps.trans (hcalls _ _)).trans (htold _ _)

theorem flush_keeps (e : Engine) : e.Keeps e.flush.2 := flushNested_keeps maxNesting e

theorem flushUntilIdle_keeps (n : Nat) (e : Engine) : e.Keeps (flushUntilIdle n e).2 := by
  induction n generalizing e with
  | zero => exact .refl e
  | succ n ih =>
    unfold flushUntilIdle
    dsimp only
    split
    · exact e.flush_keeps
    · exact e.flush_keeps.trans (ih _)

theorem laneFlushed_keeps (e : Engine) (k : Key) (f : Lane.Flush) : e.Keeps (e.laneFlushed k f) := by
  unfold laneFlushed
  split
  · exact (e.acceptDeferred_keeps k f).trans (flush_keeps _)
  · exact .refl e

end Engine

/-! ## Hosts -/

namespace Host

variable {h h' h'' : Host} {w : Watcher}

def Keeps (h h' : Host) : Prop := h.engine.Keeps h'.engine

theorem Keeps.refl (h : Host) : h.Keeps h := Engine.Keeps.refl h.engine

theorem Keeps.trans (hk : h.Keeps h') (hk' : h'.Keeps h'') : h.Keeps h'' := Engine.Keeps.trans hk hk'

theorem Keeps.of_eq (he : h'.engine = h.engine) : h.Keeps h' :=
  Engine.Keeps.of_eq (congrArg Engine.active he) (congrArg Engine.store he)

theorem Keeps.foldl {α : Type} {f : Host → α → Host} (hf : ∀ (h : Host) a, h.Keeps (f h a)) (l : List α)
    (h : Host) : h.Keeps (l.foldl f h) :=
  List.foldlRecOn l f (motive := h.Keeps) (.refl h) fun _ hk a _ => hk.trans (hf _ a)

theorem wake_keeps (h : Host) (t : Turn) : h.Keeps (h.wake t) := by
  unfold wake
  split <;> exact .of_eq rfl

theorem wakeIf_keeps (h : Host) (c : Bool) (t : Turn) : h.Keeps (h.wakeIf c t) := by
  unfold wakeIf
  split
  · exact h.wake_keeps t
  · exact .refl h

theorem put_keeps (h : Host) (w : Watcher) : h.Keeps (h.put w) := .of_eq rfl

theorem bury_keeps (h : Host) : h.Keeps h.bury := by
  unfold bury
  split
  · exact .refl h
  · have hcut : h.Keeps { h with watchers := h.watchers.map fun w => { w with registered := false } } := .of_eq rfl
    exact hcut.trans (Keeps.foldl (fun g _ => g.wakeIf_keeps _ _) _ _)

/-! ### Turns and the clock -/

theorem turnWatcher_keeps (h : Host) (w : Watcher) : h.Keeps (h.turnWatcher w) := by
  have hemitted : h.engine.Keeps ((w.turn h.alive).events.foldl Engine.emit h.engine) :=
    Engine.Keeps.foldl Engine.emit_keeps _ _
  have htold : h.Keeps { h.put (w.turn h.alive).watcher with
      engine := (w.turn h.alive).events.foldl Engine.emit h.engine } := hemitted
  exact (htold.trans (Keeps.foldl (fun g _ => g.wake_keeps _) _ _)).trans (bury_keeps _)

theorem go_keeps (w : Watcher) (payload : Value) (acts : List Act) (e : Engine) :
    e.Keeps (Handler.go w payload acts e).2 := by
  induction acts generalizing e with
  | nil => exact e.note_keeps _
  | cons a rest ih =>
    have hact := Engine.act_keeps Engine.flush_keeps w.target payload e a
    cases a with
    | sleep ms =>
      unfold Handler.go
      split
      · exact ih e
      · exact .refl e
    | _ =>
      unfold Handler.go
      split
      all_goals
        rename_i hrun
        rw [hrun] at hact
      · exact hact.trans (ih _)
      all_goals exact hact

theorem handlerTurn_keeps (k : Handler) (w : Watcher) (e : Engine) : e.Keeps (k.turn w e).2 := by
  have hstarted : e.Keeps (if k.begun then e else e.note (.started w.label k.payload)) := by
    split
    · exact .refl e
    · exact e.note_keeps _
  have hgone := hstarted.trans (go_keeps w k.payload k.rest _)
  unfold Handler.turn
  dsimp only
  split
  all_goals
    rename_i hgo
    rw [hgo] at hgone
    exact hgone

theorem turnHandler_keeps (h : Host) (w : Watcher) (k : Handler) : h.Keeps (h.turnHandler w k) := by
  have hturn := handlerTurn_keeps k w h.engine
  unfold turnHandler
  split
  all_goals
    rename_i hk
    rw [hk] at hturn
  · exact hturn
  · rename_i r e
    have hended : h.Keeps { h.put (w.handlerEnded k.id r) with engine := e } := hturn
    exact (hended.trans (bury_keeps _)).trans (wakeIf_keeps _ _ _)

theorem take_keeps (h : Host) (t : Turn) : h.Keeps (h.take t) := by
  cases t with
  | watcher id =>
    unfold take
    dsimp only
    split
    · exact h.turnWatcher_keeps _
    · exact .refl h
  | handler wid id =>
    unfold take
    dsimp only
    split
    · exact .refl h
    · split
      · exact h.turnHandler_keeps _ _
      · exact .refl h

theorem takeTurns_keeps (n : Nat) (h : Host) : h.Keeps (takeTurns n h) := by
  induction n generalizing h with
  | zero => exact .refl h
  | succ n ih =>
    unfold takeTurns
    split
    · exact .refl h
    · rename_i t rest _
      have hline : h.Keeps { h with ready := rest } := .of_eq rfl
      exact (hline.trans (take_keeps _ t)).trans (ih _)

theorem settle_keeps (h : Host) : h.Keeps h.settle := takeTurns_keeps _ h

theorem setClock_keeps (h : Host) (t : Time) : h.Keeps (h.setClock t) := Engine.Keeps.of_eq rfl rfl

theorem flushLane_keeps (e : Engine) (k : Key) : e.Keeps (flushLane e k) := by
  unfold flushLane
  split
  · exact .refl e
  · split
    · exact .refl e
    · split
      · dsimp only
        split
        · exact (e.put_keeps _).trans (Engine.laneFlushed_keeps _ k _)
        · exact e.put_keeps _
      · exact .refl e

theorem wakeHandler_keeps (h : Host) (wid : Nat) (k : Handler) : h.Keeps (h.wakeHandler wid k) := by
  unfold wakeHandler
  split
  · split
    · exact (h.put_keeps _).trans (wake_keeps _ _)
    · exact .refl h
  · exact .refl h

theorem fireDue_keeps (h : Host) : h.Keeps h.fireDue := by
  unfold fireDue
  dsimp only
  generalize (if h.alive then h.engine.store.instances.map (·.key) else []) = keys
  have hflushed : h.Keeps { h with engine := keys.foldl flushLane h.engine } := Engine.Keeps.foldl flushLane_keeps _ _
  have hwoken (g : Host) (w : Watcher) : g.Keeps (w.running.foldl (fun g k => g.wakeHandler w.id k) g) :=
    Keeps.foldl (fun g k => g.wakeHandler_keeps w.id k) w.running g
  exact hflushed.trans (Keeps.foldl hwoken _ _)

theorem advanceWithin_keeps (target : Time) (n : Nat) (h : Host) : h.Keeps (advanceWithin target n h) := by
  induction n generalizing h with
  | zero => exact h.setClock_keeps target
  | succ n ih =>
    unfold advanceWithin
    dsimp only
    split
    · exact h.settle_keeps.trans (setClock_keeps _ target)
    · split
      · exact ((h.settle_keeps.trans (setClock_keeps _ _)).trans (fireDue_keeps _)).trans (ih _)
      · exact h.settle_keeps.trans (setClock_keeps _ target)

theorem awaitWithin_keeps (p : Host → Bool) (n : Nat) (h : Host) : h.Keeps (awaitWithin p n h) := by
  induction n generalizing h with
  | zero => exact .refl h
  | succ n ih =>
    unfold awaitWithin
    dsimp only
    split
    · exact h.settle_keeps
    · split
      · exact h.settle_keeps
      · exact ((h.settle_keeps.trans (setClock_keeps _ _)).trans (fireDue_keeps _)).trans (ih _)

theorem await_keeps (h : Host) (p : Host → Bool) : h.Keeps (h.await p) := by
  unfold await
  split
  · exact .refl h
  · exact awaitWithin_keeps p _ h

/-! ### Watchers -/

theorem warnPressure_keeps (h : Host) (w : Watcher) : h.Keeps (h.warnPressure w) := by
  unfold warnPressure
  split
  · exact .refl h
  · exact Engine.Keeps.of_eq rfl rfl

theorem deliver_keeps (h : Host) (w : Watcher) (payload : Value) : h.Keeps (h.deliver w payload).2 := by
  unfold deliver
  split
  · exact .refl h
  · exact (h.put_keeps _).trans (wakeIf_keeps _ _ _)

theorem trySend_keeps (h : Host) (id : Nat) (payload : Value) : h.Keeps (h.trySend id payload).2 := by
  unfold trySend
  split
  · exact .refl h
  · exact (h.warnPressure_keeps _).trans (deliver_keeps _ _ _)

theorem send_keeps (h : Host) (id : Nat) (payload : Value) : h.Keeps (h.send id payload).2 := by
  unfold send
  split
  · exact .refl h
  · have hawaited := (h.warnPressure_keeps ‹_›).trans (await_keeps _ (accepts id))
    dsimp only
    split
    · exact hawaited
    · exact hawaited.trans (deliver_keeps _ _ _)

theorem sendAll_keeps {one : Host → Nat → Option Error × Host} (hone : ∀ (h : Host) id, h.Keeps (one h id).2)
    (ids : List Nat) (h : Host) : h.Keeps (sendAll one ids h).2 := by
  induction ids generalizing h with
  | nil => exact .refl h
  | cons id ids ih =>
    have hfirst := hone h id
    unfold sendAll
    split
    all_goals
      rename_i hsent
      rw [hsent] at hfirst
    · exact hfirst.trans (ih _)
    · exact hfirst

theorem dispatchBy_keeps {send : Host → Nat → Value → Option Error × Host}
    (hsend : ∀ (h : Host) id v, h.Keeps (send h id v).2) (h : Host) (key : Key) (action : String) (payload : Value) :
    h.Keeps (dispatchBy send h key action payload).2 := by
  have hsent := sendAll_keeps (fun h id => hsend h id payload) (h.reached key action) h
  unfold dispatchBy
  split
  · exact .refl h
  · dsimp only
    split
    all_goals
      rename_i he
      rw [he] at hsent
      exact hsent

theorem watch_keeps {key target : Key} {action label : String} {acts : List Act} {id : Nat}
    (hw : h.watch key action label target acts = .ok (id, h')) : h.Keeps h' := by
  obtain ⟨i, -, hw⟩ := Except.bind_eq_ok.1 hw
  split at hw
  · cases hw
  · cases hw
    have hadded (watchers : List Watcher) : h.Keeps { h with watchers := watchers } := .of_eq rfl
    exact (hadded _).trans (wake_keeps _ _)

theorem detach_keeps (h : Host) (id : Nat) : h.Keeps (h.detach id) := by
  unfold detach
  split
  · exact .refl h
  · exact (h.put_keeps _).trans (wakeIf_keeps _ _ _)

theorem cancel_keeps (h : Host) (id : Nat) : h.Keeps (h.cancel id) := by
  unfold cancel
  split
  · exact .refl h
  · exact (h.put_keeps _).trans (wakeIf_keeps _ _ _)

theorem join_keeps (h : Host) (id : Nat) : h.Keeps (h.join id).2 := (h.detach_keeps id).trans (await_keeps _ _)

/-! ### Calls -/

theorem engineDid_keeps {α : Type} (h : Host) (f : α → Answer) {x : Except Error (α × Engine)}
    (hx : ∀ a e, x = .ok (a, e) → h.engine.Keeps e) : h.Keeps (h.engineDid f x).2 := by
  cases x with
  | error err => exact .refl h
  | ok p => exact hx p.1 p.2 rfl

theorem engineDid_map_keeps (h : Host) (f : Unit → Answer) {x : Except Error Engine}
    (hx : ∀ e, x = .ok e → h.engine.Keeps e) : h.Keeps (h.engineDid f (x.map ((), ·))).2 := by
  cases x with
  | error err => exact .refl h
  | ok e => exact hx e rfl

/-- Whatever is asked of a host, the transactions that are open stay open, and no other
stays open after it. -/
theorem perform_keeps (h : Host) (c : Call) : h.Keeps (h.perform c).2 := by
  cases c with
  | register d id initial => exact h.engineDid_keeps _ fun _ _ he => Engine.register_keeps he
  | override key provider => exact h.engineDid_map_keeps _ fun _ he => Engine.override_keeps he
  | link source sourcePath target targetPath => exact h.engineDid_keeps _ fun _ _ he => Engine.link_keeps he
  | set key path v =>
    exact h.engineDid_map_keeps _ fun _ he =>
      Engine.write_keeps (f := fun t => t.set path v) (fun _ => ⟨path, v, rfl⟩) he
  | transact key priority body => exact Engine.transact_keeps Engine.flush_keeps h.engine key priority body
  | read => exact .refl h
  | flush => exact h.engine.flush_keeps
  | flushUntilIdle n => exact Engine.flushUntilIdle_keeps n h.engine
  | subscribe key label target acts => exact h.engineDid_keeps _ fun _ _ he => Engine.subscribe_keeps he
  | unsubscribe | telemetry => exact Engine.Keeps.of_eq rfl rfl
  | watch key action label target acts =>
    unfold perform
    dsimp only
    split
    · exact watch_keeps ‹_›
    · exact .refl h
  | dispatch key action payload => exact dispatchBy_keeps send_keeps h key action payload
  | tryDispatch key action payload => exact dispatchBy_keeps trySend_keeps h key action payload
  | send id payload => exact h.send_keeps id payload
  | trySend id payload => exact h.trySend_keeps id payload
  | cancel id => exact h.cancel_keeps id
  | detach id => exact h.detach_keeps id
  | join id => exact h.join_keeps id
  | shutdown id => exact (h.cancel_keeps id).trans (join_keeps _ id)
  | advance ms => exact advanceWithin_keeps _ _ h
  | release =>
    have hleft : h.Keeps { h with held := false } := .of_eq rfl
    exact hleft.trans (bury_keeps _)

end Host

end Settle
