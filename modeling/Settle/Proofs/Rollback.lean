/-
  Settle.Proofs.Rollback — what is left of a transaction that fails (see
  `Settle.Transaction` and `Settle.Engine`).

  A body edits its draft, calls whatever the owner of a host can call, and runs other
  transactions whose bodies do the same (`Deed`). Its calls do not see the draft, and its
  edits do not touch the host. So a body that fails, panics or records nothing leaves what
  its calls alone leave (`Host.transaction_leaves`); however it ends, the marks are what they
  were before.

  The scripts of `Engine.transact` are such bodies (`Host.perform_transact`).
-/

import Settle.Proofs.Marks

namespace Settle

/-! ## Records -/

theorem DirtySet.isEmpty_insert (p : Path) (d : DirtySet) : (d.insert p).isEmpty = false := by
  cases d with
  | everything r => rfl
  | roots ps =>
    unfold insert insertRoot
    dsimp only
    split
    · rename_i hany
      cases ps with
      | nil => cases hany
      | cons => rfl
    · simp [isEmpty]

theorem DirtySet.isEmpty_markAll (r : DirtyReason) (d : DirtySet) : (d.markAll r).isEmpty = false := by
  cases d <;> rfl

namespace Transaction

variable {t : Transaction} {k : Key} {base : Value}

/-- What was done to a draft was recorded, or nothing was done. -/
theorem Made.recorded (h : t.Made k base) : t = .start k base ∨ t.dirty.isEmpty = false ∨ t.replaced = true := by
  induction h with
  | start => exact .inl rfl
  | set path v _ hset ih =>
    rcases set_cases hset with rfl | ⟨l, p, -, -, -, -, hdirty, -⟩
    · exact ih
    · exact .inr (.inl (hdirty ▸ DirtySet.isEmpty_insert p _))
  | update => exact .inr (.inr rfl)
  | @record t path reason =>
    refine .inr (.inl ?_)
    unfold Transaction.record
    dsimp only
    split
    · exact DirtySet.isEmpty_markAll _ _
    · split
      · exact DirtySet.isEmpty_markAll _ _
      · exact DirtySet.isEmpty_insert _ _
  | markAll reason => exact .inr (.inl (DirtySet.isEmpty_markAll _ _))

/-- A body that makes no change leaves its transaction as it was opened: every write finds
its value there, or fails, and nothing is replaced or told. -/
theorem Made.commit?_eq_none_iff (h : t.Made k base) (priority : Priority) :
    t.commit? priority = none ↔ t = .start k base := by
  refine ⟨fun hc => h.recorded.resolve_right fun hrecorded => ?_, fun ht => ht ▸ rfl⟩
  unfold commit? at hc
  dsimp only at hc
  generalize hd : (if t.untracked then t.dirty.markAll .customMutation else t.dirty) = d at hc
  split at hc
  · rename_i hempty
    obtain ⟨hdirty, hreplaced⟩ := Bool.and_eq_true_iff.1 hempty
    rw [← hd] at hdirty
    split at hdirty
    · cases hdirty.symm.trans (DirtySet.isEmpty_markAll _ _)
    · rcases hrecorded with hfilled | hupdated
      · cases hdirty.symm.trans hfilled
      · simp [hupdated] at hreplaced
  · cases hc

end Transaction

/-! ## Bodies -/

/-- One step of a body. How a body goes on may depend on all that it was told; what it did is
a list of these, with an ending. -/
inductive Deed where
  /-- Write. A failure need not end the body. -/
  | set (path : String) (v : Value)
  | update (f : Value → Value)
  | record (path : String) (reason : PatchReason)
  | markAll (reason : DirtyReason)
  | call (c : Call)
  /-- Run another transaction, whose body does this and ends so. -/
  | transact (key : Key) (priority : Priority) (body : List Deed) (how : Ending)

namespace Deed

/-- It is asked of the host, and not done to the draft. -/
def isCall : Deed → Bool
  | .call _ | .transact .. => true
  | _ => false

end Deed

namespace Host

/-- Close a transaction as its ending says. -/
def close (h : Host) (t : Transaction) (priority : Priority) (how : Ending) : Host :=
  { h with engine := Transaction.Running.close ⟨h.engine, t, [], how⟩ priority }

mutual
/-- Take one step of a body. -/
def deed (b : Host × Transaction) : Deed → Host × Transaction
  | .set path v => (b.1, (b.2.set path v).toOption.getD b.2)
  | .update f => (b.1, b.2.update f)
  | .record path reason => (b.1, b.2.record path reason)
  | .markAll reason => (b.1, b.2.markAll reason)
  | .call c => ((b.1.perform c).2, b.2)
  | .transact key priority body how =>
    match b.1.engine.openTxn key with
    | .error _ => b
    | .ok (t, e) =>
      let inner := deeds ({ b.1 with engine := e }, t) body
      (inner.1.close inner.2 priority how, b.2)
def deeds (b : Host × Transaction) : List Deed → Host × Transaction
  | [] => b
  | d :: rest => deeds (deed b d) rest
end

/-- Run a transaction whose body does this and ends so; one that does not open runs no body. -/
def transaction (h : Host) (key : Key) (priority : Priority) (body : List Deed) (how : Ending) : Host :=
  match h.engine.openTxn key with
  | .error _ => h
  | .ok (t, e) =>
    let b := deeds ({ h with engine := e }, t) body
    b.1.close b.2 priority how

variable {h : Host} {t : Transaction} {b : Host × Transaction} {key : Key} {priority : Priority} {how : Ending}

theorem deed_transact (b : Host × Transaction) (key : Key) (priority : Priority) (body : List Deed) (how : Ending) :
    deed b (.transact key priority body how) = (b.1.transaction key priority body how, b.2) := by
  unfold deed transaction
  split <;> rfl

theorem deeds_append (b : Host × Transaction) (xs ys : List Deed) : deeds b (xs ++ ys) = deeds (deeds b xs) ys := by
  induction xs generalizing b with
  | nil => rfl
  | cons d rest ih => exact ih (deed b d)

theorem deed_made {k : Key} {base : Value} (hb : b.2.Made k base) (d : Deed) : (deed b d).2.Made k base := by
  cases d with
  | set path v =>
    unfold deed
    cases hset : b.2.set path v with
    | error err => exact hb
    | ok t => exact hb.set path v hset
  | update f => exact hb.update f
  | record path reason => exact hb.record path reason
  | markAll reason => exact hb.markAll reason
  | call c => exact hb
  | transact key priority body how =>
    rw [deed_transact]
    exact hb

theorem deeds_made {k : Key} {base : Value} (hb : b.2.Made k base) (ds : List Deed) :
    (deeds b ds).2.Made k base := by
  induction ds generalizing b with
  | nil => exact hb
  | cons d rest ih => exact ih (deed_made hb d)

/-! ## What calls leave -/

/-- The host does not see the draft. -/
theorem deed_congr {b' : Host × Transaction} (hb : b'.1 = b.1) (d : Deed) : (deed b' d).1 = (deed b d).1 := by
  cases d with
  | call c => exact congrArg (fun h => (perform h c).2) hb
  | transact key priority body how =>
    rw [deed_transact, deed_transact]
    exact congrArg (transaction · key priority body how) hb
  | _ => exact hb

theorem deed_edit {d : Deed} (hd : d.isCall = false) (b : Host × Transaction) : (deed b d).1 = b.1 := by
  cases d with
  | call | transact => cases hd
  | _ => rfl

/-- What a body leaves of the host is what its calls alone leave. -/
theorem deeds_calls (ds : List Deed) {b b' : Host × Transaction} (hb : b'.1 = b.1) :
    (deeds b' (ds.filter Deed.isCall)).1 = (deeds b ds).1 := by
  induction ds generalizing b b' with
  | nil => exact hb
  | cons d rest ih =>
    cases hd : d.isCall with
    | true =>
      rw [List.filter_cons_of_pos hd]
      exact ih (deed_congr hb d)
    | false =>
      rw [List.filter_cons_of_neg (by simp [hd])]
      exact ih (hb.trans (deed_edit hd b).symm)

/-! ## The marks -/

theorem close_keeps {h' : Host} {t : Transaction}
    (hk : Engine.Keeps { h.engine with active := key :: h.engine.active } h'.engine)
    (hactive : key ∉ h.engine.active) (ht : t.key = key) (priority : Priority) (how : Ending) :
    h.Keeps (h'.close t priority how) :=
  Engine.Keeps.close (b := ⟨h'.engine, t, [], how⟩) hk hactive ht priority

mutual

theorem deed_keeps (b : Host × Transaction) (d : Deed) : b.1.Keeps (deed b d).1 := by
  cases d with
  | call c => exact b.1.perform_keeps c
  | transact key priority body how =>
    unfold deed
    split
    · exact .refl b.1
    · rename_i t e ho
      obtain ⟨i, -, hk, rfl, rfl⟩ := Engine.openTxn_eq_ok_iff.1 ho
      have hbody := deeds_keeps
        ({ b.1 with engine := { b.1.engine with active := key :: b.1.engine.active } }, .start key i.pending) body
      exact close_keeps hbody hk (deeds_made .start body).key priority how
  | _ => exact .refl b.1

theorem deeds_keeps (b : Host × Transaction) (ds : List Deed) : b.1.Keeps (deeds b ds).1 := by
  cases ds with
  | nil => exact .refl b.1
  | cons d rest => exact (deed_keeps b d).trans (deeds_keeps (deed b d) rest)

end

theorem transaction_keeps (h : Host) (key : Key) (priority : Priority) (body : List Deed) (how : Ending) :
    h.Keeps (h.transaction key priority body how) := by
  have hdeed := deed_keeps (h, .start key .null) (.transact key priority body how)
  rwa [deed_transact] at hdeed

/-- A transaction with nothing to commit leaves of itself nothing but the mark it takes
back. -/
theorem close_eq_abandon (h : Host) (t : Transaction)
    (hnone : how ≠ .done ∨ t.commit? priority = none) :
    h.close t priority how = { h with engine := h.engine.abandon t.key } := by
  unfold close Transaction.Running.close
  cases how with
  | done =>
    have hcommit : t.commit? priority = none := hnone.resolve_left fun hne => hne rfl
    dsimp only
    rw [Engine.commitTxn, hcommit]
  | failed | panicked => rfl

/-! ## Scripts -/

mutual

/-- What a script does is a body. -/
theorem edit_deeds (h : Host) (b : Transaction.Running) (x : Edit) :
    ∃ ds, deeds ({ h with engine := b.engine }, b.txn) ds =
      ({ h with engine := (b.edit Engine.flush x).engine }, (b.edit Engine.flush x).txn) := by
  cases x with
  | set path v | trySet path v =>
    refine ⟨[.set path v], ?_⟩
    unfold Transaction.Running.edit Transaction.Running.write
    simp only [deeds, deed]
    cases b.txn.set path v <;> rfl
  | update writes => exact ⟨[.update fun s => writes.foldl (fun s w => (State.writeAt s w.1 w.2).state) s], rfl⟩
  | replace v => exact ⟨[.update fun _ => v], rfl⟩
  | remove field => exact ⟨[.update (Transaction.Running.without field)], rfl⟩
  | record path reason => exact ⟨[.record path reason], rfl⟩
  | markAll reason => exact ⟨[.markAll reason], rfl⟩
  | flush => exact ⟨[.call .flush], rfl⟩
  | nested key priority body =>
    unfold Transaction.Running.edit
    split
    · exact ⟨[], rfl⟩
    · rename_i t e ho
      obtain ⟨ds, hds⟩ := edits_deeds h ⟨e, t, b.replies, .done⟩ body
      generalize Transaction.Running.edits Engine.flush ⟨e, t, b.replies, .done⟩ body = inner at hds
      refine ⟨[.transact key priority ds inner.ending], ?_⟩
      rw [Engine.resume_engine, Transaction.Running.resume_txn]
      simp only [deeds, deed, ho]
      rw [hds]
      rfl
  | _ => exact ⟨[], rfl⟩

theorem edits_deeds (h : Host) (b : Transaction.Running) (xs : List Edit) :
    ∃ ds, deeds ({ h with engine := b.engine }, b.txn) ds =
      ({ h with engine := (b.edits Engine.flush xs).engine }, (b.edits Engine.flush xs).txn) := by
  cases xs with
  | nil => exact ⟨[], rfl⟩
  | cons x rest =>
    obtain ⟨first, hfirst⟩ := edit_deeds h b x
    unfold Transaction.Running.edits
    dsimp only
    split
    · obtain ⟨others, hothers⟩ := edits_deeds h (b.edit Engine.flush x) rest
      exact ⟨first ++ others, by rw [deeds_append, hfirst, hothers]⟩
    · exact ⟨first, hfirst⟩

end

/-- A transaction of a script is one whose body does what the script did, and ended so. -/
theorem perform_transact (h : Host) (key : Key) (priority : Priority) (script : List Edit) :
    ∃ ds how replies, h.perform (.transact key priority script) =
      (.ended how replies, h.transaction key priority ds how) := by
  cases ho : h.engine.openTxn key with
  | error err =>
    refine ⟨[], .failed err, [], ?_⟩
    simp only [perform, Engine.transact, transaction, ho]
  | ok p =>
    obtain ⟨t, e⟩ := p
    obtain ⟨ds, hds⟩ := edits_deeds h ⟨e, t, [], .done⟩ script
    generalize hrun : Transaction.Running.edits Engine.flush ⟨e, t, [], .done⟩ script = b at hds
    refine ⟨ds, b.ending, b.replies, ?_⟩
    simp only [perform, Engine.transact, transaction, ho]
    rw [hds, hrun]
    rfl

/-! ## What transactions leave -/

/-- A transaction on the instance is open, and no other opens. -/
def Refuses (h : Host) (key : Key) : Prop := h.engine.openTxn key = .error (.nestedTransaction key)

theorem Keeps.refuses {h' : Host} (hk : h.Keeps h') (hr : h.Refuses key) : h'.Refuses key := by
  obtain ⟨hactive, hi⟩ := Engine.openTxn_nested_iff.1 hr
  exact Engine.openTxn_nested_iff.2 ⟨hk.active ▸ hactive, hk.contains key hi⟩

/-- Asked for another transaction, it fails, and nothing happens. -/
theorem Refuses.transaction (hr : h.Refuses key) (priority : Priority) (body : List Deed) (how : Ending) :
    h.transaction key priority body how = h := by
  unfold Host.transaction
  rw [show h.engine.openTxn key = _ from hr]

theorem Refuses.set (hr : h.Refuses key) (path : String) (v : Value) :
    h.perform (.set key path v) = (.failed (.nestedTransaction key), h) := by
  simp only [perform, Engine.set, Engine.write]
  rw [show h.engine.openTxn key = _ from hr]
  rfl

theorem opened_refuses {t : Transaction} {e : Engine} (ho : h.engine.openTxn key = .ok (t, e)) :
    Refuses { h with engine := e } key := by
  obtain ⟨i, hi, -, -, rfl⟩ := Engine.openTxn_eq_ok_iff.1 ho
  exact Engine.openTxn_nested_iff.2 ⟨List.mem_cons_self, Store.contains_of_find? hi⟩

/-- A transaction with nothing to commit leaves what its calls alone leave, with the marks
that there were before. -/
theorem transaction_eq_calls {t : Transaction} {e : Engine} (ho : h.engine.openTxn key = .ok (t, e)) {body : List Deed}
    (hnone : how ≠ .done ∨ (deeds ({ h with engine := e }, t) body).2.commit? priority = none) :
    let alone := (deeds ({ h with engine := e }, t) (body.filter Deed.isCall)).1
    h.transaction key priority body how = { alone with engine := { alone.engine with active := h.engine.active } } := by
  obtain ⟨i, -, hk, ht, he⟩ := Engine.openTxn_eq_ok_iff.1 ho
  have hmade : (deeds ({ h with engine := e }, t) body).2.Made key i.pending := deeds_made (ht ▸ .start) body
  have hkeeps : Engine.Keeps { h.engine with active := key :: h.engine.active }
      (deeds ({ h with engine := e }, t) body).1.engine := by
    rw [← he]
    exact deeds_keeps ({ h with engine := e }, t) body
  have hmarks := (hkeeps.abandon hk).active
  dsimp only
  rw [deeds_calls body rfl, transaction, ho]
  dsimp only
  rw [close_eq_abandon _ _ hnone, hmade.key, ← hmarks]
  rfl

/-- A write that fails leaves the body where it is. -/
theorem deed_set_failed {path : String} {v : Value} {err : Error} (herr : b.2.set path v = .error err) :
    deed b (.set path v) = b := by
  unfold deed
  rw [herr]
  rfl

theorem edit_set_failed {b : Transaction.Running} {path : String} {v : Value} {err : Error}
    (herr : b.txn.set path v = .error err) :
    b.edit Engine.flush (.set path v) = { b with ending := .failed err } ∧
      b.edit Engine.flush (.trySet path v) = b.reply (.went (some err)) := by
  unfold Transaction.Running.edit Transaction.Running.write
  rw [herr]
  exact ⟨rfl, rfl⟩

/-- What a transaction leaves, whatever its body does and however it ends.
- One that does not open leaves the host as it is.
- One that fails, panics or made no change leaves what its calls alone leave, made in a
  transaction of their own; without calls, the host as it was. It made no change exactly if
  nothing was recorded: every write failed or found its value there, and nothing was
  replaced, told or marked.
- Once it has closed, in whatever way, the open transactions are those from before, and the
  next one on the instance opens.
- While it is open another one on the instance is refused, whoever asks, and nothing happens:
  so after any steps of any body, and in the bodies of other transactions.
- A write that fails leaves all that was recorded, in a body and in a script.

Scripts are such bodies. -/
theorem transaction_leaves (h : Host) (key : Key) (priority : Priority) (body : List Deed) (how : Ending) :
    (∀ err, h.engine.openTxn key = .error err → h.transaction key priority body how = h) ∧
    (∀ t e, h.engine.openTxn key = .ok (t, e) →
      let opened : Host × Transaction := ({ h with engine := e }, t)
      let alone : Host := (deeds opened (body.filter Deed.isCall)).1
      let left : Host := h.transaction key priority body how
      ((deeds opened body).2.commit? priority = none ↔ (deeds opened body).2 = t) ∧
      (how ≠ .done ∨ (deeds opened body).2 = t →
        left = { alone with engine := { alone.engine with active := h.engine.active } } ∧
        ((∀ d ∈ body, d.isCall = false) → left = h)) ∧
      left.engine.active = h.engine.active ∧ (∃ t' e', left.engine.openTxn key = .ok (t', e')) ∧
      Refuses opened.1 key) ∧
    (∀ (b : Host × Transaction) (ds : List Deed), b.1.Refuses key →
      (deeds b ds).1.Refuses key ∧
      (∀ other t e, b.1.engine.openTxn other = .ok (t, e) → Refuses { b.1 with engine := e } key) ∧
      deed b (.transact key priority body how) = b ∧
      ∀ path v, b.1.perform (.set key path v) = (.failed (.nestedTransaction key), b.1)) ∧
    (∀ (b : Host × Transaction) (path : String) (v : Value) (err : Error), b.2.set path v = .error err →
      deed b (.set path v) = b) ∧
    (∀ (b : Transaction.Running) (path : String) (v : Value) (err : Error), b.txn.set path v = .error err →
      b.edit Engine.flush (.set path v) = { b with ending := .failed err } ∧
      b.edit Engine.flush (.trySet path v) = b.reply (.went (some err))) ∧
    ∀ script : List Edit, ∃ ds how replies,
      h.perform (.transact key priority script) = (.ended how replies, h.transaction key priority ds how) := by
  refine ⟨fun err herr => ?_, fun t e ho => ?_, fun b ds hb => ⟨?_, fun other t e ho => ?_, ?_, hb.set⟩,
    fun _ _ _ _ => deed_set_failed, fun _ _ _ _ => edit_set_failed, h.perform_transact key priority⟩
  · rw [transaction, herr]
  · obtain ⟨i, hi, hk, ht, he⟩ := Engine.openTxn_eq_ok_iff.1 ho
    have hmade : (deeds ({ h with engine := e }, t) body).2.Made key i.pending := deeds_made (ht ▸ .start) body
    have hunchanged : (deeds ({ h with engine := e }, t) body).2.commit? priority = none ↔
        (deeds ({ h with engine := e }, t) body).2 = t :=
      (hmade.commit?_eq_none_iff priority).trans (Eq.congr_right ht.symm)
    have hkeeps := h.transaction_keeps key priority body how
    refine ⟨hunchanged, fun hnone => ?_, hkeeps.active, ?_, opened_refuses ho⟩
    · have hleft := transaction_eq_calls ho (hnone.imp_right hunchanged.2)
      refine ⟨hleft, fun hquiet => hleft.trans ?_⟩
      rw [List.filter_eq_nil_iff.2 fun d hd => by simp [hquiet d hd], he]
      rfl
    · exact Engine.openTxn_ok_iff.2 ⟨hkeeps.active ▸ hk, hkeeps.contains key (Store.contains_of_find? hi)⟩
  · exact (deeds_keeps b ds).refuses hb
  · obtain ⟨hactive, hi⟩ := Engine.openTxn_nested_iff.1 hb
    obtain ⟨i, -, -, -, rfl⟩ := Engine.openTxn_eq_ok_iff.1 ho
    exact Engine.openTxn_nested_iff.2 ⟨List.mem_cons_of_mem other hactive, hi⟩
  · rw [deed_transact, hb.transaction]

end Host

namespace Relay

/-- A body that writes, runs a tick and writes where nothing can be written. -/
def spilling : List Deed := [.set "x" (.int 9), .call .flush, .set "" (.int 1)]

/-- The relay as its owner has it, before the tick. -/
def kept : Host := .ofEngine unticked

/-- A transaction that panics after it. -/
def spilt : Host := kept.transaction one .normal spilling (.panicked "spilt")

/-- The tick is left, as if it had been the whole body, and the writes are not. -/
theorem spilt_leaves_the_tick :
    (∃ t e, kept.engine.openTxn one = .ok (t, e) ∧
      let alone := (Host.deeds ({ kept with engine := e }, t) [.call .flush]).1
      spilt = { alone with engine := { alone.engine with active := kept.engine.active } }) ∧
    spilt.engine.active = kept.engine.active ∧ (∃ t e, spilt.engine.openTxn one = .ok (t, e)) ∧
    pendingAt spilt.engine x = some (.int 5) ∧ spilt.engine.store.backlog = (0, 0) := by
  have hopens : (kept.engine.openTxn one).isOk = true := by cbv
  have hpending : pendingAt spilt.engine x = some (.int 5) ∧ spilt.engine.store.backlog = (0, 0) := by cbv
  cases ho : kept.engine.openTxn one with
  | error err =>
    rw [ho] at hopens
    cases hopens
  | ok p =>
    obtain ⟨t, e⟩ := p
    obtain ⟨-, hopened, -⟩ := Host.transaction_leaves kept one .normal spilling (.panicked "spilt")
    obtain ⟨-, hnone, hactive, hagain, -⟩ := hopened t e ho
    exact ⟨⟨t, e, rfl, (hnone (.inl (by decide))).1⟩, hactive, hagain, hpending⟩

end Relay

end Settle
