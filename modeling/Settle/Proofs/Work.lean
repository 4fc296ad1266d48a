/-
  Settle.Proofs.Work — work that changes hands is not lost (see `Settle.Commit` and
  `Settle.Lane`).

  Roots and carried work account for a step (`Graph.Due`), and what accounts for it goes
  on doing so when it is merged with other work (`Due.union`): when commits are merged
  into a unit, when a lane takes a signal in, and when it hands a batch out
  (`Lane.signal_keeps`). A unit writes what its commits would write one after the other
  (`WorkUnit.applyTo_merge?`).
-/

import Settle.Commit
import Settle.Proofs.Executor

namespace Settle

/-! ## Merging -/

theorem Carried.mem_appendNew {a b : List Path} {p : Path} : p ∈ appendNew a b ↔ p ∈ a ∨ p ∈ b := by
  induction b generalizing a with
  | nil => simp [appendNew]
  | cons q b ih =>
    rw [appendNew, List.foldl_cons, ← appendNew, ih, List.mem_cons]
    by_cases hq : a.contains q
    · have hq' : q ∈ a := List.contains_iff_mem.1 hq
      rw [if_pos hq]
      constructor
      · intro hcase
        rcases hcase with h | h
        · exact .inl h
        · exact .inr (.inr h)
      · intro hcase
        rcases hcase with h | rfl | h
        · exact .inl h
        · exact .inl hq'
        · exact .inr h
    · rw [if_neg hq, List.mem_append, List.mem_singleton, or_assoc]

theorem Carried.none_merge? (c : Option Carried) : Carried.merge? none c = c := by
  cases c <;> rfl

namespace Graph

variable {g : Graph} {d d' : DirtySet} {c c' : Option Carried} {i : StepId}

theorem Owes.merge {a b : Carried} (h : g.Owes a i ∨ g.Owes b i) : g.Owes (a.merge b) i := by
  rcases h with (⟨p, hp, hm⟩ | ⟨s, p, hs, hout, hp⟩) | (⟨p, hp, hm⟩ | ⟨s, p, hs, hout, hp⟩)
  · exact .inl ⟨p, Carried.mem_appendNew.2 (.inl hp), hm⟩
  · exact .inr ⟨s, p, hs, hout, Carried.mem_appendNew.2 (.inl hp)⟩
  · exact .inl ⟨p, Carried.mem_appendNew.2 (.inr hp), hm⟩
  · exact .inr ⟨s, p, hs, hout, Carried.mem_appendNew.2 (.inr hp)⟩

theorem Dirtied.mono (hd : ∀ q, d.touches q = true → d'.touches q = true) (h : g.Dirtied d i) : g.Dirtied d' i := by
  obtain ⟨s, k, q, hs, hk, hq, ht⟩ := h
  exact ⟨s, k, q, hs, hk, hq, hd q ht⟩

theorem Dirtied.union_left (h : g.Dirtied d i) (d' : DirtySet) : g.Dirtied (d.union d') i :=
  h.mono fun _ ht => DirtySet.touches_union.2 (.inl ht)

theorem Dirtied.union_right (h : g.Dirtied d' i) (d : DirtySet) : g.Dirtied (d.union d') i :=
  h.mono fun _ ht => DirtySet.touches_union.2 (.inr ht)

theorem not_dirtied_of_isEmpty (he : d.isEmpty = true) : ¬ g.Dirtied d i := by
  intro ⟨s, k, q, _, _, _, ht⟩
  rw [DirtySet.touches_of_isEmpty he] at ht
  cases ht

theorem not_due_of_isEmpty (he : d.isEmpty = true) (hc : c.isNone = true) : ¬ g.Due d c i := by
  intro hcase
  rcases hcase with hd | ⟨work, hw, -⟩
  · exact not_dirtied_of_isEmpty he hd
  · rw [hw] at hc
    cases hc

/-- What moves a step touches an input of it, as a root. -/
theorem Moves.dirtied {p : Path} (h : g.Moves p i) (ht : ∀ q : Path, p.overlaps q = true → d.touches q = true) :
    g.Dirtied d i := by
  obtain ⟨s, k, q, hs, hk, hq, ho⟩ := h
  exact ⟨s, k, q, hs, hk, hq, ht q (Path.overlaps_comm p q ▸ ho)⟩

/-- The paths that were written, put into a set, touch what they move. -/
theorem Moves.dirtied_insert {p : Path} {ps : List Path} (hp : p ∈ ps) (h : g.Moves p i) (d : DirtySet) :
    g.Dirtied (ps.foldl (fun d p => d.insert p) d) i :=
  h.dirtied fun _ ho => DirtySet.touches_foldl_insert.2 (.inr ⟨p, hp, ho⟩)

theorem owes_merge? (h : (∃ w, c = some w ∧ g.Owes w i) ∨ ∃ w, c' = some w ∧ g.Owes w i) :
    ∃ w, Carried.merge? c c' = some w ∧ g.Owes w i := by
  rcases h with ⟨w, rfl, ho⟩ | ⟨w, rfl, ho⟩
  · cases c' with
    | none => exact ⟨w, rfl, ho⟩
    | some w' => exact ⟨w.merge w', rfl, .merge (.inl ho)⟩
  · cases c with
    | none => exact ⟨w, rfl, ho⟩
    | some w' => exact ⟨w'.merge w, rfl, .merge (.inr ho)⟩

/-- Merged work accounts for what either part did. -/
theorem Due.union (h : g.Due d c i ∨ g.Due d' c' i) : g.Due (d.union d') (Carried.merge? c c') i := by
  rcases h with (h | h) | (h | h)
  · exact .inl (h.union_left d')
  · exact .inr (owes_merge? (.inl h))
  · exact .inl (h.union_right d)
  · exact .inr (owes_merge? (.inr h))

theorem Due.merge_carried (h : g.Due d c i ∨ ∃ w, c' = some w ∧ g.Owes w i) : g.Due d (Carried.merge? c c') i := by
  rcases h with (h | h) | h
  · exact .inl h
  · exact .inr (owes_merge? (.inl h))
  · exact .inr (owes_merge? (.inr h))

theorem Due.union_dirty (h : g.Due d c i ∨ g.Dirtied d' i) : g.Due (d.union d') c i := by
  rcases h with (h | h) | h
  · exact .inl (h.union_left d')
  · exact .inr h
  · exact .inl (h.union_right d)

/-- Deferred work accounts for the step. -/
def Defers (g : Graph) (w : Option Deferred) (i : StepId) : Prop := ∃ work, w = some work ∧ g.Due work.dirty work.carried i

theorem Defers.merge? {a b : Option Deferred} (h : g.Defers a i ∨ g.Defers b i) : g.Defers (Deferred.merge? a b) i := by
  rcases h with ⟨w, rfl, hd⟩ | ⟨w, rfl, hd⟩
  · cases b with
    | none => exact ⟨w, rfl, hd⟩
    | some w' => exact ⟨w.merge w', rfl, .union (.inl hd)⟩
  · cases a with
    | none => exact ⟨w, rfl, hd⟩
    | some w' => exact ⟨w'.merge w, rfl, .union (.inr hd)⟩

end Graph

/-! ## Units -/

theorem Change.applyTo_followedBy (a b : Change) (v : Value) : (a.followedBy b).applyTo v = b.applyTo (a.applyTo v) := by
  unfold Change.applyTo Change.followedBy
  cases b.replace with
  | none => simp [List.foldl_append]
  | some r => simp

/-- The commit only hands work on. -/
def Commit.Writeless (c : Commit) : Prop := ∀ v, c.change.applyTo v = v

theorem Commit.foldl_writeless {cs : List Commit} (h : ∀ c ∈ cs, c.Writeless) (v : Value) :
    cs.foldl (fun s c => c.change.applyTo s) v = v := by
  induction cs with
  | nil => rfl
  | cons c cs ih =>
    rw [List.foldl_cons, h c List.mem_cons_self]
    exact ih fun c' hc => h c' (List.mem_cons_of_mem _ hc)

namespace WorkUnit

variable {g : Graph} {i : StepId}

/-- A unit does what its commits do one after the other, and keeps what they account for. -/
structure Gathers (g : Graph) (cs : List Commit) (u : WorkUnit) : Prop where
  applyTo : ∀ v, u.change.applyTo v = cs.foldl (fun s c => c.change.applyTo s) v
  touches : ∀ c ∈ cs, ∀ q, c.change.dirty.touches q = true → u.change.dirty.touches q = true
  due : ∀ c ∈ cs, ∀ i, g.Due c.change.dirty c.change.carried i → g.Due u.change.dirty u.change.carried i
  defers : ∀ c ∈ cs, ∀ i, g.Defers c.change.deferred i → g.Defers u.change.deferred i

theorem Gathers.add {cs : List Commit} {u : WorkUnit} (h : Gathers g cs u) (c : Commit) :
    Gathers g (cs ++ [c]) (u.add c) where
  applyTo := fun v => by
    rw [WorkUnit.add, Change.applyTo_followedBy, h.applyTo, List.foldl_append]
    rfl
  touches := fun c' hc q hq => by
    refine DirtySet.touches_union.2 ?_
    rcases List.mem_append.1 hc with hc | hc
    · exact .inl (h.touches c' hc q hq)
    · exact .inr (List.mem_singleton.1 hc ▸ hq)
  due := fun c' hc i hi => by
    refine Graph.Due.union ?_
    rcases List.mem_append.1 hc with hc | hc
    · exact .inl (h.due c' hc i hi)
    · exact .inr (List.mem_singleton.1 hc ▸ hi)
  defers := fun c' hc i hi => by
    refine Graph.Defers.merge? ?_
    rcases List.mem_append.1 hc with hc | hc
    · exact .inl (h.defers c' hc i hi)
    · exact .inr (List.mem_singleton.1 hc ▸ hi)

theorem gathers_foldl {cs rest : List Commit} {u : WorkUnit} (h : Gathers g cs u) :
    Gathers g (cs ++ rest) (rest.foldl WorkUnit.add u) := by
  induction rest generalizing cs u with
  | nil => rwa [List.append_nil]
  | cons c rest ih =>
    have := ih (h.add c)
    rwa [List.append_assoc] at this

theorem gathers_merge? {cs : List Commit} {u : WorkUnit} (hu : merge? cs = some u) : Gathers g cs u := by
  cases cs with
  | nil => cases hu
  | cons c rest =>
    cases hu
    have hone : Gathers g [c] (ofCommit c) :=
      ⟨fun _ => rfl, fun _ hc _ h => List.mem_singleton.1 hc ▸ h, fun _ hc _ h => List.mem_singleton.1 hc ▸ h,
        fun _ hc _ h => List.mem_singleton.1 hc ▸ h⟩
    exact gathers_foldl hone

end WorkUnit

/-! ## Lanes -/

namespace Lane

variable {g : Graph} {i : StepId} {l : Lane} {d : DirtySet}

/-- The batch that waits in the lane accounts for the step. -/
def Holds (g : Graph) (l : Lane) (i : StepId) : Prop := ∃ b, l.pending = some b ∧ g.Dirtied b.dirty i

/-- A batch handed out accounts for the step. -/
def Hands (g : Graph) (f : Option Flush) (i : StepId) : Prop := ∃ flush, f = some flush ∧ g.Dirtied flush.dirty i

theorem dirtied_bound {b : Batch} (capacity : Nat) (h : g.Dirtied b.dirty i) : g.Dirtied (b.bound capacity).dirty i := by
  unfold Batch.bound
  split
  · exact h.mono fun q _ => DirtySet.touches_markAll _ _ q
  · exact h

/-- A signal is in the batch that waits after it. -/
theorem signal_holds (now : Time) (h : g.Dirtied d i) : (l.signal now d).2.Holds g i := by
  unfold signal
  split
  · exact ⟨_, rfl, dirtied_bound _ (h.union_right _)⟩
  · exact ⟨_, rfl, dirtied_bound _ h⟩

/-- What waited still waits after a signal, or is handed out. -/
theorem signal_keeps (now : Time) (d : DirtySet) (h : l.Holds g i) :
    (l.signal now d).2.Holds g i ∨ Hands g (l.signal now d).1 i := by
  obtain ⟨b, hb, hd⟩ := h
  unfold signal
  rw [hb]
  cases l.settings.coalesce with
  | true => exact .inl ⟨_, rfl, dirtied_bound _ (hd.union_left d)⟩
  | false => exact .inr ⟨_, rfl, hd⟩

theorem cancel_hands (reason : LaneReason) (h : l.Holds g i) : Hands g (l.cancel reason).1 i := by
  obtain ⟨b, hb, hd⟩ := h
  unfold cancel
  rw [hb]
  exact ⟨_, rfl, hd⟩

theorem fire_hands (h : l.Holds g i) : Hands g l.fire.1 i := by
  obtain ⟨b, hb, hd⟩ := h
  unfold fire
  rw [hb]
  exact ⟨_, rfl, hd⟩

/-- The lane, if there is one, holds a batch that accounts for the step. -/
def Held (g : Graph) (lane : Option Lane) (i : StepId) : Prop := ∃ l, lane = some l ∧ l.Holds g i

theorem Hands.defers {f : Option Flush} (h : Hands g f i) : g.Defers (f.map .ofFlush) i := by
  obtain ⟨flush, rfl, hd⟩ := h
  exact ⟨_, rfl, .inl hd⟩

/-- A signal and what waited before it are in the lane after it, or handed out. -/
theorem signal_held (now : Time) (h : Held g (some l) i ∨ g.Dirtied d i) :
    Held g (some (l.signal now d).2) i ∨ g.Defers ((l.signal now d).1.map .ofFlush) i := by
  rcases h with ⟨l', hl', h⟩ | h
  · cases hl'
    exact (signal_keeps now d h).imp (fun h => ⟨_, rfl, h⟩) Hands.defers
  · exact .inl ⟨_, rfl, signal_holds now h⟩

end Lane

/-! ## Scopes -/

/-- What affects no step of a scope dirties none. -/
theorem Executor.Sound.not_dirtied {e : Executor} (h : e.Sound) {scope : Scope} {d : DirtySet}
    (ha : e.affects scope d = false) {i : StepId} (hi : i ∈ e.wiring.order scope) : ¬ e.graph.Dirtied d i := by
  intro ⟨s, k, q, hs, hk, hq, ht⟩
  unfold affects at ha
  split at ha
  · rename_i hnone
    rcases hnone with h0 | hd
    · rw [Wiring.scopeSize, List.length_eq_zero_iff] at h0
      rw [h0] at hi
      cases hi
    · rw [DirtySet.touches_of_isEmpty hd] at ht
      cases ht
  · obtain ⟨hall, hany⟩ := Bool.or_eq_false_iff.1 ha
    rcases touches_resolve h.wired.graph.table (PathTable.mem_of_path? hq) ht with hs' | ⟨n, hn, p, hp, ho⟩
    · rw [hall] at hs'
      cases hs'
    · have hmv : e.graph.Moves p i := ⟨s, k, q, hs, hk, hq, Path.overlaps_comm p q ▸ ho⟩
      have haff : e.wiring.affectsScope scope n = true :=
        List.any_eq_true.2 ⟨i, (h.wired.mem_affected hp).2 hmv, Wired.inScope_iff.2 hi⟩
      exact List.any_eq_false.1 hany n hn haff

end Settle
