/-
  Settle.Proofs.Backlog — what a tick leaves waiting (see `Settle.Tick`).

  An instance that had its turn was accepted, was pushed back, or was put off; the last
  makes the tick fall short at once, the others are judged when it closes
  (`Running.Placed`).

  - Pushed back are instances that were not urgent when a round began. The round goes by
    what it saw then: a copy that an urgent unit of the same round queues on such an
    instance, or one of a later round, does not bring it back, and waits with it
    (`deferred_of_tick`).
  - Every instance that waits when a round begins has its turn in it. So what a tick that
    is told stable leaves is what links copied in its last round, when that was the last
    one allowed (`backlog_of_tick`).
-/

import Settle.Proofs.History

namespace Settle

/-! ## Falling short -/

namespace TickReport

/-- A report falls short for a reason, and only then. -/
def Told (r : TickReport) : Prop := r.stable = r.degrade.isNone

/-- A later report of the same tick: it is stable only if the earlier one is, and tells
why if that one does. -/
structure Follows (r r' : TickReport) : Prop where
  stable : r'.stable = true → r.stable = true
  told : r.Told → r'.Told

variable {r r' r'' : TickReport}

theorem Follows.refl (r : TickReport) : Follows r r := ⟨id, id⟩

theorem Follows.trans (h : Follows r r') (h' : Follows r' r'') : Follows r r'' :=
  ⟨fun hs => h.stable (h'.stable hs), fun ht => h'.told (h.told ht)⟩

theorem Follows.of_eq (hstable : r'.stable = r.stable) (hdegrade : r'.degrade = r.degrade) : Follows r r' := by
  refine ⟨fun hs => hstable ▸ hs, fun ht => ?_⟩
  unfold Told
  rw [hstable, hdegrade]
  exact ht

theorem fallShort_follows (r : TickReport) (d : Degrade) : Follows r (r.fallShort d) := by
  refine ⟨nofun, fun _ => ?_⟩
  unfold Told fallShort
  cases r.degrade <;> rfl

end TickReport

namespace Instance

theorem foldl_least_low (l : List Commit) (p : Priority) :
    l.foldl (fun p c => p.least c.priority) p = .low ↔ p = .low ∧ ∀ c ∈ l, c.priority = .low := by
  induction l generalizing p with
  | nil => simp
  | cons c l ih =>
    have hleast : p.least c.priority = .low ↔ p = .low ∧ c.priority = .low := by
      cases p <;> cases c.priority <;> simp [Priority.least]
    rw [List.foldl_cons, ih, hleast, List.forall_mem_cons, and_assoc]

/-- A queue that is not urgent has no urgent commit. -/
theorem low_of_queuedPriority {i : Instance} (h : i.queuedPriority = some .low) : ∀ c ∈ i.queue, c.priority = .low := by
  unfold queuedPriority at h
  cases hq : i.queue with
  | nil => exact fun _ hc => absurd hc List.not_mem_nil
  | cons c rest =>
    rw [hq] at h
    obtain ⟨hc, hrest⟩ := (foldl_least_low rest c.priority).1 (Option.some.inj h)
    exact List.forall_mem_cons.2 ⟨hc, hrest⟩

end Instance

namespace Tick

open Store Move TickReport

namespace Running

variable {f : Frame} {t t' : Running} {turn : Key × Priority} {s : Store} {ms : List Move}

theorem accept_follows (t : Running) (f : Frame) (key : Key) (priority : Priority) (budget : Option Nat) :
    Follows t.report (t.accept f key priority budget).report := by
  unfold accept
  cases t.store.find? key with
  | none => exact .refl _
  | some i =>
    simp only [Instance.takeUnit]
    cases WorkUnit.merge? i.queue with
    | none => exact .refl _
    | some u =>
      dsimp only
      cases (({ i with queue := [] } : Instance).apply u f.now t.diagnostics budget).report.degrade with
      | none => exact .of_eq rfl rfl
      | some d =>
        have hfell := fallShort_follows t.report d
        exact ⟨fun hs => hfell.stable hs, fun ht => hfell.told ht⟩

theorem offer_follows (f : Frame) (t : Running) (turn : Key × Priority) : Follows t.report (offer f t turn).report := by
  obtain ⟨key, priority⟩ := turn
  unfold offer
  cases priority with
  | normal =>
    dsimp only
    split
    · exact fallShort_follows t.report .cycleDetected
    · exact accept_follows t f key .normal _
  | low =>
    dsimp only
    split
    · exact .of_eq rfl rfl
    · exact accept_follows t f key .low none

/-- Where the instances are that had their turn: accepted, pushed back when so many units
were accepted, or put off, and then the tick fell short. -/
structure Placed (f : Frame) (t : Running) : Prop where
  told : t.report.Told
  pushed : ∀ k ∈ t.report.deferred, k ∈ t.skip ∧ k ∉ t.accepted
  full : t.report.deferred ≠ [] → f.limits.maxSteps ≤ t.report.units.length ∧ t.report.units ≠ []
  placed : t.report.stable = true → ∀ k ∈ t.skip, k ∈ t.accepted ∨ k ∈ t.report.deferred

theorem Placed.offered (hp : Placed f t) (haccepted : ∀ k ∈ t.accepted, k ∈ t.skip) (hout : turn.1 ∉ t.skip) :
    Placed f (offer f t turn) := by
  have hfollows := offer_follows f t turn
  have hturned := offer_turned f t turn
  generalize offer f t turn = t', moves f t turn = ms at hturned hfollows ⊢
  obtain ⟨htold, hpushed, hfull, hplaced⟩ := hp
  have htold' := hfollows.told htold
  cases hturned with
  | putOff _ _ hpassed hunstable hdeferred =>
    refine ⟨htold', fun k hk => ?_, fun hne => ?_, fun hstable => ?_⟩
    · obtain ⟨hskip, hacc⟩ := hpushed k (hdeferred ▸ hk)
      rw [hpassed.skip, hpassed.accepted]
      exact ⟨List.mem_append_left _ hskip, hacc⟩
    · exact hpassed.units ▸ hfull (hdeferred ▸ hne)
    · rw [hunstable] at hstable
      cases hstable
  | pushedBack _ hmany hsome hpassed hdeferred =>
    refine ⟨htold', fun k hk => ?_, fun _ => hpassed.units ▸ ⟨hmany, hsome⟩, fun hstable k hk => ?_⟩
    · rw [hpassed.skip, hpassed.accepted]
      rcases List.mem_append.1 (hdeferred ▸ hk) with hk | hk
      · exact ⟨List.mem_append_left _ (hpushed k hk).1, (hpushed k hk).2⟩
      · exact ⟨List.mem_append_right _ hk, fun hacc => hout (List.mem_singleton.1 hk ▸ haccepted k hacc)⟩
    · rw [hdeferred, hpassed.accepted]
      rcases List.mem_append.1 (hpassed.skip ▸ hk) with hk | hk
      · exact (hplaced (hfollows.stable hstable) k hk).imp id (List.mem_append_left _)
      · exact .inr (List.mem_append_right _ hk)
  | vacant _ he => exact he ▸ ⟨htold, hpushed, hfull, hplaced⟩
  | taken _ _ _ _ _ hunits hacc _ hskip hdeferred =>
    refine ⟨htold', fun k hk => ?_, fun hne => ?_, fun hstable k hk => ?_⟩
    · obtain ⟨hin, hnot⟩ := hpushed k (hdeferred ▸ hk)
      rw [hskip, hacc]
      refine ⟨List.mem_append_left _ hin, fun hmem => ?_⟩
      rcases List.mem_append.1 hmem with hmem | hmem
      · exact hnot hmem
      · exact hout (List.mem_singleton.1 hmem ▸ hin)
    · obtain ⟨hmany, -⟩ := hfull (hdeferred ▸ hne)
      rw [hunits, List.length_append]
      exact ⟨Nat.le_add_right_of_le hmany, by simp⟩
    · rw [hdeferred, hacc]
      rcases List.mem_append.1 (hskip ▸ hk) with hk | hk
      · exact (hplaced (hfollows.stable hstable) k hk).imp (List.mem_append_left _) id
      · exact .inl (List.mem_append_right _ hk)

/-! ## Rounds -/

/-- Whoever was pushed back came up in the round as not urgent. -/
theorem foldl_deferred (turns : List (Key × Priority)) (t : Running) {k : Key}
    (hk : k ∈ (turns.foldl (offer f) t).report.deferred) : k ∈ t.report.deferred ∨ (k, .low) ∈ turns := by
  induction turns generalizing t with
  | nil => exact .inl hk
  | cons turn rest ih =>
    rcases ih _ hk with hk | hk
    · have hturned := offer_turned f t turn
      generalize offer f t turn = t', moves f t turn = ms at hturned hk
      cases hturned with
      | putOff _ _ _ _ hdeferred => exact .inl (hdeferred ▸ hk)
      | pushedBack hlow _ _ _ hdeferred =>
        rcases List.mem_append.1 (hdeferred ▸ hk) with hk | hk
        · exact .inl hk
        · refine .inr ?_
          rw [List.mem_singleton.1 hk, ← hlow]
          exact List.mem_cons_self
      | vacant _ he => exact .inl (he ▸ hk)
      | taken _ _ _ _ _ _ _ _ _ hdeferred => exact .inl (hdeferred ▸ hk)
    · exact .inr (List.mem_cons_of_mem turn hk)

theorem skip_subset_offer (f : Frame) (t : Running) (turn : Key × Priority) : t.skip ⊆ (offer f t turn).skip := by
  intro k hk
  rcases (offer_turned f t turn).skip with he | he
  · exact he ▸ hk
  · exact he ▸ List.mem_append_left _ hk

theorem skip_subset_foldl (turns : List (Key × Priority)) (t : Running) : t.skip ⊆ (turns.foldl (offer f) t).skip := by
  induction turns generalizing t with
  | nil => exact List.Subset.refl _
  | cons turn rest ih => exact List.Subset.trans (skip_subset_offer f t turn) (ih _)

/-- A turn of an instance with commits that wait is had. -/
theorem mem_skip_offer {i : Instance} (hi : t.store.find? turn.1 = some i) (hq : i.queue ≠ []) :
    turn.1 ∈ (offer f t turn).skip := by
  have hturned := offer_turned f t turn
  generalize offer f t turn = t', moves f t turn = ms at hturned ⊢
  cases hturned with
  | putOff _ _ hpassed => exact hpassed.skip ▸ List.mem_append_right _ (List.mem_singleton_self _)
  | pushedBack _ _ _ hpassed => exact hpassed.skip ▸ List.mem_append_right _ (List.mem_singleton_self _)
  | vacant hempty _ => exact absurd (hempty i hi) hq
  | taken _ _ _ _ _ _ _ _ hskip _ => exact hskip ▸ List.mem_append_right _ (List.mem_singleton_self _)

/-- Every instance that waits when a round begins has its turn in it. -/
theorem mem_skip_foldl (turns : List (Key × Priority)) (t : Running) (hnd : (turns.map (·.1)).Nodup)
    (hwaits : ∀ turn ∈ turns, ∃ i, t.store.find? turn.1 = some i ∧ i.queue ≠ []) :
    ∀ turn ∈ turns, turn.1 ∈ (turns.foldl (offer f) t).skip := by
  induction turns generalizing t with
  | nil => exact fun _ h => absurd h List.not_mem_nil
  | cons turn rest ih =>
    obtain ⟨hnew, hnd⟩ := List.nodup_cons.1 (List.map_cons ▸ hnd)
    intro other ho
    rcases List.mem_cons.1 ho with rfl | ho
    · obtain ⟨i, hi, hq⟩ := hwaits other List.mem_cons_self
      exact skip_subset_foldl rest _ (mem_skip_offer hi hq)
    · refine ih (offer f t turn) hnd (fun later hl => ?_) other ho
      obtain ⟨i, hi, hq⟩ := hwaits later (List.mem_cons_of_mem turn hl)
      have hne : later.1 ≠ turn.1 := fun e => hnew (e ▸ List.mem_map_of_mem hl)
      obtain ⟨i', added, hi', hq', -⟩ := (offer_offered f t turn).grown hne hi
      exact ⟨i', hi', by simp [hq', hq]⟩

theorem Kept.mem_accepted (hk : Kept f s ms t) {k : Key} {came : Priority} {cs : List Commit} {r : UnitReport}
    (hm : .took k came cs r ∈ ms) : k ∈ t.accepted := by
  rw [hk.accepted, hk.units, ← (hk.lawful.took hm).key]
  exact List.mem_map_of_mem (List.mem_filterMap.2 ⟨_, hm, rfl⟩)

/-- The queue of an instance that is not accepted has only grown. -/
theorem Kept.queueOf_of_untaken (hk : Kept f s ms t) {k : Key} (hout : k ∉ t.accepted) :
    t.store.queueOf k = s.queueOf k ++ putOn k ms := by
  have hnone : takenFrom k ms = [] := by
    refine List.flatMap_eq_nil_iff.2 fun m hm => ?_
    cases m with
    | queued | copied | left => rfl
    | took k' came cs r => exact if_neg fun e => hout (hk.mem_accepted (e ▸ hm))
  have hbalanced := hk.balanced.queue k
  rw [hnone] at hbalanced
  exact hbalanced

/-- On an instance that is not accepted, links alone put commits. -/
theorem Kept.mem_putOn_of_untaken (hk : Kept f s ms t) {k : Key} (hout : k ∉ t.accepted) {part : List Move}
    (hpart : part ⊆ ms) {c : Commit} : c ∈ putOn k part ↔ ∃ l, l.target = k ∧ .copied l c ∈ part := by
  rw [mem_putOn]
  constructor
  · rintro (hm | hm | hm)
    · exact absurd (hpart hm) hk.lawful.queued
    · obtain ⟨p, cs, r, ht⟩ := hk.lawful.left (hpart hm)
      exact absurd (hk.mem_accepted ht) hout
    · exact hm
  · exact fun hm => .inr (.inr hm)

/-- A tick under way with the moves of its rounds: its books are kept, its instances are
placed, and whoever was pushed back was not urgent when its round began. -/
structure Watched (f : Frame) (s : Store) (past : List (List Move)) (t : Running) : Prop where
  kept : Kept f s past.flatten t
  placed : Placed f t
  low : ∀ k ∈ t.report.deferred, ∃ n < past.length, ∀ c ∈ s.queueOf k ++ putOn k (past.take n).flatten, c.priority = .low
  /-- The last round, and the tick before it. -/
  latest : past = [] ∨ ∃ earlier t₁, past = earlier ++ [roundMoves f (t₁.store.ready t₁.skip) t₁.opened] ∧
    t = t₁.played f ∧ Kept f s earlier.flatten t₁

variable {past : List (List Move)}

theorem Watched.played (hw : Watched f s past t) (hs : s.Keyed) :
    Watched f s (past ++ [roundMoves f (t.store.ready t.skip) t.opened]) (t.played f) := by
  obtain ⟨hk, hp, hlow, hlatest⟩ := hw
  have hkeyed := hk.balanced.keyed hs
  have hround : Kept f s (past ++ [roundMoves f (t.store.ready t.skip) t.opened]).flatten (t.played f) := by
    rw [List.flatten_append, List.flatten_singleton]
    exact hk.played hs
  have hopened : Kept f s past.flatten t.opened ∧ Placed f t.opened :=
    ⟨hk.opened, hp.told, hp.pushed, hp.full, hp.placed⟩
  obtain ⟨-, hplaced⟩ := round_keeps (P := fun ms t => Kept f s ms t ∧ Placed f t)
    (fun h hout => ⟨h.1.offered hout, h.2.offered (fun _ hk => h.1.skipped.subset hk) hout⟩) (t.store.ready t.skip)
    hopened (hkeyed.ready t.skip) (ready_fresh _ _)
  refine ⟨hround, hplaced, fun k hdeferred => ?_, .inr ⟨past, t, rfl, rfl, hk⟩⟩
  rcases foldl_deferred _ _ hdeferred with hold | hturn
  · obtain ⟨n, hn, hall⟩ := hlow k hold
    refine ⟨n, ?_, ?_⟩
    · rw [List.length_append]
      omega
    · rw [List.take_append_of_le_length (Nat.le_of_lt hn)]
      exact hall
  · refine ⟨past.length, by simp, ?_⟩
    obtain ⟨i, hi, hprio⟩ := hkeyed.mem_ready hturn
    have hout : k ∉ t.accepted := fun hacc => ready_fresh _ _ _ hturn (hk.skipped.subset hacc)
    rw [List.take_left, ← hk.queueOf_of_untaken hout, queueOf_of_find? hi]
    exact Instance.low_of_queuedPriority hprio

/-- Rounds end when no instance is left to come up, or when there were as many as may be. -/
theorem rounds_end (f : Frame) (n : Nat) (t : Running) :
    (rounds f n t).store.ready (rounds f n t).skip = [] ∨ (roundsMoves f n t).length = n := by
  induction n generalizing t with
  | zero => exact .inr rfl
  | succ n ih =>
    rw [roundsMoves, rounds_succ]
    split
    · exact .inl ‹_›
    · exact (ih (t.played f)).imp id fun he => by rw [List.length_cons, he]

/-! ## The close of a tick -/

theorem queueOf_of_requeued {keys : List Key} (h : s.requeued keys = []) {k : Key} (hk : k ∈ keys) :
    s.queueOf k = [] := by
  have hnot := List.filter_eq_nil_iff.1 h k hk
  unfold queueOf
  cases hi : s.find? k with
  | none => rfl
  | some i =>
    rw [hi] at hnot
    simpa [Instance.hasQueue] using hnot

theorem close_follows (f : Frame) (t : Running) : Follows t.report (t.close f).report := by
  have hrequeued : Follows t.report
      (if (t.store.requeued t.accepted).isEmpty then t.report else t.report.fallShort .cycleDetected) := by
    split
    · exact .refl _
    · exact fallShort_follows _ _
  unfold close
  dsimp only
  refine hrequeued.trans ?_
  generalize (if (t.store.requeued t.accepted).isEmpty then t.report else t.report.fallShort .cycleDetected) = r
  split
  · exact .of_eq rfl rfl
  · exact (fallShort_follows r .budgetSteps).trans (.of_eq rfl rfl)

theorem close_deferred (f : Frame) (t : Running) : (t.close f).report.deferred = t.report.deferred := by
  unfold close
  dsimp only
  split <;> split <;> rfl

theorem close_backlog (f : Frame) (t : Running) : (t.close f).report.backlog = t.store.backlog := rfl

/-- A tick that closes stable pushed nothing back, and none that it accepted waits. -/
theorem close_stable (h : (t.close f).report.stable = true) :
    t.report.stable = true ∧ t.report.deferred = [] ∧ t.store.requeued t.accepted = [] := by
  refine ⟨(close_follows f t).stable h, ?_⟩
  unfold close at h
  dsimp only at h
  by_cases hrequeued : (t.store.requeued t.accepted).isEmpty = true
  · rw [if_pos hrequeued] at h
    by_cases hdeferred : t.report.deferred.isEmpty = true
    · exact ⟨List.isEmpty_iff.1 hdeferred, List.isEmpty_iff.1 hrequeued⟩
    · rw [if_neg hdeferred] at h
      cases h
  · rw [if_neg hrequeued] at h
    split at h <;> cases h

theorem getLastD_subset_flatten {α : Type} (l : List (List α)) : l.getLastD [] ⊆ l.flatten := by
  intro a ha
  cases l using List.reverseRecOn with
  | nil => cases ha
  | append_singleton earlier latest =>
    rw [List.getLastD_concat] at ha
    rw [List.flatten_append, List.flatten_singleton]
    exact List.mem_append_right _ ha

/-- An instance that is not passed over comes up if it waits. -/
theorem mem_ready_of_queueOf {s : Store} {skip : List Key} {k : Key} (hq : s.queueOf k ≠ []) (hout : k ∉ skip) :
    ∃ p, (k, p) ∈ s.ready skip := by
  cases hi : s.find? k with
  | none =>
    unfold queueOf at hq
    rw [hi] at hq
    exact absurd rfl hq
  | some i =>
    rw [queueOf_of_find? hi] at hq
    obtain rfl := key_of_find? hi
    exact mem_ready_of_queue (mem_of_find? hi) hq hout

/-- An instance that is not passed over after a round did not wait when it began. -/
theorem queueOf_of_not_skipped (hkeyed : t.store.Keyed) {k : Key} (hout : k ∉ (t.played f).skip) :
    t.store.queueOf k = [] := by
  refine Classical.byContradiction fun hq => ?_
  have hbefore : k ∉ t.skip := fun hmem => hout (skip_subset_foldl (t.store.ready t.skip) t.opened hmem)
  obtain ⟨p, hp⟩ := mem_ready_of_queueOf hq hbefore
  refine hout (mem_skip_foldl (t.store.ready t.skip) t.opened (hkeyed.ready _) (fun turn hturn => ?_) (k, p) hp)
  obtain ⟨i, hi, hprio⟩ := hkeyed.mem_ready hturn
  refine ⟨i, hi, fun he => ?_⟩
  rw [queuedPriority_eq_none.2 he] at hprio
  cases hprio

/-- What waits when a tick closes stable: copies that links queued in its last round, on
instances that did not wait when that round began. -/
theorem Watched.waiting (hw : Watched f s past t) (hs : s.Keyed) (hend : t.store.ready t.skip = [] ∨ past ≠ [])
    (hstable : (t.close f).report.stable = true) {k : Key} (hk : t.store.queueOf k ≠ []) :
    t.store.ready t.skip ≠ [] ∧ k ∉ t.accepted ∧ t.store.queueOf k = putOn k (past.getLastD []) ∧
      ∀ c ∈ t.store.queueOf k, ∃ l ∈ f.links, l.target = k ∧ .copied l c ∈ past.getLastD [] := by
  obtain ⟨hopen, hpushed, hrequeued⟩ := close_stable hstable
  have hout : k ∉ t.skip := fun hskip => by
    rcases hw.placed.placed hopen k hskip with hacc | hdeferred
    · exact hk (queueOf_of_requeued hrequeued hacc)
    · rw [hpushed] at hdeferred
      cases hdeferred
  have hready : t.store.ready t.skip ≠ [] := fun he => by
    obtain ⟨p, hp⟩ := mem_ready_of_queueOf hk hout
    rw [he] at hp
    cases hp
  have hacc : k ∉ t.accepted := fun hacc => hout (hw.kept.skipped.subset hacc)
  have hqueue : t.store.queueOf k = putOn k (past.getLastD []) := by
    rcases hw.latest with hnone | ⟨earlier, t₁, rfl, rfl, hk₁⟩
    · exact absurd hnone (hend.resolve_left hready)
    · have hbefore := hk₁.queueOf_of_untaken fun hmem =>
        hout (skip_subset_foldl (t₁.store.ready t₁.skip) t₁.opened (hk₁.skipped.subset hmem))
      have hafter := hw.kept.queueOf_of_untaken hacc
      rw [List.flatten_append, List.flatten_singleton, putOn_append, ← List.append_assoc, ← hbefore,
        queueOf_of_not_skipped (hk₁.balanced.keyed hs) hout] at hafter
      rw [List.getLastD_concat]
      exact hafter
  refine ⟨hready, hacc, hqueue, fun c hc => ?_⟩
  have hlatest := getLastD_subset_flatten past
  obtain ⟨l, hl, hm⟩ := (hw.kept.mem_putOn_of_untaken hacc hlatest).1 (hqueue ▸ hc)
  exact ⟨l, (hw.kept.lawful.copied (hlatest hm)).1, hl, hm⟩

end Running

open Running

/-- A tick that is not idle is the close of one that was watched to its end. -/
theorem run_watched (f : Frame) (last : Nat) {store : Store} (hs : store.Keyed) (d : Diagnostics)
    (hwork : store.backlog ≠ (0, 0)) :
    ∃ t, run f last store d = t.close f ∧ Watched f store (history f last store d) t ∧
      (t.store.ready t.skip = [] ∨ (history f last store d).length = max 1 f.limits.maxDrainRounds) := by
  have hopening : Watched f store [] (opening f last store d) :=
    ⟨opening_kept f last store d, ⟨rfl, nofun, fun h => absurd rfl h, nofun⟩, nofun, .inl rfl⟩
  have hwatched : Watched f store ([] ++ _) _ := rounds_keep (P := Watched f store) (fun hw => hw.played hs)
    (max 1 f.limits.maxDrainRounds) hopening
  refine ⟨_, (run_eq f last store d).trans (if_neg hwork), ?_, ?_⟩
  · rw [history, if_neg hwork]
    exact hwatched
  · rw [history, if_neg hwork]
    exact rounds_end f _ _

/-- An instance is pushed back when so many units are accepted, has no unit in that tick,
and keeps all that was queued on it. When the round began that pushed it back it was not
urgent: no commit on it was, from before the tick or from earlier rounds. It ends with an
urgent commit just when a link copied one onto it in that round or in a later one, from an
instance that came up as urgent. -/
theorem deferred_of_tick (f : Frame) (last : Nat) {store : Store} (hs : store.Keyed) (d : Diagnostics) :
    let rounds := history f last store d
    let t := run f last store d
    (∀ l c, .copied l c ∈ rounds.flatten → l ∈ f.links ∧ ∃ cs r, .took l.source c.priority cs r ∈ rounds.flatten) ∧
    ∀ k ∈ t.report.deferred,
      (f.limits.maxSteps ≤ t.report.units.length ∧ t.report.units ≠ [] ∧ k ∉ t.report.units.map (·.key)) ∧
      t.store.queueOf k = store.queueOf k ++ putOn k rounds.flatten ∧
      ∃ n < rounds.length, (∀ c ∈ store.queueOf k ++ putOn k (rounds.take n).flatten, c.priority = .low) ∧
        ((∃ c ∈ t.store.queueOf k, c.priority = .normal) ↔
          ∃ l c, l.target = k ∧ .copied l c ∈ (rounds.drop n).flatten ∧ c.priority = .normal) := by
  have hkept := run_kept f last hs d
  refine ⟨fun l c hm => ?_, fun k hk => ?_⟩
  · obtain ⟨hl, -, htook⟩ := hkept.lawful.copied hm
    exact ⟨hl, htook⟩
  have hwork : store.backlog ≠ (0, 0) := fun hidle => by
    rw [run_eq, if_pos hidle] at hk
    cases hk
  obtain ⟨t, hrun, hw, -⟩ := run_watched f last hs d hwork
  have hdeferred : k ∈ t.report.deferred := by
    rw [hrun, close_deferred] at hk
    exact hk
  obtain ⟨-, hout⟩ := hw.placed.pushed k hdeferred
  obtain ⟨hmany, hsome⟩ := hw.placed.full (List.ne_nil_of_mem hdeferred)
  obtain ⟨n, hn, hlow⟩ := hw.low k hdeferred
  have hqueue := hw.kept.queueOf_of_untaken hout
  rw [hrun, close_store, (close_units f t).1, ← hw.kept.accepted]
  refine ⟨⟨hmany, hsome, hout⟩, hqueue, n, hn, hlow, ?_⟩
  generalize history f last store d = rounds at hw hqueue hlow ⊢
  -- the commits put on it are those of the earlier rounds, which are not urgent, and of the others
  have hsplit : putOn k rounds.flatten = putOn k (rounds.take n).flatten ++ putOn k (rounds.drop n).flatten := by
    rw [← putOn_append, ← List.flatten_append, List.take_append_drop]
  have hlate : (rounds.drop n).flatten ⊆ rounds.flatten := fun m hm => by
    obtain ⟨round, hround, hm⟩ := List.mem_flatten.1 hm
    exact List.mem_flatten.2 ⟨round, List.mem_of_mem_drop hround, hm⟩
  constructor
  · rintro ⟨c, hc, hnormal⟩
    rw [hqueue, hsplit, ← List.append_assoc] at hc
    rcases List.mem_append.1 hc with hc | hc
    · rw [hlow c hc] at hnormal
      cases hnormal
    · obtain ⟨l, hl, hm⟩ := (hw.kept.mem_putOn_of_untaken hout hlate).1 hc
      exact ⟨l, c, hl, hm, hnormal⟩
  · rintro ⟨l, c, hl, hm, hnormal⟩
    refine ⟨c, ?_, hnormal⟩
    rw [hqueue, hsplit]
    exact List.mem_append_right _ (List.mem_append_right _ ((hw.kept.mem_putOn_of_untaken hout hlate).2 ⟨l, hl, hm⟩))

theorem queueOf_eq_nil_of_backlog {s : Store} (hs : s.Keyed) : s.backlog = (0, 0) ↔ ∀ k, s.queueOf k = [] := by
  rw [backlog_eq_zero]
  constructor
  · intro h k
    cases hi : s.find? k with
    | none =>
      unfold queueOf
      rw [hi]
      rfl
    | some i => exact (queueOf_of_find? hi).trans (h i (mem_of_find? hi))
  · exact fun h i hi => (queueOf_of_find? (hs.find?_eq hi)).symm.trans (h i.key)

/-- A tick is told stable exactly when it is given no reason for falling short, and tells
what is left when it ends. If it is stable, an instance that still waits had no unit, and
all that waits on it is what links copied in the last round, which is the last one
allowed; so something is left of a stable tick just when a link copied in that round onto
an instance that had no unit. -/
theorem backlog_of_tick (f : Frame) (last : Nat) {store : Store} (hs : store.Keyed) (d : Diagnostics) :
    let rounds := history f last store d
    let t := run f last store d
    (t.report.stable = true ↔ t.report.degrade = none) ∧ t.report.backlog = t.store.backlog ∧
    (t.report.stable = true →
      (∀ k, t.store.queueOf k ≠ [] → rounds.length = max 1 f.limits.maxDrainRounds ∧
        k ∉ t.report.units.map (·.key) ∧ t.store.queueOf k = putOn k (rounds.getLastD []) ∧
        ∀ c ∈ t.store.queueOf k, ∃ l ∈ f.links, l.target = k ∧ .copied l c ∈ rounds.getLastD []) ∧
      (t.report.backlog ≠ (0, 0) ↔
        ∃ l c, .copied l c ∈ rounds.getLastD [] ∧ l.target ∉ t.report.units.map (·.key))) := by
  by_cases hwork : store.backlog = (0, 0)
  · have hidle : ∀ k, store.queueOf k = [] := (queueOf_eq_nil_of_backlog hs).1 hwork
    rw [run_eq, history, if_pos hwork, if_pos hwork]
    refine ⟨⟨fun _ => rfl, fun _ => rfl⟩, hwork.symm, fun _ => ⟨fun k hk => absurd (hidle k) hk, ?_, ?_⟩⟩
    · exact fun h => absurd rfl h
    · rintro ⟨l, c, hm, -⟩
      cases hm
  obtain ⟨t, hrun, hw, hend⟩ := run_watched f last hs d hwork
  have htold := (close_follows f t).told hw.placed.told
  rw [hrun]
  dsimp only
  rw [close_backlog, close_store, (close_units f t).1, ← hw.kept.accepted]
  generalize history f last store d = rounds at hw hend ⊢
  refine ⟨?_, rfl, fun hstable => ?_⟩
  · rw [htold]
    exact Option.isNone_iff_eq_none
  have hwaiting : ∀ k, t.store.queueOf k ≠ [] → rounds.length = max 1 f.limits.maxDrainRounds ∧ k ∉ t.accepted ∧
      t.store.queueOf k = putOn k (rounds.getLastD []) ∧
      ∀ c ∈ t.store.queueOf k, ∃ l ∈ f.links, l.target = k ∧ .copied l c ∈ rounds.getLastD [] := fun k hk => by
    have hsome : t.store.ready t.skip = [] ∨ rounds ≠ [] := hend.imp id fun he hnone => by
      rw [hnone, List.length_nil] at he
      omega
    obtain ⟨hready, hrest⟩ := hw.waiting hs hsome hstable hk
    exact ⟨hend.resolve_left hready, hrest⟩
  refine ⟨hwaiting, ?_⟩
  rw [ne_eq, queueOf_eq_nil_of_backlog (hw.kept.balanced.keyed hs), not_forall]
  constructor
  · rintro ⟨k, hk⟩
    obtain ⟨-, hout, -, hcopied⟩ := hwaiting k hk
    obtain ⟨c, hc⟩ := List.exists_mem_of_ne_nil _ hk
    obtain ⟨l, -, rfl, hm⟩ := hcopied c hc
    exact ⟨l, c, hm, hout⟩
  · rintro ⟨l, c, hm, hout⟩
    refine ⟨l.target, List.ne_nil_of_mem (a := c) ?_⟩
    rw [hw.kept.queueOf_of_untaken hout]
    exact List.mem_append_right _ (mem_putOn.2 (.inr (.inr ⟨l, rfl, getLastD_subset_flatten rounds hm⟩)))

end Tick

namespace Relay

open Tick

/-- One unit a tick, but for urgent ones. -/
def narrow : Frame := ⟨⟨1, 512, 8, none⟩, [], 0⟩

/-- What the first relay derives is linked to what the second one copies. -/
def narrowed : Frame := { narrow with links := [⟨⟨"relay", "1"⟩, a, ⟨"relay", "2"⟩, x⟩] }

/-- Without links the relay that is pushed back has no urgent commit. -/
theorem deferred_apart :
    pair.Keyed ∧ (run narrow 0 pair quiet).report.deferred = [⟨"relay", "2"⟩] ∧
      ∀ c ∈ (run narrow 0 pair quiet).store.queueOf ⟨"relay", "2"⟩, c.priority ≠ .normal := by
  have hs : pair.Keyed := by
    unfold Store.Keyed
    decide
  have hdeferred : (run narrow 0 pair quiet).report.deferred = [⟨"relay", "2"⟩] := by cbv
  obtain ⟨hcopied, hpushed⟩ := deferred_of_tick narrow 0 hs quiet
  obtain ⟨-, -, n, -, -, hurgent⟩ := hpushed ⟨"relay", "2"⟩ (hdeferred ▸ List.mem_singleton_self _)
  refine ⟨hs, hdeferred, fun c hc hnormal => ?_⟩
  obtain ⟨l, c', -, hm, -⟩ := hurgent.1 ⟨c, hc, hnormal⟩
  obtain ⟨round, hround, hm⟩ := List.mem_flatten.1 hm
  obtain ⟨hl, -⟩ := hcopied l c' (List.mem_flatten.2 ⟨round, List.mem_of_mem_drop hround, hm⟩)
  cases hl

/-- The urgent copy lands on the second relay before its turn, and it is pushed back
behind the one unit. -/
theorem an_urgent_copy_is_pushed_back :
    pair.Keyed ∧ (run narrowed 0 pair quiet).report.deferred = [⟨"relay", "2"⟩] ∧
      ¬ ∀ k ∈ (run narrowed 0 pair quiet).report.deferred, ∀ c ∈ (run narrowed 0 pair quiet).store.queueOf k,
        c.priority ≠ .normal := by
  have hdeferred : (run narrowed 0 pair quiet).report.deferred = [⟨"relay", "2"⟩] := by cbv
  have hqueue : ((run narrowed 0 pair quiet).store.queueOf ⟨"relay", "2"⟩).map (·.priority) = [.low, .normal] := by cbv
  refine ⟨?_, hdeferred, fun hlow => ?_⟩
  · unfold Store.Keyed
    decide
  · have hnormal : Priority.normal ∈
        ((run narrowed 0 pair quiet).store.queueOf ⟨"relay", "2"⟩).map (·.priority) := by
      rw [hqueue]
      decide
    have hpushed : ⟨"relay", "2"⟩ ∈ (run narrowed 0 pair quiet).report.deferred := by
      rw [hdeferred]
      exact List.mem_singleton_self _
    obtain ⟨c, hc, hp⟩ := List.mem_map.1 hnormal
    exact hlow ⟨"relay", "2"⟩ hpushed c hc hp

/-- An urgent commit on the first of two relays. -/
def begun : Store := ⟨[(named "1").enqueue (writing 1 .normal 2), named "2"], 1⟩

/-- The link of `chained` under the limits of a default configuration. -/
def flowing : Frame := { chained with limits := ⟨64, 512, 8, none⟩ }

/-- What each of two relays derives is linked to what the other one copies; there is one
round a tick. -/
def turning : Frame :=
  ⟨⟨64, 512, 1, none⟩, [⟨⟨"relay", "1"⟩, a, ⟨"relay", "2"⟩, x⟩, ⟨⟨"relay", "2"⟩, a, ⟨"relay", "1"⟩, x⟩], 0⟩

theorem begun_keyed : begun.Keyed := by
  unfold Store.Keyed
  decide

/-- With rounds to spare nothing is left. -/
theorem backlog_with_rounds_to_spare :
    begun.Keyed ∧ (run flowing 0 begun quiet).report.stable = true ∧
      (run flowing 0 begun quiet).report.backlog = (0, 0) := by
  have hstable : (run flowing 0 begun quiet).report.stable = true := by cbv
  have hrounds : (history flowing 0 begun quiet).length = 2 := by cbv
  obtain ⟨-, hbacklog, hleft⟩ := backlog_of_tick flowing 0 begun_keyed quiet
  obtain ⟨hwaiting, -⟩ := hleft hstable
  refine ⟨begun_keyed, hstable, Classical.byContradiction fun hne => ?_⟩
  rw [hbacklog, queueOf_eq_nil_of_backlog (run_kept flowing 0 begun_keyed quiet |>.balanced.keyed begun_keyed),
    not_forall] at hne
  obtain ⟨k, hk⟩ := hne
  have hmany := (hwaiting k hk).1
  rw [hrounds] at hmany
  cases hmany

/-- The copy waits on the second relay when the one round is over, and the tick is told
stable. -/
theorem stable_with_work_left :
    begun.Keyed ∧ (run turning 0 begun quiet).report.idle = false ∧ (run turning 0 begun quiet).report.degrade = none ∧
      ¬ ((run turning 0 begun quiet).report.stable = true → (run turning 0 begun quiet).report.backlog = (0, 0)) := by
  have hstable : (run turning 0 begun quiet).report.stable = true := by cbv
  have hbacklog : (run turning 0 begun quiet).report.backlog = (1, 0) := by cbv
  refine ⟨begun_keyed, by cbv, by cbv, fun h => ?_⟩
  rw [hbacklog] at h
  exact absurd (h hstable) (by decide)

end Relay

end Settle
