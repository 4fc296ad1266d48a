/-
  Settle.Proofs.Debounce — a lane loses no signal and is never late (see `Settle.Lane`).

  A course is a lane on a clock that goes on only when it is told to. It keeps account of
  the signals: those of the batch that waits, and with each batch handed out those that
  were put into it and whether the settings stood from its opening on. The lane reads
  nothing of this account.

  A batch gathers its signals (`Batch.Gathers`): it knows when the first and the last of
  them came and how many there are, and each of their roots lies under one of its own. A
  signal, new settings, a cancellation and the clock all keep this of the batch that waits
  and of those handed out (`Course.Kept`), so the batches share out the signals of every
  course, in order (`Course.run_shares_signals`). One whose settings stood is handed out
  when the window after its last signal closes or its first signal is stale, whichever is
  earlier, and never later.
-/

import Settle.Lane
import Settle.Proofs.Dirty

namespace Settle

theorem Evidence.signals_note (e : Evidence) (r : LaneReason) : (e.note r).signals = e.signals := by
  unfold note
  split <;> rfl

theorem Evidence.mem_note {e : Evidence} {r r' : LaneReason} : r' ∈ (e.note r).reasons ↔ r' = r ∨ r' ∈ e.reasons := by
  unfold note
  split
  · rename_i h
    have hr : r ∈ e.reasons := List.contains_iff_mem.1 h
    constructor
    · exact .inr
    · rintro (rfl | h')
      · exact hr
      · exact h'
  · simp [or_comm]

namespace Lane

/-! ## Courses -/

/-- Roots put into a lane, and when. -/
structure Signal where
  time : Time
  dirty : DirtySet

/-- What happens to a lane. -/
inductive Event where
  | signal (d : DirtySet)
  | reconfigure (s : Settings)
  | cancel (reason : LaneReason)
  /-- So much time passes. -/
  | advance (ms : Nat)

/-- How a batch left its lane. -/
inductive Exit where
  | due
  | canceled
  | superseded
  deriving DecidableEq

/-- A batch that was handed out. -/
structure Handed where
  exit : Exit
  time : Time
  flush : Flush
  signals : List Signal
  /-- The settings in force. -/
  settings : Settings
  /-- They were in force ever since the batch was opened. -/
  steady : Bool

/-- A lane on a clock, and the account of its signals. -/
structure Course where
  lane : Lane
  now : Time
  handed : List Handed
  /-- The signals of the batch that waits. -/
  waiting : List Signal
  /-- The settings have been the same since that batch was opened. -/
  steady : Bool

namespace Course

def start (s : Settings) (now : Time) : Course := ⟨.ofSettings s, now, [], [], true⟩

/-- The batch that waits is handed out, with its signals. -/
def hand (c : Course) (exit : Exit) (time : Time) (f : Flush) : List Handed :=
  c.handed ++ [⟨exit, time, f, c.waiting, c.lane.settings, c.steady⟩]

def step (c : Course) : Event → Course
  | .signal d =>
    match c.lane.signal c.now d with
    | (none, l) =>
      { c with lane := l, waiting := c.waiting ++ [⟨c.now, d⟩], steady := c.steady || c.waiting.isEmpty }
    | (some f, l) =>
      { c with lane := l, handed := c.hand .superseded c.now f, waiting := [⟨c.now, d⟩], steady := true }
  | .reconfigure s => { c with lane := c.lane.reconfigure s, steady := c.steady && decide (s = c.lane.settings) }
  | .cancel reason =>
    match c.lane.cancel reason with
    | (none, l) => { c with lane := l }
    | (some f, l) => { c with lane := l, handed := c.hand .canceled c.now f, waiting := [] }
  | .advance ms =>
    match c.lane.advance c.now (c.now + ms) with
    | (none, l) => { c with lane := l, now := c.now + ms }
    | (some (t, f), l) => { c with lane := l, now := c.now + ms, handed := c.hand .due t f, waiting := [] }

def run (c : Course) (es : List Event) : Course := es.foldl step c

end Course

/-- The signals among some events, the first of which happens at this time. -/
def signalsFrom (now : Time) : List Event → List Signal
  | [] => []
  | .signal d :: es => ⟨now, d⟩ :: signalsFrom now es
  | .advance ms :: es => signalsFrom (now + ms) es
  | .reconfigure _ :: es => signalsFrom now es
  | .cancel _ :: es => signalsFrom now es

/-! ## Batches and their signals -/

/-- When the first of the signals came. -/
def openedAt (ss : List Signal) : Time := (ss.head?.map (·.time)).getD 0

/-- When the last of them came. -/
def closedAt (ss : List Signal) : Time := (ss.getLast?.map (·.time)).getD 0

/-- When a batch of these signals falls due. -/
def dueTime (s : Settings) (ss : List Signal) : Time := min (closedAt ss + s.debounceMs) (openedAt ss + s.maxLagMs)

/-- Its first signal is stale before the window after the last one closes. -/
def Forced (s : Settings) (ss : List Signal) : Prop := openedAt ss + s.maxLagMs < closedAt ss + s.debounceMs

theorem openedAt_append {ss : List Signal} (h : ss ≠ []) (s : Signal) : openedAt (ss ++ [s]) = openedAt ss := by
  cases ss with
  | nil => exact absurd rfl h
  | cons a ss => rfl

theorem closedAt_append (ss : List Signal) (s : Signal) : closedAt (ss ++ [s]) = s.time := by
  simp [closedAt]

/-- The batch is made of these signals. -/
structure Batch.Gathers (b : Batch) (ss : List Signal) : Prop where
  nonempty : ss ≠ []
  opened : b.firstAt = openedAt ss
  last : b.lastAt = closedAt ss
  counted : b.evidence.signals = ss.length
  within : ∀ s ∈ ss, s.dirty.Within b.dirty
  unforced : LaneReason.maxLagForced ∉ b.evidence.reasons

namespace Batch

variable {b : Batch} {ss : List Signal}

theorem gathers_ofSignal (now : Time) (d : DirtySet) : (ofSignal now d).Gathers [⟨now, d⟩] where
  nonempty := nofun
  opened := rfl
  last := rfl
  counted := rfl
  within := fun s hs => by
    obtain rfl := List.mem_singleton.1 hs
    exact DirtySet.within_refl d
  unforced := List.not_mem_nil

theorem Gathers.merge (h : b.Gathers ss) (now : Time) (d : DirtySet) : (b.merge now d).Gathers (ss ++ [⟨now, d⟩]) where
  nonempty := by simp
  opened := by rw [openedAt_append h.nonempty]; exact h.opened
  last := (closedAt_append ss ⟨now, d⟩).symm
  counted := by simp [Batch.merge, Evidence.signals_note, h.counted]
  within := fun s hs => by
    rcases List.mem_append.1 hs with hs | hs
    · exact (h.within s hs).union_left d
    · obtain rfl := List.mem_singleton.1 hs
      exact DirtySet.within_union_right b.dirty d
  unforced := fun hm => by
    rcases Evidence.mem_note.1 hm with hm | hm
    · cases hm
    · exact h.unforced hm

/-- A batch that falls back to everything holds its signals still. -/
theorem Gathers.bound (h : b.Gathers ss) (capacity : Nat) : (b.bound capacity).Gathers ss := by
  unfold Batch.bound
  split
  · exact { h with within := fun s _ => DirtySet.within_markAll s.dirty b.dirty _ }
  · exact h

theorem Gathers.deadline (h : b.Gathers ss) (s : Settings) : b.deadline s = dueTime s ss := by
  rw [Batch.deadline, windowEnd, staleAt, h.opened, h.last]
  rfl

end Batch

/-- What is handed out tells of its signals: their number, their roots, and when it was
due. -/
structure Handed.Faithful (h : Handed) : Prop where
  nonempty : h.signals ≠ []
  counted : h.flush.evidence.signals = h.signals.length
  within : ∀ s ∈ h.signals, s.dirty.Within h.flush.dirty
  onTime : h.exit = .due → h.steady = true → h.time = dueTime h.settings h.signals
  forced : h.exit = .due → (LaneReason.maxLagForced ∈ h.flush.evidence.reasons ↔ Forced h.settings h.signals)

namespace Batch

variable {b : Batch} {ss : List Signal} {exit : Exit} {time : Time} {s : Settings} {steady : Bool}

theorem Gathers.interrupted (h : b.Gathers ss) (hexit : exit ≠ .due) {e : Evidence}
    (he : e.signals = b.interrupted.evidence.signals) :
    Handed.Faithful ⟨exit, time, ⟨b.dirty, e⟩, ss, s, steady⟩ where
  nonempty := h.nonempty
  counted := by rw [← h.counted, he, Batch.interrupted, Evidence.signals_note]
  within := h.within
  onTime := fun he => absurd he hexit
  forced := fun he => absurd he hexit

theorem Gathers.flushed (h : b.Gathers ss) (htime : steady = true → time = b.deadline s) :
    Handed.Faithful ⟨exit, time, b.flushed s, ss, s, steady⟩ where
  nonempty := h.nonempty
  counted := by
    rw [← h.counted, Batch.flushed]
    split
    · exact Evidence.signals_note _ _
    · rfl
  within := h.within
  onTime := fun _ hs => (htime hs).trans (h.deadline s)
  forced := fun _ => by
    have hstale : b.staleAt s < b.windowEnd s ↔ Forced s ss := by
      rw [staleAt, windowEnd, h.opened, h.last]
      exact Iff.rfl
    rw [← hstale, Batch.flushed]
    split
    · rename_i hlt
      exact iff_of_true (Evidence.mem_note.2 (.inl rfl)) hlt
    · rename_i hlt
      exact iff_of_false h.unforced hlt

end Batch

/-! ## Courses keep account -/

namespace Course

variable {c : Course} {past : List Signal}

/-- The batch that waits is made of the signals that wait. -/
def Waits (c : Course) : Prop :=
  match c.lane.pending with
  | none => c.waiting = []
  | some b => b.Gathers c.waiting

/-- The signals so far are those of the batches handed out and those that wait, and no
batch is late. -/
structure Kept (past : List Signal) (c : Course) : Prop where
  shared : c.handed.flatMap (·.signals) ++ c.waiting = past
  faithful : ∀ h ∈ c.handed, h.Faithful
  waits : c.Waits
  timely : ∀ b, c.lane.pending = some b → c.steady = true → c.now ≤ b.deadline c.lane.settings

theorem start_kept (s : Settings) (now : Time) : (start s now).Kept [] :=
  ⟨rfl, nofun, rfl, nofun⟩

theorem Waits.gathers (h : c.Waits) {b : Batch} (hb : c.lane.pending = some b) : b.Gathers c.waiting := by
  unfold Waits at h
  rwa [hb] at h

theorem Waits.nothing (h : c.Waits) (hb : c.lane.pending = none) : c.waiting = [] := by
  unfold Waits at h
  rwa [hb] at h

theorem Waits.nothing_iff (h : c.Waits) : c.waiting = [] ↔ c.lane.pending = none := by
  constructor
  · intro hw
    cases hp : c.lane.pending with
    | none => rfl
    | some b => exact absurd hw (h.gathers hp).nonempty
  · exact h.nothing

/-- The batches count each signal once. -/
theorem Kept.counts (hk : c.Kept past) :
    (c.handed.map (·.flush.evidence.signals)).sum + (c.lane.pending.map (·.evidence.signals)).getD 0 = past.length := by
  have hhanded : c.handed.map (·.flush.evidence.signals) = c.handed.map (·.signals.length) :=
    List.map_congr_left fun h hh => (hk.faithful h hh).counted
  have hwaiting : (c.lane.pending.map (·.evidence.signals)).getD 0 = c.waiting.length := by
    cases hp : c.lane.pending with
    | none => simp [hk.waits.nothing hp]
    | some b => exact (hk.waits.gathers hp).counted
  rw [hhanded, hwaiting, ← hk.shared, List.length_append, List.length_flatMap]

/-- A batch handed out takes its signals with it. -/
theorem Kept.hand (hk : c.Kept past) (exit : Exit) (time : Time) (f : Flush)
    (hf : Handed.Faithful ⟨exit, time, f, c.waiting, c.lane.settings, c.steady⟩) :
    (c.hand exit time f).flatMap (·.signals) = past ∧ ∀ h ∈ c.hand exit time f, h.Faithful := by
  constructor
  · simp [Course.hand, hk.shared]
  · intro h hh
    rcases List.mem_append.1 hh with hh | hh
    · exact hk.faithful h hh
    · exact List.mem_singleton.1 hh ▸ hf

/-- A batch that is opened now is not late. -/
theorem opened_timely (now : Time) (d : DirtySet) (s : Settings) : now ≤ ((Batch.ofSignal now d).bound s.capacity).deadline s := by
  have hg := (Batch.gathers_ofSignal now d).bound s.capacity
  rw [hg.deadline, dueTime]
  simp [openedAt, closedAt]

/-- What a signal does to a lane where nothing waits, to one that merges it, and to one
where the batch that waits has to make way. -/
theorem signal_cases (c : Course) (d : DirtySet) :
    (c.lane.pending = none ∧ c.step (.signal d) =
      { c with
        lane.pending := some ((Batch.ofSignal c.now d).bound c.lane.settings.capacity)
        waiting := c.waiting ++ [⟨c.now, d⟩]
        steady := c.steady || c.waiting.isEmpty }) ∨
    (∃ b, c.lane.pending = some b ∧ c.step (.signal d) =
      { c with
        lane.pending := some ((b.merge c.now d).bound c.lane.settings.capacity)
        waiting := c.waiting ++ [⟨c.now, d⟩]
        steady := c.steady || c.waiting.isEmpty }) ∨
    (∃ b, c.lane.pending = some b ∧ c.step (.signal d) =
      { c with
        lane.pending := some ((Batch.ofSignal c.now d).bound c.lane.settings.capacity)
        handed := c.hand .superseded c.now b.interrupted
        waiting := [⟨c.now, d⟩]
        steady := true }) := by
  simp only [step, Lane.signal]
  cases hp : c.lane.pending with
  | none => exact .inl ⟨rfl, rfl⟩
  | some b =>
    cases hc : c.lane.settings.coalesce with
    | true => exact .inr (.inl ⟨b, rfl, rfl⟩)
    | false => exact .inr (.inr ⟨b, rfl, rfl⟩)

theorem Kept.signal (hk : c.Kept past) (d : DirtySet) : (c.step (.signal d)).Kept (past ++ [⟨c.now, d⟩]) := by
  have hfresh := (Batch.gathers_ofSignal c.now d).bound c.lane.settings.capacity
  rcases c.signal_cases d with ⟨hp, hstep⟩ | ⟨b, hp, hstep⟩ | ⟨b, hp, hstep⟩
  · have hw := hk.waits.nothing hp
    have hs := hk.shared
    rw [hw, List.append_nil] at hs
    rw [hstep]
    refine ⟨by simp [hw, hs], hk.faithful, ?_, fun b hb _ => ?_⟩
    · simpa only [Waits, hw, List.nil_append] using hfresh
    · cases hb
      exact opened_timely c.now d c.lane.settings
  · have hg := hk.waits.gathers hp
    have hmerged := (hg.merge c.now d).bound c.lane.settings.capacity
    rw [hstep]
    refine ⟨by simp [← hk.shared], hk.faithful, hmerged, fun b' hb hsteady => ?_⟩
    cases hb
    have hold : c.steady = true := by simpa [hg.nonempty] using hsteady
    have htime := hk.timely b hp hold
    rw [hg.deadline, dueTime] at htime
    obtain ⟨-, hstale⟩ := le_min_iff.1 htime
    show c.now ≤ Batch.deadline _ c.lane.settings
    rw [hmerged.deadline, dueTime, openedAt_append hg.nonempty, closedAt_append]
    exact le_min (Nat.le_add_right _ _) hstale
  · obtain ⟨hs, hf⟩ := hk.hand .superseded c.now b.interrupted
      ((hk.waits.gathers hp).interrupted (by decide) rfl)
    rw [hstep]
    refine ⟨by rw [← hs], hf, hfresh, fun b' hb _ => ?_⟩
    cases hb
    exact opened_timely c.now d c.lane.settings

theorem Kept.reconfigure (hk : c.Kept past) (s : Settings) : (c.step (.reconfigure s)).Kept past := by
  refine ⟨hk.shared, hk.faithful, hk.waits, fun b hb hsteady => ?_⟩
  simp only [step, Bool.and_eq_true, decide_eq_true_eq] at hsteady
  obtain ⟨hsteady, rfl⟩ := hsteady
  exact hk.timely b hb hsteady

theorem Kept.cancel (hk : c.Kept past) (reason : LaneReason) : (c.step (.cancel reason)).Kept past := by
  unfold step Lane.cancel
  cases hp : c.lane.pending with
  | none => exact ⟨hk.shared, hk.faithful, hk.waits.nothing hp, nofun⟩
  | some b =>
    have hg := hk.waits.gathers hp
    obtain ⟨hs, hf⟩ := hk.hand .canceled c.now ⟨b.dirty, b.interrupted.evidence.note reason⟩
      (hg.interrupted (by decide) (Evidence.signals_note _ _))
    exact ⟨(List.append_nil _).trans hs, hf, rfl, nofun⟩

/-- The clock goes by a batch that is not due before it stops, and hands out any other. -/
theorem advance_cases (c : Course) (ms : Nat) {b : Batch} (hp : c.lane.pending = some b) :
    c.step (.advance ms) = if max (b.deadline c.lane.settings) c.now ≤ c.now + ms then
        { c with lane := { c.lane with pending := none }, now := c.now + ms
                 handed := c.hand .due (max (b.deadline c.lane.settings) c.now) (b.flushed c.lane.settings)
                 waiting := [] }
      else { c with now := c.now + ms } := by
  simp only [step, Lane.advance, dueAt, fire, hp, Option.map_some]
  by_cases hdue : max (b.deadline c.lane.settings) c.now ≤ c.now + ms
  · simp only [hdue, if_true]
  · simp only [hdue, if_false]

theorem Kept.advance (hk : c.Kept past) (ms : Nat) : (c.step (.advance ms)).Kept past := by
  cases hp : c.lane.pending with
  | none =>
    have hstep : c.step (.advance ms) = { c with now := c.now + ms } := by
      simp only [step, Lane.advance, dueAt, hp, Option.map_none]
    rw [hstep]
    exact ⟨hk.shared, hk.faithful, hk.waits, fun b hb => absurd (hp.symm.trans hb) nofun⟩
  | some b =>
    have hg := hk.waits.gathers hp
    rw [advance_cases c ms hp]
    split
    · obtain ⟨hs, hf⟩ := hk.hand .due (max (b.deadline c.lane.settings) c.now) (b.flushed c.lane.settings)
        (hg.flushed fun hsteady => max_eq_left (hk.timely b hp hsteady))
      exact ⟨(List.append_nil _).trans hs, hf, rfl, nofun⟩
    · rename_i hlate
      refine ⟨hk.shared, hk.faithful, hk.waits, fun b' hb _ => ?_⟩
      obtain rfl := Option.some.inj (hp.symm.trans hb)
      have hahead : ¬ b.deadline c.lane.settings ≤ c.now + ms := fun h => hlate (max_le h (Nat.le_add_right _ _))
      exact (not_le.1 hahead).le

/-- Whatever happens to a lane, the account goes on. -/
theorem Kept.step (hk : c.Kept past) (e : Event) : (c.step e).Kept (past ++ signalsFrom c.now [e]) := by
  cases e with
  | signal d => exact hk.signal d
  | reconfigure s => simpa [signalsFrom] using hk.reconfigure s
  | cancel reason => simpa [signalsFrom] using hk.cancel reason
  | advance ms => simpa [signalsFrom] using hk.advance ms

/-- Only the clock's own events move it. -/
theorem signalsFrom_cons (c : Course) (e : Event) (es : List Event) :
    signalsFrom c.now (e :: es) = signalsFrom c.now [e] ++ signalsFrom (c.step e).now es := by
  cases e with
  | signal d =>
    have hnow : (c.step (.signal d)).now = c.now := by unfold Course.step; dsimp only; split <;> rfl
    rw [hnow]
    rfl
  | reconfigure s => rfl
  | cancel reason =>
    have hnow : (c.step (.cancel reason)).now = c.now := by unfold Course.step; dsimp only; split <;> rfl
    rw [hnow]
    rfl
  | advance ms =>
    have hnow : (c.step (.advance ms)).now = c.now + ms := by unfold Course.step; dsimp only; split <;> rfl
    rw [hnow]
    rfl

theorem Kept.run (hk : c.Kept past) (es : List Event) : (c.run es).Kept (past ++ signalsFrom c.now es) := by
  induction es generalizing c past with
  | nil => simpa [Course.run, signalsFrom] using hk
  | cons e es ih =>
    rw [signalsFrom_cons, ← List.append_assoc]
    exact ih (hk.step e)

/-- A steady batch waits until it is due and is then handed out. -/
theorem Kept.awaits (hk : c.Kept past) (hw : c.waiting ≠ []) (hsteady : c.steady = true) :
    c.now ≤ dueTime c.lane.settings c.waiting ∧ ∀ ms,
      (c.now + ms < dueTime c.lane.settings c.waiting →
        (c.step (.advance ms)).handed = c.handed ∧ (c.step (.advance ms)).waiting = c.waiting) ∧
      (dueTime c.lane.settings c.waiting ≤ c.now + ms →
        (c.step (.advance ms)).waiting = [] ∧ ∃ f, (c.step (.advance ms)).handed =
          c.handed ++ [⟨.due, dueTime c.lane.settings c.waiting, f, c.waiting, c.lane.settings, true⟩]) := by
  cases hp : c.lane.pending with
  | none => exact absurd (hk.waits.nothing hp) hw
  | some b =>
    have hdue := (hk.waits.gathers hp).deadline c.lane.settings
    have htime := hk.timely b hp hsteady
    rw [hdue] at htime
    refine ⟨htime, fun ms => ?_⟩
    rw [advance_cases c ms hp, hdue, max_eq_left htime]
    constructor
    · intro hearly
      rw [if_neg (not_le.2 hearly)]
      exact ⟨rfl, rfl⟩
    · intro hreached
      rw [if_pos hreached]
      exact ⟨rfl, b.flushed c.lane.settings, by rw [Course.hand, hsteady]⟩

/-- The batches a lane hands out and the one that waits share out the signals, in order:
the counts add up, each root lies under one of its batch, and each batch left to itself
under one and the same settings is handed out when its window closes or its first signal
is stale, and says which it was. -/
theorem run_shares_signals (s : Settings) (now : Time) (es : List Event) :
    let c := (start s now).run es
    c.handed.flatMap (·.signals) ++ c.waiting = signalsFrom now es ∧
    (c.handed.map (·.flush.evidence.signals)).sum + (c.lane.pending.map (·.evidence.signals)).getD 0 =
      (signalsFrom now es).length ∧
    (∀ h ∈ c.handed, h.signals ≠ [] ∧ h.flush.evidence.signals = h.signals.length ∧
      (∀ s ∈ h.signals, s.dirty.Within h.flush.dirty) ∧
      (h.exit = .due → (h.steady = true → h.time = dueTime h.settings h.signals) ∧
        (LaneReason.maxLagForced ∈ h.flush.evidence.reasons ↔ Forced h.settings h.signals))) ∧
    (c.waiting = [] ↔ c.lane.pending = none) ∧
    (∀ b, c.lane.pending = some b → b.evidence.signals = c.waiting.length ∧
      ∀ s ∈ c.waiting, s.dirty.Within b.dirty) ∧
    (c.waiting ≠ [] → c.steady = true → c.now ≤ dueTime c.lane.settings c.waiting ∧ ∀ ms,
      (c.now + ms < dueTime c.lane.settings c.waiting →
        (c.step (.advance ms)).handed = c.handed ∧ (c.step (.advance ms)).waiting = c.waiting) ∧
      (dueTime c.lane.settings c.waiting ≤ c.now + ms →
        (c.step (.advance ms)).waiting = [] ∧ ∃ f, (c.step (.advance ms)).handed =
          c.handed ++ [⟨.due, dueTime c.lane.settings c.waiting, f, c.waiting, c.lane.settings, true⟩])) := by
  intro c
  have hk : c.Kept (signalsFrom now es) := (start_kept s now).run es
  refine ⟨hk.shared, hk.counts, fun h hh => ?_, hk.waits.nothing_iff, fun b hb => ?_, hk.awaits⟩
  · have hf := hk.faithful h hh
    exact ⟨hf.nonempty, hf.counted, hf.within, fun hdue => ⟨hf.onTime hdue, hf.forced hdue⟩⟩
  · have hg := hk.waits.gathers hb
    exact ⟨hg.counted, hg.within⟩

/-- Two signals, ten milliseconds apart: the window of fifty closes before the first of
them is stale, and the batch is handed out at sixty. -/
theorem run_waits_for_the_window :
    let c := (start ⟨50, 200, true, 8⟩ 0).run
      [.signal (.ofPaths [⟨["a"], nofun⟩]), .advance 10, .signal (.ofPaths [⟨["b"], nofun⟩])]
    c.waiting.length = 2 ∧ c.steady = true ∧ dueTime c.lane.settings c.waiting = 60 ∧
    (c.step (.advance 49)).waiting = c.waiting ∧
    (c.step (.advance 50)).waiting = [] ∧ ∃ f, (c.step (.advance 50)).handed =
      [⟨.due, 60, f, c.waiting, c.lane.settings, true⟩] := by
  intro c
  have hwaiting : c.waiting ≠ [] := nofun
  have hdue : dueTime c.lane.settings c.waiting = 60 := rfl
  obtain ⟨-, -, -, -, -, hawaits⟩ := run_shares_signals ⟨50, 200, true, 8⟩ 0
    [.signal (.ofPaths [⟨["a"], nofun⟩]), .advance 10, .signal (.ofPaths [⟨["b"], nofun⟩])]
  obtain ⟨-, hclock⟩ := hawaits hwaiting rfl
  obtain ⟨-, hearly⟩ := (hclock 49).1 (by decide)
  obtain ⟨hgone, f, hhanded⟩ := (hclock 50).2 (by decide)
  exact ⟨rfl, rfl, hdue, hearly, hgone, f, hhanded⟩

end Course

end Lane

end Settle
