/-
  Settle.Proofs.Watcher — a watcher handles each payload it accepts once (see
  `Settle.Watcher`).

  A turn of a watcher is a run of rounds, each of which takes one payload at most
  (`turn_eq_rounds`). Between two rounds anything else may happen to the watcher: a
  payload is offered, a handler goes on, ends well, fails or panics, what ended is counted,
  the watcher is cancelled, its senders go. A history is the watcher after such moves,
  in any order, with the payloads it accepted and those it started, each in order.

  Proved of every history (`handled_once`):
  (1) the payloads started are the first of those accepted, in their order;
  (2) unless it was cancelled or found the engine gone, nothing accepted is lost: what is
      not started waits, each round that finds a permit starts the first that waits, a
      turn stops short of an empty queue only with every permit in flight, and a watcher
      that no longer works has started them all;
  (3) no more handlers are in flight than the limit permits, and no more payloads wait
      than the queue holds;
  (4) how handlers end changes nothing but the counts of how they ended;
  (5) nothing is started after a cancellation;
  (6) once stopped, it has counted an end for each handler it started.
-/

import Mathlib.Data.List.Nodup
import Settle.Watcher

namespace Settle.Watcher

/-! ## Rounds -/

/-- One round of a turn: take the first payload that waits, if a handler may start. -/
def round (alive : Bool) (w : Watcher) : Turned :=
  match w.phase with
  | .stopped => ⟨w, [], []⟩
  | .stopping => ⟨w.windUp.2, w.windUp.1, []⟩
  | .working =>
    if w.cancelled then ⟨w.abort.windUp.2, w.abort.windUp.1, []⟩
    else if !w.free then ⟨w, [], []⟩
    else
      match w.queue with
      | [] => if w.hasSender then ⟨w, [], []⟩ else ⟨w.windUp.2, w.windUp.1, []⟩
      | payload :: rest =>
        let v := { w with queue := rest }
        if alive then ⟨(v.spawn payload).report.2, (v.spawn payload).report.1, [w.stats.dispatched]⟩
        else ⟨v.windUp.2, v.windUp.1, []⟩

def rounds (alive : Bool) : Nat → Watcher → Turned
  | 0, w => ⟨w, [], []⟩
  | n + 1, w =>
    let first := w.round alive
    let more := rounds alive n first.watcher
    ⟨more.watcher, first.events ++ more.events, first.started ++ more.started⟩

/-- Rounds that find the watcher at rest leave it so. -/
theorem rounds_rest {w : Watcher} {alive : Bool} (h : w.round alive = ⟨w, [], []⟩) :
    ∀ n, rounds alive n w = ⟨w, [], []⟩ := by
  intro n
  induction n with
  | zero => rfl
  | succ n ih => simp only [rounds, h, ih, List.append_nil]

theorem round_windUp (w : Watcher) (alive : Bool) : w.windUp.2.round alive = ⟨w.windUp.2, [], []⟩ := by
  by_cases hr : w.running.isEmpty
  · simp [windUp, report, round, hr]
  · simp [windUp, report, round, hr]

theorem rounds_wound {w v : Watcher} {alive : Bool} (h : w.round alive = ⟨v.windUp.2, v.windUp.1, []⟩) (n : Nat) :
    rounds alive (n + 1) w = ⟨v.windUp.2, v.windUp.1, []⟩ := by
  simp only [rounds, h, rounds_rest (round_windUp v alive) n, List.append_nil]

theorem take_eq_rounds {alive : Bool} {queue : List Value} {w : Watcher} (hp : w.phase = .working)
    (hc : w.cancelled = false) :
    take alive queue w = rounds alive (queue.length + 1) { w with queue := queue } := by
  induction queue generalizing w with
  | nil =>
    by_cases hidle : w.free && !w.hasSender
    · obtain ⟨hf, hs⟩ := Bool.and_eq_true_iff.1 hidle
      have hround : { w with queue := [] }.round alive
          = ⟨{ w with queue := [] }.windUp.2, { w with queue := [] }.windUp.1, []⟩ := by
        simp_all [round, free, hasSender]
      rw [take, rounds_wound hround]
      simp_all [free, hasSender]
    · have hround : { w with queue := [] }.round alive = ⟨{ w with queue := [] }, [], []⟩ := by
        simp_all [round, free, hasSender]
      rw [take, rounds_rest hround]
      simp_all [free, hasSender]
  | cons payload rest ih =>
    by_cases hf : w.free
    swap
    · have hround : { w with queue := payload :: rest }.round alive = ⟨{ w with queue := payload :: rest }, [], []⟩ := by
        simp_all [round, free]
      rw [take, rounds_rest hround]
      simp [hf]
    cases alive with
    | false =>
      have hround : { w with queue := payload :: rest }.round false
          = ⟨{ w with queue := rest }.windUp.2, { w with queue := rest }.windUp.1, []⟩ := by
        simp_all [round, free]
      rw [take, rounds_wound hround]
      simp [hf]
    | true =>
      have hround : { w with queue := payload :: rest }.round true
          = ⟨{ (w.spawn payload).report.2 with queue := rest }, (w.spawn payload).report.1, [w.stats.dispatched]⟩ := by
        simp_all [round, free, spawn, report]
        rfl
      have hnext := @ih (w.spawn payload).report.2 (by simpa [spawn, report] using hp) (by simpa [spawn, report] using hc)
      rw [take, List.length_cons, rounds, hround]
      simp only [hf, Bool.not_true, Bool.false_eq_true, if_false, hnext]
      rfl

/-- A turn is a round for each payload that waits, and one more. -/
theorem turn_eq_rounds (w : Watcher) (alive : Bool) : w.turn alive = rounds alive (w.queue.length + 1) w := by
  cases hp : w.phase with
  | stopped =>
    have hround : w.round alive = ⟨w, [], []⟩ := by simp [round, hp]
    rw [rounds_rest hround]
    simp [turn, hp]
  | stopping =>
    have hround : w.round alive = ⟨w.windUp.2, w.windUp.1, []⟩ := by simp [round, hp]
    rw [rounds_wound hround]
    simp [turn, hp]
  | working =>
    cases hc : w.cancelled with
    | true =>
      have hround : w.round alive = ⟨w.abort.windUp.2, w.abort.windUp.1, []⟩ := by simp [round, hp, hc]
      rw [rounds_wound hround]
      simp [turn, hp, hc]
    | false =>
      rw [← take_eq_rounds hp hc]
      simp [turn, hp, hc]

/-- All that a round can do. -/
inductive RoundOf (alive : Bool) (w : Watcher) : Turned → Prop
  | stopped (hp : w.phase = .stopped) : RoundOf alive w ⟨w, [], []⟩
  | stopping (hp : w.phase = .stopping) : RoundOf alive w ⟨w.windUp.2, w.windUp.1, []⟩
  | interrupted (hp : w.phase = .working) (hc : w.cancelled = true) :
      RoundOf alive w ⟨w.abort.windUp.2, w.abort.windUp.1, []⟩
  /-- It waits for a handler to end. -/
  | full (hp : w.phase = .working) (hc : w.cancelled = false) (hf : w.free = false) : RoundOf alive w ⟨w, [], []⟩
  /-- It waits for a payload. -/
  | empty (hp : w.phase = .working) (hc : w.cancelled = false) (hf : w.free = true) (hq : w.queue = [])
      (hs : w.hasSender = true) : RoundOf alive w ⟨w, [], []⟩
  | deserted (hp : w.phase = .working) (hc : w.cancelled = false) (hf : w.free = true) (hq : w.queue = [])
      (hs : w.hasSender = false) : RoundOf alive w ⟨w.windUp.2, w.windUp.1, []⟩
  | orphaned {payload : Value} {rest : List Value} (hp : w.phase = .working) (hc : w.cancelled = false)
      (hf : w.free = true) (hq : w.queue = payload :: rest) (ha : alive = false) :
      RoundOf alive w ⟨{ w with queue := rest }.windUp.2, { w with queue := rest }.windUp.1, []⟩
  | starts {payload : Value} {rest : List Value} (hp : w.phase = .working) (hc : w.cancelled = false)
      (hf : w.free = true) (hq : w.queue = payload :: rest) (ha : alive = true) :
      RoundOf alive w ⟨({ w with queue := rest }.spawn payload).report.2,
        ({ w with queue := rest }.spawn payload).report.1, [w.stats.dispatched]⟩

theorem round_cases (alive : Bool) (w : Watcher) : RoundOf alive w (w.round alive) := by
  unfold round
  split
  · exact .stopped ‹_›
  · exact .stopping ‹_›
  · rename_i hp
    split
    · exact .interrupted hp ‹_›
    rename_i hc
    have hc := Bool.eq_false_iff.2 hc
    split
    · rename_i hf
      exact .full hp hc (by simpa using hf)
    rename_i hf
    have hf : w.free = true := by simpa using hf
    split
    · rename_i hq
      split
      · exact .empty hp hc hf hq ‹_›
      · exact .deserted hp hc hf hq (Bool.eq_false_iff.2 ‹_›)
    · rename_i payload rest hq
      split
      · exact .starts hp hc hf hq ‹_›
      · exact .orphaned hp hc hf hq (Bool.eq_false_iff.2 ‹_›)

theorem RoundOf.eq {alive : Bool} {w : Watcher} {t : Turned} (h : RoundOf alive w t) : w.round alive = t := by
  cases h with
  | stopped hp | stopping hp => simp [round, hp]
  | interrupted hp hc => simp [round, hp, hc]
  | full hp hc hf => simp [round, hp, hc, hf]
  | empty hp hc hf hq hs | deserted hp hc hf hq hs => simp [round, hp, hc, hf, hq, hs]
  | orphaned hp hc hf hq ha | starts hp hc hf hq ha => simp [round, hp, hc, hf, hq, ha]

/-! ## Histories -/

/-- The payloads of the handlers a turn started. -/
def Turned.payloads (t : Turned) : List Value := (t.watcher.running.filter (·.id ∈ t.started)).map (·.payload)

/-- A watcher, with the payloads it accepted and those it started. -/
structure History where
  watcher : Watcher
  accepted : List Value
  started : List Value

/-- What can happen to a watcher. -/
inductive Move where
  /-- A sender offers a payload; without a sender there is none. -/
  | offer (payload : Value)
  | round (alive : Bool)
  /-- A handler goes on, to the next sleep. -/
  | goOn (h : Handler)
  /-- A handler in flight ends. -/
  | ended (id : Nat) (r : HandlerEnd)
  /-- What ended is counted. -/
  | count
  | cancel
  /-- Whoever started the watcher gives up the way to send to it. -/
  | detach
  /-- The engine does. -/
  | unregister

namespace History

def ofWatcher (w : Watcher) : History := ⟨w, [], []⟩

def move (x : History) : Move → History
  | .offer payload =>
    if x.watcher.hasSender then
      match x.watcher.offer payload with
      | .ok w => { x with watcher := w, accepted := x.accepted ++ [payload] }
      | .error _ => x
    else x
  | .round alive =>
    let t := x.watcher.round alive
    { x with watcher := t.watcher, started := x.started ++ t.payloads }
  | .goOn h => { x with watcher := x.watcher.putHandler h }
  | .ended id r =>
    if x.watcher.running.any (·.id = id) then { x with watcher := x.watcher.handlerEnded id r } else x
  | .count => { x with watcher := x.watcher.report.2 }
  | .cancel => { x with watcher := { x.watcher with cancelled := true } }
  | .detach => { x with watcher := { x.watcher with attached := false } }
  | .unregister => { x with watcher := { x.watcher with registered := false } }

def play (x : History) (moves : List Move) : History := moves.foldl move x

end History

theorem windUp_cases (w : Watcher) :
    w.running = [] ∧ w.windUp.2 = { w.report.2 with phase := .stopped, queue := [] }
      ∨ w.running ≠ [] ∧ w.windUp.2 = { w.report.2 with phase := .stopping } := by
  by_cases hr : w.running = []
  · exact .inl ⟨hr, by simp [windUp, report, hr]⟩
  · exact .inr ⟨hr, by simp [windUp, report, List.isEmpty_eq_false_iff.2 hr]⟩

theorem offer_ok {w v : Watcher} {payload : Value} (h : w.offer payload = .ok v) :
    v = w.push payload ∧ w.phase ≠ .stopped ∧ w.queue.length < w.capacity := by
  unfold offer at h
  split at h
  · cases h
  rename_i hopen
  split at h
  · cases h
  rename_i hroom
  refine ⟨(Except.ok.inj h).symm, fun hs => hopen (decide_eq_true hs), ?_⟩
  exact Nat.lt_of_not_le fun hle => hroom (decide_eq_true hle)

namespace History

theorem move_offer (x : History) (payload : Value) :
    x.move (.offer payload) = x
      ∨ x.watcher.hasSender = true ∧ x.watcher.phase ≠ .stopped ∧ x.watcher.queue.length < x.watcher.capacity
        ∧ x.move (.offer payload) = { x with watcher := x.watcher.push payload, accepted := x.accepted ++ [payload] } := by
  simp only [move]
  split
  · rename_i hsend
    split
    · rename_i v hv
      obtain ⟨rfl, hopen, hroom⟩ := offer_ok hv
      exact .inr ⟨hsend, hopen, hroom, rfl⟩
    · exact .inl rfl
  · exact .inl rfl

theorem move_ended (x : History) (id : Nat) (r : HandlerEnd) :
    x.move (.ended id r) = x
      ∨ x.watcher.running.any (·.id = id) = true
        ∧ x.move (.ended id r) = { x with watcher := x.watcher.handlerEnded id r } := by
  simp only [move]
  split
  · exact .inr ⟨‹_›, rfl⟩
  · exact .inl rfl

end History

/-! ## What every move keeps of the watcher -/

/-- Handlers are accounted for, numbered apart and permitted; payloads have room. -/
structure Sane (w : Watcher) : Prop where
  balance : w.stats.dispatched
    = w.stats.completed + w.stats.failed + w.stats.cancelled + w.running.length + w.ended.length
  fresh : ∀ h ∈ w.running, h.id < w.stats.dispatched
  distinct : (w.running.map (·.id)).Nodup
  permitted : ∀ n, w.policy.limit.permits = some n → w.running.length ≤ n
  room : w.queue.length ≤ w.capacity
  done : w.phase = .stopped → w.running = [] ∧ w.ended = [] ∧ w.queue = []

theorem start_sane (id : Nat) (key : Key) (action label : String) (target : Key) (acts : List Act)
    (policy : Policy.Concurrency) : (start id key action label target acts policy).Sane where
  balance := rfl
  fresh := nofun
  distinct := .nil
  permitted := fun _ _ => Nat.zero_le _
  room := Nat.zero_le _
  done := nofun

theorem count_stats (s : WatcherStats) (r : HandlerEnd) :
    (count s r).dispatched = s.dispatched ∧ (count s r).cancelled = s.cancelled
      ∧ (count s r).completed + (count s r).failed = s.completed + s.failed + 1 := by
  cases r with
  | completed => exact ⟨rfl, rfl, Nat.add_right_comm ..⟩
  | failed message downgrade => exact ⟨rfl, rfl, rfl⟩

theorem foldl_count_stats (ended : List HandlerEnd) (s : WatcherStats) :
    (ended.foldl count s).dispatched = s.dispatched ∧ (ended.foldl count s).cancelled = s.cancelled
      ∧ (ended.foldl count s).completed + (ended.foldl count s).failed = s.completed + s.failed + ended.length := by
  induction ended generalizing s with
  | nil => exact ⟨rfl, rfl, rfl⟩
  | cons r ended ih =>
    obtain ⟨hd, hc, hsum⟩ := ih (count s r)
    obtain ⟨hd', hc', hsum'⟩ := count_stats s r
    refine ⟨hd.trans hd', hc.trans hc', ?_⟩
    rw [List.foldl_cons, hsum, hsum', List.length_cons]
    omega

theorem Sane.report {w : Watcher} (h : w.Sane) : w.report.2.Sane := by
  obtain ⟨hd, hc, hsum⟩ := foldl_count_stats w.ended w.stats
  refine ⟨?_, ?_, h.distinct, h.permitted, h.room, fun hs => ⟨(h.done hs).1, rfl, (h.done hs).2.2⟩⟩
  · have hb := h.balance
    simp only [Watcher.report, List.length_nil, hd, hc]
    omega
  · intro k hk
    simpa only [Watcher.report, hd] using h.fresh k hk

theorem Sane.windUp {w : Watcher} (h : w.Sane) : w.windUp.2.Sane := by
  have hr := h.report
  rcases windUp_cases w with ⟨hempty, he⟩ | ⟨-, he⟩
  · rw [he]
    exact ⟨hr.balance, hr.fresh, hr.distinct, hr.permitted, Nat.zero_le _, fun _ => ⟨hempty, rfl, rfl⟩⟩
  · rw [he]
    exact ⟨hr.balance, hr.fresh, hr.distinct, hr.permitted, hr.room, nofun⟩

theorem Sane.abort {w : Watcher} (h : w.Sane) : w.abort.Sane := by
  refine ⟨?_, nofun, .nil, fun _ _ => Nat.zero_le _, h.room, fun hs => ⟨rfl, (h.done hs).2⟩⟩
  have hb := h.balance
  simp only [Watcher.abort, List.length_nil]
  omega

theorem Sane.next {w : Watcher} (h : w.Sane) {payload : Value} {rest : List Value} (hq : w.queue = payload :: rest) :
    Sane { w with queue := rest } := by
  refine ⟨h.balance, h.fresh, h.distinct, h.permitted, ?_, fun hs => ?_⟩
  · have hroom := h.room
    rw [hq, List.length_cons] at hroom
    exact Nat.le_of_succ_le hroom
  · have hnil := (h.done hs).2.2
    rw [hq] at hnil
    cases hnil

theorem running_lt {w : Watcher} (hf : w.free = true) {n : Nat} (hn : w.policy.limit.permits = some n) :
    w.running.length < n := by
  unfold free at hf
  rw [hn] at hf
  exact of_decide_eq_true hf

theorem Sane.spawn {w : Watcher} (h : w.Sane) (hp : w.phase = .working) (hf : w.free = true) (payload : Value) :
    (w.spawn payload).Sane := by
  refine ⟨?_, ?_, ?_, ?_, h.room, fun hs => ?_⟩
  · have hb := h.balance
    simp only [Watcher.spawn, List.length_append, List.length_singleton]
    omega
  · intro k hk
    rcases List.mem_append.1 hk with hk | hk
    · exact Nat.lt_succ_of_lt (h.fresh k hk)
    · cases List.mem_singleton.1 hk
      exact Nat.lt_succ_self _
  · simp only [Watcher.spawn, List.map_append, List.map_cons, List.map_nil]
    refine List.nodup_append.2 ⟨h.distinct, List.nodup_singleton _, ?_⟩
    rintro a ha b hb rfl
    obtain ⟨k, hk, hid⟩ := List.mem_map.1 ha
    exact absurd (h.fresh k hk) (by rw [hid, List.mem_singleton.1 hb]; exact Nat.lt_irrefl _)
  · intro n hn
    have hlt := running_lt hf hn
    simp only [Watcher.spawn, List.length_append, List.length_singleton]
    omega
  · rw [show (w.spawn payload).phase = w.phase from rfl, hp] at hs
    cases hs

theorem Sane.round {w : Watcher} (h : w.Sane) (alive : Bool) : (w.round alive).watcher.Sane := by
  have hcases := round_cases alive w
  generalize w.round alive = t at hcases
  cases hcases with
  | stopped | full | empty => exact h
  | stopping | deserted => exact h.windUp
  | interrupted => exact h.abort.windUp
  | orphaned _ _ _ hq => exact (h.next hq).windUp
  | starts hp _ hf hq => exact ((h.next hq).spawn hp hf _).report

theorem Sane.push {w : Watcher} (h : w.Sane) (hopen : w.phase ≠ .stopped) (hroom : w.queue.length < w.capacity)
    (payload : Value) : (w.push payload).Sane := by
  refine ⟨h.balance, h.fresh, h.distinct, h.permitted, ?_, fun hs => absurd hs hopen⟩
  show (w.queue ++ [payload]).length ≤ w.capacity
  rw [List.length_append, List.length_singleton]
  exact hroom

theorem running_without {running : List Handler} {id : Nat} (hd : (running.map (·.id)).Nodup)
    (hm : running.any (·.id = id) = true) : (running.filter (·.id ≠ id)).length + 1 = running.length := by
  obtain ⟨k, hk, hid⟩ := List.any_eq_true.1 hm
  have hone : running.countP (·.id = id) = 1 := by
    have hcount : (running.map (·.id)).count id = 1 :=
      List.count_eq_one_of_mem hd (List.mem_map.2 ⟨k, hk, of_decide_eq_true hid⟩)
    rw [List.count, List.countP_map] at hcount
    exact hcount
  have hsplit := List.length_eq_countP_add_countP (fun k : Handler => decide (k.id = id)) (l := running)
  rw [hone] at hsplit
  rw [← List.countP_eq_length_filter, hsplit, Nat.add_comm]
  congr 1
  exact List.countP_congr (by simp)

theorem Sane.handlerEnded {w : Watcher} (h : w.Sane) {id : Nat} (hm : w.running.any (·.id = id) = true) (r : HandlerEnd) :
    (w.handlerEnded id r).Sane := by
  have hlen := running_without h.distinct hm
  have hsub : (w.running.filter (·.id ≠ id)).Sublist w.running := List.filter_sublist
  refine ⟨?_, fun k hk => h.fresh k (hsub.mem hk), h.distinct.sublist (hsub.map _),
    fun n hn => Nat.le_trans hsub.length_le (h.permitted n hn), h.room, fun hs => ?_⟩
  · have hb := h.balance
    simp only [Watcher.handlerEnded, List.length_append, List.length_singleton]
    omega
  · rw [(h.done hs).1] at hm
    cases hm

theorem putHandler_ids (w : Watcher) (k : Handler) : (w.putHandler k).running.map (·.id) = w.running.map (·.id) := by
  rw [putHandler, List.map_map]
  refine List.map_congr_left fun l _ => ?_
  by_cases he : l.id = k.id
  · rw [Function.comp_apply, if_pos he, he]
  · rw [Function.comp_apply, if_neg he]

theorem Sane.putHandler {w : Watcher} (h : w.Sane) (k : Handler) : (w.putHandler k).Sane := by
  have hids := putHandler_ids w k
  have hlen : (w.putHandler k).running.length = w.running.length := List.length_map _
  refine ⟨?_, ?_, hids ▸ h.distinct, fun n hn => hlen ▸ h.permitted n hn, h.room, fun hs => ⟨?_, (h.done hs).2⟩⟩
  · rw [hlen]
    exact h.balance
  · intro l hl
    have hm : l.id ∈ w.running.map (·.id) := hids ▸ List.mem_map_of_mem hl
    obtain ⟨l', hl', he⟩ := List.mem_map.1 hm
    exact he ▸ h.fresh l' hl'
  · rw [← List.length_eq_zero_iff, hlen, (h.done hs).1]
    rfl

theorem Sane.move {x : History} (h : x.watcher.Sane) (m : Move) : (x.move m).watcher.Sane := by
  cases m with
  | offer payload =>
    rcases x.move_offer payload with he | ⟨-, hopen, hroom, he⟩
    · rw [he]
      exact h
    · rw [he]
      exact h.push hopen hroom payload
  | round alive => exact h.round alive
  | goOn k => exact h.putHandler k
  | ended id r =>
    rcases x.move_ended id r with he | ⟨hm, he⟩
    · rw [he]
      exact h
    · rw [he]
      exact h.handlerEnded hm r
  | count => exact h.report
  | cancel | detach | unregister => exact ⟨h.balance, h.fresh, h.distinct, h.permitted, h.room, h.done⟩

/-! ## What every history keeps -/

theorem Turned.payloads_nil (w : Watcher) (events : List Event) : Turned.payloads ⟨w, events, []⟩ = [] := by
  simp only [Turned.payloads, List.not_mem_nil, decide_false, List.filter_false, List.map_nil]

theorem Turned.payloads_spawn {w : Watcher} (h : w.Sane) (payload : Value) (events : List Event) :
    Turned.payloads ⟨(w.spawn payload).report.2, events, [w.stats.dispatched]⟩ = [payload] := by
  have hold : w.running.filter (·.id ∈ [w.stats.dispatched]) = [] := by
    refine List.filter_eq_nil_iff.2 fun k hk hm => ?_
    have he := List.mem_singleton.1 (of_decide_eq_true hm)
    exact Nat.lt_irrefl _ (he ▸ h.fresh k hk)
  show ((w.running ++ [_]).filter _).map _ = _
  rw [List.filter_append, hold]
  simp

theorem report_dispatched (w : Watcher) : w.report.2.stats.dispatched = w.stats.dispatched :=
  (foldl_count_stats w.ended w.stats).1

/-- Winding up changes the phase, what is counted as ended, and the queue at the most. -/
theorem windUp_frame (w : Watcher) :
    w.windUp.2.phase ≠ .working ∧ w.windUp.2.stats.dispatched = w.stats.dispatched ∧ w.windUp.2.policy = w.policy
      ∧ w.windUp.2.cancelled = w.cancelled ∧ w.windUp.2.hasSender = w.hasSender
      ∧ (w.queue = [] → w.windUp.2.queue = []) := by
  rcases windUp_cases w with ⟨-, he⟩ | ⟨-, he⟩
  · rw [he]
    exact ⟨nofun, report_dispatched w, rfl, rfl, rfl, fun _ => rfl⟩
  · rw [he]
    exact ⟨nofun, report_dispatched w, rfl, rfl, rfl, fun hq => hq⟩

namespace History

/-- The payloads started are the first of those accepted; while the watcher works, the
others wait. -/
structure Kept (x : History) : Prop where
  sane : x.watcher.Sane
  counted : x.watcher.stats.dispatched = x.started.length
  order : x.started <+: x.accepted
  waiting : x.watcher.phase = .working → x.accepted = x.started ++ x.watcher.queue

theorem windUp_started (x : History) (w : Watcher) (events : List Event) :
    x.started ++ Turned.payloads ⟨w.windUp.2, events, []⟩ = x.started := by
  rw [Turned.payloads_nil, List.append_nil]

/-- A round that winds the watcher up starts nothing. -/
theorem Kept.wound {x : History} (h : x.Kept) {w : Watcher} (hs : w.Sane)
    (hd : w.stats.dispatched = x.watcher.stats.dispatched) (events : List Event) :
    Kept { x with watcher := w.windUp.2, started := x.started ++ Turned.payloads ⟨w.windUp.2, events, []⟩ } := by
  obtain ⟨hphase, hdispatched, -⟩ := windUp_frame w
  rw [windUp_started]
  exact ⟨hs.windUp, (hdispatched.trans hd).trans h.counted, h.order, fun hp => absurd hp hphase⟩

theorem Kept.round {x : History} (h : x.Kept) (alive : Bool) : (x.move (.round alive)).Kept := by
  have hsane := h.sane
  have hcases := round_cases alive x.watcher
  simp only [move]
  generalize x.watcher.round alive = t at hcases
  cases hcases with
  | stopped | full | empty =>
    simp only [Turned.payloads_nil, List.append_nil]
    exact h
  | stopping | deserted => exact h.wound hsane rfl _
  | interrupted => exact h.wound hsane.abort rfl _
  | orphaned _ _ _ hq => exact h.wound (hsane.next hq) rfl _
  | @starts payload rest hp _ hf hq =>
    have hnext := hsane.next hq
    have hacc : x.accepted = x.started ++ [payload] ++ rest := by
      rw [h.waiting hp, hq, List.append_assoc]
      rfl
    rw [Turned.payloads_spawn hnext payload]
    refine ⟨(hnext.spawn hp hf payload).report, ?_, ⟨rest, hacc.symm⟩, fun _ => hacc⟩
    rw [report_dispatched, List.length_append, List.length_singleton, ← h.counted]
    rfl

theorem Kept.move {x : History} (h : x.Kept) (m : Move) : (x.move m).Kept := by
  have hsane := h.sane.move m
  cases m with
  | offer payload =>
    rcases x.move_offer payload with he | ⟨-, -, -, he⟩
    · rw [he]
      exact h
    · rw [he] at hsane ⊢
      refine ⟨hsane, h.counted, h.order.trans (List.prefix_append ..), fun hp => ?_⟩
      show x.accepted ++ [payload] = x.started ++ (x.watcher.queue ++ [payload])
      rw [h.waiting hp, List.append_assoc]
  | round alive => exact h.round alive
  | ended id r =>
    rcases x.move_ended id r with he | ⟨-, he⟩
    · rw [he]
      exact h
    · rw [he] at hsane ⊢
      exact ⟨hsane, h.counted, h.order, h.waiting⟩
  | count => exact ⟨hsane, (report_dispatched x.watcher).trans h.counted, h.order, h.waiting⟩
  | goOn | cancel | detach | unregister => exact ⟨hsane, h.counted, h.order, h.waiting⟩

/-- What each move keeps of a history, a run of moves keeps. -/
theorem play_keeps {P : History → Prop} {Q : Move → Prop} (hstep : ∀ x m, Q m → P x → P (x.move m)) {moves : List Move}
    (hm : ∀ m ∈ moves, Q m) {x : History} (h : P x) : P (x.play moves) := by
  induction moves generalizing x with
  | nil => exact h
  | cons m moves ih =>
    exact ih (fun m' hm' => hm m' (List.mem_cons_of_mem _ hm')) (hstep x m (hm m List.mem_cons_self) h)

theorem Kept.play {x : History} (h : x.Kept) (moves : List Move) : (x.play moves).Kept :=
  play_keeps (Q := fun _ => True) (fun _ m _ hx => hx.move m) (fun _ _ => trivial) h

/-- A watcher keeps the policy it started under. -/
theorem move_policy (x : History) (m : Move) : (x.move m).watcher.policy = x.watcher.policy := by
  cases m with
  | offer payload =>
    rcases x.move_offer payload with he | ⟨-, -, -, he⟩
    · rw [he]
    · rw [he]
      rfl
  | round alive =>
    have hcases := round_cases alive x.watcher
    simp only [move]
    generalize x.watcher.round alive = t at hcases
    cases hcases with
    | stopped | full | empty | starts => rfl
    | stopping | deserted | interrupted | orphaned => exact (windUp_frame _).2.2.1
  | ended id r =>
    rcases x.move_ended id r with he | ⟨-, he⟩
    · rw [he]
    · rw [he]
      rfl
  | goOn | count | cancel | detach | unregister => rfl

theorem play_policy (x : History) (moves : List Move) : (x.play moves).watcher.policy = x.watcher.policy :=
  play_keeps (P := fun y => y.watcher.policy = x.watcher.policy) (Q := fun _ => True)
    (fun y m _ hy => (move_policy y m).trans hy) (fun _ _ => trivial) rfl

/-! ## Histories without a cancellation -/

end History

/-- The move neither cancels the watcher nor takes the engine from it. -/
def Move.gentle : Move → Bool
  | .cancel => false
  | .round alive => alive
  | _ => true

namespace History

/-- Nothing accepted is lost; only a watcher that nobody can send to stops working, with
nothing left that waits. -/
structure Whole (x : History) : Prop where
  kept : x.Kept
  going : x.watcher.cancelled = false
  all : x.accepted = x.started ++ x.watcher.queue
  left : x.watcher.phase ≠ .working → x.watcher.hasSender = false ∧ x.watcher.queue = []

theorem Whole.wound {x : History} (h : x.Whole) (hk : (x.move (.round true)).Kept) (hq : x.watcher.queue = [])
    (hs : x.watcher.hasSender = false) (hr : x.watcher.round true = ⟨x.watcher.windUp.2, x.watcher.windUp.1, []⟩) :
    (x.move (.round true)).Whole := by
  obtain ⟨-, -, -, hgoing, hsender, hqueue⟩ := windUp_frame x.watcher
  simp only [move, hr, windUp_started] at hk ⊢
  refine ⟨hk, hgoing.trans h.going, ?_, fun _ => ⟨hsender.trans hs, hqueue hq⟩⟩
  rw [hqueue hq, ← hq]
  exact h.all

theorem Whole.round {x : History} (h : x.Whole) : (x.move (.round true)).Whole := by
  have hk := h.kept.round true
  have hcases := round_cases true x.watcher
  generalize ht : x.watcher.round true = t at hcases
  cases hcases with
  | stopped | full | empty =>
    have hx : x.move (.round true) = x := by
      simp only [move, ht, Turned.payloads_nil, List.append_nil]
    rw [hx]
    exact h
  | stopping hp =>
    obtain ⟨hs, hq⟩ := h.left (by rw [hp]; nofun)
    exact h.wound hk hq hs ht
  | deserted _ _ _ hq hs => exact h.wound hk hq hs ht
  | interrupted _ hc => exact absurd (hc.symm.trans h.going) nofun
  | orphaned _ _ _ _ ha => cases ha
  | starts hp =>
    simp only [move, ht] at hk ⊢
    exact ⟨hk, h.going, hk.waiting hp, fun hn => absurd hp hn⟩

theorem Whole.move {x : History} (h : x.Whole) {m : Move} (hm : m.gentle = true) : (x.move m).Whole := by
  have hk := h.kept.move m
  cases m with
  | offer payload =>
    rcases x.move_offer payload with he | ⟨hsend, -, -, he⟩
    · rw [he]
      exact h
    · have hp : x.watcher.phase = .working := by
        by_contra hn
        exact absurd (hsend.symm.trans (h.left hn).1) nofun
      rw [he] at hk ⊢
      exact ⟨hk, h.going, hk.waiting hp, fun hn => absurd hp hn⟩
  | round alive =>
    cases alive with
    | true => exact h.round
    | false => cases hm
  | goOn | count => exact ⟨hk, h.going, h.all, h.left⟩
  | ended id r =>
    rcases x.move_ended id r with he | ⟨-, he⟩
    · rw [he]
      exact h
    · rw [he] at hk ⊢
      exact ⟨hk, h.going, h.all, h.left⟩
  | cancel => cases hm
  | detach =>
    refine ⟨hk, h.going, h.all, fun hn => ⟨?_, (h.left hn).2⟩⟩
    exact (Bool.or_eq_false_iff.1 (h.left hn).1).2
  | unregister =>
    refine ⟨hk, h.going, h.all, fun hn => ⟨?_, (h.left hn).2⟩⟩
    have hs := Bool.or_eq_false_iff.1 (h.left hn).1
    exact Bool.or_eq_false_iff.2 ⟨hs.1, rfl⟩

theorem Whole.play {x : History} (h : x.Whole) {moves : List Move} (hm : ∀ m ∈ moves, m.gentle = true) :
    (x.play moves).Whole :=
  play_keeps (fun _ _ hok hx => hx.move hok) hm h

/-- The rounds among the moves that find a permit. -/
def chances (x : History) : List Move → Nat
  | [] => 0
  | m :: moves =>
    let rest := (x.move m).chances moves
    match m with
    | .round _ => if x.watcher.free then rest + 1 else rest
    | _ => rest

/-- Neither what is accepted nor what is started is ever taken back. -/
theorem move_grows (x : History) (m : Move) : x.started <+: (x.move m).started ∧ x.accepted <+: (x.move m).accepted := by
  cases m with
  | offer payload =>
    rcases x.move_offer payload with he | ⟨-, -, -, he⟩
    · rw [he]
      exact ⟨List.prefix_rfl, List.prefix_rfl⟩
    · rw [he]
      exact ⟨List.prefix_rfl, List.prefix_append ..⟩
  | round alive => exact ⟨List.prefix_append .., List.prefix_rfl⟩
  | ended id r =>
    rcases x.move_ended id r with he | ⟨-, he⟩
    · rw [he]
      exact ⟨List.prefix_rfl, List.prefix_rfl⟩
    · rw [he]
      exact ⟨List.prefix_rfl, List.prefix_rfl⟩
  | goOn | count | cancel | detach | unregister => exact ⟨List.prefix_rfl, List.prefix_rfl⟩

theorem play_grows (x : History) (moves : List Move) : x.accepted <+: (x.play moves).accepted :=
  play_keeps (P := fun y => x.accepted <+: y.accepted) (Q := fun _ => True)
    (fun y m _ hy => hy.trans (move_grows y m).2) (fun _ _ => trivial) List.prefix_rfl

/-- A round that finds a permit starts the first payload that waits. -/
theorem Whole.round_starts {x : History} (h : x.Whole) (hf : x.watcher.free = true) {payload : Value} {rest : List Value}
    (hq : x.watcher.queue = payload :: rest) : (x.move (.round true)).started = x.started ++ [payload] := by
  have hp : x.watcher.phase = .working := by
    by_contra hn
    exact absurd (hq.symm.trans (h.left hn).2) nofun
  have hround : x.watcher.round true = ⟨({ x.watcher with queue := rest }.spawn payload).report.2,
      ({ x.watcher with queue := rest }.spawn payload).report.1, [x.watcher.stats.dispatched]⟩ :=
    (RoundOf.starts hp h.going hf hq rfl).eq
  simp only [History.move, hround]
  exact congrArg _ (Turned.payloads_spawn (h.kept.sane.next hq) payload _)

theorem Whole.move_chances {x : History} (h : x.Whole) {m : Move} (hm : m.gentle = true) (moves : List Move) :
    min x.accepted.length (x.started.length + x.chances (m :: moves))
      ≤ (x.move m).started.length + (x.move m).chances moves := by
  have hstarted := (move_grows x m).1.length_le
  have hall := congrArg List.length h.all
  rw [List.length_append] at hall
  cases m with
  | round alive =>
    cases alive with
    | false => cases hm
    | true =>
      simp only [chances]
      split
      · rename_i hf
        cases hq : x.watcher.queue with
        | nil =>
          rw [hq, List.length_nil] at hall
          omega
        | cons payload rest =>
          rw [h.round_starts hf hq, List.length_append, List.length_singleton]
          omega
      · omega
  | _ =>
    simp only [chances]
    omega

/-- With a chance for each payload that waits, all that was accepted is started. -/
theorem Whole.served {x : History} (h : x.Whole) {moves : List Move} (hm : ∀ m ∈ moves, m.gentle = true)
    (hc : x.watcher.queue.length ≤ x.chances moves) : x.accepted <+: (x.play moves).started := by
  have hlen : ∀ (moves : List Move) (y : History), y.Whole → (∀ m ∈ moves, m.gentle = true) →
      min y.accepted.length (y.started.length + y.chances moves) ≤ (y.play moves).started.length := by
    intro moves
    induction moves with
    | nil =>
      intro y _ _
      exact Nat.min_le_right ..
    | cons m moves ih =>
      intro y hy hm
      have hstep := hy.move_chances (hm m List.mem_cons_self) moves
      have hacc := (move_grows y m).2.length_le
      have hrest := ih (y.move m) (hy.move (hm m List.mem_cons_self)) fun m' hm' => hm m' (List.mem_cons_of_mem _ hm')
      show _ ≤ ((y.move m).play moves).started.length
      omega
  have hfinal := hlen moves x h hm
  have hall := congrArg List.length h.all
  rw [List.length_append] at hall
  exact List.prefix_of_prefix_length_le (play_grows x moves) (h.play hm).kept.order (by omega)

end History

/-- A turn of a watcher whose engine lives ends with nothing that waits, or without a
permit. -/
theorem take_exhausts (queue : List Value) (w : Watcher) :
    (take true queue w).watcher.queue = [] ∨ (take true queue w).watcher.free = false := by
  induction queue generalizing w with
  | nil =>
    refine .inl ?_
    rw [take]
    split
    · exact (windUp_frame _).2.2.2.2.2 rfl
    · rfl
  | cons payload rest ih =>
    by_cases hf : w.free
    · simpa [take, hf] using ih _
    · refine .inr ?_
      rw [take, if_pos (by simpa using hf)]
      exact Bool.eq_false_iff.2 hf

namespace History

theorem play_replicate (x : History) (alive : Bool) (n : Nat) :
    (x.play (List.replicate n (.round alive))).watcher = (rounds alive n x.watcher).watcher := by
  induction n generalizing x with
  | zero => rfl
  | succ n ih => exact ih (x.move (.round alive))

/-- What a turn makes of the watcher is what moves make of it. -/
theorem play_turn (x : History) (alive : Bool) :
    (x.play (List.replicate (x.watcher.queue.length + 1) (.round alive))).watcher = (x.watcher.turn alive).watcher := by
  rw [play_replicate, turn_eq_rounds]

theorem Whole.turn_busy {x : History} (h : x.Whole) :
    (x.watcher.turn true).watcher.queue = []
      ∨ ∃ n, x.watcher.policy.limit.permits = some n ∧ (x.watcher.turn true).watcher.running.length = n := by
  have hpolicy := x.play_policy (List.replicate (x.watcher.queue.length + 1) (.round true))
  have hpermitted := (h.kept.play (List.replicate (x.watcher.queue.length + 1) (.round true))).sane.permitted
  rw [play_turn] at hpolicy hpermitted
  rw [← hpolicy]
  by_cases hp : x.watcher.phase = .working
  · have hturn : x.watcher.turn true = take true x.watcher.queue x.watcher := by simp [turn, hp, h.going]
    rw [hturn] at hpermitted ⊢
    refine (take_exhausts x.watcher.queue x.watcher).imp_right fun hf => ?_
    unfold free at hf
    split at hf
    · rename_i n hn
      exact ⟨n, hn, Nat.le_antisymm (hpermitted n hn) (Nat.le_of_not_lt (of_decide_eq_false hf))⟩
    · cases hf
  · obtain ⟨-, hq⟩ := h.left hp
    left
    cases hphase : x.watcher.phase with
    | working => exact absurd hphase hp
    | stopping => simpa [turn, hphase] using (windUp_frame x.watcher).2.2.2.2.2 hq
    | stopped => simpa [turn, hphase] using hq

/-- A cancelled watcher stays so, and starts nothing. -/
theorem move_cancelled {x : History} (h : x.watcher.cancelled = true) (m : Move) :
    (x.move m).watcher.cancelled = true ∧ (x.move m).started = x.started := by
  cases m with
  | offer payload =>
    rcases x.move_offer payload with he | ⟨-, -, -, he⟩
    · rw [he]
      exact ⟨h, rfl⟩
    · rw [he]
      exact ⟨h, rfl⟩
  | round alive =>
    have hcases := round_cases alive x.watcher
    simp only [move]
    generalize x.watcher.round alive = t at hcases
    cases hcases with
    | starts _ hc | orphaned _ hc => exact absurd (hc.symm.trans h) nofun
    | stopped | full | empty =>
      rw [Turned.payloads_nil, List.append_nil]
      exact ⟨h, rfl⟩
    | stopping | deserted | interrupted =>
      rw [Turned.payloads_nil, List.append_nil]
      exact ⟨(windUp_frame _).2.2.2.1.trans h, rfl⟩
  | ended id r =>
    rcases x.move_ended id r with he | ⟨-, he⟩
    · rw [he]
      exact ⟨h, rfl⟩
    · rw [he]
      exact ⟨h, rfl⟩
  | cancel => exact ⟨rfl, rfl⟩
  | goOn | count | detach | unregister => exact ⟨h, rfl⟩

theorem play_cancelled {x : History} (h : x.watcher.cancelled = true) (moves : List Move) :
    (x.play moves).started = x.started := by
  have hkept : (x.play moves).watcher.cancelled = true ∧ (x.play moves).started = x.started :=
    play_keeps (P := fun y => y.watcher.cancelled = true ∧ y.started = x.started) (Q := fun _ => True)
      (fun y m _ hy => ⟨(move_cancelled hy.1 m).1, (move_cancelled hy.1 m).2.trans hy.2⟩) (fun _ _ => trivial) ⟨h, rfl⟩
  exact hkept.2

end History

/-! ## How handlers end -/

/-- The watcher, as it would be had no handler failed. -/
def blind (w : Watcher) : Watcher :=
  { w with
    ended := w.ended.map fun _ => .completed
    stats := { w.stats with completed := w.stats.completed + w.stats.failed, failed := 0 } }

def Move.blind : Move → Move
  | .ended id _ => .ended id .completed
  | m => m

def History.blind (x : History) : History := { x with watcher := x.watcher.blind }

theorem foldl_count_blind (ended : List HandlerEnd) (s : WatcherStats) :
    (ended.map fun _ => HandlerEnd.completed).foldl count { s with completed := s.completed + s.failed, failed := 0 }
      = { ended.foldl count s with
          completed := (ended.foldl count s).completed + (ended.foldl count s).failed, failed := 0 } := by
  induction ended generalizing s with
  | nil => rfl
  | cons r ended ih =>
    rw [List.map_cons, List.foldl_cons, List.foldl_cons, ← ih]
    congr 1
    cases r with
    | completed => simp only [count, Nat.add_right_comm]
    | failed message downgrade => simp only [count, Nat.add_assoc]

theorem blind_report (w : Watcher) : w.blind.report.2 = w.report.2.blind := by
  simp only [report, blind, foldl_count_blind, List.map_nil]

theorem blind_windUp (w : Watcher) : w.blind.windUp.2 = w.windUp.2.blind := by
  have hreport := blind_report w
  rcases windUp_cases w with ⟨hr, he⟩ | ⟨hr, he⟩
  · rcases windUp_cases w.blind with ⟨-, he'⟩ | ⟨hr', -⟩
    · rw [he, he', hreport]
      rfl
    · exact absurd hr hr'
  · rcases windUp_cases w.blind with ⟨hr', -⟩ | ⟨-, he'⟩
    · exact absurd hr' hr
    · rw [he, he', hreport]
      rfl

theorem blind_round (w : Watcher) (alive : Bool) :
    (w.blind.round alive).watcher = (w.round alive).watcher.blind
      ∧ (w.blind.round alive).started = (w.round alive).started := by
  have hcases := round_cases alive w
  generalize ht : w.round alive = t at hcases
  cases hcases with
  | stopped hp =>
    rw [(RoundOf.stopped (w := w.blind) hp).eq]
    exact ⟨rfl, rfl⟩
  | stopping hp =>
    rw [(RoundOf.stopping (w := w.blind) hp).eq]
    exact ⟨blind_windUp w, rfl⟩
  | interrupted hp hc =>
    rw [(RoundOf.interrupted (w := w.blind) hp hc).eq]
    exact ⟨blind_windUp w.abort, rfl⟩
  | full hp hc hf =>
    rw [(RoundOf.full (w := w.blind) hp hc hf).eq]
    exact ⟨rfl, rfl⟩
  | empty hp hc hf hq hs =>
    rw [(RoundOf.empty (w := w.blind) hp hc hf hq hs).eq]
    exact ⟨rfl, rfl⟩
  | deserted hp hc hf hq hs =>
    rw [(RoundOf.deserted (w := w.blind) hp hc hf hq hs).eq]
    exact ⟨blind_windUp w, rfl⟩
  | @orphaned payload rest hp hc hf hq ha =>
    rw [(RoundOf.orphaned (w := w.blind) hp hc hf hq ha).eq]
    exact ⟨blind_windUp { w with queue := rest }, rfl⟩
  | @starts payload rest hp hc hf hq ha =>
    rw [(RoundOf.starts (w := w.blind) hp hc hf hq ha).eq]
    have hreport := blind_report (spawn { w with queue := rest } payload)
    exact ⟨hreport, rfl⟩

theorem blind_offer (w : Watcher) (payload : Value) : w.blind.offer payload = (w.offer payload).map blind := by
  unfold offer
  change (if w.closed then _ else if w.full then _ else _) = _
  split
  · rfl
  split
  · rfl
  · rfl

namespace History

theorem blind_move (x : History) (m : Move) : (x.move m).blind = x.blind.move m.blind := by
  cases m with
  | offer payload =>
    simp only [move, Move.blind, blind, blind_offer]
    change _ = if x.watcher.hasSender then _ else _
    split
    · cases x.watcher.offer payload with
      | ok w => rfl
      | error err => rfl
    · rfl
  | round alive =>
    obtain ⟨hw, hs⟩ := blind_round x.watcher alive
    simp only [move, Move.blind, blind, Turned.payloads, hw, hs]
    rfl
  | ended id r =>
    simp only [move, Move.blind]
    change _ = if x.watcher.running.any (·.id = id) then _ else _
    split
    · simp [blind, Watcher.blind, handlerEnded]
    · rfl
  | count =>
    simp only [move, Move.blind, blind, blind_report]
  | goOn | cancel | detach | unregister => rfl

theorem blind_play (x : History) (moves : List Move) : (x.play moves).blind = x.blind.play (moves.map Move.blind) := by
  induction moves generalizing x with
  | nil => rfl
  | cons m moves ih =>
    rw [List.map_cons]
    exact (ih (x.move m)).trans (congrArg (play · _) (blind_move x m))

end History

/-! ## All that is promised -/

/-- A watcher's history from its start. -/
def after (w : Watcher) (moves : List Move) : History := (History.ofWatcher w).play moves

/-- Each payload is handled once: what a watcher promises after these moves. -/
structure Handles (w : Watcher) (moves : List Move) (x : History) : Prop where
  /-- Payloads are started in the order in which they were accepted, each once at most. -/
  order : x.started <+: x.accepted
  /-- Unless the watcher is cancelled or the engine gone, what is not started waits. -/
  waits : (∀ m ∈ moves, m.gentle = true) → x.accepted = x.started ++ x.watcher.queue
  /-- Each round that finds a permit then brings what waits closer to its start. -/
  served : (∀ m ∈ moves, m.gentle = true) → ∀ more, (∀ m ∈ more, m.gentle = true) →
    x.watcher.queue.length ≤ x.chances more → x.accepted <+: (x.play more).started
  /-- A turn then ends with nothing that waits, or with every permit in flight. -/
  busy : (∀ m ∈ moves, m.gentle = true) → (x.watcher.turn true).watcher.queue = []
    ∨ ∃ n, w.policy.limit = .bounded n ∧ (x.watcher.turn true).watcher.running.length = max 1 n
  /-- A watcher that stops then has started all that it accepted. -/
  finished : (∀ m ∈ moves, m.gentle = true) → x.watcher.phase ≠ .working → x.started = x.accepted
  inFlight : ∀ n, w.policy.limit = .bounded n → x.watcher.running.length ≤ max 1 n
  room : x.watcher.queue.length ≤ max 1 w.policy.capacity
  /-- Had its handlers ended in other ways, only the counts of these ends would differ. -/
  isolated : ∀ others, others.map Move.blind = moves.map Move.blind → (w.after others).blind = x.blind
  cancelled : ∀ more, ((x.move .cancel).play more).started = x.started
  settled : x.watcher.phase = .stopped →
    x.watcher.stats.dispatched = x.watcher.stats.completed + x.watcher.stats.failed + x.watcher.stats.cancelled
      ∧ x.watcher.stats.dispatched = x.started.length

theorem handled_once (id : Nat) (key : Key) (action label : String) (target : Key) (acts : List Act)
    (policy : Policy.Concurrency) (moves : List Move) :
    let w := start id key action label target acts policy
    w.Handles moves (w.after moves) := by
  intro w
  have hstart : (History.ofWatcher w).Kept := ⟨start_sane .., rfl, List.prefix_rfl, fun _ => rfl⟩
  have hkept : (w.after moves).Kept := hstart.play moves
  have hpolicy : (w.after moves).watcher.policy = policy := History.play_policy ..
  have hwhole (hm : ∀ m ∈ moves, m.gentle = true) : (w.after moves).Whole :=
    History.Whole.play ⟨hstart, rfl, rfl, fun hn => absurd rfl hn⟩ hm
  have hpermits {n : Nat} (hn : policy.limit = .bounded n) :
      (w.after moves).watcher.policy.limit.permits = some (max 1 n) := by
    rw [hpolicy, hn]
    rfl
  constructor
  case order => exact hkept.order
  case waits => exact fun hm => (hwhole hm).all
  case served => exact fun hm more hmore hc => (hwhole hm).served hmore hc
  case busy =>
    intro hm
    refine (hwhole hm).turn_busy.imp_right ?_
    rintro ⟨n, hn, hlen⟩
    rw [hpolicy] at hn
    cases hlimit : policy.limit with
    | unbounded =>
      rw [hlimit] at hn
      cases hn
    | bounded k =>
      rw [hlimit] at hn
      exact ⟨k, hlimit, hlen.trans (Option.some.inj hn).symm⟩
  case finished =>
    intro hm hn
    have hall := (hwhole hm).all
    rw [((hwhole hm).left hn).2, List.append_nil] at hall
    exact hall.symm
  case inFlight => exact fun n hn => hkept.sane.permitted _ (hpermits hn)
  case room =>
    have hroom := hkept.sane.room
    rw [capacity, hpolicy] at hroom
    exact hroom
  case isolated =>
    intro others ho
    show ((History.ofWatcher w).play others).blind = ((History.ofWatcher w).play moves).blind
    rw [History.blind_play, History.blind_play, ho]
  case cancelled => exact fun more => History.play_cancelled (x := (w.after moves).move .cancel) rfl more
  case settled =>
    intro hs
    obtain ⟨hrunning, hended, -⟩ := hkept.sane.done hs
    have hbalance := hkept.sane.balance
    rw [hrunning, hended] at hbalance
    exact ⟨hbalance, hkept.counted⟩

end Settle.Watcher

namespace Settle.Bakery

open Watcher

/-- One oven, and room for two orders. -/
def policy : Policy.Concurrency := { Policy.Concurrency.builtin with limit := .bounded 1, capacity := 2 }

def oven : Watcher := start 0 ⟨"bakery", "main"⟩ "bake" "bake" ⟨"bakery", "main"⟩ [] policy

/-- Of four orders the third finds no room; the first of those baked burns. -/
def morning : List Watcher.Move :=
  [.offer (.str "rye"), .offer (.str "bun"), .offer (.str "pie"), .round true, .offer (.str "tart"), .round true,
    .ended 0 (.failed "burnt" none), .round true, .ended 1 .completed, .round true, .ended 2 .completed]

def evening : List Watcher.Move := [.detach, .unregister, .round true]

theorem orders_baked :
    oven.Handles (morning ++ evening) (oven.after (morning ++ evening))
      ∧ (oven.after morning).accepted = [.str "rye", .str "bun", .str "tart"]
      ∧ (oven.after (morning ++ evening)).started = [.str "rye", .str "bun", .str "tart"]
      ∧ (oven.after (morning ++ evening)).watcher.phase = .stopped
      ∧ (oven.after (morning ++ evening)).watcher.stats = ⟨3, 2, 1, 0⟩
      ∧ (oven.after (morning ++ [.cancel, .offer (.str "roll"), .round true])).started
        = (oven.after morning).started :=
  ⟨handled_once 0 ⟨"bakery", "main"⟩ "bake" "bake" ⟨"bakery", "main"⟩ [] policy (morning ++ evening), rfl, rfl, rfl,
    rfl, rfl⟩

end Settle.Bakery
