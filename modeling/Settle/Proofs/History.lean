/-
  Settle.Proofs.History — what happens to the queues of a store (see `Settle.Tick`).

  Commits are put on a queue by callers and lanes, by links, and by a unit that leaves work
  undone on its own instance; they are taken off it, all at once, by the unit that a tick
  accepts. A history lists these moves. That of a tick is told turn by turn from what the
  turn looks at (`Running.moves`), in one list for each round (`Tick.history`).

  What was taken off a queue, and then what is left on it, is what was put on it: every
  commit once and in its order, over any run of commits and ticks. Every unit reports the
  patches of the commits it took before all others. A tick takes each instance at most
  once, ends after so many rounds, and takes something whenever it may
  (`Logged.conserved`).
-/

import Settle.Proofs.Turns

namespace Settle

/-! ## Moves -/

/-- What happens to the queues of a store. -/
inductive Move where
  /-- A caller or a lane queues a commit on an instance. -/
  | queued (k : Key) (c : Commit)
  /-- A link queues a copy on its target. -/
  | copied (l : Link) (c : Commit)
  /-- A unit queues on its own instance what it leaves undone. -/
  | left (k : Key) (c : Commit)
  /-- A tick accepts the commits that wait on an instance, which came up with this
  priority. -/
  | took (k : Key) (came : Priority) (commits : List Commit) (report : UnitReport)

namespace Move

/-- The commits that a move puts on the queue of an instance. -/
def put (k : Key) : Move → List Commit
  | .queued k' c => if k' = k then [c] else []
  | .copied l c => if l.target = k then [c] else []
  | .left k' c => if k' = k then [c] else []
  | .took .. => []

/-- The commits that a move takes off the queue of an instance. -/
def taken (k : Key) : Move → List Commit
  | .took k' _ cs _ => if k' = k then cs else []
  | _ => []

def report? : Move → Option UnitReport
  | .took _ _ _ r => some r
  | _ => none

/-- What was put on the queue of an instance. -/
def putOn (k : Key) (ms : List Move) : List Commit := ms.flatMap (put k)

/-- What was taken off the queue of an instance. -/
def takenFrom (k : Key) (ms : List Move) : List Commit := ms.flatMap (taken k)

/-- What the accepted units reported. -/
def reports (ms : List Move) : List UnitReport := ms.filterMap report?

variable {k k' : Key} {ms ms' : List Move}

@[simp] theorem putOn_nil (k : Key) : putOn k [] = [] := rfl
@[simp] theorem takenFrom_nil (k : Key) : takenFrom k [] = [] := rfl
@[simp] theorem reports_nil : reports [] = [] := rfl

@[simp] theorem putOn_append (k : Key) (ms ms' : List Move) : putOn k (ms ++ ms') = putOn k ms ++ putOn k ms' :=
  List.flatMap_append

@[simp] theorem takenFrom_append (k : Key) (ms ms' : List Move) :
    takenFrom k (ms ++ ms') = takenFrom k ms ++ takenFrom k ms' := List.flatMap_append

@[simp] theorem reports_append (ms ms' : List Move) : reports (ms ++ ms') = reports ms ++ reports ms' :=
  List.filterMap_append

@[simp] theorem putOn_cons (k : Key) (m : Move) (ms : List Move) : putOn k (m :: ms) = m.put k ++ putOn k ms := rfl

@[simp] theorem takenFrom_cons (k : Key) (m : Move) (ms : List Move) :
    takenFrom k (m :: ms) = m.taken k ++ takenFrom k ms := rfl

@[simp] theorem reports_cons_took (k : Key) (came : Priority) (cs : List Commit) (r : UnitReport) (ms : List Move) :
    reports (.took k came cs r :: ms) = r :: reports ms := rfl

@[simp] theorem putOn_left (cs : List Commit) : putOn k (cs.map (.left k')) = if k' = k then cs else [] := by
  induction cs with
  | nil => simp
  | cons c cs ih =>
    rw [List.map_cons, putOn_cons, ih, show (left k' c).put k = if k' = k then [c] else [] from rfl]
    split <;> rfl

@[simp] theorem takenFrom_left (cs : List Commit) : takenFrom k (cs.map (.left k')) = [] := by
  induction cs with
  | nil => rfl
  | cons c cs ih => exact ih

@[simp] theorem reports_left (cs : List Commit) : reports (cs.map (.left k)) = [] := by
  induction cs with
  | nil => rfl
  | cons c cs ih => exact ih

/-- A commit is put on a queue by a caller, by a unit of the same instance, or by a link to
it. -/
theorem mem_put {c : Commit} {m : Move} :
    c ∈ m.put k ↔ m = .queued k c ∨ m = .left k c ∨ ∃ l, l.target = k ∧ m = .copied l c := by
  cases m with
  | queued k' c' => simp [put, eq_comm]
  | copied l c' => simp [put, eq_comm]
  | left k' c' => simp [put, eq_comm]
  | took => simp [put]

theorem mem_putOn {c : Commit} :
    c ∈ putOn k ms ↔ .queued k c ∈ ms ∨ .left k c ∈ ms ∨ ∃ l, l.target = k ∧ .copied l c ∈ ms := by
  unfold putOn
  rw [List.mem_flatMap]
  constructor
  · rintro ⟨m, hm, hput⟩
    rcases mem_put.1 hput with rfl | rfl | ⟨l, hl, rfl⟩
    · exact .inl hm
    · exact .inr (.inl hm)
    · exact .inr (.inr ⟨l, hl, hm⟩)
  · rintro (hm | hm | ⟨l, hl, hm⟩)
    · exact ⟨_, hm, mem_put.2 (.inl rfl)⟩
    · exact ⟨_, hm, mem_put.2 (.inr (.inl rfl))⟩
    · exact ⟨_, hm, mem_put.2 (.inr (.inr ⟨l, hl, rfl⟩))⟩

end Move

namespace Store

open Move

variable {s s' s'' : Store} {i j : Instance} {k : Key} {c : Commit} {ms ms' : List Move}

/-- The commits that wait on an instance, none when there is no such instance. -/
def queueOf (s : Store) (k : Key) : List Commit := ((s.find? k).map (·.queue)).getD []

theorem queueOf_of_find? (h : s.find? k = some i) : s.queueOf k = i.queue := by
  unfold queueOf
  rw [h]
  rfl

/-- An instance put back changes its own queue alone. -/
theorem queueOf_replace (hi : s.find? k = some i) (hj : j.key = k) (n : Nat) (k' : Key) :
    ({ s.put j with seq := n } : Store).queueOf k' = if k = k' then j.queue else s.queueOf k' := by
  unfold queueOf
  rw [find?_replace (hj ▸ hi), hj]
  split <;> rfl

/-- The moves lead from one store to the other: what they took off each queue and what is
on it now are what was on it and what they put on it. -/
structure Balanced (ms : List Move) (s s' : Store) : Prop where
  keys : s'.instances.map (·.key) = s.instances.map (·.key)
  queue : ∀ k, takenFrom k ms ++ s'.queueOf k = s.queueOf k ++ putOn k ms

theorem Balanced.refl (s : Store) : Balanced [] s s := ⟨rfl, fun k => by simp⟩

theorem Balanced.trans (h : Balanced ms s s') (h' : Balanced ms' s' s'') : Balanced (ms ++ ms') s s'' := by
  refine ⟨h'.keys.trans h.keys, fun k => ?_⟩
  rw [takenFrom_append, putOn_append, List.append_assoc, h'.queue, ← List.append_assoc, h.queue, List.append_assoc]

theorem Balanced.keyed (h : Balanced ms s s') (hs : s.Keyed) : s'.Keyed := hs.of_keys h.keys

/-- A commit is put on the queue that it is meant for, under the next number. -/
theorem enqueue_balanced {m : Move} (h : s.enqueue k c = .ok s')
    (hput : ∀ k', m.put k' = if k = k' then [{ c with seq := s.seq + 1 }] else []) (htaken : ∀ k', m.taken k' = []) :
    Balanced [m] s s' := by
  obtain ⟨i, hi, rfl⟩ := enqueue_eq_ok h
  refine ⟨keys_put s _, fun k' => ?_⟩
  have hkey : (i.enqueue { c with seq := s.seq + 1 }).key = k := (key_of_find? hi : i.key = k)
  rw [queueOf_replace hi hkey]
  simp only [takenFrom_cons, takenFrom_nil, putOn_cons, putOn_nil, htaken, hput, List.append_nil, List.nil_append]
  split
  · subst_vars
    rw [queueOf_of_find? hi]
    rfl
  · rw [List.append_nil]

/-- A unit takes all that waits, and leaves on the queue what it puts there itself. -/
theorem put_balanced (hi : s.find? k = some i) (hj : j.key = k) (came : Priority) (r : UnitReport) :
    Balanced (.took k came i.queue r :: j.queue.map (.left k)) s (s.put j) := by
  refine ⟨keys_put s j, fun k' => ?_⟩
  have hq : (s.put j).queueOf k' = if k = k' then j.queue else s.queueOf k' := queueOf_replace hi hj s.seq k'
  simp only [takenFrom_cons, putOn_cons, takenFrom_left, putOn_left, Move.taken, Move.put, List.nil_append,
    List.append_nil, hq]
  split
  · subst_vars
    rw [queueOf_of_find? hi]
  · simp

end Store

/-! ## What a unit leaves -/

namespace Instance

/-- The commits that carry on what the passes of a unit left undone. -/
def Run.undone (r : Run) (now : Time) : List Commit :=
  r.carryOn.toList ++ ((r.handOn now).1.map r.inst.deferredCommit).toList

/-- What a unit queues on its own instance. -/
def undone (i : Instance) (u : WorkUnit) (now : Time) (d : Diagnostics) (budget : Option Nat) : List Commit :=
  (i.converge u now (i.begin (fun _ _ => i.policies.convergence.value.budgetMs = 0) u d budget)).undone now

theorem apply_queue (i : Instance) (u : WorkUnit) (now : Time) (d : Diagnostics) (budget : Option Nat) :
    (i.apply u now d budget).inst.queue = i.queue ++ i.undone u now d budget := by
  have hs := converge_spends i u now (i.begin (fun _ _ => i.policies.convergence.value.budgetMs = 0) u d budget)
  change (i.converge u now _).inst.queue ++ i.undone u now d budget = _
  rw [hs.queue, begin_inst]

end Instance

namespace WorkUnit

theorem patches_foldl (l : List Commit) (u : WorkUnit) :
    (l.foldl add u).change.patches = u.change.patches ++ l.flatMap (·.change.patches) := by
  induction l generalizing u with
  | nil => simp
  | cons c l ih =>
    rw [List.foldl_cons, ih, List.flatMap_cons, ← List.append_assoc]
    rfl

/-- A unit has the patches of its commits, in their order. -/
theorem patches_of_merge? {q : List Commit} {u : WorkUnit} (h : merge? q = some u) :
    u.change.patches = q.flatMap (·.change.patches) := by
  cases q with
  | nil => cases h
  | cons c rest =>
    cases h
    exact patches_foldl rest (ofCommit c)

end WorkUnit

/-! ## Turns -/

namespace Tick

open Store Move

namespace Running

variable {f : Frame} {t t' : Running} {turn : Key × Priority}

/-- The budget of the unit that a turn is given; none when the turn is passed over. -/
def allows (f : Frame) (t : Running) (turn : Key × Priority) : Option (Option Nat) :=
  match turn.2 with
  | .normal => if left f t = 0 then none else some (some (left f t))
  | .low => if f.limits.maxSteps ≤ t.report.units.length ∧ t.report.units ≠ [] then none else some none

/-- What a link queues when it copies a value; nothing when the target has the value. -/
def copyMoves (priority : Priority) (s : Store) (l : Link) (v : Value) : List Move :=
  match s.find? l.target with
  | none => []
  | some i =>
    let prev := State.read i.pending l.targetPath
    if prev.any (·.same v) then [] else [.copied l { l.commit v prev priority with seq := s.seq + 1 }]

/-- What links queue when they copy values one after the other. -/
def copiesMoves (priority : Priority) : Store → List (Link × Value) → List Move
  | _, [] => []
  | s, c :: rest => copyMoves priority s c.1 c.2 ++ copiesMoves priority (copy priority s c.1 c.2) rest

/-- The copies that a unit gives rise to. -/
def copiesOf (f : Frame) (key : Key) (a : Instance.Applied) : List (Link × Value) :=
  if a.report.changed then Link.propagate f.links key a.previous a.inst.state else []

/-- What a turn does to the queues. -/
def moves (f : Frame) (t : Running) (turn : Key × Priority) : List Move :=
  match allows f t turn, t.store.find? turn.1 with
  | some budget, some i =>
    match WorkUnit.merge? i.queue with
    | none => []
    | some u =>
      let idle := { i with queue := [] }
      let a := idle.apply u f.now t.diagnostics budget
      .took turn.1 turn.2 i.queue a.report :: (idle.undone u f.now t.diagnostics budget).map (.left turn.1)
        ++ copiesMoves turn.2 (t.store.put a.inst) (copiesOf f turn.1 a)
  | _, _ => []

/-- What the turns of a round do to the queues. -/
def roundMoves (f : Frame) : List (Key × Priority) → Running → List Move
  | [], _ => []
  | turn :: rest, t => moves f t turn ++ roundMoves f rest (offer f t turn)

/-- What rounds do to the queues, one list for each round. -/
def roundsMoves (f : Frame) : Nat → Running → List (List Move)
  | 0, _ => []
  | n + 1, t =>
    if t.store.ready t.skip = [] then []
    else roundMoves f (t.store.ready t.skip) t.opened :: roundsMoves f n (t.played f)

/-- A turn that is passed over changes neither the store nor what was accepted. -/
structure Passed (t : Running) (key : Key) (t' : Running) : Prop where
  store : t'.store = t.store
  units : t'.report.units = t.report.units
  accepted : t'.accepted = t.accepted
  rounds : t'.report.rounds = t.report.rounds
  skip : t'.skip = t.skip ++ [key]

/-- All that a turn can do: an urgent instance is put off when the cap is spent, another
one is pushed back when so many units are accepted, and else what waits on it is taken. -/
inductive Turned (f : Frame) (t : Running) (turn : Key × Priority) (t' : Running) : List Move → Prop
  | putOff : turn.2 = .normal → left f t = 0 → Passed t turn.1 t' → t'.report.stable = false →
      t'.report.deferred = t.report.deferred → Turned f t turn t' []
  | pushedBack : turn.2 = .low → f.limits.maxSteps ≤ t.report.units.length → t.report.units ≠ [] →
      Passed t turn.1 t' → t'.report.deferred = t.report.deferred ++ [turn.1] → Turned f t turn t' []
  | vacant : (∀ i, t.store.find? turn.1 = some i → i.queue = []) → t' = t → Turned f t turn t' []
  | taken {i : Instance} {u : WorkUnit} {budget : Option Nat} {a : Instance.Applied} : allows f t turn = some budget →
      t.store.find? turn.1 = some i → WorkUnit.merge? i.queue = some u →
      a = ({ i with queue := [] } : Instance).apply u f.now t.diagnostics budget →
      t'.store = (copiesOf f turn.1 a).foldl (fun s c => copy turn.2 s c.1 c.2) (t.store.put a.inst) →
      t'.report.units = t.report.units ++ [a.report] → t'.accepted = t.accepted ++ [turn.1] →
      t'.report.rounds = t.report.rounds → t'.skip = t.skip ++ [turn.1] → t'.report.deferred = t.report.deferred →
      Turned f t turn t' (.took turn.1 turn.2 i.queue a.report :: a.inst.queue.map (.left turn.1)
        ++ copiesMoves turn.2 (t.store.put a.inst) (copiesOf f turn.1 a))

theorem merge?_eq_none {q : List Commit} (h : WorkUnit.merge? q = none) : q = [] := by
  cases q with
  | nil => rfl
  | cons c rest => cases h

theorem accept_turned {budget : Option Nat} (ha : allows f t turn = some budget) :
    Turned f t turn (t.accept f turn.1 turn.2 budget) (moves f t turn) := by
  unfold accept moves
  rw [ha]
  dsimp only
  cases hi : t.store.find? turn.1 with
  | none => exact .vacant (fun i h => by rw [hi] at h; cases h) rfl
  | some i =>
    simp only [Instance.takeUnit]
    cases hu : WorkUnit.merge? i.queue with
    | none => exact .vacant (fun j h => by rw [hi] at h; cases h; exact merge?_eq_none hu) rfl
    | some u =>
      have hq := Instance.apply_queue { i with queue := [] } u f.now t.diagnostics budget
      rw [List.nil_append] at hq
      dsimp only
      rw [← hq]
      refine .taken ha hi hu rfl rfl ?_ rfl ?_ rfl ?_
      · dsimp only
        split <;> rfl
      · dsimp only
        split <;> split <;> rfl
      · dsimp only
        split <;> split <;> rfl

theorem offer_turned (f : Frame) (t : Running) (turn : Key × Priority) :
    Turned f t turn (offer f t turn) (moves f t turn) := by
  cases ha : allows f t turn with
  | some budget =>
    have ho : offer f t turn = t.accept f turn.1 turn.2 budget := by
      obtain ⟨key, priority⟩ := turn
      unfold allows at ha
      unfold offer
      cases priority with
      | normal =>
        dsimp only at ha ⊢
        split at ha
        · cases ha
        · cases ha
          exact if_neg ‹_›
      | low =>
        dsimp only at ha ⊢
        split at ha
        · cases ha
        · cases ha
          exact if_neg ‹_›
    rw [ho]
    exact accept_turned ha
  | none =>
    have hm : moves f t turn = [] := by
      unfold moves
      rw [ha]
    rw [hm]
    obtain ⟨key, priority⟩ := turn
    unfold allows at ha
    unfold offer
    cases priority with
    | normal =>
      dsimp only at ha ⊢
      split at ha
      · rename_i hleft
        have hspent : f.limits.urgentStepCap - t.report.urgentSteps = 0 := hleft
        rw [if_pos hspent]
        exact .putOff rfl hleft ⟨rfl, rfl, rfl, rfl, rfl⟩ rfl rfl
      · cases ha
    | low =>
      dsimp only at ha ⊢
      split at ha
      · rename_i hfull
        rw [if_pos hfull]
        exact .pushedBack rfl hfull.1 hfull.2 ⟨rfl, rfl, rfl, rfl, rfl⟩ rfl
      · cases ha

/-! ## What a tick keeps -/

theorem copy_balanced (priority : Priority) (s : Store) (l : Link) (v : Value) :
    Balanced (copyMoves priority s l v) s (copy priority s l v) := by
  unfold copyMoves copy Store.enqueue Store.get
  cases hi : s.find? l.target with
  | none => exact .refl s
  | some i =>
    dsimp only [Option.bind_some]
    split
    · exact .refl s
    · refine enqueue_balanced (k := l.target) (c := l.commit v (State.read i.pending l.targetPath) priority) ?_
        (fun _ => rfl) fun _ => rfl
      unfold Store.enqueue Store.get
      rw [hi]
      rfl

theorem copies_balanced (priority : Priority) (cs : List (Link × Value)) (s : Store) :
    Balanced (copiesMoves priority s cs) s (cs.foldl (fun s c => copy priority s c.1 c.2) s) := by
  induction cs generalizing s with
  | nil => exact .refl s
  | cons c cs ih => exact (copy_balanced priority s c.1 c.2).trans (ih _)

/-- A copy is what a link with a changed source queues, under the priority of the unit. -/
theorem mem_copiesMoves {priority : Priority} {cs : List (Link × Value)} {s : Store} {m : Move}
    (h : m ∈ copiesMoves priority s cs) :
    ∃ l c, m = .copied l c ∧ (∃ v, (l, v) ∈ cs) ∧ c.kind = .link ∧ c.priority = priority := by
  induction cs generalizing s with
  | nil => cases h
  | cons e cs ih =>
    rcases List.mem_append.1 h with h | h
    · unfold copyMoves at h
      split at h
      · cases h
      · dsimp only at h
        split at h
        · cases h
        · exact ⟨e.1, _, List.mem_singleton.1 h, ⟨e.2, List.mem_cons_self⟩, rfl, rfl⟩
    · obtain ⟨l, c, hm, ⟨v, hv⟩, hrest⟩ := ih h
      exact ⟨l, c, hm, ⟨v, List.mem_cons_of_mem e hv⟩, hrest⟩

theorem mem_copiesOf {key : Key} {a : Instance.Applied} {l : Link} {v : Value} (h : (l, v) ∈ copiesOf f key a) :
    l ∈ f.links ∧ l.source = key := by
  unfold copiesOf Link.propagate at h
  split at h
  · obtain ⟨l', hl', hv⟩ := List.mem_filterMap.1 h
    obtain ⟨_, -, he⟩ := Option.map_eq_some_iff.1 hv
    cases he
    exact ⟨(List.mem_filter.1 hl').1, of_decide_eq_true (List.mem_filter.1 hl').2⟩
  · cases h

/-- A unit is made of all commits that were taken for it, tells what they are, and
reports their patches before all others. -/
structure Made (k : Key) (cs : List Commit) (r : UnitReport) : Prop where
  key : r.key = k
  unit : ∃ u, WorkUnit.merge? cs = some u ∧ r.priority = u.priority ∧ r.kinds = u.kinds
  patches : cs.flatMap (·.change.patches) <+: r.patches

/-- The moves of a tick: each unit is made of what it took, and commits are queued by
links of instances that were taken, under the priority with which these came up, or by
units on their own instances. -/
structure Lawful (f : Frame) (ms : List Move) : Prop where
  took : ∀ {k p cs r}, .took k p cs r ∈ ms → Made k cs r
  copied : ∀ {l c}, .copied l c ∈ ms → l ∈ f.links ∧ c.kind = .link ∧ ∃ cs r, .took l.source c.priority cs r ∈ ms
  left : ∀ {k c}, .left k c ∈ ms → ∃ p cs r, .took k p cs r ∈ ms
  queued : ∀ {k c}, .queued k c ∉ ms

theorem Lawful.nil (f : Frame) : Lawful f [] := ⟨nofun, nofun, nofun, nofun⟩

theorem Lawful.append {ms ms' : List Move} (h : Lawful f ms) (h' : Lawful f ms') : Lawful f (ms ++ ms') where
  took := fun hm => (List.mem_append.1 hm).elim h.took h'.took
  copied := fun hm => by
    rcases List.mem_append.1 hm with hm | hm
    · obtain ⟨hl, hc, cs, r, ht⟩ := h.copied hm
      exact ⟨hl, hc, cs, r, List.mem_append_left _ ht⟩
    · obtain ⟨hl, hc, cs, r, ht⟩ := h'.copied hm
      exact ⟨hl, hc, cs, r, List.mem_append_right _ ht⟩
  left := fun hm => by
    rcases List.mem_append.1 hm with hm | hm
    · obtain ⟨p, cs, r, ht⟩ := h.left hm
      exact ⟨p, cs, r, List.mem_append_left _ ht⟩
    · obtain ⟨p, cs, r, ht⟩ := h'.left hm
      exact ⟨p, cs, r, List.mem_append_right _ ht⟩
  queued := fun hm => (List.mem_append.1 hm).elim h.queued h'.queued

theorem Turned.lawful {ms : List Move} (h : Turned f t turn t' ms) : Lawful f ms := by
  cases h with
  | putOff => exact .nil f
  | pushedBack => exact .nil f
  | vacant => exact .nil f
  | @taken i u budget a ha hi hu happly =>
    have hans : Instance.Answers { i with queue := [] } u budget a := by
      rw [happly]
      exact Instance.apply_answers _ _ _ _ _
    have hmade : Made turn.1 i.queue a.report :=
      ⟨hans.of.trans (key_of_find? hi : i.key = turn.1), ⟨u, hu, hans.priority, hans.kinds⟩,
        WorkUnit.patches_of_merge? hu ▸ hans.patches⟩
    -- a move is the unit itself, what it left, or a copy
    have hcases : ∀ {m}, m ∈ (.took turn.1 turn.2 i.queue a.report :: a.inst.queue.map (.left turn.1)
        ++ copiesMoves turn.2 (t.store.put a.inst) (copiesOf f turn.1 a)) →
        m = .took turn.1 turn.2 i.queue a.report ∨ (∃ c, m = .left turn.1 c) ∨
          ∃ l c, m = .copied l c ∧ l ∈ f.links ∧ l.source = turn.1 ∧ c.kind = .link ∧ c.priority = turn.2 := by
      intro m hm
      rcases List.mem_append.1 hm with hm | hm
      · rcases List.mem_cons.1 hm with hm | hm
        · exact .inl hm
        · obtain ⟨c, -, rfl⟩ := List.mem_map.1 hm
          exact .inr (.inl ⟨c, rfl⟩)
      · obtain ⟨l, c, hm, ⟨v, hv⟩, hkind, hprio⟩ := mem_copiesMoves hm
        obtain ⟨hl, hsource⟩ := mem_copiesOf hv
        exact .inr (.inr ⟨l, c, hm, hl, hsource, hkind, hprio⟩)
    refine ⟨fun {k p cs r} hm => ?_, fun {l c} hm => ?_, fun {k c} hm => ?_, fun {k c} hm => ?_⟩
    · rcases hcases hm with he | ⟨_, he⟩ | ⟨_, _, he, -⟩
      · cases he
        exact hmade
      · cases he
      · cases he
    · rcases hcases hm with he | ⟨_, he⟩ | ⟨_, _, he, hl, hsource, hkind, hprio⟩
      · cases he
      · cases he
      · cases he
        refine ⟨hl, hkind, i.queue, a.report, ?_⟩
        rw [hsource, hprio]
        exact List.mem_append_left _ List.mem_cons_self
    · rcases hcases hm with he | ⟨_, he⟩ | ⟨_, _, he, -⟩
      · cases he
      · cases he
        exact ⟨_, _, _, List.mem_append_left _ List.mem_cons_self⟩
      · cases he
    · rcases hcases hm with he | ⟨_, he⟩ | ⟨_, _, he, -⟩ <;> cases he

theorem Turned.balanced {ms : List Move} (h : Turned f t turn t' ms) : Balanced ms t.store t'.store := by
  cases h with
  | putOff _ _ hp => exact hp.store ▸ .refl _
  | pushedBack _ _ _ hp => exact hp.store ▸ .refl _
  | vacant _ he => exact he ▸ .refl _
  | @taken i u budget a ha hi hu happly hstore =>
    have hkey : a.inst.key = turn.1 := by
      rw [happly]
      exact key_of_apply hi _ _ _ _
    rw [hstore]
    exact (put_balanced hi hkey turn.2 a.report).trans (copies_balanced _ _ _)

/-- A turn adds at most the instance that it is for to those that are passed over. -/
theorem Turned.skip {ms : List Move} (h : Turned f t turn t' ms) : t'.skip = t.skip ∨ t'.skip = t.skip ++ [turn.1] := by
  cases h with
  | putOff _ _ hp => exact .inr hp.skip
  | pushedBack _ _ _ hp => exact .inr hp.skip
  | vacant _ he => exact .inl (he ▸ rfl)
  | taken _ _ _ _ _ _ _ _ hskip _ => exact .inr hskip

@[simp] theorem reports_copies (priority : Priority) (cs : List (Link × Value)) (s : Store) :
    reports (copiesMoves priority s cs) = [] := by
  refine List.filterMap_eq_nil_iff.2 fun m hm => ?_
  obtain ⟨l, c, rfl, -⟩ := mem_copiesMoves hm
  rfl

/-- A tick under way, and the moves that led to it from the store at its start: its units
are those that the moves tell, and each instance had its turn once. -/
structure Kept (f : Frame) (s : Store) (ms : List Move) (t : Running) : Prop where
  balanced : Balanced ms s t.store
  lawful : Lawful f ms
  units : t.report.units = reports ms
  accepted : t.accepted = t.report.units.map (·.key)
  once : t.skip.Nodup
  skipped : t.accepted.Sublist t.skip

theorem nodup_append_singleton {α : Type} {l : List α} {a : α} (hl : l.Nodup) (ha : a ∉ l) : (l ++ [a]).Nodup := by
  refine List.nodup_append.2 ⟨hl, List.nodup_cons.2 ⟨List.not_mem_nil, List.nodup_nil⟩, fun b hb c hc e => ha ?_⟩
  rw [← List.mem_singleton.1 hc, ← e]
  exact hb

variable {s : Store} {ms : List Move}

theorem Kept.passed (hk : Kept f s ms t) (hp : Passed t turn.1 t') (hout : turn.1 ∉ t.skip) : Kept f s (ms ++ []) t' := by
  obtain ⟨hstore, hunits, haccepted, -, hskip⟩ := hp
  rw [List.append_nil]
  refine ⟨hstore ▸ hk.balanced, hk.lawful, hunits ▸ hk.units, ?_, ?_, ?_⟩
  · rw [haccepted, hunits]
    exact hk.accepted
  · rw [hskip]
    exact nodup_append_singleton hk.once hout
  · rw [haccepted, hskip]
    exact hk.skipped.trans (List.sublist_append_left _ _)

theorem Kept.offered (hk : Kept f s ms t) (hout : turn.1 ∉ t.skip) :
    Kept f s (ms ++ moves f t turn) (offer f t turn) := by
  have hturned := offer_turned f t turn
  have hbalanced := hk.balanced.trans hturned.balanced
  have hlawful := hk.lawful.append hturned.lawful
  generalize offer f t turn = t' at hturned hbalanced ⊢
  generalize moves f t turn = ms' at hturned hbalanced hlawful ⊢
  cases hturned with
  | putOff _ _ hp => exact hk.passed hp hout
  | pushedBack _ _ _ hp => exact hk.passed hp hout
  | vacant _ he =>
    rw [he, List.append_nil]
    exact hk
  | @taken i u budget a ha hi hu happly hstore hunits haccepted hrounds hskip hdeferred =>
    have hkey : a.report.key = turn.1 := by
      rw [happly]
      exact (Instance.apply_answers _ _ _ _ _).of.trans (key_of_find? hi : i.key = turn.1)
    refine ⟨hbalanced, hlawful, ?_, ?_, ?_, ?_⟩
    · rw [hunits, hk.units]
      simp
    · rw [haccepted, hunits, hk.accepted, List.map_append, ← hkey]
      rfl
    · rw [hskip]
      exact nodup_append_singleton hk.once hout
    · rw [haccepted, hskip]
      exact hk.skipped.append (List.Sublist.refl _)

/-- What every turn of an instance that is not passed over keeps, the turns of a round
keep, each being that of another instance. -/
theorem round_keeps {P : List Move → Running → Prop}
    (hoffer : ∀ {ms t turn}, P ms t → turn.1 ∉ t.skip → P (ms ++ moves f t turn) (offer f t turn))
    (turns : List (Key × Priority)) {ms : List Move} {t : Running} (hP : P ms t) (hnd : (turns.map (·.1)).Nodup)
    (hout : ∀ turn ∈ turns, turn.1 ∉ t.skip) : P (ms ++ roundMoves f turns t) (turns.foldl (offer f) t) := by
  induction turns generalizing ms t with
  | nil =>
    rw [roundMoves, List.append_nil]
    exact hP
  | cons turn rest ih =>
    obtain ⟨hnew, hnd⟩ := List.nodup_cons.1 (List.map_cons ▸ hnd)
    rw [roundMoves, ← List.append_assoc]
    refine ih (hoffer hP (hout turn List.mem_cons_self)) hnd fun other ho hmem => ?_
    have hold := hout other (List.mem_cons_of_mem turn ho)
    rcases (offer_turned f t turn).skip with he | he
    · exact hold (he ▸ hmem)
    · rw [he] at hmem
      rcases List.mem_append.1 hmem with hmem | hmem
      · exact hold hmem
      · exact hnew (List.mem_singleton.1 hmem ▸ List.mem_map_of_mem ho)

/-- The instances that come up in a round are not those that are passed over. -/
theorem ready_fresh (s : Store) (skip : List Key) : ∀ turn ∈ s.ready skip, turn.1 ∉ skip := by
  intro turn hturn
  rw [ready_eq] at hturn
  obtain ⟨e, he, rfl⟩ := List.mem_map.1 hturn
  obtain ⟨_, _, _, hout⟩ := mem_tickets (List.mem_mergeSort.1 he)
  exact hout

/-- Entering a round changes nothing but the count of rounds. -/
theorem Kept.opened (hk : Kept f s ms t) : Kept f s ms t.opened :=
  ⟨hk.balanced, hk.lawful, hk.units, hk.accepted, hk.once, hk.skipped⟩

/-- What every round keeps, the rounds of a tick keep. -/
theorem rounds_keep {P : List (List Move) → Running → Prop}
    (hplay : ∀ {past t}, P past t → P (past ++ [roundMoves f (t.store.ready t.skip) t.opened]) (t.played f)) (n : Nat)
    {past : List (List Move)} {t : Running} (hP : P past t) : P (past ++ roundsMoves f n t) (Running.rounds f n t) := by
  induction n generalizing past t with
  | zero =>
    rw [roundsMoves, Running.rounds, List.append_nil]
    exact hP
  | succ n ih =>
    rw [roundsMoves, rounds_succ]
    split
    · rw [List.append_nil]
      exact hP
    · rw [List.append_cons]
      exact ih (hplay hP)

theorem Kept.played (hk : Kept f s ms t) (hs : s.Keyed) :
    Kept f s (ms ++ roundMoves f (t.store.ready t.skip) t.opened) (t.played f) :=
  round_keeps Kept.offered _ hk.opened ((hk.balanced.keyed hs).ready _) (ready_fresh _ _)

/-- The rounds of a tick keep its books. -/
theorem Kept.rounds (n : Nat) {past : List (List Move)} {t : Running} (hk : Kept f s past.flatten t) (hs : s.Keyed) :
    Kept f s (past ++ roundsMoves f n t).flatten (Running.rounds f n t) :=
  rounds_keep (P := fun past t => Kept f s past.flatten t)
    (fun hk => by
      rw [List.flatten_append, List.flatten_singleton]
      exact hk.played hs) n hk

/-- A turn is no round. -/
theorem foldl_rounds (turns : List (Key × Priority)) (t : Running) :
    (turns.foldl (offer f) t).report.rounds = t.report.rounds := by
  induction turns generalizing t with
  | nil => rfl
  | cons turn rest ih =>
    refine (ih _).trans ?_
    have hturned := offer_turned f t turn
    generalize offer f t turn = t', moves f t turn = ms at hturned
    cases hturned with
    | putOff _ _ hp => exact hp.rounds
    | pushedBack _ _ _ hp => exact hp.rounds
    | vacant _ he => rw [he]
    | taken _ _ _ _ _ _ _ hrounds => exact hrounds

theorem roundsMoves_length_le (n : Nat) (t : Running) : (roundsMoves f n t).length ≤ n := by
  induction n generalizing t with
  | zero => exact Nat.le_refl 0
  | succ n ih =>
    rw [roundsMoves]
    split
    · exact Nat.zero_le _
    · exact Nat.succ_le_succ (ih _)

theorem rounds_count (n : Nat) (t : Running) :
    (rounds f n t).report.rounds = t.report.rounds + (roundsMoves f n t).length := by
  induction n generalizing t with
  | zero => rfl
  | succ n ih =>
    rw [roundsMoves, rounds_succ]
    split
    · rfl
    · have hplayed : (t.played f).report.rounds = t.report.rounds + 1 := foldl_rounds _ _
      rw [ih, hplayed, List.length_cons]
      omega

theorem close_store (f : Frame) (t : Running) : (t.close f).store = t.store := by
  unfold close
  dsimp only

theorem close_accepted (f : Frame) (t : Running) : (t.close f).accepted = t.accepted ∧ (t.close f).skip = t.skip := by
  unfold close
  exact ⟨rfl, rfl⟩

theorem close_rounds (f : Frame) (t : Running) : (t.close f).report.rounds = t.report.rounds := by
  unfold close
  dsimp only
  split <;> split <;> rfl

theorem Kept.close (hk : Kept f s ms t) : Kept f s ms (t.close f) := by
  obtain ⟨hunits, -⟩ := close_units f t
  obtain ⟨haccepted, hskip⟩ := close_accepted f t
  refine ⟨close_store f t ▸ hk.balanced, hk.lawful, hunits.trans hk.units, ?_, hskip ▸ hk.once, ?_⟩
  · rw [haccepted, hunits]
    exact hk.accepted
  · rw [haccepted, hskip]
    exact hk.skipped

end Running

open Running

/-- A tick before its first round. -/
def opening (f : Frame) (last : Nat) (store : Store) (d : Diagnostics) : Running :=
  ⟨store, d.emit (f.event (last + 1) .start store.backlog 0 none none), [], .ofSeq (last + 1), [], [], [], false⟩

theorem run_eq (f : Frame) (last : Nat) (store : Store) (d : Diagnostics) :
    run f last store d = if store.backlog = (0, 0) then ⟨store, d, [], .idleAt last, [], [], [], false⟩
      else (rounds f (max 1 f.limits.maxDrainRounds) (opening f last store d)).close f := rfl

/-- What a tick does to the queues, one list for each of its rounds. -/
def history (f : Frame) (last : Nat) (store : Store) (d : Diagnostics) : List (List Move) :=
  if store.backlog = (0, 0) then [] else roundsMoves f (max 1 f.limits.maxDrainRounds) (opening f last store d)

theorem opening_kept (f : Frame) (last : Nat) (store : Store) (d : Diagnostics) :
    Kept f store [] (opening f last store d) :=
  ⟨.refl store, .nil f, rfl, rfl, List.nodup_nil, List.Sublist.refl _⟩

/-- A tick keeps its books. -/
theorem run_kept (f : Frame) (last : Nat) {store : Store} (hs : store.Keyed) (d : Diagnostics) :
    Kept f store (history f last store d).flatten (run f last store d) := by
  rw [run_eq, history]
  split
  · exact ⟨.refl store, .nil f, rfl, rfl, List.nodup_nil, List.Sublist.refl _⟩
  · have hopening : Kept f store (List.flatten []) (opening f last store d) := opening_kept f last store d
    exact (hopening.rounds _ hs).close

/-- A tick has a round for each list of its history, and no more than its limit. -/
theorem run_rounds (f : Frame) (last : Nat) (store : Store) (d : Diagnostics) :
    (run f last store d).report.rounds = (history f last store d).length ∧
      (history f last store d).length ≤ max 1 f.limits.maxDrainRounds := by
  rw [run_eq, history]
  split
  · exact ⟨rfl, Nat.zero_le _⟩
  · refine ⟨?_, roundsMoves_length_le _ _⟩
    rw [close_rounds, rounds_count]
    exact Nat.zero_add _

end Tick

namespace Store

variable {s s' : Store} {i : Instance} {k : Key}

/-! ## Progress -/

theorem queuedPriority_eq_none : i.queuedPriority = none ↔ i.queue = [] := by
  unfold Instance.queuedPriority
  cases i.queue <;> simp

theorem backlog_eq_zero : s.backlog = (0, 0) ↔ ∀ i ∈ s.instances, i.queue = [] := by
  unfold backlog
  simp only [Prod.mk.injEq, List.count_eq_zero, List.mem_filterMap, not_exists, not_and]
  constructor
  · intro ⟨hnormal, hlow⟩ i hi
    refine queuedPriority_eq_none.1 ?_
    cases hp : i.queuedPriority with
    | none => rfl
    | some p =>
      cases p with
      | normal => exact absurd hp (hnormal i hi)
      | low => exact absurd hp (hlow i hi)
  · intro h
    refine ⟨fun i hi => ?_, fun i hi => ?_⟩
    all_goals
      rw [queuedPriority_eq_none.2 (h i hi)]
      nofun

/-- An instance with commits that wait, and that is not passed over, comes up. -/
theorem mem_ready_of_queue {skip : List Key} (hi : i ∈ s.instances) (hq : i.queue ≠ []) (hout : i.key ∉ skip) :
    ∃ p, (i.key, p) ∈ s.ready skip := by
  have hticket : ∃ p seq, ticket i = some (p, seq, i.key) := by
    unfold ticket Instance.queuedPriority Instance.headSeq
    cases he : i.queue with
    | nil => exact absurd he hq
    | cons c rest => exact ⟨_, _, rfl⟩
  obtain ⟨p, seq, he⟩ := hticket
  refine ⟨p, ?_⟩
  rw [ready_eq]
  refine List.mem_map.2 ⟨(p, seq, i.key), List.mem_mergeSort.2 ?_, rfl⟩
  exact List.mem_filterMap.2 ⟨i, List.mem_filter.2 ⟨hi, by simpa using hout⟩, he⟩

theorem mem_of_find? (h : s.find? k = some i) : i ∈ s.instances := List.mem_of_find?_eq_some h

end Store

namespace Tick

open Store Move Running

namespace Running

variable {f : Frame} {t t' : Running} {turn : Key × Priority} {ms : List Move}

theorem Turned.units_grow (h : Turned f t turn t' ms) : t.report.units <+: t'.report.units := by
  cases h with
  | putOff _ _ hp => exact hp.units ▸ List.prefix_refl _
  | pushedBack _ _ _ hp => exact hp.units ▸ List.prefix_refl _
  | vacant _ he => exact he ▸ List.prefix_refl _
  | taken _ _ _ _ _ hunits => exact hunits ▸ List.prefix_append _ _

theorem foldl_units (turns : List (Key × Priority)) (t : Running) :
    t.report.units <+: (turns.foldl (offer f) t).report.units := by
  induction turns generalizing t with
  | nil => exact List.prefix_refl _
  | cons turn rest ih => exact (offer_turned f t turn).units_grow.trans (ih _)

theorem rounds_units (n : Nat) (t : Running) : t.report.units <+: (rounds f n t).report.units := by
  induction n generalizing t with
  | zero => exact List.prefix_refl _
  | succ n ih =>
    rw [rounds_succ]
    split
    · exact List.prefix_refl _
    · exact (foldl_units (t.store.ready t.skip) t.opened).trans (ih _)

/-- A turn that is allowed takes what waits. -/
theorem units_of_allows {i : Instance} (ha : allows f t turn ≠ none) (hi : t.store.find? turn.1 = some i)
    (hq : i.queue ≠ []) : (offer f t turn).report.units ≠ [] := by
  have hturned := offer_turned f t turn
  generalize offer f t turn = t', moves f t turn = ms at hturned
  cases hturned with
  | putOff hn hleft _ =>
    unfold allows at ha
    rw [hn] at ha
    exact absurd (if_pos hleft) ha
  | pushedBack hlow hfull hne _ =>
    unfold allows at ha
    rw [hlow] at ha
    exact absurd (if_pos ⟨hfull, hne⟩) ha
  | vacant hempty _ => exact absurd (hempty i hi) hq
  | taken _ _ _ _ _ hunits =>
    rw [hunits]
    simp

end Running

/-- A tick that is not idle accepts a unit, when the cap lets an urgent one run or none is
urgent. -/
theorem run_accepts (f : Frame) (last : Nat) {store : Store} (hs : store.Keyed) (d : Diagnostics)
    (hwork : store.backlog ≠ (0, 0)) (hcap : 1 ≤ f.limits.urgentStepCap ∨ store.backlog.1 = 0) :
    (run f last store d).report.units ≠ [] := by
  rw [run_eq, if_neg hwork, (close_units f _).1]
  obtain ⟨n, hn⟩ : ∃ n, max 1 f.limits.maxDrainRounds = n + 1 := ⟨max 1 f.limits.maxDrainRounds - 1, by omega⟩
  have hready : store.ready [] ≠ [] := by
    intro he
    refine hwork (backlog_eq_zero.2 fun i hi => Classical.byContradiction fun hq => ?_)
    obtain ⟨p, hp⟩ : ∃ p, (i.key, p) ∈ store.ready [] := mem_ready_of_queue hi hq List.not_mem_nil
    rw [he] at hp
    cases hp
  have hopen : (opening f last store d).store.ready (opening f last store d).skip ≠ [] := hready
  rw [hn, rounds_succ, if_neg hopen]
  have hplayed : ((opening f last store d).played f).report.units ≠ [] := by
    unfold played
    change ((store.ready []).foldl (offer f) (opening f last store d).opened).report.units ≠ []
    cases hturns : store.ready [] with
    | nil => exact absurd hturns hready
    | cons turn rest =>
      obtain ⟨i, hi, hp⟩ := hs.mem_ready (hturns ▸ List.mem_cons_self : turn ∈ store.ready [])
      have hq : i.queue ≠ [] := fun he => by
        rw [queuedPriority_eq_none.2 he] at hp
        cases hp
      have hallowed : allows f (opening f last store d).opened turn ≠ none := by
        unfold allows
        split
        · rename_i hurgent
          have hleft : left f (opening f last store d).opened = f.limits.urgentStepCap := Nat.sub_zero _
          have hpos : 1 ≤ f.limits.urgentStepCap := by
            refine hcap.resolve_right fun hzero => ?_
            have hcount := List.count_eq_zero.1 hzero
            exact hcount (List.mem_filterMap.2 ⟨i, mem_of_find? hi, hurgent ▸ hp⟩)
          rw [hleft, if_neg (by omega)]
          nofun
        · rw [if_neg fun h => h.2 rfl]
          nofun
      have hfirst := units_of_allows hallowed hi hq
      rw [List.foldl_cons]
      exact fun he => hfirst (List.prefix_nil.1 (he ▸ foldl_units rest _))
  exact fun he => hplayed (List.prefix_nil.1 (he ▸ rounds_units n _))

end Tick

namespace Store

open Move

variable {s s' : Store} {i i' : Instance} {k : Key} {ms : List Move}

/-! ## Runs -/

/-- A run from the empty store, with the moves on the way: instances are registered, or
changed in everything but their queues, commits are queued, ticks run. -/
inductive Logged : List Move → Store → Prop
  | empty : Logged [] .empty
  | add {ms : List Move} {s : Store} (i : Instance) : Logged ms s → i.queue = [] → s.find? i.key = none →
      Logged ms (s.add i)
  | adjust {ms : List Move} {s : Store} {i i' : Instance} : Logged ms s → s.find? i'.key = some i →
      i'.queue = i.queue → Logged ms (s.put i')
  | enqueue {ms : List Move} {s s' : Store} {k : Key} {c : Commit} : Logged ms s → s.enqueue k c = .ok s' →
      Logged (ms ++ [.queued k { c with seq := s.seq + 1 }]) s'
  | tick {ms : List Move} {s : Store} (f : Tick.Frame) (last : Nat) (d : Diagnostics) : Logged ms s →
      Logged (ms ++ (Tick.history f last s d).flatten) (Tick.run f last s d).store

theorem Logged.run (h : Logged ms s) : Run .empty s := by
  induction h with
  | empty => exact .refl
  | add i _ hq hnew ih => exact ih.step (.add i hq hnew)
  | adjust _ hi hq ih => exact ih.step (.adjust hi hq)
  | enqueue _ he ih => exact ih.step (.enqueue he)
  | tick f last d _ ih => exact ih.step (.tick f last d)

theorem Logged.keyed (h : Logged ms s) : s.Keyed := (h.run.keeps numbered_empty).1.keyed

theorem queueOf_add (hq : i.queue = []) (k : Key) : (s.add i).queueOf k = s.queueOf k := by
  unfold queueOf
  rw [find?_add]
  cases s.find? k with
  | some j => rfl
  | none =>
    by_cases hk : i.key = k
    · simp [hk, hq]
    · simp [hk]

/-- What was taken off a queue, and then what waits on it, is what was put on it. -/
theorem Logged.balanced (h : Logged ms s) (k : Key) : takenFrom k ms ++ s.queueOf k = putOn k ms := by
  induction h with
  | empty => rfl
  | add i _ hq _ ih =>
    rw [queueOf_add hq]
    exact ih
  | @adjust ms s i i' _ hi hq ih =>
    have hput : (s.put i').queueOf k = if i'.key = k then i'.queue else s.queueOf k := queueOf_replace hi rfl s.seq k
    rw [hput, ← ih]
    split
    · subst_vars
      rw [hq, queueOf_of_find? hi]
    · rfl
  | enqueue _ he ih =>
    rw [takenFrom_append, putOn_append, List.append_assoc, (enqueue_balanced he (fun _ => rfl) fun _ => rfl).queue,
      ← List.append_assoc, ih]
  | tick f last d hl ih =>
    rw [takenFrom_append, putOn_append, List.append_assoc, (Tick.run_kept f last hl.keyed d).balanced.queue,
      ← List.append_assoc, ih]

theorem Logged.made (h : Logged ms s) {p : Priority} {cs : List Commit} {r : UnitReport}
    (hm : .took k p cs r ∈ ms) : Tick.Running.Made k cs r := by
  induction h with
  | empty => cases hm
  | add _ _ _ _ ih => exact ih hm
  | adjust _ _ _ ih => exact ih hm
  | enqueue _ _ ih =>
    rcases List.mem_append.1 hm with hm | hm
    · exact ih hm
    · cases List.mem_singleton.1 hm
  | tick f last d hl ih =>
    rcases List.mem_append.1 hm with hm | hm
    · exact ih hm
    · exact (Tick.run_kept f last hl.keyed d).lawful.took hm

/-- Nothing is lost and nothing is doubled. In every run, what was taken off a queue and
then what waits on it is what was put on it, commit by commit. What was taken off at once
is one unit, which reports the patches of its commits, in their order, before all that its
passes add, however they end. A tick from there on accepts what its moves took, each
instance at most once; it has at most so many rounds, and accepts a unit when something
waits and the cap lets an urgent one run or none is urgent. -/
theorem Logged.conserved (h : Logged ms s) :
    (∀ k, takenFrom k ms ++ s.queueOf k = putOn k ms) ∧
    (∀ k p cs r, .took k p cs r ∈ ms → Tick.Running.Made k cs r) ∧
    ∀ (f : Tick.Frame) (last : Nat) (d : Diagnostics),
      let rounds := Tick.history f last s d
      let report := (Tick.run f last s d).report
      Tick.Running.Lawful f rounds.flatten ∧ report.units = reports rounds.flatten ∧
        (report.units.map (·.key)).Nodup ∧
        report.rounds = rounds.length ∧ report.rounds ≤ max 1 f.limits.maxDrainRounds ∧
        (s.backlog ≠ (0, 0) → 1 ≤ f.limits.urgentStepCap ∨ s.backlog.1 = 0 → report.units ≠ []) := by
  refine ⟨h.balanced, fun k p cs r hm => h.made hm, fun f last d => ?_⟩
  have hk := Tick.run_kept f last h.keyed d
  obtain ⟨hrounds, hmax⟩ := Tick.run_rounds f last s d
  refine ⟨hk.lawful, hk.units, ?_, hrounds, hrounds ▸ hmax, Tick.run_accepts f last h.keyed d⟩
  rw [← hk.accepted]
  exact hk.skipped.nodup hk.once

end Store

namespace Relay

open Tick

/-- The first of two relays leaves `b` undone; the second one waits for the cap. -/
theorem conserved_when_held :
    ∃ ms, Store.Logged ms (held 1) ∧ Move.takenFrom ⟨"relay", "1"⟩ ms = [writing 1 .normal 2] ∧
      Move.takenFrom ⟨"relay", "1"⟩ ms ++ (held 1).queueOf ⟨"relay", "1"⟩ = Move.putOn ⟨"relay", "1"⟩ ms ∧
      (held 1).backlog = (2, 0) ∧ (run single 1 (held 1) quiet).report.units ≠ [] := by
  have hfirst : Store.Logged [] (Store.empty.add (named "1")) := .add _ .empty rfl rfl
  have hsecond : Store.Logged [] ((Store.empty.add (named "1")).add (named "2")) := .add _ hfirst rfl (by cbv)
  have hwrite : Store.Logged [.queued ⟨"relay", "1"⟩ (writing 1 .normal 2)]
      ⟨[(named "1").enqueue (writing 1 .normal 2), named "2"], 1⟩ :=
    .enqueue (k := ⟨"relay", "1"⟩) (c := writing 0 .normal 2) hsecond (by cbv)
  have hwrite' : Store.Logged
      [.queued ⟨"relay", "1"⟩ (writing 1 .normal 2), .queued ⟨"relay", "2"⟩ (writing 2 .normal 3)] contested :=
    .enqueue (k := ⟨"relay", "2"⟩) (c := writing 0 .normal 3) hwrite (by cbv)
  have hticked := hwrite'.tick single 0 quiet
  have hheld : (run single 0 contested quiet).store = held 1 := (ticks_held 0).1
  rw [hheld] at hticked
  obtain ⟨hbalanced, -, htick⟩ := hticked.conserved
  obtain ⟨-, -, -, -, -, haccepts⟩ := htick single 1 quiet
  have hbacklog : (held 1).backlog = (2, 0) := by cbv
  refine ⟨_, hticked, by cbv, hbalanced _, hbacklog, haccepts ?_ (.inl (Nat.le_refl 1))⟩
  rw [hbacklog]
  decide

end Relay

end Settle
