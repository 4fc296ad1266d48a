/-
  Settle.Proofs.Tick — what a tick does to a store, and how it counts urgent steps (see
  `Settle.Tick`).

  A turn is passed over, or taken: the instance is put back as its unit left it, and
  links copy what changed into the queues of their targets (`offer_offered`). Until an
  instance comes up its queue only grows, by such copies.

  A tick counts a unit as urgent by the priority its instance had when the round began.
  These units are reported as urgent and together stay within the cap. A copy that lands
  on an instance later in the same round can make a unit urgent that came up as not; it
  runs without a budget and is not counted, so the units reported as urgent ran as many
  steps as were counted just when those overtaken ran none (`urgent_steps_of_tick`).
-/

import Settle.Tick
import Settle.Proofs.Budget

namespace Settle

namespace Store

variable {s s' s'' : Store} {i : Instance} {k : Key} {c : Commit}

/-- No two instances have the same key. -/
def Keyed (s : Store) : Prop := (s.instances.map (·.key)).Nodup

theorem Keyed.of_keys (h : s'.instances.map (·.key) = s.instances.map (·.key)) (hs : s.Keyed) : s'.Keyed := by
  unfold Keyed
  rw [h]
  exact hs

theorem key_of_find? (h : s.find? k = some i) : i.key = k := by
  simpa using List.find?_some h

theorem Keyed.find?_eq (hs : s.Keyed) (hi : i ∈ s.instances) : s.find? i.key = some i := by
  unfold Keyed at hs
  unfold find?
  generalize s.instances = l at hs hi
  induction l with
  | nil => cases hi
  | cons j l ih =>
    obtain ⟨hj, hl⟩ := List.nodup_cons.1 (List.map_cons ▸ hs)
    rcases List.mem_cons.1 hi with rfl | hi
    · simp
    · have hne : j.key ≠ i.key := fun e => hj (e ▸ List.mem_map_of_mem hi)
      rw [List.find?_cons_of_neg (by simpa using hne)]
      exact ih hl hi

theorem keys_put (s : Store) (i : Instance) : (s.put i).instances.map (·.key) = s.instances.map (·.key) := by
  unfold put
  rw [List.map_map]
  refine List.map_congr_left fun j _ => ?_
  dsimp only [Function.comp]
  split
  · rename_i he
    exact he.symm
  · rfl

theorem find?_put (s : Store) (i : Instance) (k : Key) :
    (s.put i).find? k = if i.key = k then (s.find? k).map fun _ => i else s.find? k := by
  unfold put find?
  dsimp only
  induction s.instances with
  | nil => simp
  | cons j l ih =>
    rw [List.map_cons]
    by_cases hj : j.key = i.key
    · rw [if_pos hj]
      by_cases hk : i.key = k
      · simp [hj, hk]
      · have hjk : j.key ≠ k := fun e => hk (hj ▸ e)
        rw [List.find?_cons_of_neg (by simpa using hk), List.find?_cons_of_neg (by simpa using hjk), ih]
    · rw [if_neg hj]
      by_cases hk : j.key = k
      · have hik : i.key ≠ k := fun e => hj (hk.trans e.symm)
        simp [hk, hik]
      · rw [List.find?_cons_of_neg (by simpa using hk), List.find?_cons_of_neg (by simpa using hk), ih]

/-- An instance keeps its key through a unit. -/
theorem key_of_apply (hi : s.find? k = some i) (u : WorkUnit) (now : Time) (d : Diagnostics) (budget : Option Nat) :
    (({ i with queue := [] } : Instance).apply u now d budget).inst.key = k :=
  (Instance.apply_answers _ u now d budget).key.trans (key_of_find? hi : i.key = k)

/-! ## Turns of a round -/

/-- What an instance is ordered by while it waits. -/
def ticket (i : Instance) : Option (Priority × Nat × Key) :=
  match i.queuedPriority, i.headSeq with
  | some p, some seq => some (p, seq, i.key)
  | _, _ => none

theorem ticket_eq_some {e : Priority × Nat × Key} (h : ticket i = some e) :
    i.queuedPriority = some e.1 ∧ i.headSeq = some e.2.1 ∧ i.key = e.2.2 := by
  unfold ticket at h
  split at h
  · cases h
    exact ⟨by assumption, by assumption, rfl⟩
  · cases h

/-- The tickets of the instances that are not passed over. -/
def tickets (s : Store) (skip : List Key) : List (Priority × Nat × Key) :=
  (s.instances.filter fun i => !skip.contains i.key).filterMap ticket

theorem ready_eq (s : Store) (skip : List Key) :
    s.ready skip = ((s.tickets skip).mergeSort comesBefore).map fun e => (e.2.2, e.1) := rfl

theorem mem_tickets {skip : List Key} {e : Priority × Nat × Key} (h : e ∈ s.tickets skip) :
    ∃ i ∈ s.instances, ticket i = some e ∧ e.2.2 ∉ skip := by
  obtain ⟨i, hi, he⟩ := List.mem_filterMap.1 h
  obtain ⟨hi, hskip⟩ := List.mem_filter.1 hi
  refine ⟨i, hi, he, ?_⟩
  rw [← (ticket_eq_some he).2.2]
  simpa using hskip

theorem Keyed.tickets (hs : s.Keyed) (skip : List Key) : ((s.tickets skip).map (·.2.2)).Nodup := by
  refine List.Sublist.nodup ?_ hs
  unfold Store.tickets
  have hkept : (s.instances.filter fun i => !skip.contains i.key).Sublist s.instances := List.filter_sublist
  refine List.Sublist.trans ?_ (hkept.map (·.key))
  generalize s.instances.filter (fun i => !skip.contains i.key) = l
  induction l with
  | nil => exact List.Sublist.refl _
  | cons i l ih =>
    rw [List.filterMap_cons]
    cases he : ticket i with
    | none => exact ih.cons _
    | some e =>
      rw [List.map_cons, List.map_cons, (ticket_eq_some he).2.2]
      exact ih.cons_cons _

theorem Keyed.ready (hs : s.Keyed) (skip : List Key) : ((s.ready skip).map (·.1)).Nodup := by
  rw [ready_eq, List.map_map]
  exact ((List.mergeSort_perm _ _).map _).nodup_iff.2 (hs.tickets skip)

/-- A turn is that of an instance with a queue of its priority. -/
theorem Keyed.mem_ready (hs : s.Keyed) {skip : List Key} {turn : Key × Priority} (h : turn ∈ s.ready skip) :
    ∃ i, s.find? turn.1 = some i ∧ i.queuedPriority = some turn.2 := by
  rw [ready_eq] at h
  obtain ⟨e, he, rfl⟩ := List.mem_map.1 h
  obtain ⟨i, hi, hticket, -⟩ := mem_tickets (List.mem_mergeSort.1 he)
  obtain ⟨hp, -, hkey⟩ := ticket_eq_some hticket
  exact ⟨i, hkey ▸ hs.find?_eq hi, hp⟩

/-! ## Queues that grow -/

/-- Queueing puts a commit, under the next number, at the end of the queue of an
instance. -/
theorem enqueue_eq_ok (h : s.enqueue k c = .ok s') :
    ∃ i, s.find? k = some i ∧
      s' = { s.put (i.enqueue { c with seq := s.seq + 1 }) with seq := s.seq + 1 } := by
  unfold enqueue get at h
  cases hi : s.find? k with
  | none =>
    rw [hi] at h
    cases h
  | some i =>
    rw [hi] at h
    cases h
    exact ⟨i, rfl, rfl⟩

/-- From one store to another, each queue grew by commits that meet the condition. -/
structure Grown (P : Key → Commit → Prop) (s s' : Store) : Prop where
  keys : s'.instances.map (·.key) = s.instances.map (·.key)
  queue : ∀ k i, s.find? k = some i →
    ∃ i' added, s'.find? k = some i' ∧ i'.queue = i.queue ++ added ∧ ∀ c ∈ added, P k c

theorem Grown.refl (P : Key → Commit → Prop) (s : Store) : Grown P s s :=
  ⟨rfl, fun _ i hi => ⟨i, [], hi, (List.append_nil _).symm, fun _ hc => absurd hc List.not_mem_nil⟩⟩

theorem Grown.trans {P : Key → Commit → Prop} (h : Grown P s s') (h' : Grown P s' s'') : Grown P s s'' := by
  refine ⟨h'.keys.trans h.keys, fun k i hi => ?_⟩
  obtain ⟨i₁, a₁, hi₁, hq₁, hP₁⟩ := h.queue k i hi
  obtain ⟨i₂, a₂, hi₂, hq₂, hP₂⟩ := h'.queue k i₁ hi₁
  refine ⟨i₂, a₁ ++ a₂, hi₂, by rw [hq₂, hq₁, List.append_assoc], fun c hc => ?_⟩
  exact (List.mem_append.1 hc).elim (hP₁ c) (hP₂ c)

theorem Grown.mono {P Q : Key → Commit → Prop} (hPQ : ∀ k c, P k c → Q k c) (h : Grown P s s') : Grown Q s s' := by
  refine ⟨h.keys, fun k i hi => ?_⟩
  obtain ⟨i', added, hi', hq, hP⟩ := h.queue k i hi
  exact ⟨i', added, hi', hq, fun c hc => hPQ k c (hP c hc)⟩

theorem enqueue_grown {P : Key → Commit → Prop} (h : s.enqueue k c = .ok s') (hP : P k { c with seq := s.seq + 1 }) :
    Grown P s s' := by
  obtain ⟨i, hi, rfl⟩ := enqueue_eq_ok h
  refine ⟨keys_put s _, fun k' i' hi' => ?_⟩
  have hkey : (i.enqueue { c with seq := s.seq + 1 }).key = k := (key_of_find? hi : i.key = k)
  have hput := find?_put s (i.enqueue { c with seq := s.seq + 1 }) k'
  rw [hkey] at hput
  by_cases he : k = k'
  · subst he
    obtain rfl := Option.some.inj (hi.symm.trans hi')
    rw [if_pos rfl, hi] at hput
    exact ⟨_, [_], hput, rfl, fun c' hc' => List.mem_singleton.1 hc' ▸ hP⟩
  · rw [if_neg he, hi'] at hput
    exact ⟨i', [], hput, (List.append_nil _).symm, fun _ hc => absurd hc List.not_mem_nil⟩

/-- What links copy, one value after the other. -/
inductive Copied (links : List Link) (s : Store) : Store → Prop
  | refl : Copied links s s
  | step {s₁ s₂ : Store} {l : Link} {v : Value} {prev : Option Value} {p : Priority} : Copied links s s₁ →
      l ∈ links → s₁.enqueue l.target (l.commit v prev p) = .ok s₂ → Copied links s s₂

/-- A commit on the key that a link made. -/
def Linked (links : List Link) (k : Key) (c : Commit) : Prop := c.kind = .link ∧ ∃ l ∈ links, l.target = k

theorem Copied.grown {links : List Link} (h : Copied links s s') : Grown (Linked links) s s' := by
  induction h with
  | refl => exact .refl _ s
  | step _ hl he ih => exact ih.trans (enqueue_grown he ⟨rfl, _, hl, rfl⟩)

end Store

namespace WorkUnit

/-- A unit is as urgent as the queue it was made of. -/
theorem priority_of_merge? {i : Instance} {u : WorkUnit} (h : merge? i.queue = some u) :
    i.queuedPriority = some u.priority := by
  unfold Instance.queuedPriority
  generalize i.queue = q at h
  cases q with
  | nil => cases h
  | cons c rest =>
    cases h
    have hfold : ∀ (l : List Commit) (v : WorkUnit),
        (l.foldl add v).priority = l.foldl (fun p c => p.least c.priority) v.priority := fun l => by
      induction l with
      | nil => exact fun _ => rfl
      | cons c l ih => exact fun v => ih (v.add c)
    exact congrArg some (hfold rest (ofCommit c)).symm

theorem kinds_add {u : WorkUnit} {kind : CommitKind} (c : Commit) (h : kind ∈ u.kinds ∨ kind = c.kind) :
    kind ∈ (u.add c).kinds := by
  unfold add
  dsimp only
  split
  · rename_i hc
    rcases h with h | rfl
    · exact h
    · exact List.contains_iff_mem.1 hc
  · rcases h with h | rfl
    · exact List.mem_append_left _ h
    · exact List.mem_append_right _ (List.mem_singleton_self _)

theorem kinds_foldl {kind : CommitKind} (l : List Commit) (u : WorkUnit)
    (h : kind ∈ u.kinds ∨ ∃ c ∈ l, kind = c.kind) : kind ∈ (l.foldl add u).kinds := by
  induction l generalizing u with
  | nil =>
    refine h.resolve_right ?_
    intro ⟨_, hc, _⟩
    cases hc
  | cons c l ih =>
    refine ih _ ?_
    rcases h with h | ⟨c', hc', he⟩
    · exact .inl (kinds_add c (.inl h))
    · rcases List.mem_cons.1 hc' with rfl | hc'
      · exact .inl (kinds_add _ (.inr he))
      · exact .inr ⟨c', hc', he⟩

/-- A unit tells the kinds of all its commits. -/
theorem kinds_of_merge? {q : List Commit} {u : WorkUnit} (h : merge? q = some u) {c : Commit} (hc : c ∈ q) :
    c.kind ∈ u.kinds := by
  cases q with
  | nil => cases h
  | cons c₀ rest =>
    cases h
    refine kinds_foldl rest (ofCommit c₀) ?_
    rcases List.mem_cons.1 hc with rfl | hc
    · exact .inl (List.mem_singleton_self _)
    · exact .inr ⟨c, hc, rfl⟩

end WorkUnit

namespace Instance

/-- More commits leave an urgent queue urgent. -/
theorem queuedPriority_append {i i₀ : Instance} {added : List Commit} {p q : Priority}
    (hq : i.queue = i₀.queue ++ added) (h₀ : i₀.queuedPriority = some p) (h : i.queuedPriority = some q) :
    q = added.foldl (fun p c => p.least c.priority) p := by
  unfold queuedPriority at h₀ h
  rw [hq] at h
  cases hi : i₀.queue with
  | nil =>
    rw [hi] at h₀
    cases h₀
  | cons c rest =>
    rw [hi] at h₀ h
    cases h₀
    rw [List.cons_append] at h
    cases h
    rw [List.foldl_append]

theorem foldl_least_normal (l : List Commit) : l.foldl (fun p c => Priority.least p c.priority) .normal = .normal := by
  induction l with
  | nil => rfl
  | cons c l ih =>
    have hleast : Priority.least .normal c.priority = .normal := by cases c.priority <;> rfl
    rw [List.foldl_cons, hleast, ih]

end Instance

namespace Tick

namespace Running

open Store

variable {f : Frame} {t t' : Running} {turn : Key × Priority}

/-! ## Turns -/

theorem copy_copied {links : List Link} {s : Store} {l : Link} (hl : l ∈ links) (priority : Priority) (v : Value) :
    Copied links s (copy priority s l v) := by
  unfold copy
  dsimp only
  split
  · exact .refl
  · split
    · rename_i he
      exact .step .refl hl he
    · exact .refl

theorem Copied.trans {links : List Link} {s s₁ s₂ : Store} (h : Copied links s s₁) (h' : Copied links s₁ s₂) :
    Copied links s s₂ := by
  induction h' with
  | refl => exact h
  | step _ hl he ih => exact ih.step hl he

theorem foldl_copy_copied {links : List Link} (priority : Priority) (cs : List (Link × Value)) (s : Store)
    (hcs : ∀ c ∈ cs, c.1 ∈ links) : Copied links s (cs.foldl (fun s c => copy priority s c.1 c.2) s) := by
  induction cs generalizing s with
  | nil => exact .refl
  | cons c cs ih =>
    exact Copied.trans (copy_copied (hcs c List.mem_cons_self) priority c.2)
      (ih _ fun c' hc' => hcs c' (List.mem_cons_of_mem c hc'))

theorem mem_of_propagate {links : List Link} {key : Key} {before after : Value} {c : Link × Value}
    (h : c ∈ Link.propagate links key before after) : c.1 ∈ links := by
  obtain ⟨l, hl, hv⟩ := List.mem_filterMap.1 h
  obtain ⟨v, -, rfl⟩ := Option.map_eq_some_iff.1 hv
  exact (List.mem_filter.1 hl).1

/-- What is left of the cap on urgent steps. -/
def left (f : Frame) (t : Running) : Nat := f.limits.urgentStepCap - t.report.urgentSteps

/-- A turn is passed over, or taken: the unit of the instance runs, under the rest of the
cap if it came up as urgent, and links copy what it changed. -/
inductive Offered (f : Frame) (t : Running) (turn : Key × Priority) (t' : Running) : Prop
  | passed : t'.store = t.store → t'.report.units = t.report.units →
      t'.report.urgentSteps = t.report.urgentSteps → Offered f t turn t'
  | taken {i : Instance} {u : WorkUnit} {budget : Option Nat} {a : Instance.Applied} :
      t.store.find? turn.1 = some i → WorkUnit.merge? i.queue = some u → (turn.2 = .normal → budget = some (left f t)) →
      a = ({ i with queue := [] } : Instance).apply u f.now t.diagnostics budget →
      Copied f.links (t.store.put a.inst) t'.store → t'.report.units = t.report.units ++ [a.report] →
      t'.report.urgentSteps = t.report.urgentSteps + (if turn.2 = .normal then a.report.steps else 0) →
      Offered f t turn t'

theorem accept_offered (f : Frame) (t : Running) (key : Key) (priority : Priority) (budget : Option Nat)
    (hb : priority = .normal → budget = some (left f t)) :
    Offered f t (key, priority) (t.accept f key priority budget) := by
  unfold accept
  cases hi : t.store.find? key with
  | none => exact .passed rfl rfl rfl
  | some i =>
    simp only [Instance.takeUnit]
    cases hu : WorkUnit.merge? i.queue with
    | none => exact .passed rfl rfl rfl
    | some u =>
      refine .taken hi hu hb rfl ?_ ?_ ?_
      · refine foldl_copy_copied priority _ _ fun c hc => ?_
        split at hc
        · exact mem_of_propagate hc
        · cases hc
      · dsimp only
        split <;> rfl
      · dsimp only
        split <;> split <;> rfl

theorem offer_offered (f : Frame) (t : Running) (turn : Key × Priority) : Offered f t turn (offer f t turn) := by
  obtain ⟨key, priority⟩ := turn
  unfold offer
  cases priority with
  | normal =>
    dsimp only
    split
    · exact .passed rfl rfl rfl
    · exact accept_offered f t key .normal _ fun _ => rfl
  | low =>
    dsimp only
    split
    · exact .passed rfl rfl rfl
    · exact accept_offered f t key .low none nofun

/-- A turn that is taken leaves the other queues as they are, but for copies. -/
theorem Offered.grown (h : Offered f t turn t') {k : Key} (hk : k ≠ turn.1) {i : Instance}
    (hi : t.store.find? k = some i) :
    ∃ i' added, t'.store.find? k = some i' ∧ i'.queue = i.queue ++ added ∧ ∀ c ∈ added, Linked f.links k c := by
  cases h with
  | passed hstore _ _ => exact ⟨i, [], hstore ▸ hi, (List.append_nil _).symm, fun _ hc => absurd hc List.not_mem_nil⟩
  | @taken j u budget a hj hu hb ha hcopied _ _ =>
    have hkey : a.inst.key = turn.1 := by
      rw [ha]
      exact key_of_apply hj _ _ _ _
    refine hcopied.grown.queue k i ?_
    rw [find?_put, if_neg (fun e => hk (e.symm.trans hkey)), hi]

theorem Offered.keys (h : Offered f t turn t') : t'.store.instances.map (·.key) = t.store.instances.map (·.key) := by
  cases h with
  | passed hstore _ _ => rw [hstore]
  | taken _ _ _ _ hcopied _ _ => exact hcopied.grown.keys.trans (keys_put _ _)

/-! ## Steps counted as urgent -/

/-- The priorities under which the units accepted from these turns came up. -/
def cameFrom (f : Frame) : List (Key × Priority) → Running → List Priority
  | [], _ => []
  | turn :: rest, t =>
    (if t.report.units.length < (offer f t turn).report.units.length then [turn.2] else [])
      ++ cameFrom f rest (offer f t turn)

/-- A tick as it enters its next round. -/
def opened (t : Running) : Running := { t with report := { t.report with rounds := t.report.rounds + 1 } }

/-- A tick after its next round. -/
def played (f : Frame) (t : Running) : Running := (t.store.ready t.skip).foldl (offer f) t.opened

theorem rounds_succ (f : Frame) (n : Nat) (t : Running) :
    rounds f (n + 1) t = if t.store.ready t.skip = [] then t else rounds f n (t.played f) := by
  rw [rounds, played]
  split
  · rename_i he
    rw [if_pos he]
  · rename_i turns hne
    rw [if_neg hne]
    rfl

/-- What each turn keeps of the store, turns after one another keep. -/
theorem foldl_preserves {P : Store → Prop}
    (hturn : ∀ {t t' : Running} {turn : Key × Priority}, Offered f t turn t' → P t.store → P t'.store)
    (turns : List (Key × Priority)) {t : Running} (h : P t.store) : P (turns.foldl (offer f) t).store := by
  induction turns generalizing t with
  | nil => exact h
  | cons turn rest ih => exact ih (hturn (offer_offered f t turn) h)

/-- So do the rounds of a tick. -/
theorem rounds_preserves {P : Store → Prop}
    (hturn : ∀ {t t' : Running} {turn : Key × Priority}, Offered f t turn t' → P t.store → P t'.store) (n : Nat)
    {t : Running} (h : P t.store) : P (rounds f n t).store := by
  induction n generalizing t with
  | zero => exact h
  | succ n ih =>
    rw [rounds_succ]
    split
    · exact h
    · exact ih (t := t.played f) (foldl_preserves hturn (t.store.ready t.skip) (t := t.opened) h)

/-- The priorities under which the units accepted in these rounds came up. -/
def cameIn (f : Frame) : Nat → Running → List Priority
  | 0, _ => []
  | n + 1, t =>
    if t.store.ready t.skip = [] then []
    else cameFrom f (t.store.ready t.skip) t.opened ++ cameIn f n (t.played f)

/-- Steps of the units that came up under the one priority and are reported with the
other. -/
def stepsOf (came reported : Priority) (es : List (Priority × UnitReport)) : Nat :=
  ((es.filter fun e => e.1 = came ∧ e.2.priority = reported).map (·.2.steps)).sum

theorem stepsOf_append (p q : Priority) (es es' : List (Priority × UnitReport)) :
    stepsOf p q (es ++ es') = stepsOf p q es + stepsOf p q es' := by
  simp [stepsOf]

theorem stepsOf_eq_zero {p q : Priority} {es : List (Priority × UnitReport)} :
    stepsOf p q es = 0 ↔ ∀ e ∈ es, e.1 = p → e.2.priority = q → e.2.steps = 0 := by
  unfold stepsOf
  rw [List.sum_eq_zero_iff_forall_eq_nat]
  constructor
  · intro h e he hp hq
    exact h _ (List.mem_map_of_mem (List.mem_filter.2 ⟨he, by simp [hp, hq]⟩))
  · intro h n hn
    obtain ⟨e, he, rfl⟩ := List.mem_map.1 hn
    obtain ⟨he, hpq⟩ := List.mem_filter.1 he
    obtain ⟨hp, hq⟩ := of_decide_eq_true hpq
    exact h e he hp hq

/-- The count of urgent steps is that of the units that came up as urgent. -/
structure Ledger (f : Frame) (came : List Priority) (t : Running) : Prop where
  length : came.length = t.report.units.length
  spent : stepsOf .normal .normal (came.zip t.report.units) = t.report.urgentSteps
  within : t.report.urgentSteps ≤ f.limits.urgentStepCap
  urgent : ∀ e ∈ came.zip t.report.units, e.1 = .normal → e.2.priority = .normal
  /-- A unit that came up as not urgent and is reported as urgent has a copy in it. -/
  overtaken : ∀ e ∈ came.zip t.report.units, e.1 = .low → e.2.priority = .normal →
    .link ∈ e.2.kinds ∧ ∃ l ∈ f.links, l.target = e.2.key

theorem Ledger.congr {came : List Priority} (hl : Ledger f came t) (hunits : t'.report.units = t.report.units)
    (hurgent : t'.report.urgentSteps = t.report.urgentSteps) : Ledger f came t' := by
  obtain ⟨hlength, hspent, hwithin, hurgent', hovertaken⟩ := hl
  rw [← hunits] at hlength hspent hurgent' hovertaken
  rw [← hurgent] at hspent hwithin
  exact ⟨hlength, hspent, hwithin, hurgent', hovertaken⟩

/-- The turn of an instance whose queue, since the round began, only grew by copies. -/
def Due (f : Frame) (s : Store) (turn : Key × Priority) : Prop :=
  ∃ (i₀ i : Instance) (added : List Commit), i₀.queuedPriority = some turn.2 ∧ s.find? turn.1 = some i ∧ i.queue = i₀.queue ++ added ∧
    ∀ c ∈ added, Linked f.links turn.1 c

theorem Due.offered {s : Key × Priority} (hd : Due f t.store s) (h : Offered f t turn t') (hne : s.1 ≠ turn.1) :
    Due f t'.store s := by
  obtain ⟨i₀, i, added, hp, hi, hq, hadded⟩ := hd
  obtain ⟨i', more, hi', hq', hmore⟩ := h.grown hne hi
  refine ⟨i₀, i', added ++ more, hp, hi', by rw [hq', hq, List.append_assoc], fun c hc => ?_⟩
  exact (List.mem_append.1 hc).elim (hadded c) (hmore c)

/-- The unit of a turn that is due is as urgent as the turn, unless a copy made it more
urgent. -/
theorem Due.answered (hd : Due f t.store turn) {i : Instance} {u : WorkUnit} {budget : Option Nat} {a : Instance.Applied}
    (hi : t.store.find? turn.1 = some i) (hu : WorkUnit.merge? i.queue = some u)
    (hans : Instance.Answers { i with queue := [] } u budget a) :
    (turn.2 = .normal → a.report.priority = .normal) ∧
      (turn.2 = .low → a.report.priority = .normal →
        .link ∈ a.report.kinds ∧ ∃ l ∈ f.links, l.target = a.report.key) := by
  obtain ⟨i₀, i', added, hp, hi', hq, hadded⟩ := hd
  obtain rfl := Option.some.inj (hi.symm.trans hi')
  have hgrew := Instance.queuedPriority_append hq hp (WorkUnit.priority_of_merge? hu)
  constructor
  · intro hn
    rw [hans.priority, hgrew, hn]
    exact Instance.foldl_least_normal added
  · intro hlow hn
    rw [hans.priority, hgrew, hlow] at hn
    cases added with
    | nil => cases hn
    | cons c rest =>
      obtain ⟨hkind, l, hlink, htarget⟩ := hadded c List.mem_cons_self
      have hc : c ∈ i.queue := by simp [hq]
      have hof : a.report.key = turn.1 := hans.of.trans (key_of_find? hi : i.key = turn.1)
      rw [hans.kinds, hof, ← hkind]
      exact ⟨WorkUnit.kinds_of_merge? hu hc, l, hlink, htarget⟩

theorem Ledger.offered {came : List Priority} (hl : Ledger f came t) (hd : Due f t.store turn)
    (h : Offered f t turn t') :
    Ledger f (came ++ if t.report.units.length < t'.report.units.length then [turn.2] else []) t' := by
  cases h with
  | passed hstore hunits hurgent =>
    rw [hunits, if_neg (Nat.lt_irrefl _), List.append_nil]
    exact hl.congr hunits hurgent
  | @taken i u budget a hi hu hb ha hcopied hunits hurgent =>
    have hans : Instance.Answers { i with queue := [] } u budget a := by
      rw [ha]
      exact Instance.apply_answers _ _ _ _ _
    obtain ⟨hnormal, hlow⟩ := hd.answered hi hu hans
    have hzip : (came ++ [turn.2]).zip t'.report.units = came.zip t.report.units ++ [(turn.2, a.report)] := by
      rw [hunits, List.zip_append hl.length]
      rfl
    have hlength : t.report.units.length < t'.report.units.length := by
      rw [hunits, List.length_append]
      exact Nat.lt_succ_self _
    have hsteps : turn.2 = .normal → a.report.steps ≤ f.limits.urgentStepCap - t.report.urgentSteps := fun hn =>
      hans.steps _ (hb hn)
    rw [if_pos hlength]
    refine ⟨?_, ?_, ?_, fun e he => ?_, fun e he => ?_⟩
    · rw [hunits, List.length_append, List.length_append, hl.length]
      rfl
    · rw [hzip, stepsOf_append, hl.spent, hurgent]
      congr 1
      by_cases hn : turn.2 = .normal
      · simp [stepsOf, hn, hnormal hn]
      · simp [stepsOf, hn]
    · have := hl.within
      rw [hurgent]
      split
      · rename_i hn
        have := hsteps hn
        omega
      · exact hl.within
    · rw [hzip] at he
      rcases List.mem_append.1 he with he | he
      · exact hl.urgent e he
      · rw [List.mem_singleton.1 he]
        exact hnormal
    · rw [hzip] at he
      rcases List.mem_append.1 he with he | he
      · exact hl.overtaken e he
      · rw [List.mem_singleton.1 he]
        exact hlow

/-- The turns of a round keep the ledger. -/
theorem Ledger.foldl (turns : List (Key × Priority)) {came : List Priority} {t : Running} (hl : Ledger f came t)
    (hnd : (turns.map (·.1)).Nodup) (hd : ∀ s ∈ turns, Due f t.store s) :
    Ledger f (came ++ cameFrom f turns t) (turns.foldl (offer f) t) := by
  induction turns generalizing came t with
  | nil =>
    rw [cameFrom, List.append_nil]
    exact hl
  | cons turn rest ih =>
    obtain ⟨hout, hnd⟩ := List.nodup_cons.1 (List.map_cons ▸ hnd)
    have ho := offer_offered f t turn
    rw [cameFrom, ← List.append_assoc]
    refine ih (hl.offered (hd turn List.mem_cons_self) ho) hnd fun s hs => ?_
    refine (hd s (List.mem_cons_of_mem turn hs)).offered ho fun e => hout ?_
    exact e ▸ List.mem_map_of_mem hs

theorem foldl_keyed {turns : List (Key × Priority)} (ht : t.store.Keyed) : (turns.foldl (offer f) t).store.Keyed :=
  foldl_preserves (P := Keyed) (fun ho => .of_keys ho.keys) turns ht

/-- The rounds of a tick keep the ledger. -/
theorem Ledger.rounds (n : Nat) {came : List Priority} {t : Running} (hl : Ledger f came t) (ht : t.store.Keyed) :
    Ledger f (came ++ cameIn f n t) (Running.rounds f n t) := by
  induction n generalizing came t with
  | zero =>
    rw [cameIn, Running.rounds, List.append_nil]
    exact hl
  | succ n ih =>
    rw [cameIn, rounds_succ]
    split
    · rw [List.append_nil]
      exact hl
    · have hround : Ledger f came t.opened := hl.congr rfl rfl
      have hturns := hround.foldl (t.store.ready t.skip) (ht.ready t.skip) fun s hs => by
        obtain ⟨i, hi, hp⟩ := ht.mem_ready hs
        exact ⟨i, i, [], hp, hi, (List.append_nil _).symm, fun _ hc => absurd hc List.not_mem_nil⟩
      rw [← List.append_assoc]
      exact ih hturns (foldl_keyed ht)

theorem close_units (f : Frame) (t : Running) :
    (t.close f).report.units = t.report.units ∧ (t.close f).report.urgentSteps = t.report.urgentSteps := by
  unfold close
  dsimp only
  split <;> split <;> exact ⟨rfl, rfl⟩

end Running

open Running

/-- What each turn keeps of the store, a tick keeps. -/
theorem run_preserves {P : Store → Prop} (f : Frame)
    (hturn : ∀ {t t' : Running} {turn : Key × Priority}, Offered f t turn t' → P t.store → P t'.store) (last : Nat)
    {s : Store} (d : Diagnostics) (h : P s) : P (run f last s d).store := by
  unfold run
  dsimp only
  split
  · exact h
  · have hstore : ∀ t : Running, (t.close f).store = t.store := fun t => by
      unfold Running.close
      dsimp only
    rw [hstore]
    exact rounds_preserves hturn (max 1 f.limits.maxDrainRounds) (t := ⟨s, _, _, _, _, _, _, _⟩) h

/-- The priorities under which the units of a tick came up, in their order. -/
def cameUp (f : Frame) (last : Nat) (store : Store) (d : Diagnostics) : List Priority :=
  let backlog := store.backlog
  if backlog = (0, 0) then []
  else
    cameIn f (max 1 f.limits.maxDrainRounds)
      ⟨store, d.emit (f.event (last + 1) .start backlog 0 none none), [], .ofSeq (last + 1), [], [], [], false⟩

theorem run_ledger (f : Frame) (last : Nat) {store : Store} (hs : store.Keyed) (d : Diagnostics) :
    Ledger f (cameUp f last store d) (run f last store d) := by
  have hstart : ∀ (d : Diagnostics) (r : TickReport), r.units = [] → r.urgentSteps = 0 →
      Ledger f [] ⟨store, d, [], r, [], [], [], false⟩ := fun d r hu hn =>
    ⟨by rw [hu]; rfl, by rw [hn]; rfl, by rw [hn]; exact Nat.zero_le _,
      fun _ he => absurd he List.not_mem_nil, fun _ he => absurd he List.not_mem_nil⟩
  unfold cameUp run
  dsimp only
  split
  · exact hstart d _ rfl rfl
  · have hl := (hstart (d.emit (f.event (last + 1) .start store.backlog 0 none none)) (.ofSeq (last + 1)) rfl rfl).rounds
      (max 1 f.limits.maxDrainRounds) hs
    rw [List.nil_append] at hl
    obtain ⟨hunits, hurgent⟩ := close_units f (Running.rounds f (max 1 f.limits.maxDrainRounds)
      ⟨store, d.emit (f.event (last + 1) .start store.backlog 0 none none), [], .ofSeq (last + 1), [], [], [], false⟩)
    exact hl.congr hunits hurgent

/-- Steps of the units that are reported as urgent. -/
def normalSteps (units : List UnitReport) : Nat := ((units.filter (·.priority = .normal)).map (·.steps)).sum

/-- The steps of the units reported as urgent are those of the ones that came up so and
of the others. -/
theorem normalSteps_eq {came : List Priority} {units : List UnitReport} (h : came.length = units.length) :
    normalSteps units = stepsOf .normal .normal (came.zip units) + stepsOf .low .normal (came.zip units) := by
  induction came generalizing units with
  | nil =>
    obtain rfl := List.length_eq_zero_iff.1 h.symm
    rfl
  | cons p came ih =>
    cases units with
    | nil => cases h
    | cons u units =>
      have hrec := ih (Nat.succ.inj h)
      unfold normalSteps stepsOf at hrec ⊢
      rw [List.zip_cons_cons, List.filter_cons, List.filter_cons, List.filter_cons]
      cases p <;> cases u.priority <;> simp_all <;> omega

/-- The steps a tick counts as urgent are those of the units that came up as urgent, all
of which are reported as urgent, and stay within the cap. Only units that came up as not
urgent, and into which a link wrote during the round, are reported as urgent besides; so
the units reported as urgent ran as many steps as are counted exactly when those ran
none. -/
theorem urgent_steps_of_tick (f : Frame) (last : Nat) {store : Store} (hs : store.Keyed) (d : Diagnostics) :
    let came := cameUp f last store d
    let report := (run f last store d).report
    came.length = report.units.length ∧
      report.urgentSteps = stepsOf .normal .normal (came.zip report.units) ∧
      report.urgentSteps ≤ f.limits.urgentStepCap ∧
      (∀ e ∈ came.zip report.units, e.1 = .normal → e.2.priority = .normal) ∧
      (∀ e ∈ came.zip report.units, e.1 = .low → e.2.priority = .normal →
        .link ∈ e.2.kinds ∧ ∃ l ∈ f.links, l.target = e.2.key) ∧
      (normalSteps report.units = report.urgentSteps ↔
        ∀ e ∈ came.zip report.units, e.1 = .low → e.2.priority = .normal → e.2.steps = 0) := by
  have hl := run_ledger f last hs d
  dsimp only
  refine ⟨hl.length, hl.spent.symm, hl.within, hl.urgent, hl.overtaken, ?_⟩
  rw [normalSteps_eq hl.length, hl.spent]
  rw [← stepsOf_eq_zero]
  omega

end Tick

namespace Relay

open Tick

/-- A commit that writes `x`. -/
def writing (seq : Nat) (priority : Priority) (v : Int) : Commit :=
  ⟨seq, .transaction, priority,
    { Change.empty with writes := [(.ofKeys x, .int v)], dirty := .ofPaths [x] }⟩

def named (name : String) : Instance := .ofCompiled ⟨"relay", name⟩ compiled .empty inlined (state 1 1 1)

/-- An urgent relay, and one that is not. -/
def pair : Store := ⟨[(named "1").enqueue (writing 1 .normal 2), (named "2").enqueue (writing 2 .low 3)], 2⟩

/-- Two urgent steps a tick. -/
def apart : Frame := ⟨⟨64, 2, 8, none⟩, [], 0⟩

/-- What the first relay derives is linked to what the second one copies. -/
def chained : Frame := { apart with links := [⟨⟨"relay", "1"⟩, a, ⟨"relay", "2"⟩, x⟩] }

def quiet : Diagnostics := .ofReporting .builtin false

/-- Without links the two relays are counted as they are reported. -/
theorem urgent_steps_apart :
    pair.Keyed ∧
      normalSteps (run apart 0 pair quiet).report.units = (run apart 0 pair quiet).report.urgentSteps := by
  have hs : pair.Keyed := by
    unfold Store.Keyed
    decide
  obtain ⟨-, -, -, -, hover, hiff⟩ := urgent_steps_of_tick apart 0 hs quiet
  refine ⟨hs, hiff.2 fun e he hlow hnormal => ?_⟩
  obtain ⟨-, l, hl, -⟩ := hover e he hlow hnormal
  cases hl

/-- The copy lands on the second relay before its turn. It runs two steps as an urgent
unit, after the first one ran the two that the cap allows, and they are not counted. -/
theorem a_copy_outruns_the_cap :
    pair.Keyed ∧ (run chained 0 pair quiet).report.urgentSteps = 2 ∧
      ¬ normalSteps (run chained 0 pair quiet).report.units = (run chained 0 pair quiet).report.urgentSteps ∧
      ¬ normalSteps (run chained 0 pair quiet).report.units ≤ chained.limits.urgentStepCap := by
  have hcounted : (run chained 0 pair quiet).report.urgentSteps = 2 := by cbv
  have hran : normalSteps (run chained 0 pair quiet).report.units = 4 := by cbv
  rw [hcounted, hran]
  refine ⟨?_, rfl, by decide, by decide⟩
  unfold Store.Keyed
  decide

end Relay

end Settle
