/-
  Settle.Proofs.Turns — in which order waiting instances take their turns (see
  `Settle.Store`).

  Commits that reach a queue from outside its instance are numbered as they come:
  those of transactions, links and the lane. What a unit leaves undone it queues on its
  own instance without a number. So each queue is what the last unit left, and then
  numbered commits in the order in which they came, and no number is used twice
  (`Run.keeps`).

  Instances of one priority take their turns by the number of their oldest commit
  (`turns_by_number`). Among those whose oldest commit is numbered that is the order in
  which they began to wait, over any number of ticks. An instance with work that its own
  unit left undone counts as the oldest of all, however long the others have waited; one
  that leaves work undone in every tick, and spends the cap on it, is served in every
  tick and nothing else is (`Relay.starved`).
-/

import Settle.Proofs.Tick

namespace Settle

theorem Key.le_iff (a b : Key) : a.le b = true ↔
    a.moduleId < b.moduleId ∨ a.moduleId = b.moduleId ∧ a.instanceId ≤ b.instanceId := by
  unfold Key.le
  split
  · rename_i h
    simp [h]
  · rename_i h
    simp [h]

theorem Key.le_total (a b : Key) : a.le b = true ∨ b.le a = true := by
  rw [Key.le_iff, Key.le_iff]
  by_cases h : a.moduleId = b.moduleId
  · rcases String.le_total a.instanceId b.instanceId with hi | hi
    · exact .inl (.inr ⟨h, hi⟩)
    · exact .inr (.inr ⟨h.symm, hi⟩)
  · rcases String.le_total a.moduleId b.moduleId with hm | hm
    · exact .inl (.inl (String.not_le.1 fun hge => h (String.le_antisymm hm hge)))
    · exact .inr (.inl (String.not_le.1 fun hge => h (String.le_antisymm hge hm)))

theorem Key.le_trans {a b c : Key} (hab : a.le b = true) (hbc : b.le c = true) : a.le c = true := by
  rw [Key.le_iff] at hab hbc ⊢
  rcases hab with hab | ⟨hab, hi⟩
  · rcases hbc with hbc | ⟨hbc, -⟩
    · exact .inl (String.lt_trans hab hbc)
    · exact .inl (hbc ▸ hab)
  · rcases hbc with hbc | ⟨hbc, hj⟩
    · exact .inl (hab ▸ hbc)
    · exact .inr ⟨hab.trans hbc, String.le_trans hi hj⟩

namespace Store

variable {s s' s'' : Store} {i i' : Instance} {k : Key}

/-! ## The order of turns -/

theorem comesBefore_iff (a b : Priority × Nat × Key) : comesBefore a b = true ↔
    a.1.rank < b.1.rank ∨ a.1 = b.1 ∧ (a.2.1 < b.2.1 ∨ a.2.1 = b.2.1 ∧ a.2.2.le b.2.2 = true) := by
  obtain ⟨p, m, k⟩ := a
  obtain ⟨q, n, l⟩ := b
  unfold comesBefore
  by_cases hp : p = q
  · subst hp
    by_cases hm : m = n
    · simp [hm]
    · simp only [ne_eq, not_true_eq_false, if_false, hm, not_false_eq_true, if_true, decide_eq_true_eq, Nat.lt_irrefl,
        false_or, false_and, or_false, true_and]
      omega
  · cases p <;> cases q <;> simp_all [Priority.rank]

theorem comesBefore_total (a b : Priority × Nat × Key) : comesBefore a b = true ∨ comesBefore b a = true := by
  rw [comesBefore_iff, comesBefore_iff]
  rcases Nat.lt_trichotomy a.1.rank b.1.rank with h | h | h
  · exact .inl (.inl h)
  · have hp : a.1 = b.1 := by
      revert h
      cases a.1 <;> cases b.1 <;> simp [Priority.rank]
    rcases Nat.lt_trichotomy a.2.1 b.2.1 with hm | hm | hm
    · exact .inl (.inr ⟨hp, .inl hm⟩)
    · rcases Key.le_total a.2.2 b.2.2 with hk | hk
      · exact .inl (.inr ⟨hp, .inr ⟨hm, hk⟩⟩)
      · exact .inr (.inr ⟨hp.symm, .inr ⟨hm.symm, hk⟩⟩)
    · exact .inr (.inr ⟨hp.symm, .inl hm⟩)
  · exact .inr (.inl h)

theorem comesBefore_trans {a b c : Priority × Nat × Key} (hab : comesBefore a b = true) (hbc : comesBefore b c = true) :
    comesBefore a c = true := by
  rw [comesBefore_iff] at hab hbc ⊢
  rcases hab with hab | ⟨hp, hab⟩
  · rcases hbc with hbc | ⟨hq, -⟩
    · exact .inl (Nat.lt_trans hab hbc)
    · exact .inl (hq ▸ hab)
  · rcases hbc with hbc | ⟨hq, hbc⟩
    · exact .inl (hp ▸ hbc)
    · refine .inr ⟨hp.trans hq, ?_⟩
      rcases hab with hab | ⟨hm, hk⟩
      · rcases hbc with hbc | ⟨hn, -⟩
        · exact .inl (Nat.lt_trans hab hbc)
        · exact .inl (hn ▸ hab)
      · rcases hbc with hbc | ⟨hn, hl⟩
        · exact .inl (hm ▸ hbc)
        · exact .inr ⟨hm.trans hn, Key.le_trans hk hl⟩

theorem sublist_of_pairwise {α : Type} {R : α → α → Prop} {l : List α} (hl : l.Pairwise R) {a b : α} (ha : a ∈ l)
    (hb : b ∈ l) (hne : a ≠ b) (hn : ¬ R b a) : [a, b].Sublist l := by
  obtain ⟨l₁, l₂, rfl⟩ := List.append_of_mem ha
  have hafter : b ∈ l₂ := by
    rcases List.mem_append.1 hb with hb | hb
    · exact absurd ((List.pairwise_append.1 hl).2.2 b hb a List.mem_cons_self) hn
    · exact (List.mem_cons.1 hb).resolve_left (Ne.symm hne)
  exact List.Sublist.trans ((List.singleton_sublist.2 hafter).cons_cons a) (List.sublist_append_right l₁ _)

/-- The first of the two turns comes before the second. -/
def Before (s : Store) (skip : List Key) (a b : Key × Priority) : Prop := [a, b].Sublist (s.ready skip)

/-- Turns of one priority go by the number of the oldest commit, and urgent ones go
first. -/
theorem Keyed.before (hs : s.Keyed) {skip : List Key} {a b : Key × Priority} (ha : a ∈ s.ready skip)
    (hb : b ∈ s.ready skip)
    (h : a.2.rank < b.2.rank ∨ a.2 = b.2 ∧ ∃ i j m n, s.find? a.1 = some i ∧ s.find? b.1 = some j ∧
      i.headSeq = some m ∧ j.headSeq = some n ∧ m < n) : s.Before skip a b := by
  rw [ready_eq] at ha hb
  obtain ⟨e, he, rfl⟩ := List.mem_map.1 ha
  obtain ⟨e', he', rfl⟩ := List.mem_map.1 hb
  have hhead : ∀ {e : Priority × Nat × Key} {i : Instance} {m : Nat}, e ∈ (s.tickets skip).mergeSort comesBefore →
      s.find? e.2.2 = some i → i.headSeq = some m → e.2.1 = m := fun he hi hm => by
    obtain ⟨j, hj, hticket, -⟩ := mem_tickets (List.mem_mergeSort.1 he)
    obtain ⟨-, hseq, hkey⟩ := ticket_eq_some hticket
    obtain rfl := Option.some.inj (hi.symm.trans (hkey ▸ hs.find?_eq hj))
    exact Option.some.inj (hseq.symm.trans hm)
  have hfirst : e.1.rank < e'.1.rank ∨ e.1 = e'.1 ∧ e.2.1 < e'.2.1 := by
    refine h.imp id fun ⟨hp, i, j, m, n, hi, hj, hm, hn, hlt⟩ => ⟨hp, ?_⟩
    rw [hhead he hi hm, hhead he' hj hn]
    exact hlt
  have hnot : ¬ comesBefore e' e = true := by
    rw [comesBefore_iff]
    rcases hfirst with hrank | ⟨hp, hlt⟩
    · rintro (h' | ⟨h', -⟩)
      · omega
      · rw [h'] at hrank
        omega
    · rintro (h' | ⟨-, h' | ⟨h', -⟩⟩)
      · rw [hp] at h'
        omega
      · omega
      · omega
  have hne : e ≠ e' := fun e => by
    rw [e] at hfirst
    omega
  have hsorted : ((s.tickets skip).mergeSort comesBefore).Pairwise fun a b => comesBefore a b = true :=
    @List.pairwise_mergeSort _ comesBefore (fun _ _ _ => comesBefore_trans)
      (fun a b => by simpa using comesBefore_total a b) _
  unfold Before
  rw [ready_eq]
  exact (sublist_of_pairwise hsorted he he' hne hnot).map fun e => (e.2.2, e.1)

/-! ## Numbers -/

/-- Each queue is what the last unit left to its own instance, and then numbered commits
in the order in which they came. No two instances have a commit of the same number. -/
structure Numbered (s : Store) : Prop where
  keyed : s.Keyed
  bound : ∀ {k i c}, s.find? k = some i → c ∈ i.queue → c.seq ≤ s.seq
  ordered : ∀ {k i}, s.find? k = some i → i.queue.Pairwise fun c d => c.seq = 0 ∨ c.seq < d.seq
  own : ∀ {k k' i j c d}, s.find? k = some i → s.find? k' = some j → c ∈ i.queue → d ∈ j.queue → c.seq = d.seq →
    c.seq ≠ 0 → k = k'

/-- From one store to a later one, each queue grew by commits with later numbers, or was
taken and holds nothing older than those but what its unit left. -/
structure Later (s s' : Store) : Prop where
  seq : s.seq ≤ s'.seq
  queue : ∀ k i, s.find? k = some i → ∃ i', s'.find? k = some i' ∧
    ((∃ added, i'.queue = i.queue ++ added ∧ ∀ c ∈ added, s.seq < c.seq) ∨ ∀ c ∈ i'.queue, c.seq = 0 ∨ s.seq < c.seq)

theorem Later.refl (s : Store) : Later s s :=
  ⟨Nat.le_refl _, fun _ i hi => ⟨i, hi, .inl ⟨[], (List.append_nil _).symm, fun _ hc => absurd hc List.not_mem_nil⟩⟩⟩

theorem Later.trans (h : Later s s') (h' : Later s' s'') : Later s s'' := by
  refine ⟨Nat.le_trans h.seq h'.seq, fun k i hi => ?_⟩
  obtain ⟨i₁, hi₁, hq₁⟩ := h.queue k i hi
  obtain ⟨i₂, hi₂, hq₂⟩ := h'.queue k i₁ hi₁
  refine ⟨i₂, hi₂, ?_⟩
  rcases hq₂ with ⟨added, hq₂, hlate⟩ | hq₂
  · have hlate : ∀ c ∈ added, s.seq < c.seq := fun c hc => Nat.lt_of_le_of_lt h.seq (hlate c hc)
    rcases hq₁ with ⟨first, hq₁, hfirst⟩ | hq₁
    · refine .inl ⟨first ++ added, by rw [hq₂, hq₁, List.append_assoc], fun c hc => ?_⟩
      exact (List.mem_append.1 hc).elim (hfirst c) (hlate c)
    · refine .inr fun c hc => ?_
      rw [hq₂] at hc
      exact (List.mem_append.1 hc).elim (hq₁ c) fun hc => .inr (hlate c hc)
  · exact .inr fun c hc => (hq₂ c hc).imp id (Nat.lt_of_le_of_lt h.seq)

/-- The numbers stay in order from one store to another. -/
def Keeps (s s' : Store) : Prop := Numbered s → Numbered s' ∧ Later s s'

theorem Keeps.refl (s : Store) : Keeps s s := fun h => ⟨h, .refl s⟩

theorem Keeps.trans (h : Keeps s s') (h' : Keeps s' s'') : Keeps s s'' := fun hn => by
  obtain ⟨hn₁, hl₁⟩ := h hn
  obtain ⟨hn₂, hl₂⟩ := h' hn₁
  exact ⟨hn₂, hl₁.trans hl₂⟩

theorem find?_replace (hi : s.find? i'.key = some i) (n : Nat) (k : Key) :
    ({ s.put i' with seq := n } : Store).find? k = if i'.key = k then some i' else s.find? k := by
  refine (find?_put s i' k).trans ?_
  by_cases hk : i'.key = k
  · rw [if_pos hk, if_pos hk, ← hk, hi]
    rfl
  · rw [if_neg hk, if_neg hk]

/-- An instance put back keeps the numbers in order when its queue has nothing new but
commits that are not numbered, or are numbered after all others. -/
theorem Numbered.replace (hs : Numbered s) (hi : s.find? i'.key = some i) {n : Nat} (hseq : s.seq ≤ n)
    (hnew : ∀ c ∈ i'.queue, c.seq = 0 ∨ c ∈ i.queue ∨ s.seq < c.seq ∧ c.seq ≤ n)
    (hord : i'.queue.Pairwise fun c d => c.seq = 0 ∨ c.seq < d.seq) :
    Numbered { s.put i' with seq := n } := by
  have hfind := find?_replace hi n
  have hother : ∀ {k j c d}, s.find? k = some j → i'.key ≠ k → c ∈ i'.queue → d ∈ j.queue → c.seq = d.seq →
      c.seq = 0 := fun hj hk hc hd he => by
    rcases hnew _ hc with h | h | ⟨h, -⟩
    · exact h
    · exact Classical.byContradiction fun hz => hk (hs.own hi hj h hd he hz)
    · have := hs.bound hj hd
      omega
  refine ⟨?_, ?_, ?_, ?_⟩
  · exact hs.keyed.of_keys (keys_put s i')
  · intro k j c hj hc
    rw [hfind] at hj
    split at hj
    · cases hj
      rcases hnew c hc with h | h | ⟨-, h⟩
      · rw [h]
        exact Nat.zero_le _
      · exact Nat.le_trans (hs.bound hi h) hseq
      · exact h
    · exact Nat.le_trans (hs.bound hj hc) hseq
  · intro k j hj
    rw [hfind] at hj
    split at hj
    · cases hj
      exact hord
    · exact hs.ordered hj
  · intro k k' j j' c d hj hj' hc hd he hz
    rw [hfind] at hj hj'
    split at hj
    · rename_i hk
      split at hj'
      · rename_i hk'
        exact hk.symm.trans hk'
      · rename_i hk'
        cases hj
        exact absurd (hother hj' hk' hc hd he) hz
    · rename_i hk
      split at hj'
      · cases hj'
        exact absurd (hother hj hk hd hc he.symm) (he ▸ hz)
      · exact hs.own hj hj' hc hd he hz

theorem Later.replace (hi : s.find? i'.key = some i) {n : Nat} (hseq : s.seq ≤ n)
    (hq : (∃ added, i'.queue = i.queue ++ added ∧ ∀ c ∈ added, s.seq < c.seq) ∨
      ∀ c ∈ i'.queue, c.seq = 0 ∨ s.seq < c.seq) : Later s { s.put i' with seq := n } := by
  refine ⟨hseq, fun k j hj => ?_⟩
  rw [find?_replace hi]
  by_cases hk : i'.key = k
  · subst hk
    obtain rfl := Option.some.inj (hi.symm.trans hj)
    exact ⟨i', if_pos rfl, hq⟩
  · exact ⟨j, (if_neg hk).trans hj, .inl ⟨[], (List.append_nil _).symm, fun _ hc => absurd hc List.not_mem_nil⟩⟩

/-- A commit that is queued gets a number after all others. -/
theorem enqueue_keeps {c : Commit} (h : s.enqueue k c = .ok s') : Keeps s s' := fun hs => by
  obtain ⟨i, hi, rfl⟩ := enqueue_eq_ok h
  have hkey : i.key = k := key_of_find? hi
  have hi : s.find? (i.enqueue { c with seq := s.seq + 1 }).key = some i := hkey ▸ hi
  refine ⟨hs.replace hi (Nat.le_succ _) (fun d hd => ?_) ?_, .replace hi (Nat.le_succ _) (.inl ⟨_, rfl, ?_⟩)⟩
  · rcases List.mem_append.1 hd with hd | hd
    · exact .inr (.inl hd)
    · obtain rfl := List.mem_singleton.1 hd
      exact .inr (.inr ⟨Nat.lt_succ_self _, Nat.le_refl _⟩)
  · refine List.pairwise_append.2 ⟨hs.ordered hi, List.pairwise_singleton _ _, fun d hd e he => .inr ?_⟩
    obtain rfl := List.mem_singleton.1 he
    exact Nat.lt_succ_of_le (hs.bound hi hd)
  · intro d hd
    obtain rfl := List.mem_singleton.1 hd
    exact Nat.lt_succ_self _

theorem Copied.keeps {links : List Link} (h : Copied links s s') : Keeps s s' := by
  induction h with
  | refl => exact .refl s
  | step _ _ he ih => exact ih.trans (enqueue_keeps he)

/-- An instance whose queue holds nothing but what its unit left. -/
theorem put_keeps (hi : s.find? i'.key = some i) (hq : ∀ c ∈ i'.queue, c.seq = 0) : Keeps s (s.put i') := fun hs =>
  ⟨hs.replace hi (Nat.le_refl _) (fun c hc => .inl (hq c hc))
      (List.pairwise_iff_getElem.2 fun _ _ hc _ _ => .inl (hq _ (List.getElem_mem hc))),
    .replace hi (Nat.le_refl _) (.inr fun c hc => .inl (hq c hc))⟩

end Store

namespace Tick

namespace Running

open Store

variable {f : Frame} {t t' : Running} {turn : Key × Priority}

theorem Offered.keeps (h : Offered f t turn t') : Keeps t.store t'.store := by
  cases h with
  | passed hstore _ _ =>
    rw [hstore]
    exact .refl _
  | @taken i u budget a hi hu hb ha hcopied _ _ =>
    have hans : Instance.Answers { i with queue := [] } u budget a := by
      rw [ha]
      exact Instance.apply_answers _ _ _ _ _
    have hkey : a.inst.key = turn.1 := hans.key.trans (key_of_find? hi : i.key = turn.1)
    obtain ⟨added, hq, hzero⟩ := hans.queue
    have hput : Keeps t.store (t.store.put a.inst) := by
      refine put_keeps (i := i) (hkey ▸ hi) fun c hc => hzero c ?_
      rw [hq] at hc
      exact hc
    exact hput.trans hcopied.keeps

end Running

/-- A tick keeps the numbers in order. -/
theorem run_keeps (f : Frame) (last : Nat) (s : Store) (d : Diagnostics) : Store.Keeps s (run f last s d).store :=
  run_preserves f (fun ho h => h.trans ho.keeps) last d (.refl s)

/-- So many ticks and one more, each after the one before. -/
def ticks (f : Frame) (store : Store) (d : Diagnostics) : Nat → Running
  | 0 => run f 0 store d
  | n + 1 =>
    let t := ticks f store d n
    run f t.report.tickSeq t.store t.diagnostics

end Tick

namespace Store

variable {s s' : Store} {i i' : Instance} {k : Key}

/-! ## Runs -/

/-- What may happen to the instances of an engine: one is registered, or changed in
everything but its queue, a commit is queued, a tick runs. -/
inductive Step (s : Store) : Store → Prop
  | add (i : Instance) : i.queue = [] → s.find? i.key = none → Step s (s.add i)
  | adjust {i i' : Instance} : s.find? i'.key = some i → i'.queue = i.queue → Step s (s.put i')
  | enqueue {k : Key} {c : Commit} {s' : Store} : s.enqueue k c = .ok s' → Step s s'
  | tick (f : Tick.Frame) (last : Nat) (d : Diagnostics) : Step s (Tick.run f last s d).store

inductive Run (s : Store) : Store → Prop
  | refl : Run s s
  | step {s₁ s₂ : Store} : Run s s₁ → Step s₁ s₂ → Run s s₂

theorem find?_add (s : Store) (i : Instance) (k : Key) :
    (s.add i).find? k = (s.find? k).or (if i.key = k then some i else none) := by
  unfold add find?
  by_cases hk : i.key = k <;> simp [hk]

theorem Keyed.add (hs : s.Keyed) (hnew : s.find? i.key = none) : (s.add i).Keyed := by
  have hkeys : ((s.add i).instances.map (·.key)) = s.instances.map (·.key) ++ [i.key] := by simp [Store.add]
  have hout : i.key ∉ s.instances.map (·.key) := fun hm => by
    obtain ⟨j, hj, hk⟩ := List.mem_map.1 hm
    have hsome := hs.find?_eq hj
    rw [hk, hnew] at hsome
    cases hsome
  unfold Keyed
  rw [hkeys]
  refine List.nodup_append.2 ⟨hs, List.nodup_cons.2 ⟨List.not_mem_nil, List.nodup_nil⟩, fun k hk l hl e => hout ?_⟩
  rw [← List.mem_singleton.1 hl, ← e]
  exact hk

theorem add_keeps (hq : i.queue = []) (hnew : s.find? i.key = none) : Keeps s (s.add i) := fun hs => by
  have hfind : ∀ {k j c}, (s.add i).find? k = some j → c ∈ j.queue → s.find? k = some j := fun {k j c} hj hc => by
    rw [find?_add] at hj
    rcases Option.or_eq_some_iff.1 hj with hj | ⟨-, hj⟩
    · exact hj
    · split at hj
      · cases hj
        rw [hq] at hc
        exact absurd hc List.not_mem_nil
      · cases hj
  refine ⟨⟨hs.keyed.add hnew, ?_, ?_, ?_⟩, Nat.le_refl _, fun k j hj => ?_⟩
  · intro k j c hj hc
    exact hs.bound (hfind hj hc) hc
  · intro k j hj
    cases hempty : j.queue with
    | nil => exact List.Pairwise.nil
    | cons c rest =>
      have hc : c ∈ j.queue := hempty ▸ List.mem_cons_self
      exact hempty ▸ hs.ordered (hfind hj hc)
  · intro k k' j j' c d hj hj' hc hd
    exact hs.own (hfind hj hc) (hfind hj' hd) hc hd
  · refine ⟨j, ?_, .inl ⟨[], (List.append_nil _).symm, fun _ hc => absurd hc List.not_mem_nil⟩⟩
    rw [find?_add, hj]
    rfl

theorem adjust_keeps (hi : s.find? i'.key = some i) (hq : i'.queue = i.queue) : Keeps s (s.put i') := fun hs =>
  ⟨hs.replace hi (Nat.le_refl _) (fun _ hc => .inr (.inl (hq ▸ hc))) (hq ▸ hs.ordered hi),
    .replace hi (Nat.le_refl _)
      (.inl ⟨[], by rw [hq, List.append_nil], fun _ hc => absurd hc List.not_mem_nil⟩)⟩

theorem Step.keeps (h : Step s s') : Keeps s s' := by
  cases h with
  | add i hq hnew => exact add_keeps hq hnew
  | adjust hi hq => exact adjust_keeps hi hq
  | enqueue he => exact enqueue_keeps he
  | tick f last d => exact Tick.run_keeps f last s d

theorem Run.keeps (h : Run s s') : Keeps s s' := by
  induction h with
  | refl => exact .refl s
  | step _ hstep ih => exact ih.trans hstep.keeps

theorem numbered_empty : Numbered empty :=
  ⟨List.nodup_nil, nofun, nofun, nofun⟩

/-- The number of an oldest commit is the lowest in its queue. -/
theorem Numbered.head_le (hs : Numbered s) (hi : s.find? k = some i) {m : Nat} (hm : i.headSeq = some m) (hz : m ≠ 0)
    {c : Commit} (hc : c ∈ i.queue) : m ≤ c.seq := by
  have hord := hs.ordered hi
  unfold Instance.headSeq at hm
  cases hq : i.queue with
  | nil =>
    rw [hq] at hc
    exact absurd hc List.not_mem_nil
  | cons d rest =>
    rw [hq] at hm hc hord
    obtain rfl := Option.some.inj hm
    rcases List.mem_cons.1 hc with rfl | hc
    · exact Nat.le_refl _
    · exact Nat.le_of_lt (((List.pairwise_cons.1 hord).1 c hc).resolve_left hz)

theorem mem_of_headSeq {m : Nat} (hm : i.headSeq = some m) : ∃ c ∈ i.queue, c.seq = m := by
  unfold Instance.headSeq at hm
  obtain ⟨c, hc, hseq⟩ := Option.map_eq_some_iff.1 hm
  exact ⟨c, List.mem_of_mem_head? hc, hseq⟩

/-- In every run urgent instances take their turns first, and those of one priority by
the number of their oldest commit. A number tells when a commit was queued: none in the
queue is older, and no other instance has it. So an instance that still waits with its
oldest commit, whatever ticks and commits there were, comes before those of its priority
whose queues began meanwhile with a numbered commit. -/
theorem turns_by_number {s : Store} (h : Run .empty s) :
    (∀ skip a b, a ∈ s.ready skip → b ∈ s.ready skip → a.2.rank < b.2.rank → s.Before skip a b) ∧
    (∀ skip a b i j m n, a ∈ s.ready skip → b ∈ s.ready skip → a.2 = b.2 → s.find? a.1 = some i → s.find? b.1 = some j →
      i.headSeq = some m → j.headSeq = some n → m < n → s.Before skip a b) ∧
    (∀ k i m, s.find? k = some i → i.headSeq = some m → m ≠ 0 → (∀ c ∈ i.queue, m ≤ c.seq) ∧
      ∀ k' j, s.find? k' = some j → (∃ c ∈ j.queue, c.seq = m) → k' = k) ∧
    ∀ s', Run s s' → ∀ skip k k' p i i' j m n, s.find? k = some i → i.headSeq = some m → s'.find? k = some i' →
      i'.headSeq = some m → s'.find? k' = some j → j.headSeq = some n → s.seq < n →
      (k, p) ∈ s'.ready skip → (k', p) ∈ s'.ready skip → s'.Before skip (k, p) (k', p) := by
  obtain ⟨hs, -⟩ := h.keeps numbered_empty
  refine ⟨fun skip a b ha hb hrank => hs.keyed.before ha hb (.inl hrank), ?_, ?_, ?_⟩
  · intro skip a b i j m n ha hb hp hi hj hm hn hlt
    exact hs.keyed.before ha hb (.inr ⟨hp, i, j, m, n, hi, hj, hm, hn, hlt⟩)
  · intro k i m hi hm hz
    refine ⟨fun c hc => hs.head_le hi hm hz hc, fun k' j hj hc => ?_⟩
    obtain ⟨c, hc, hcm⟩ := mem_of_headSeq hm
    obtain ⟨d, hd, hdm⟩ := ‹∃ c ∈ j.queue, c.seq = m›
    exact hs.own hj hi hd hc (hdm.trans hcm.symm) (hdm ▸ hz)
  · intro s' hrun skip k k' p i i' j m n hi hm hi' hm' hj hn hlate ha hb
    obtain ⟨hs', -⟩ := hrun.keeps hs
    obtain ⟨c, hc, hcm⟩ := mem_of_headSeq hm
    have hold : m ≤ s.seq := hcm ▸ hs.bound hi hc
    exact hs'.keyed.before ha hb (.inr ⟨rfl, i', j, m, n, hi', hj, hm', hn, Nat.lt_of_le_of_lt hold hlate⟩)

end Store

namespace Relay

open Tick

/-- One urgent step a tick. -/
def single : Frame := ⟨⟨64, 1, 8, none⟩, [], 0⟩

/-- Two relays with an urgent commit each, the one on the first queued first. -/
def contested : Store :=
  ⟨[(named "1").enqueue (writing 1 .normal 2), (named "2").enqueue (writing 2 .normal 3)], 2⟩

theorem contested_run : Store.Run .empty contested := by
  have hfirst : Store.Step .empty (Store.empty.add (named "1")) := .add _ rfl rfl
  have hsecond : Store.Step (Store.empty.add (named "1")) ((Store.empty.add (named "1")).add (named "2")) :=
    .add _ rfl (by cbv)
  have hwrite : Store.Step ((Store.empty.add (named "1")).add (named "2"))
      ⟨[(named "1").enqueue (writing 1 .normal 2), named "2"], 1⟩ :=
    .enqueue (k := ⟨"relay", "1"⟩) (c := writing 0 .normal 2) (by cbv)
  have hwrite' : Store.Step ⟨[(named "1").enqueue (writing 1 .normal 2), named "2"], 1⟩ contested :=
    .enqueue (k := ⟨"relay", "2"⟩) (c := writing 0 .normal 3) (by cbv)
  exact (((Store.Run.refl.step hfirst).step hsecond).step hwrite).step hwrite'

/-- Of the two relays the first is ahead. -/
theorem contested_in_turn :
    Store.Run .empty contested ∧
      contested.Before [] (⟨"relay", "1"⟩, .normal) (⟨"relay", "2"⟩, .normal) := by
  have hready : contested.ready [] = [(⟨"relay", "1"⟩, .normal), (⟨"relay", "2"⟩, .normal)] := by cbv
  refine ⟨contested_run, (Store.turns_by_number contested_run).2.1 [] _ _ ((named "1").enqueue (writing 1 .normal 2))
    ((named "2").enqueue (writing 2 .normal 3)) 1 2 ?_ ?_ rfl ?_ ?_ rfl rfl (by decide)⟩
  · rw [hready]
    exact List.mem_cons_self
  · rw [hready]
    exact List.mem_cons_of_mem _ (List.mem_singleton_self _)
  · cbv
  · cbv

/-- The first relay when it has run `a` and `b` is still to do, after so many units. -/
def stuck (n : Nat) : Instance :=
  { named "1" with
    state := state 2 2 1
    pending := state 2 2 1
    queue := [⟨0, .carry, .normal, { Change.empty with carried := some ⟨[], [b]⟩ }⟩]
    txnSeq := n }

def held (n : Nat) : Store := ⟨[stuck n, (named "2").enqueue (writing 2 .normal 3)], 2⟩

/-- A pass over every step runs `a` again and leaves `b` again, so each tick ends as the
one before. -/
theorem ticks_held (n : Nat) :
    (ticks single contested quiet n).store = held (n + 1) ∧ (ticks single contested quiet n).diagnostics = quiet ∧
      (ticks single contested quiet n).accepted = [⟨"relay", "1"⟩] := by
  induction n with
  | zero => exact ⟨by cbv, by cbv, by cbv⟩
  | succ n ih =>
    obtain ⟨hstore, hquiet, -⟩ := ih
    have hstep : ∀ last, (run single last (held (n + 1)) quiet).store = held (n + 2) ∧
        (run single last (held (n + 1)) quiet).diagnostics = quiet ∧
        (run single last (held (n + 1)) quiet).accepted = [⟨"relay", "1"⟩] := fun last =>
      ⟨by cbv, by cbv, by cbv⟩
    rw [ticks, hstore, hquiet]
    exact hstep _

/-- In every tick the first relay is accepted, and all it has queued after it is from
that tick. The commit on the second one, queued before the first tick, still waits, and
yet its turn comes after that of the first: it waits for ever. -/
theorem starved :
    Store.Run .empty contested ∧ ∀ n,
      (ticks single contested quiet n).accepted = [⟨"relay", "1"⟩] ∧
      ((ticks single contested quiet n).store.find? ⟨"relay", "2"⟩).map (·.queue) = some [writing 2 .normal 3] ∧
      ¬ (ticks single contested quiet n).store.Before [] (⟨"relay", "2"⟩, .normal) (⟨"relay", "1"⟩, .normal) := by
  refine ⟨contested_run, fun n => ?_⟩
  obtain ⟨hstore, -, haccepted⟩ := ticks_held n
  have hready : (held (n + 1)).ready [] = [(⟨"relay", "1"⟩, .normal), (⟨"relay", "2"⟩, .normal)] := by cbv
  refine ⟨haccepted, ?_, ?_⟩
  · rw [hstore]
    cbv
  · unfold Store.Before
    rw [hstore, hready]
    decide

end Relay

end Settle
