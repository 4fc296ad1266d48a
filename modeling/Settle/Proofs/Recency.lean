/-
  Settle.Proofs.Recency — the plans that are kept are those used last (see
  `Settle.Plan.Cache`).

  What a cache was asked and answered is its history, the last event first. A plan is used
  when it is put in and whenever it is found. A history alone tells which keys were used
  since the generation moved, the one used last first (`recency`), and how many others were
  used since a key was (`others`), which is its place in that order. Up to the capacity the
  entries are that order, the stalest first (`Tracks`).

  For this no plan may be put in whose key is there already: the entry would keep its place.
  A pass puts a plan in only after it has looked for one in vain (`Pass.plan_disciplined`).
  So the key is not there: a look-up did not find it, and since then it was not put in
  (`Tracks.absent`).
-/

import Settle.Proofs.PlanCache

namespace Settle

/-! ## The first places of an order -/

theorem drop_reverse_take {α : Type} (l : List α) (m : Nat) :
    (l.take (m + 1)).reverse.drop ((l.take (m + 1)).length - m) = (l.take m).reverse := by
  rw [List.drop_reverse, List.take_take, List.take_eq_take_iff.2]
  rw [List.length_take]
  omega

section Order

variable {α : Type} [DecidableEq α] {a b : α} {l : List α} {m : Nat}

/-- An element of the first places comes to the front; all before it move up by one. -/
theorem take_filter_of_mem (hl : l.Nodup) (ha : a ∈ l.take (m + 1)) :
    (l.filter (· ≠ a)).take m = (l.take (m + 1)).filter (· ≠ a) := by
  induction l generalizing m with
  | nil => cases ha
  | cons x l ih =>
    obtain ⟨hx, hl⟩ := List.nodup_cons.1 hl
    rw [List.take_succ_cons] at ha ⊢
    by_cases hxa : x = a
    · subst hxa
      have hout : ∀ y ∈ l, decide (y ≠ x) = true := fun y hy => decide_eq_true fun e => hx (e ▸ hy)
      rw [List.filter_cons_of_neg (by simp), List.filter_cons_of_neg (by simp), List.filter_eq_self.2 hout,
        List.filter_eq_self.2 fun y hy => hout y (List.mem_of_mem_take hy)]
    · rw [List.filter_cons_of_pos (by simpa using hxa), List.filter_cons_of_pos (by simpa using hxa)]
      have ha : a ∈ l.take m := (List.mem_cons.1 ha).resolve_left (Ne.symm hxa)
      cases m with
      | zero => cases ha
      | succ m => rw [List.take_succ_cons, ih hl ha]

/-- An element from behind the first places comes to the front; the last of them goes. -/
theorem take_filter_of_notMem (ha : a ∉ l.take (m + 1)) : (l.filter (· ≠ a)).take m = l.take m := by
  induction l generalizing m with
  | nil => rfl
  | cons x l ih =>
    rw [List.take_succ_cons, List.mem_cons, not_or] at ha
    rw [List.filter_cons_of_pos (by simpa using Ne.symm ha.1)]
    cases m with
    | zero => rfl
    | succ m => rw [List.take_succ_cons, List.take_succ_cons, ih ha.2]

/-- The place of an element is how many come before it. -/
theorem mem_take_iff (ha : a ∈ l) : a ∈ l.take m ↔ (l.takeWhile (· ≠ a)).length < m := by
  induction l generalizing m with
  | nil => cases ha
  | cons x l ih =>
    cases m with
    | zero => simp
    | succ m =>
      rw [List.take_succ_cons, List.mem_cons]
      by_cases hxa : x = a
      · simp [hxa]
      · have ha : a ∈ l := (List.mem_cons.1 ha).resolve_left (Ne.symm hxa)
        rw [List.takeWhile_cons_of_pos (by simpa using hxa), List.length_cons, Nat.add_lt_add_iff_right, ← ih ha]
        exact or_iff_right (Ne.symm hxa)

theorem takeWhile_filter (hab : a ≠ b) :
    (l.filter (· ≠ b)).takeWhile (· ≠ a) = (l.takeWhile (· ≠ a)).filter (· ≠ b) := by
  induction l with
  | nil => rfl
  | cons x l ih =>
    by_cases hxa : x = a
    · subst hxa
      rw [List.filter_cons_of_pos (by simpa using hab), List.takeWhile_cons_of_neg (by simp),
        List.takeWhile_cons_of_neg (by simp), List.filter_nil]
    · rw [List.takeWhile_cons_of_pos (by simpa using hxa)]
      by_cases hxb : x = b
      · rw [List.filter_cons_of_neg (by simpa using hxb), List.filter_cons_of_neg (by simpa using hxb), ih]
      · rw [List.filter_cons_of_pos (by simpa using hxb), List.filter_cons_of_pos (by simpa using hxb),
          List.takeWhile_cons_of_pos (by simpa using hxa), ih]

end Order

namespace PlanCache

/-! ## Histories -/

/-- What a cache is asked. -/
inductive Op where
  | get (k : PlanKey)
  | insert (k : PlanKey) (plan : List StepId)
  | sync (generation : Nat)

/-- What a cache was asked, with the answer to a look-up. -/
inductive Event where
  | got (k : PlanKey) (answer : Option (List StepId))
  | put (k : PlanKey) (plan : List StepId)
  | synced (generation : Nat)
  deriving DecidableEq

namespace Event

/-- The key put in. -/
def inserted? : Event → Option PlanKey
  | .put k _ => some k
  | _ => none

/-- The key used: the one found or put in. -/
def used? : Event → Option PlanKey
  | .got k (some _) => some k
  | .put k _ => some k
  | _ => none

/-- The plan put in under a key. -/
def planOf? (k : PlanKey) : Event → Option (List StepId)
  | .put j plan => if j = k then some plan else none
  | _ => none

def isHit : Event → Bool
  | .got _ answer => answer.isSome
  | _ => false

def isMiss : Event → Bool
  | .got _ answer => answer.isNone
  | _ => false

end Event

/-- A cache and its history, the last event first. -/
structure Told where
  events : List Event
  cache : PlanCache

def Told.ask (t : Told) : Op → Told
  | .get k => ⟨.got k (t.cache.get k).1 :: t.events, (t.cache.get k).2⟩
  | .insert k plan => ⟨.put k plan :: t.events, t.cache.insert k plan⟩
  | .sync n => ⟨.synced n :: t.events, t.cache.syncGeneration n⟩

/-- A new cache after it was asked all this. -/
def told (start capacity : Nat) (ops : List Op) : Told := ops.foldl Told.ask ⟨[], .ofCapacity start capacity⟩

/-- A plan was put in only after a look-up had not found its key, since the key was put in
before. -/
def disciplined : List Event → Bool
  | [] => true
  | .put k _ :: past =>
    (past.takeWhile fun e => e.inserted? ≠ some k).contains (.got k none) && disciplined past
  | _ :: past => disciplined past

section

variable (start : Nat)

def generationOf : List Event → Nat
  | [] => start
  | .synced n :: _ => n
  | _ :: past => generationOf past

/-- How often the generation moved. -/
def movesOf : List Event → Nat
  | [] => 0
  | .synced n :: past => if n = generationOf start past then movesOf past else movesOf past + 1
  | _ :: past => movesOf past

/-- The look-ups and insertions since the generation moved last. -/
def current : List Event → List Event
  | [] => []
  | .synced n :: past => if n = generationOf start past then current past else []
  | e :: past => e :: current past

/-- The last event is a move of the generation, the fourth or a later one, and hits are
fewer than misses. -/
def turnsOff : List Event → Bool
  | .synced n :: past => n ≠ generationOf start past && maxMoves ≤ movesOf start (.synced n :: past)
      && past.countP Event.isHit < past.countP Event.isMiss
  | _ => false

/-- The history until the cache turned itself off, if it did. -/
def active : List Event → List Event
  | [] => []
  | e :: past => if turnsOff start (active past) then active past else e :: active past

end

/-- The plan put in last under a key. -/
def plan? (k : PlanKey) (events : List Event) : Option (List StepId) := events.findSome? (Event.planOf? k)

/-- The keys used since a key was used. -/
def others (k : PlanKey) (events : List Event) : Finset PlanKey :=
  ((events.takeWhile fun e => e.used? ≠ some k).filterMap Event.used?).toFinset

/-- The keys put in since whose last use fewer than `n` others were used. -/
def held (n : Nat) (events : List Event) : Finset PlanKey :=
  (events.filterMap Event.inserted?).toFinset.filter fun k => (others k events).card < n

/-- How many keys went to make room for others. -/
def evictions (n start : Nat) : List Event → Nat
  | [] => 0
  | .put k plan :: past =>
    evictions n start past + (held n (current start past) \ held n (.put k plan :: current start past)).card
  | _ :: past => evictions n start past

/-! ## The order of use -/

/-- The keys used, each once, the one used last first. -/
def recency : List Event → List PlanKey
  | [] => []
  | e :: past =>
    match e.used? with
    | some k => k :: (recency past).filter (· ≠ k)
    | none => recency past

section

variable {e : Event} {events : List Event} {k : PlanKey}

theorem recency_of_used (h : e.used? = some k) (events : List Event) :
    recency (e :: events) = k :: (recency events).filter (· ≠ k) := by
  rw [recency, h]

theorem recency_of_unused (h : e.used? = none) (events : List Event) : recency (e :: events) = recency events := by
  rw [recency, h]

theorem nodup_recency (events : List Event) : (recency events).Nodup := by
  induction events with
  | nil => exact List.nodup_nil
  | cons e events ih =>
    cases hu : e.used? with
    | none => rwa [recency_of_unused hu]
    | some k =>
      rw [recency_of_used hu]
      exact List.nodup_cons.2 ⟨by simp, ih.filter _⟩

theorem mem_recency : k ∈ recency events ↔ ∃ e ∈ events, e.used? = some k := by
  induction events with
  | nil => simp [recency]
  | cons e events ih =>
    cases hu : e.used? with
    | none => simp [recency_of_unused hu, ih, hu]
    | some j =>
      rw [recency_of_used hu, List.mem_cons, List.mem_filter, ih, List.exists_mem_cons_iff, hu]
      by_cases hk : k = j
      · simp [hk]
      · simp [hk, Ne.symm hk]

/-- The keys used since a key was are those before it in the order. -/
theorem others_eq (k : PlanKey) (events : List Event) :
    others k events = ((recency events).takeWhile (· ≠ k)).toFinset := by
  induction events with
  | nil => rfl
  | cons e events ih =>
    cases hu : e.used? with
    | none =>
      rw [recency_of_unused hu, ← ih, others, List.takeWhile_cons_of_pos (by simp [hu]),
        List.filterMap_cons_none hu, others]
    | some j =>
      rw [recency_of_used hu]
      by_cases hj : j = k
      · subst hj
        rw [others, List.takeWhile_cons_of_neg (by simp [hu]), List.takeWhile_cons_of_neg (by simp)]
        rfl
      · rw [List.takeWhile_cons_of_pos (by simpa using hj), takeWhile_filter (Ne.symm hj), List.toFinset_cons,
          List.toFinset_filter, ← ih, others, List.takeWhile_cons_of_pos (by simpa [hu] using hj),
          List.filterMap_cons_some hu, List.toFinset_cons, others]
        ext x
        by_cases hx : x = j <;> simp [hx]

/-- A key used is among the first so many when fewer others were used since. -/
theorem mem_take_recency {n : Nat} (hk : k ∈ recency events) :
    k ∈ (recency events).take n ↔ (others k events).card < n := by
  rw [mem_take_iff hk, others_eq,
    List.toFinset_card_of_nodup ((nodup_recency events).sublist (List.takeWhile_sublist _))]

theorem mem_held {n : Nat} :
    k ∈ held n events ↔ (∃ e ∈ events, e.inserted? = some k) ∧ (others k events).card < n := by
  simp [held]

theorem used_of_inserted (h : e.inserted? = some k) : e.used? = some k := by
  cases e with
  | put j plan => exact h
  | got j answer => cases h
  | synced n => cases h

theorem mem_recency_of_plan? {plan : List StepId} (h : plan? k events = some plan) : k ∈ recency events := by
  obtain ⟨e, he, hplan⟩ := List.exists_of_findSome?_eq_some h
  refine mem_recency.2 ⟨e, he, ?_⟩
  cases e with
  | put j plan' =>
    obtain ⟨rfl, -⟩ := Option.ite_none_right_eq_some.1 hplan
    rfl
  | got j answer => cases hplan
  | synced n => cases hplan

/-- Every key used was put in. -/
def Stocked (events : List Event) : Prop := ∀ k ∈ recency events, ∃ e ∈ events, e.inserted? = some k

theorem stocked_nil : Stocked [] := fun _ hk => absurd hk List.not_mem_nil

theorem Stocked.held_eq (h : Stocked events) (n : Nat) : held n events = ((recency events).take n).toFinset := by
  ext k
  rw [mem_held, List.mem_toFinset]
  constructor
  · rintro ⟨⟨e, he, hk⟩, hlt⟩
    exact (mem_take_recency (mem_recency.2 ⟨e, he, used_of_inserted hk⟩)).2 hlt
  · intro hk
    have hmem := List.mem_of_mem_take hk
    exact ⟨h k hmem, (mem_take_recency hmem).1 hk⟩

end

/-! ## What the entries are -/

/-- The cache goes by its history, in which it was never turned off. -/
structure Tracks (n start : Nat) (t : Told) : Prop where
  generation : t.cache.generation = generationOf start t.events
  capacity : t.cache.capacity = n
  moves : t.cache.moves = movesOf start t.events
  keys : t.cache.entries.map Prod.fst = ((recency (current start t.events)).take n).reverse
  plans : ∀ e ∈ t.cache.entries, plan? e.1 (current start t.events) = some e.2
  stocked : Stocked (current start t.events)
  /-- A key that was not found, and not put in since, is not there. -/
  absent : ∀ k, .got k none ∈ (t.events.takeWhile fun e => e.inserted? ≠ some k) → k ∉ t.cache.entries.map Prod.fst
  stats : t.cache.stats =
    ⟨t.events.countP Event.isHit, t.events.countP Event.isMiss, evictions n start t.events, false⟩

section

variable {n start : Nat} {t : Told} {k : PlanKey} {plan : List StepId}

theorem tracks_empty (start capacity : Nat) : Tracks (max 1 capacity) start (told start capacity []) where
  generation := rfl
  capacity := rfl
  moves := rfl
  keys := (congrArg List.reverse List.take_nil).symm
  plans := nofun
  stocked := stocked_nil
  absent := nofun
  stats := rfl

theorem Tracks.disabled (h : Tracks n start t) : t.cache.stats.disabled = false := by rw [h.stats]

theorem Tracks.mem_keys (h : Tracks n start t) :
    k ∈ t.cache.entries.map Prod.fst ↔ k ∈ (recency (current start t.events)).take n := by
  rw [h.keys, List.mem_reverse]

theorem lookup_eq_none {c : PlanCache} : c.entries.lookup k = none ↔ k ∉ c.entries.map Prod.fst := by
  rw [List.lookup_eq_none_iff, List.mem_map]
  constructor
  · rintro h ⟨e, he, rfl⟩
    simpa using h e he
  · intro h e he
    exact bne_iff_ne.2 fun hk => h ⟨e, he, hk.symm⟩

theorem Tracks.get_miss (h : Tracks n start t) (hk : t.cache.entries.lookup k = none) :
    t.cache.get k =
      (none, { t.cache with stats := { t.cache.stats with misses := t.cache.stats.misses + 1 } }) := by
  rw [get, h.disabled, hk]
  rfl

theorem Tracks.get_hit (h : Tracks n start t) (hk : t.cache.entries.lookup k = some plan) :
    t.cache.get k = (some plan, { t.cache with
      entries := t.cache.entries.filter (·.1 ≠ k) ++ [(k, plan)]
      stats := { t.cache.stats with hits := t.cache.stats.hits + 1 } }) := by
  rw [get, h.disabled, hk]
  rfl

theorem Tracks.put {m : Nat} (h : Tracks (m + 1) start t) (hk : k ∉ t.cache.entries.map Prod.fst) (plan : List StepId) :
    t.cache.insert k plan = { t.cache with
      entries := (t.cache.entries ++ [(k, plan)]).drop (t.cache.entries.length - m)
      stats := { t.cache.stats with evictions := t.cache.stats.evictions + (t.cache.entries.length - m) } } := by
  have hany : t.cache.entries.any (·.1 = k) = false := by
    rw [List.any_eq_false]
    exact fun e he hek => hk (List.mem_map.2 ⟨e, he, of_decide_eq_true hek⟩)
  simp only [insert, h.disabled, hany, h.capacity, Bool.false_eq_true, if_false, List.length_append,
    List.length_singleton, Nat.add_sub_add_right]

/-- A key is found when it was put in and fewer than `n` others were used since it was used,
and then the plan put in last. -/
theorem Tracks.found_iff (h : Tracks n start t) : (t.cache.get k).1 = some plan ↔
    plan? k (current start t.events) = some plan ∧ (others k (current start t.events)).card < n := by
  have hlookup : (t.cache.get k).1 = t.cache.entries.lookup k := by
    cases hk : t.cache.entries.lookup k with
    | none => rw [h.get_miss hk]
    | some plan => rw [h.get_hit hk]
  rw [hlookup]
  constructor
  · intro hk
    have hmem := mem_of_lookup hk
    have htake := h.mem_keys.1 (List.mem_map_of_mem hmem)
    exact ⟨h.plans _ hmem, (mem_take_recency (List.mem_of_mem_take htake)).1 htake⟩
  · rintro ⟨hplan, hlt⟩
    have htake := (mem_take_recency (mem_recency_of_plan? hplan)).2 hlt
    cases hk : t.cache.entries.lookup k with
    | none => exact absurd (h.mem_keys.2 htake) (lookup_eq_none.1 hk)
    | some plan' => exact (h.plans _ (mem_of_lookup hk)).symm.trans hplan

/-! ### Look-ups -/

theorem current_got (answer : Option (List StepId)) (events : List Event) :
    current start (.got k answer :: events) = .got k answer :: current start events := rfl

theorem plan?_got (j : PlanKey) (answer : Option (List StepId)) (events : List Event) :
    plan? j (.got k answer :: events) = plan? j events := rfl

theorem Stocked.cons_got {answer : Option (List StepId)} {events : List Event} (h : Stocked events)
    (hk : answer.isSome → k ∈ recency events) : Stocked (.got k answer :: events) := by
  intro j hj
  have hj : j ∈ recency events := by
    cases answer with
    | none => exact hj
    | some plan =>
      rcases List.mem_cons.1 hj with rfl | hj
      · exact hk rfl
      · exact (List.mem_filter.1 hj).1
  obtain ⟨e, he, hin⟩ := h j hj
  exact ⟨e, List.mem_cons_of_mem _ he, hin⟩

/-- A look-up that finds nothing changes no entry. -/
theorem Tracks.miss (h : Tracks n start t) (hk : t.cache.entries.lookup k = none) :
    Tracks n start (t.ask (.get k)) := by
  have hask : t.ask (.get k) = ⟨.got k none :: t.events,
      { t.cache with stats := { t.cache.stats with misses := t.cache.stats.misses + 1 } }⟩ := by
    rw [Told.ask, h.get_miss hk]
  rw [hask]
  constructor
  case generation => exact h.generation
  case capacity => exact h.capacity
  case moves => exact h.moves
  case keys => exact h.keys
  case plans => exact h.plans
  case stocked => exact h.stocked.cons_got nofun
  case absent =>
    intro j hj
    rw [List.takeWhile_cons_of_pos (by simp [Event.inserted?]), List.mem_cons] at hj
    rcases hj with hj | hj
    · cases hj
      exact lookup_eq_none.1 hk
    · exact h.absent j hj
  case stats =>
    rw [h.stats, List.countP_cons_of_neg (by simp [Event.isHit]), List.countP_cons_of_pos rfl]
    rfl

/-- A look-up that finds a plan makes its entry the freshest. -/
theorem Tracks.hit (h : Tracks n start t) (hk : t.cache.entries.lookup k = some plan) :
    Tracks n start (t.ask (.get k)) := by
  have hmem := mem_of_lookup hk
  have htake := h.mem_keys.1 (List.mem_map_of_mem hmem)
  obtain ⟨m, rfl⟩ : ∃ m, n = m + 1 := by
    cases n with
    | zero => simp at htake
    | succ m => exact ⟨m, rfl⟩
  have hask : t.ask (.get k) = ⟨.got k (some plan) :: t.events, { t.cache with
      entries := t.cache.entries.filter (·.1 ≠ k) ++ [(k, plan)]
      stats := { t.cache.stats with hits := t.cache.stats.hits + 1 } }⟩ := by
    rw [Told.ask, h.get_hit hk]
  have hfilter : (t.cache.entries.filter (·.1 ≠ k)).map Prod.fst =
      (t.cache.entries.map Prod.fst).filter (· ≠ k) := by
    rw [List.filter_map]
    rfl
  rw [hask]
  constructor
  case generation => exact h.generation
  case capacity => exact h.capacity
  case moves => exact h.moves
  case keys =>
    rw [List.map_append, hfilter, h.keys, current_got, recency_of_used rfl, List.take_succ_cons, List.reverse_cons,
      take_filter_of_mem (nodup_recency _) htake, List.filter_reverse]
    rfl
  case plans =>
    intro e he
    rw [current_got, plan?_got]
    rcases List.mem_append.1 he with he | he
    · exact h.plans e (List.mem_filter.1 he).1
    · exact List.mem_singleton.1 he ▸ h.plans _ hmem
  case stocked => exact h.stocked.cons_got fun _ => List.mem_of_mem_take htake
  case absent =>
    intro j hj hin
    rw [List.takeWhile_cons_of_pos (by simp [Event.inserted?]), List.mem_cons] at hj
    have hj := h.absent j (hj.resolve_left (by simp))
    rw [List.map_append, hfilter, List.mem_append, List.mem_filter] at hin
    rcases hin with ⟨hin, -⟩ | hin
    · exact hj hin
    · exact hj (List.mem_singleton.1 hin ▸ List.mem_map_of_mem hmem)
  case stats =>
    rw [h.stats, List.countP_cons_of_pos rfl, List.countP_cons_of_neg (by simp [Event.isMiss])]
    rfl

/-! ### Insertions -/

theorem held_sdiff_card {m : Nat} {l : List PlanKey} (hl : l.Nodup) (hk : k ∉ l.take (m + 1)) :
    ((l.take (m + 1)).toFinset \ (k :: l.take m).toFinset).card = (l.take (m + 1)).length - m := by
  have hinter : (k :: l.take m).toFinset ∩ (l.take (m + 1)).toFinset = (l.take m).toFinset := by
    ext j
    simp only [Finset.mem_inter, List.mem_toFinset, List.mem_cons]
    constructor
    · rintro ⟨rfl | hj, hj'⟩
      · exact absurd hj' hk
      · exact hj
    · exact fun hj => ⟨.inr hj, List.take_subset_take_left l (Nat.le_succ m) hj⟩
  rw [Finset.card_sdiff, hinter, List.toFinset_card_of_nodup (hl.sublist (List.take_sublist _ _)),
    List.toFinset_card_of_nodup (hl.sublist (List.take_sublist _ _)), List.length_take, List.length_take]
  omega

theorem Stocked.cons_put {events : List Event} (h : Stocked events) (plan : List StepId) :
    Stocked (.put k plan :: events) := by
  intro j hj
  rcases List.mem_cons.1 hj with rfl | hj
  · exact ⟨_, List.mem_cons_self, rfl⟩
  · obtain ⟨e, he, hin⟩ := h j (List.mem_filter.1 hj).1
    exact ⟨e, List.mem_cons_of_mem _ he, hin⟩

/-- A plan is put in as the freshest, and the stalest goes when there is no room. -/
theorem Tracks.insert (h : Tracks n start t) (hn : 0 < n)
    (hd : .got k none ∈ t.events.takeWhile fun e => e.inserted? ≠ some k) (plan : List StepId) :
    Tracks n start (t.ask (.insert k plan)) := by
  obtain ⟨m, rfl⟩ : ∃ m, n = m + 1 := ⟨n - 1, by omega⟩
  have hout := h.absent k hd
  have htake : k ∉ (recency (current start t.events)).take (m + 1) := fun hk => hout (h.mem_keys.2 hk)
  have hlen : t.cache.entries.length = ((recency (current start t.events)).take (m + 1)).length := by
    rw [← List.length_map (f := Prod.fst), h.keys, List.length_reverse]
  have hask : t.ask (.insert k plan) = ⟨.put k plan :: t.events, { t.cache with
      entries := (t.cache.entries ++ [(k, plan)]).drop (t.cache.entries.length - m)
      stats := { t.cache.stats with evictions := t.cache.stats.evictions + (t.cache.entries.length - m) } }⟩ := by
    rw [Told.ask, h.put hout]
  have hcurrent : current start (.put k plan :: t.events) = .put k plan :: current start t.events := rfl
  have hrecency : (recency (.put k plan :: current start t.events)).take (m + 1) =
      k :: (recency (current start t.events)).take m := by
    rw [recency_of_used rfl, List.take_succ_cons, take_filter_of_notMem htake]
  have hstocked : Stocked (.put k plan :: current start t.events) := h.stocked.cons_put plan
  rw [hask]
  constructor
  case generation => exact h.generation
  case capacity => exact h.capacity
  case moves => exact h.moves
  case keys =>
    have hle : t.cache.entries.length - m ≤ (t.cache.entries.map Prod.fst).length := by
      rw [List.length_map]
      exact Nat.sub_le _ _
    rw [hcurrent, hrecency, List.reverse_cons, ← drop_reverse_take, ← h.keys, ← hlen, List.map_drop, List.map_append,
      List.drop_append_of_le_length hle]
    rfl
  case plans =>
    intro e he
    rw [hcurrent, plan?, List.findSome?_cons]
    rcases List.mem_append.1 (List.mem_of_mem_drop he) with he | he
    · have hne : k ≠ e.1 := fun hk => hout (hk ▸ List.mem_map_of_mem he)
      rw [Event.planOf?, if_neg hne]
      exact h.plans e he
    · rw [List.mem_singleton.1 he, Event.planOf?, if_pos rfl]
  case stocked => exact hstocked
  case absent =>
    intro j hj hin
    by_cases hjk : k = j
    · rw [List.takeWhile_cons_of_neg (by simp [Event.inserted?, hjk])] at hj
      cases hj
    · rw [List.takeWhile_cons_of_pos (by simpa [Event.inserted?] using hjk), List.mem_cons] at hj
      obtain ⟨e, he, rfl⟩ := List.mem_map.1 hin
      rcases List.mem_append.1 (List.mem_of_mem_drop he) with he | he
      · exact h.absent _ (hj.resolve_left (by simp)) (List.mem_map_of_mem he)
      · exact hjk (congrArg Prod.fst (List.mem_singleton.1 he)).symm
  case stats =>
    have hgone : (held (m + 1) (current start t.events) \ held (m + 1) (.put k plan :: current start t.events)).card =
        t.cache.entries.length - m := by
      rw [h.stocked.held_eq, hstocked.held_eq, hrecency, held_sdiff_card (nodup_recency _) htake, hlen]
    rw [h.stats, List.countP_cons_of_neg (by simp [Event.isHit]), List.countP_cons_of_neg (by simp [Event.isMiss]),
      evictions, hgone]

/-! ### Generations -/

/-- The same generation changes nothing. -/
theorem Tracks.same (h : Tracks n start t) :
    Tracks n start (t.ask (.sync (generationOf start t.events))) := by
  have hask : t.ask (.sync (generationOf start t.events)) = ⟨.synced (generationOf start t.events) :: t.events, t.cache⟩ := by
    rw [Told.ask, syncGeneration, if_pos h.generation.symm]
  have hcurrent : current start (.synced (generationOf start t.events) :: t.events) = current start t.events := if_pos rfl
  rw [hask]
  constructor
  case generation => exact h.generation
  case capacity => exact h.capacity
  case moves => exact h.moves.trans (if_pos rfl).symm
  case keys => rw [hcurrent, h.keys]
  case plans => rw [hcurrent]; exact h.plans
  case stocked => rw [hcurrent]; exact h.stocked
  case absent =>
    intro j hj
    rw [List.takeWhile_cons_of_pos (by simp [Event.inserted?]), List.mem_cons] at hj
    exact h.absent j (hj.resolve_left (by simp))
  case stats =>
    rw [h.stats, List.countP_cons_of_neg (by simp [Event.isHit]), List.countP_cons_of_neg (by simp [Event.isMiss])]
    rfl

/-- A move of the generation leaves no entry; the cache stays on or turns itself off. -/
theorem Tracks.sync (h : Tracks n start t) {g : Nat} (hg : g ≠ generationOf start t.events) :
    (t.ask (.sync g)).cache.entries = [] ∧ (t.ask (.sync g)).cache.stats =
      { t.cache.stats with disabled := turnsOff start (.synced g :: t.events) } := by
  rw [Told.ask, syncGeneration, if_neg (h.generation ▸ hg)]
  refine ⟨rfl, ?_⟩
  simp [h.stats, h.moves, turnsOff, movesOf, hg]

theorem Tracks.moved (h : Tracks n start t) {g : Nat} (hg : g ≠ generationOf start t.events)
    (hon : turnsOff start (.synced g :: t.events) = false) : Tracks n start (t.ask (.sync g)) := by
  obtain ⟨hentries, hstats⟩ := h.sync hg
  have hcurrent : current start (t.ask (.sync g)).events = [] := if_neg hg
  constructor
  case generation => exact generation_syncGeneration _ _
  case capacity =>
    rw [Told.ask, syncGeneration, if_neg (h.generation ▸ hg)]
    exact h.capacity
  case moves =>
    rw [Told.ask, syncGeneration, if_neg (h.generation ▸ hg)]
    exact (congrArg (· + 1) h.moves).trans (if_neg hg).symm
  case keys => rw [hcurrent, hentries]; exact (congrArg List.reverse List.take_nil).symm
  case plans => rw [hentries]; exact fun _ he => absurd he List.not_mem_nil
  case stocked => rw [hcurrent]; exact stocked_nil
  case absent => rw [hentries]; exact fun _ _ => List.not_mem_nil
  case stats =>
    rw [hstats, hon, h.stats, Told.ask, List.countP_cons_of_neg (by simp [Event.isHit]),
      List.countP_cons_of_neg (by simp [Event.isMiss])]
    rfl

/-! ## Whole histories -/

theorem active_cons (e : Event) {events : List Event} (h : turnsOff start (active start events) = false) :
    active start (e :: events) = e :: active start events := if_neg (Bool.eq_false_iff.1 h)

theorem active_cons_of_off (e : Event) {events : List Event} (h : turnsOff start (active start events) = true) :
    active start (e :: events) = active start events := if_pos h

/-- The cache turned itself off. -/
structure Stopped (n start : Nat) (t : Told) : Prop where
  off : turnsOff start (active start t.events) = true
  entries : t.cache.entries = []
  stats : t.cache.stats = ⟨(active start t.events).countP Event.isHit, (active start t.events).countP Event.isMiss,
    evictions n start (active start t.events), true⟩

theorem Stopped.disabled (h : Stopped n start t) : t.cache.stats.disabled = true := by rw [h.stats]

/-- A cache that is off stays as it is. -/
theorem Stopped.ask (h : Stopped n start t) (op : Op) :
    Stopped n start (t.ask op) ∧ (t.ask op).cache.stats = t.cache.stats := by
  have hsame : (t.ask op).cache.entries = [] ∧ (t.ask op).cache.stats = t.cache.stats := by
    cases op with
    | get k =>
      rw [Told.ask, get_of_disabled h.disabled]
      exact ⟨h.entries, rfl⟩
    | insert k plan =>
      rw [Told.ask, insert_of_disabled h.disabled]
      exact ⟨h.entries, rfl⟩
    | sync g =>
      rw [Told.ask, syncGeneration]
      split
      · exact ⟨h.entries, rfl⟩
      · exact ⟨rfl, by simp [h.stats]⟩
  have hactive : active start (t.ask op).events = active start t.events := by
    cases op <;> exact active_cons_of_off _ h.off
  refine ⟨⟨?_, hsame.1, ?_⟩, hsame.2⟩
  · rw [hactive]
    exact h.off
  · rw [hactive, hsame.2]
    exact h.stats

theorem Stopped.foldl (h : Stopped n start t) (ops : List Op) :
    Stopped n start (ops.foldl Told.ask t) ∧ (ops.foldl Told.ask t).cache.stats = t.cache.stats := by
  induction ops generalizing t with
  | nil => exact ⟨h, rfl⟩
  | cons op ops ih =>
    obtain ⟨hnext, hstats⟩ := h.ask op
    obtain ⟨hlast, hrest⟩ := ih hnext
    exact ⟨hlast, hrest.trans hstats⟩

/-- The cache is on and goes by its history, or it turned itself off. -/
inductive Story (n start : Nat) (t : Told) : Prop
  | on : active start t.events = t.events → turnsOff start t.events = false → Tracks n start t → Story n start t
  | off : Stopped n start t → Story n start t

theorem Story.ask (h : Story n start t) (hn : 0 < n) (op : Op) (hd : disciplined (t.ask op).events = true) :
    Story n start (t.ask op) := by
  cases h with
  | off h => exact .off (h.ask op).1
  | on hactive hon h =>
    have hnext : ∀ e, active start (e :: t.events) = e :: t.events := by
      intro e
      rw [active_cons e (hactive.symm ▸ hon), hactive]
    cases op with
    | get k =>
      refine .on (hnext _) rfl ?_
      cases hk : t.cache.entries.lookup k with
      | none => exact h.miss hk
      | some plan => exact h.hit hk
    | insert k plan =>
      refine .on (hnext _) rfl (h.insert hn ?_ plan)
      exact List.contains_iff_mem.1 (Bool.and_eq_true_iff.1 hd).1
    | sync g =>
      by_cases hg : g = generationOf start t.events
      · subst hg
        exact .on (hnext _) (by simp [Told.ask, turnsOff]) h.same
      · cases hoff : turnsOff start (.synced g :: t.events) with
        | false => exact .on (hnext _) hoff (h.moved hg hoff)
        | true =>
          obtain ⟨hentries, hstats⟩ := h.sync hg
          refine .off ⟨?_, hentries, ?_⟩
          · rw [Told.ask, hnext]
            exact hoff
          · rw [hstats, hoff, h.stats, Told.ask, hnext, List.countP_cons_of_neg (by simp [Event.isHit]),
              List.countP_cons_of_neg (by simp [Event.isMiss])]
            rfl

theorem disciplined_of_cons {e : Event} {events : List Event} (h : disciplined (e :: events) = true) :
    disciplined events = true := by
  cases e with
  | put k plan => exact (Bool.and_eq_true_iff.1 h).2
  | got k answer => exact h
  | synced g => exact h

theorem told_append (start capacity : Nat) (ops : List Op) (op : Op) :
    told start capacity (ops ++ [op]) = (told start capacity ops).ask op := List.foldl_concat ..

theorem told_story {capacity : Nat} (ops : List Op) (hd : disciplined (told start capacity ops).events = true) :
    Story (max 1 capacity) start (told start capacity ops) := by
  induction ops using List.reverseRecOn with
  | nil => exact .on rfl rfl (tracks_empty start capacity)
  | append_singleton ops op ih =>
    rw [told_append] at hd ⊢
    refine (ih ?_).ask (by omega) op hd
    cases op <;> exact disciplined_of_cons hd

end

/-- What a history tells of its cache. -/
structure Lru (n start : Nat) (t : Told) : Prop where
  off : t.cache.stats.disabled = turnsOff start (active start t.events)
  /-- While the cache is on it finds a key that was put in since the generation moved and
  since whose last use fewer than `n` others were used, and no other, and gives the plan put
  in last for it. -/
  found : t.cache.stats.disabled = false → ∀ k plan, (t.cache.get k).1 = some plan ↔
    plan? k (current start t.events) = some plan ∧ (others k (current start t.events)).card < n
  size : t.cache.size ≤ n
  hits : t.cache.stats.hits = (active start t.events).countP Event.isHit
  misses : t.cache.stats.misses = (active start t.events).countP Event.isMiss
  evictions : t.cache.stats.evictions = evictions n start (active start t.events)
  /-- A cache that is off is empty, finds nothing and counts nothing, whatever is asked. -/
  rests : t.cache.stats.disabled = true → ∀ (ops : List Op) (k : PlanKey), (ops.foldl Told.ask t).cache.entries = [] ∧
    ((ops.foldl Told.ask t).cache.get k).1 = none ∧ (ops.foldl Told.ask t).cache.stats = t.cache.stats

/-- The cache keeps the plans used last in the generation, as many as it has room for,
counts what it finds, what it does not find and what has to go, and rests once it is off;
provided a plan is put in only after its key was looked for in vain since it was put in
before. -/
theorem least_recently_used {start capacity : Nat} {ops : List Op}
    (hd : disciplined (told start capacity ops).events = true) :
    Lru (max 1 capacity) start (told start capacity ops) := by
  cases told_story ops hd with
  | on hactive hon h =>
    constructor
    case off => rw [h.disabled, hactive, hon]
    case found => exact fun _ _ _ => h.found_iff
    case size =>
      rw [PlanCache.size, ← List.length_map (f := Prod.fst), h.keys, List.length_reverse]
      exact List.length_take_le _ _
    case hits => rw [hactive, h.stats]
    case misses => rw [hactive, h.stats]
    case evictions => rw [hactive, h.stats]
    case rests =>
      intro hoff
      rw [h.disabled] at hoff
      cases hoff
  | off h =>
    constructor
    case off => rw [h.disabled, h.off]
    case found =>
      intro hon
      rw [h.disabled] at hon
      cases hon
    case size =>
      rw [PlanCache.size, h.entries]
      exact Nat.zero_le _
    case hits => rw [h.stats]
    case misses => rw [h.stats]
    case evictions => rw [h.stats]
    case rests =>
      intro _ ops k
      obtain ⟨hlast, hstats⟩ := h.foldl ops
      exact ⟨hlast.entries, congrArg Prod.fst (get_of_disabled hlast.disabled k), hstats⟩

/-! ### A cache of two plans -/

/-- The key of one root. -/
def rooted (p : PathId) : PlanKey := ⟨.all, [p]⟩

/-- Two plans are put in, the first is used again, and a third one comes. -/
def three : List Op :=
  [.get (rooted 1), .insert (rooted 1) [0, 2], .get (rooted 2), .insert (rooted 2) [1], .get (rooted 1),
    .get (rooted 3), .insert (rooted 3) [2]]

/-- After that the generation moves four times, and nothing is found in between. -/
def moving : List Op := three ++ [.sync 2, .get (rooted 1), .sync 3, .sync 3, .get (rooted 1), .sync 4, .sync 5]

/-- The second plan goes, as it was used before the first one; and when the generation has
moved four times the cache is off. -/
theorem the_second_goes :
    (disciplined (told 1 2 three).events = true ∧ Lru (max 1 2) 1 (told 1 2 three) ∧
      ((told 1 2 three).cache.get (rooted 1)).1 = some [0, 2] ∧ ((told 1 2 three).cache.get (rooted 2)).1 = none ∧
      (told 1 2 three).cache.stats = ⟨1, 3, 1, false⟩) ∧
    disciplined (told 1 2 moving).events = true ∧ Lru (max 1 2) 1 (told 1 2 moving) ∧
      (told 1 2 moving).cache.stats = ⟨1, 5, 1, true⟩ :=
  ⟨⟨by decide, least_recently_used (by decide), by decide, by decide, by decide⟩,
    by decide, least_recently_used (by decide), by decide⟩

end PlanCache

/-! ## What executors ask -/

namespace Pass

open PlanCache

/-- A pass puts a plan in only after it has looked for it in vain. -/
theorem plan_disciplined (w : Wiring) {t : Told} (ht : disciplined t.events = true) (scope : Scope)
    (dirty : DirtyIds) (forced : List StepId) (expired : Bool) :
    ∃ ops : List Op, (plan w t.cache scope dirty forced expired).2.2.2 = (ops.foldl Told.ask t).cache ∧
      disciplined (ops.foldl Told.ask t).events = true := by
  unfold plan
  cases forced with
  | cons s forced => exact ⟨[], rfl, ht⟩
  | nil =>
    simp only [List.isEmpty_nil, if_true]
    split
    · rename_i steps cache hget
      exact ⟨[.get ⟨scope, dirty.ids⟩], (congrArg Prod.snd hget).symm, ht⟩
    · rename_i cache hget
      split
      · exact ⟨[.get ⟨scope, dirty.ids⟩], (congrArg Prod.snd hget).symm, ht⟩
      · rename_i steps hsteps
        refine ⟨[.get ⟨scope, dirty.ids⟩, .insert ⟨scope, dirty.ids⟩ steps], ?_, ?_⟩
        · simp only [List.foldl_cons, List.foldl_nil, Told.ask, hget]
        · simp [Told.ask, hget, disciplined, Event.inserted?, ht]

/-- A choice leaves the cache alone, or as its plan leaves it. -/
theorem decide_cache (w : Wiring) (cache : PlanCache) (txnSeq : Nat) (scope : Scope) (config : Policy.Convergence)
    (dirty : DirtyIds) (forced : List StepId) : (decide w cache txnSeq scope config dirty forced).cache = cache ∨
      ∃ expired, (decide w cache txnSeq scope config dirty forced).cache =
        (plan w cache scope dirty forced expired).2.2.2 := by
  rw [decide_eq]
  split
  · exact .inl rfl
  · exact .inr ⟨_, chosenBy_cache _ _ _ _⟩

end Pass

namespace Executor

open PlanCache

/-- Whatever passes an executor runs and whatever compilations it follows, its cache is one
that was asked with discipline. -/
theorem run_disciplined (key : Key) (c : Compiled) (ops : List Op) : ∃ asked : List PlanCache.Op,
    (ops.foldl Op.run (ofCompiled key c)).cache = (told c.graph.generation defaultCapacity asked).cache ∧
      disciplined (told c.graph.generation defaultCapacity asked).events = true := by
  induction ops using List.reverseRecOn with
  | nil => exact ⟨[], rfl, rfl⟩
  | append_singleton ops op ih =>
    obtain ⟨asked, hcache, hd⟩ := ih
    have hmore : ∀ {cache : PlanCache} (more : List PlanCache.Op),
        cache = (more.foldl Told.ask (told c.graph.generation defaultCapacity asked)).cache →
        disciplined (more.foldl Told.ask (told c.graph.generation defaultCapacity asked)).events = true →
        ∃ asked : List PlanCache.Op, cache = (told c.graph.generation defaultCapacity asked).cache ∧
          disciplined (told c.graph.generation defaultCapacity asked).events = true := by
      intro cache more he hm
      refine ⟨asked ++ more, ?_, ?_⟩
      · rw [told, List.foldl_append]
        exact he
      · rw [told, List.foldl_append]
        exact hm
    rw [List.foldl_concat]
    generalize ops.foldl Op.run (ofCompiled key c) = e at hcache
    cases op with
    | rebind c' => exact hmore [.sync c'.graph.generation] (congrArg (·.syncGeneration c'.graph.generation) hcache) hd
    | pass late ctx req d =>
      rcases passUnder_cache late e ctx req d with h | h
      · exact ⟨asked, h.trans hcache, hd⟩
      · rcases Pass.decide_cache e.wiring e.cache ctx.txnSeq req.scope req.config (e.rootsOf ctx req.carried)
          (e.forcedSteps req.scope req.carried) with hchoice | ⟨expired, hchoice⟩
        · exact ⟨asked, (h.trans hchoice).trans hcache, hd⟩
        · obtain ⟨more, he, hm⟩ := Pass.plan_disciplined e.wiring hd req.scope (e.rootsOf ctx req.carried)
            (e.forcedSteps req.scope req.carried) expired
          exact hmore more ((h.trans hchoice).trans (hcache ▸ he)) hm

end Executor

end Settle
