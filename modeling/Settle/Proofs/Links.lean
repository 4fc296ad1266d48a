/-
  Settle.Proofs.Links — links keep their targets in step (see `Settle.Engine`).

  Besides ticks, an engine commits nothing, and what is pending changes by transactions
  and new links alone: registering, overriding policies and lanes leave both as they are
  (`Engine.Idle`, `register_stays`).
  - A link is in step once it is there, since it copies at once what its source has
    committed. It stays so, whatever happens, while nothing else writes where it does
    (`link_in_step`): no step of the target, no other link, no transaction on the target.
  - A transaction that replaces its draft writes there too, if it opened before the last
    copy came: the draft is older than the copy. The source does not change by that, so the
    copy is not made again (`Relay.a_copy_is_undone`).
-/

import Settle.Proofs.Copies

namespace Settle

namespace Transaction

variable {t : Transaction} {pending : Value} {q : Path} {priority : Priority} {c : Commit}

/-- The transaction changes nothing at the path of what is pending: a draft that replaces it
reads the same there, and writes go past it. -/
def Spares (t : Transaction) (pending : Value) (q : Path) : Prop :=
  if t.replaced then State.read t.draft q = State.read pending q else State.sparesAll q pending t.writes = true

theorem Spares.read (h : t.Spares pending q) (hq : q.hasWildcard = false) (hc : t.commit? priority = some c) :
    State.read (c.change.applyTo pending) q = State.read pending q := by
  unfold Spares at h
  rw [applyTo_commit hc]
  cases hr : t.replaced with
  | true => simpa [hr] using h
  | false =>
    rw [hr] at h
    exact State.read_writeAtAll_spared hq h

end Transaction

/-! ## What ticks and commits alone change -/

namespace Store

variable {l : Link} {s s' s'' : Store} {i j : Instance} {k : Key} {c : Commit}

/-- Every instance is still there, with what it has committed and pending. -/
def Stays (s s' : Store) : Prop :=
  ∀ k i, s.find? k = some i → ∃ i', s'.find? k = some i' ∧ i'.state = i.state ∧ i'.pending = i.pending

theorem Stays.refl (s : Store) : Stays s s := fun _ i hi => ⟨i, hi, rfl, rfl⟩

theorem Stays.trans (h : Stays s s') (h' : Stays s' s'') : Stays s s'' := fun k i hi => by
  obtain ⟨i₁, hi₁, hstate₁, hpending₁⟩ := h k i hi
  obtain ⟨i₂, hi₂, hstate₂, hpending₂⟩ := h' k i₁ hi₁
  exact ⟨i₂, hi₂, hstate₂.trans hstate₁, hpending₂.trans hpending₁⟩

theorem Stays.contains (h : Stays s s') (hc : s.contains k = true) : s'.contains k = true := by
  obtain ⟨i, hi⟩ := exists_find? hc
  obtain ⟨i', hi', -⟩ := h k i hi
  exact contains_of_find? hi'

theorem Stays.follows (h : Stays s s') (hsource : s.contains l.source = true) (htarget : s.contains l.target = true) :
    Follows l s s' := by
  obtain ⟨i, hi⟩ := exists_find? hsource
  obtain ⟨i', hi', hstate, -⟩ := h _ i hi
  obtain ⟨j, hj⟩ := exists_find? htarget
  obtain ⟨j', hj', -, hpending⟩ := h _ j hj
  refine .of_eq ?_ ?_
  · rw [outgoing_of_find? hi, outgoing_of_find? hi', hstate]
  · rw [landed_of_find? hj, landed_of_find? hj', hpending]

theorem replace_stays (hi : s.find? k = some i) (hj : j.key = k) (hstate : j.state = i.state)
    (hpending : j.pending = i.pending) (n : Nat) : Stays s { s.put j with seq := n } := fun k' i' hi' => by
  rw [find?_replace (hj ▸ hi), hj]
  split
  · rename_i hk
    obtain rfl := Option.some.inj (hi.symm.trans (hk ▸ hi'))
    exact ⟨j, rfl, hstate, hpending⟩
  · exact ⟨i', hi', rfl, rfl⟩

theorem enqueue_stays (he : s.enqueue k c = .ok s') (hc : c.Writeless) : Stays s s' := by
  obtain ⟨i, hi, rfl⟩ := enqueue_eq_ok he
  have hkey : (i.enqueue { c with seq := s.seq + 1 }).key = k := (key_of_find? hi : i.key = k)
  exact replace_stays hi hkey rfl (hc i.pending) _

theorem map_stays {f : Instance → Instance}
    (hf : ∀ i, (f i).key = i.key ∧ (f i).state = i.state ∧ (f i).pending = i.pending) (s : Store) :
    Stays s { s with instances := s.instances.map f } := fun k i hi => by
  refine ⟨f i, ?_, (hf i).2⟩
  have hfind : ((fun i : Instance => decide (i.key = k)) ∘ f) = fun i => decide (i.key = k) :=
    funext fun i => by simp [(hf i).1]
  unfold find? at hi ⊢
  rw [List.find?_map, hfind, hi]
  rfl

theorem add_stays (s : Store) (i : Instance) : Stays s (s.add i) := fun k j hj => by
  refine ⟨j, ?_, rfl, rfl⟩
  rw [find?_add, hj]
  rfl

end Store

namespace Engine

open Store (Follows Stays)
open Tick.Running (copy)

variable {config : Policy.Config} {e e' e'' : Engine} {k : Key} {l : Link}

/-- Links and instances are what they were, and so is what these have committed and pending. -/
structure Idle (e e' : Engine) : Prop where
  links : e'.links = e.links
  keys : e'.store.instances.map (·.key) = e.store.instances.map (·.key)
  stays : e.store.Stays e'.store

theorem Idle.refl (e : Engine) : Idle e e := ⟨rfl, rfl, .refl _⟩

theorem Idle.trans (h : Idle e e') (h' : Idle e' e'') : Idle e e'' :=
  ⟨h'.links.trans h.links, h'.keys.trans h.keys, h.stays.trans h'.stays⟩

theorem put_idle {i j : Instance} (hi : e.store.find? k = some i) (hj : j.key = i.key) (hstate : j.state = i.state)
    (hpending : j.pending = i.pending) : Idle e { e with store := e.store.put j } :=
  ⟨rfl, Store.keys_put e.store j, Store.replace_stays hi (hj.trans (Store.key_of_find? hi)) hstate hpending e.store.seq⟩

theorem enqueue_links (e : Engine) (k : Key) (c : Commit) : (e.enqueue k c).links = e.links := by
  unfold enqueue
  split <;> rfl

theorem enqueue_store (e : Engine) (k : Key) (c : Commit) : (e.enqueue k c).store =
    match e.store.enqueue k c with
    | .ok s => s
    | .error _ => e.store := by
  unfold enqueue
  cases e.store.enqueue k c <;> rfl

theorem enqueue_idle (k : Key) {c : Commit} (hc : c.Writeless) : Idle e (e.enqueue k c) := by
  unfold enqueue
  split
  · rename_i he
    exact ⟨rfl, Store.enqueue_keys he, Store.enqueue_stays he hc⟩
  · exact .refl e

theorem syncLane_idle (e : Engine) (k : Key) : Idle e (e.syncLane k) := by
  unfold syncLane
  split
  · exact .refl e
  · rename_i i hi
    have hput : Idle e { e with store := e.store.put (i.syncLane e.clock.isSome).2 } := by
      unfold Instance.syncLane
      split <;> exact put_idle hi rfl rfl rfl
    dsimp only
    split
    · exact hput.trans (enqueue_idle k (Instance.deferredCommit_own _ _).1)
    · exact hput

theorem foldl_syncLane_idle (ks : List Key) (e : Engine) : Idle e (ks.foldl syncLane e) := by
  induction ks generalizing e with
  | nil => exact .refl e
  | cons k ks ih => exact (syncLane_idle e k).trans (ih _)

theorem acceptDeferred_idle (e : Engine) (k : Key) (f : Lane.Flush) : Idle e (e.acceptDeferred k f) := by
  unfold acceptDeferred
  split
  · exact .refl e
  · exact enqueue_idle k (Instance.deferredCommit_own _ _).1

theorem override_idle {provider : Option Policy.Overrides} (he : e.override k provider = .ok e') : Idle e e' := by
  obtain ⟨i, hi, he⟩ := Except.bind_eq_ok.1 he
  cases he
  refine Idle.trans ?_ (syncLane_idle _ k)
  exact put_idle (get_eq_ok hi) rfl rfl rfl

/-- Registering an instance adds it, and leaves the others what they have committed and
pending. -/
theorem register_stays {d : Declaration} {id : String} {v : Value} (he : e.register d id v = .ok (k, e')) :
    e'.links = e.links ∧ (e.store.Keyed → e'.store.Keyed) ∧ e.store.Stays e'.store := by
  unfold register at he
  dsimp only at he
  split at he
  · cases he
  · rename_i hnew
    obtain ⟨⟨answer, graphs⟩, -, he⟩ := Except.bind_eq_ok.1 he
    -- the siblings follow the new graph, then the instance is added, then its lane is set up
    obtain ⟨last, mid, hlast, hmid, ⟨i, hkey, hstore⟩, hlinks⟩ : ∃ last mid : Engine, Idle last e' ∧ Idle e mid ∧
        (∃ i : Instance, i.key = ⟨d.moduleId, id⟩ ∧ last.store = mid.store.add i) ∧ last.links = mid.links := by
      cases he
      refine ⟨_, _, syncLane_idle _ _, Idle.trans ?_ (foldl_syncLane_idle _ _), ⟨_, rfl, rfl⟩, rfl⟩
      have hfollow : ∀ i : Instance,
          let i' := if decide (i.key.moduleId = d.moduleId) = true then i.rebind answer.compiled else i
          i'.key = i.key ∧ i'.state = i.state ∧ i'.pending = i.pending := fun i => by
        dsimp only
        split <;> exact ⟨rfl, rfl, rfl⟩
      refine ⟨rfl, ?_, Store.map_stays hfollow e.store⟩
      exact (List.map_map).trans (List.map_congr_left fun i _ => (hfollow i).1)
    refine ⟨hlast.links.trans (hlinks.trans hmid.links), fun hs => Store.Keyed.of_keys hlast.keys ?_,
      hmid.stays.trans (Stays.trans ?_ hlast.stays)⟩
    · rw [hstore]
      refine (Store.Keyed.of_keys hmid.keys hs).add (Option.not_isSome_iff_eq_none.1 fun hold => hnew ?_)
      exact (Store.contains_of_keys hmid.keys _).symm.trans (hkey ▸ hold)
    · rw [hstore]
      exact Store.add_stays mid.store i

theorem commitTxn_links (e : Engine) (t : Transaction) (priority : Priority) :
    (e.commitTxn t priority).links = e.links := by
  unfold commitTxn
  dsimp only
  split
  · exact enqueue_links (e.abandon t.key) t.key _
  · rfl

/-- A transaction that closes queues what it recorded, if anything and if its instance is
there. -/
theorem commitTxn_store (e : Engine) (t : Transaction) (priority : Priority) :
    (e.commitTxn t priority).store = e.store ∨
      ∃ c, t.commit? priority = some c ∧ e.store.enqueue t.key c = .ok (e.commitTxn t priority).store := by
  unfold commitTxn
  dsimp only
  split
  · rename_i c hc
    have hstore := enqueue_store (e.abandon t.key) t.key c
    cases he : (e.abandon t.key).store.enqueue t.key c with
    | error err =>
      rw [he] at hstore
      exact .inl hstore
    | ok s =>
      rw [he] at hstore
      exact .inr ⟨c, hc, he.trans (congrArg _ hstore.symm)⟩
  · exact .inl rfl

/-- A link is there already, or it is added and copies at once what its source has
committed. -/
theorem link_cases {new : Bool} {source target : Key} {sourcePath targetPath : String}
    (he : e.link source sourcePath target targetPath = .ok (new, e')) :
    ∃ l, Link.parse source sourcePath target targetPath = .ok l ∧ e.store.contains l.source = true ∧
      e.store.contains l.target = true ∧
      (new = false ∧ e' = e ∧ l ∈ e.links ∨ new = true ∧ l ∉ e.links ∧ e'.links = e.links ++ [l] ∧
        (e.store.outgoing l = none ∧ e'.store = e.store ∨
          ∃ v, e.store.outgoing l = some v ∧ e'.store = copy .normal e.store l v)) := by
  obtain ⟨l, hl, he⟩ := Except.bind_eq_ok.1 he
  obtain ⟨i, hi, he⟩ := Except.bind_eq_ok.1 he
  obtain ⟨j, hj, he⟩ := Except.bind_eq_ok.1 he
  obtain ⟨hsource, htarget, -⟩ := Link.parse_eq_ok hl
  have hi : e.store.find? l.source = some i := hsource ▸ get_eq_ok hi
  have hj : e.store.find? l.target = some j := htarget ▸ get_eq_ok hj
  refine ⟨l, hl, Store.contains_of_find? hi, Store.contains_of_find? hj, ?_⟩
  rw [Store.outgoing_of_find? hi]
  split at he
  · rename_i hc
    cases he
    exact .inl ⟨rfl, rfl, List.contains_iff_mem.1 hc⟩
  · rename_i hc
    have hnew : l ∉ e.links := fun h => hc (List.contains_iff_mem.2 h)
    split at he
    · rename_i hv
      cases he
      exact .inr ⟨rfl, hnew, rfl, .inl ⟨hv, rfl⟩⟩
    · rename_i v hv
      cases he
      have hprev : State.read j.pending l.targetPath = e.store.landed l := (Store.landed_of_find? hj).symm
      rw [hprev, ← htarget]
      refine .inr ⟨rfl, hnew, ?_, .inr ⟨v, hv, ?_⟩⟩
      · split
        · rfl
        · exact enqueue_links _ _ _
      · unfold copy
        change _ = if (e.store.landed l).any (·.same v) then e.store else _
        split
        · rfl
        · exact enqueue_store { e with links := e.links ++ [l] } l.target _

theorem commitTxn_keys (e : Engine) (t : Transaction) (priority : Priority) :
    (e.commitTxn t priority).store.instances.map (·.key) = e.store.instances.map (·.key) := by
  rcases commitTxn_store e t priority with he | ⟨c, -, he⟩
  · rw [he]
  · exact Store.enqueue_keys he

theorem link_keys {new : Bool} {source target : Key} {sourcePath targetPath : String}
    (he : e.link source sourcePath target targetPath = .ok (new, e')) :
    e'.store.instances.map (·.key) = e.store.instances.map (·.key) := by
  obtain ⟨l, -, -, -, ⟨-, rfl, -⟩ | ⟨-, -, -, ⟨-, hstore⟩ | ⟨v, -, hstore⟩⟩⟩ := link_cases he
  · rfl
  · rw [hstore]
  · rw [hstore, Tick.Running.copy_keys]

theorem tick_keys (e : Engine) : e.tick.2.2.store.instances.map (·.key) = e.store.instances.map (·.key) :=
  Tick.run_preserves (P := fun s => s.instances.map (·.key) = e.store.instances.map (·.key)) _
    (fun ho hs => ho.keys.trans hs) _ _ rfl

/-- No two instances of an engine have the same key. -/
theorem Reached.keyed (h : Reached config e) : e.store.Keyed := by
  induction h with
  | start keeps clocked => exact List.nodup_nil
  | register d id v _ he ih => exact (register_stays he).2.1 ih
  | override k provider _ he ih => exact ih.of_keys (override_idle he).keys
  | link source target sourcePath targetPath _ he ih => exact ih.of_keys (link_keys he)
  | commit t priority _ ih => exact ih.of_keys (commitTxn_keys _ t priority)
  | lane l _ hi ih => exact ih.of_keys (Store.keys_put _ _)
  | flushed k f _ ih => exact ih.of_keys (acceptDeferred_idle _ k f).keys
  | tick _ ih => exact ih.of_keys (tick_keys _)
  | aside _ hstore ih => exact hstore ▸ ih

/-! ## Runs -/

/-- What may happen to an engine while nothing else writes where the link does: no instance
of the target's module comes with steps that write there, no other link is added that does,
and a transaction on the target changes nothing there of what is pending when it closes. -/
inductive Spared (l : Link) : Engine → Engine → Prop
  | register {e e' : Engine} {k : Key} (d : Declaration) (id : String) (v : Value) :
      e.register d id v = .ok (k, e') →
      (d.moduleId = l.target.moduleId → ∀ g, Graph.compile d 1 = .ok g → ∀ o ∈ g.outs, ¬ l.targetPath.overlaps o) →
      Spared l e e'
  | override {e e' : Engine} (k : Key) (provider : Option Policy.Overrides) : e.override k provider = .ok e' →
      Spared l e e'
  | link {e e' : Engine} {new : Bool} (source target : Key) (sourcePath targetPath : String) :
      e.link source sourcePath target targetPath = .ok (new, e') →
      (∀ l', Link.parse source sourcePath target targetPath = .ok l' → l'.target = l.target →
        l' = l ∨ ¬ l.targetPath.overlaps l'.targetPath) → Spared l e e'
  | commit {e : Engine} (t : Transaction) (priority : Priority) :
      (t.key = l.target → ∀ i, e.store.find? t.key = some i → t.Spares i.pending l.targetPath) →
      Spared l e (e.commitTxn t priority)
  | lane {e : Engine} {k : Key} {i : Instance} (lane : Lane) : e.store.find? k = some i →
      Spared l e { e with store := e.store.put { i with lane := some lane } }
  | flushed {e : Engine} (k : Key) (f : Lane.Flush) : Spared l e (e.acceptDeferred k f)
  | tick {e : Engine} : Spared l e e.tick.2.2
  /-- Something that is about neither the instances nor the links. -/
  | aside {e e' : Engine} : e'.store = e.store → e'.links = e.links → Spared l e e'

theorem Spared.reached (h : Spared l e e') (he : Reached config e) : Reached config e' := by
  cases h with
  | register d id v h _ => exact he.register d id v h
  | override k provider h => exact he.override k provider h
  | link source target sourcePath targetPath h _ => exact he.link source target sourcePath targetPath h
  | commit t priority _ => exact he.commit t priority
  | lane lane hi => exact he.lane lane hi
  | flushed k f => exact he.flushed k f
  | tick => exact he.tick
  | aside hstore _ => exact he.aside hstore

/-- No step of the target comes to write where the link does. -/
theorem Spared.spares (h : Spared l e e') (hs : e.store.All (Instance.SparesLink l)) :
    e'.store.All (Instance.SparesLink l) := by
  have hP := Instance.steady_sparesLink l
  cases h with
  | register d id v h hd => exact register_all hP hs (fun g n id hg hk => hd (congrArg Key.moduleId hk) g hg) h
  | override k provider h => exact override_all hP hs h
  | link source target sourcePath targetPath h _ => exact link_all hP hs h
  | commit t priority _ => exact commitTxn_all hP hs t priority
  | @lane _ i lane hi => exact hs.put (hP.adjust i.policies _ (hs.find? hi))
  | flushed k f => exact acceptDeferred_all hP hs k f
  | tick => exact hs.tick hP _ _ _
  | aside hstore _ => exact hstore ▸ hs

/-- No other link comes to write there. -/
theorem Spared.links (h : Spared l e e') (hmem : l ∈ e.links) (ha : l.Alone e.links) :
    l ∈ e'.links ∧ l.Alone e'.links := by
  have hsame : ∀ {links : List Link}, links = e.links → l ∈ links ∧ l.Alone links := by
    rintro _ rfl
    exact ⟨hmem, ha⟩
  cases h with
  | register d id v h _ => exact hsame (register_stays h).1
  | override k provider h => exact hsame (override_idle h).links
  | link source target sourcePath targetPath h hl =>
    obtain ⟨l', hparse, -, -, ⟨-, rfl, -⟩ | ⟨-, -, hlinks, -⟩⟩ := link_cases h
    · exact ⟨hmem, ha⟩
    · rw [hlinks]
      refine ⟨List.mem_append_left _ hmem, fun l₁ hl₁ => ?_⟩
      rcases List.mem_append.1 hl₁ with hl₁ | hl₁
      · exact ha l₁ hl₁
      · exact List.mem_singleton.1 hl₁ ▸ hl l' hparse
  | commit t priority _ => exact hsame (commitTxn_links e t priority)
  | lane lane hi => exact ⟨hmem, ha⟩
  | flushed k f => exact hsame (acceptDeferred_idle e k f).links
  | tick => exact ⟨hmem, ha⟩
  | aside _ hlinks => exact hsame hlinks

/-- No instance goes away. -/
theorem Spared.contains (h : Spared l e e') (hc : e.store.contains k = true) : e'.store.contains k = true := by
  have hsame : ∀ {s : Store}, s.instances.map (·.key) = e.store.instances.map (·.key) → s.contains k = true :=
    fun hkeys => (Store.contains_of_keys hkeys k).trans hc
  cases h with
  | register d id v h _ => exact (register_stays h).2.2.contains hc
  | override k provider h => exact hsame (override_idle h).keys
  | link source target sourcePath targetPath h _ => exact hsame (link_keys h)
  | commit t priority _ => exact hsame (commitTxn_keys e t priority)
  | lane lane hi => exact hsame (Store.keys_put _ _)
  | flushed k f => exact hsame (acceptDeferred_idle e k f).keys
  | tick => exact hsame (tick_keys e)
  | aside hstore _ => exact hstore ▸ hc

/-- An engine with a link, and nothing else that writes where the link does. -/
structure Holds (config : Policy.Config) (l : Link) (e : Engine) : Prop where
  reached : Reached config e
  mem : l ∈ e.links
  alone : l.Alone e.links
  spares : e.store.All (Instance.SparesLink l)
  source : e.store.contains l.source = true
  target : e.store.contains l.target = true

theorem Holds.joined (h : Holds config l e) : e.store.Joined l :=
  ⟨h.reached.upToDate, h.reached.wellFormed, h.spares, h.source, h.target⟩

theorem Holds.spared (h : Holds config l e) (hs : Spared l e e') : Holds config l e' := by
  obtain ⟨hmem, ha⟩ := hs.links h.mem h.alone
  exact ⟨hs.reached h.reached, hmem, ha, hs.spares h.spares, hs.contains h.source, hs.contains h.target⟩

/-- Whatever happens, the link stays in step. -/
theorem Holds.follows (he : Holds config l e) (hl : l.targetPath.hasWildcard = false) (h : Spared l e e') :
    Follows l e.store e'.store := by
  have hstays : ∀ {s : Store}, e.store.Stays s → Follows l e.store s := fun h => h.follows he.source he.target
  cases h with
  | register d id v h _ => exact hstays (register_stays h).2.2
  | override k provider h => exact hstays (override_idle h).stays
  | link source target sourcePath targetPath h ho =>
    obtain ⟨l', hparse, -, -, ⟨-, rfl, -⟩ | ⟨-, hnew, -, ⟨-, hstore⟩ | ⟨v, -, hstore⟩⟩⟩ := link_cases h
    · exact .of_eq rfl rfl
    · exact .of_eq (by rw [hstore]) (by rw [hstore])
    · -- the new link is another one, and copies elsewhere
      have hne : l' ≠ l := fun he' => hnew (he' ▸ he.mem)
      rw [hstore]
      exact .of_eq (Tick.Running.copy_outgoing _ _ _ _ l)
        (Tick.Running.copy_apart hl (fun ht => (ho l' hparse ht).resolve_left hne) _ _ v)
  | commit t priority ht =>
    rcases commitTxn_store e t priority with hstore | ⟨c, hc, hq⟩
    · exact .of_eq (by rw [hstore]) (by rw [hstore])
    · exact .of_eq (Store.enqueue_outgoing hq l) (Store.enqueue_spares hq fun hk i hi => (ht hk i hi).read hl hc)
  | @lane _ i lane hi => exact hstays (put_idle (j := { i with lane := some lane }) hi rfl rfl rfl).stays
  | flushed k f => exact hstays (acceptDeferred_idle e k f).stays
  | tick => exact Store.run_follows hl he.mem he.alone he.joined he.reached.keyed _ _
  | aside hstore _ => exact .of_eq (by rw [hstore]) (by rw [hstore])

/-- A link that is added is in step at once. -/
theorem link_holds (h : Reached config e) {source target : Key} {sourcePath targetPath : String}
    (hparse : Link.parse source sourcePath target targetPath = .ok l) (ha : l.Alone e.links)
    (hs : e.store.All (Instance.SparesLink l)) (hlink : e.link source sourcePath target targetPath = .ok (true, e')) :
    Holds config l e' ∧ e'.store.InStep l := by
  have hkeys := link_keys hlink
  obtain ⟨l', hparse', hsource, htarget, ⟨hnew, -⟩ | ⟨-, -, hlinks, hstore⟩⟩ := link_cases hlink
  · cases hnew
  · obtain rfl : l' = l := Except.ok.inj (hparse'.symm.trans hparse)
    obtain ⟨-, -, hl⟩ := Link.parse_eq_ok hparse
    refine ⟨⟨h.link source target sourcePath targetPath hlink, ?_, fun l₁ hl₁ => ?_,
      link_all (Instance.steady_sparesLink l') hs hlink, (Store.contains_of_keys hkeys _).trans hsource,
      (Store.contains_of_keys hkeys _).trans htarget⟩, fun v hv => ?_⟩
    · rw [hlinks]
      exact List.mem_append_right _ (List.mem_singleton_self l')
    · rw [hlinks] at hl₁
      rcases List.mem_append.1 hl₁ with hl₁ | hl₁
      · exact ha l₁ hl₁
      · exact fun _ => .inl (List.mem_singleton.1 hl₁)
    · rcases hstore with ⟨hnone, hstore⟩ | ⟨v', hv', hstore⟩
      · rw [hstore, hnone] at hv
        cases hv
      · rw [hstore, Tick.Running.copy_outgoing, hv'] at hv
        obtain rfl := Option.some.inj hv
        rw [hstore]
        exact Tick.Running.copy_lands hl htarget .normal v'

/-- Links keep their targets in step. From when a link is added, and whatever happens while
nothing else writes where it does, the target has pending what the source has committed, if
that has a value at the source path; where the source becomes absent the target keeps what
it had. The source path may have wildcards, the source may be the target itself, and either
may be an end of other links, so these may form chains and cycles. -/
theorem link_in_step {e₀ e₁ : Engine} {source target : Key} {sourcePath targetPath : String} (h₀ : Reached config e₀)
    (hparse : Link.parse source sourcePath target targetPath = .ok l) (halone : l.Alone e₀.links)
    (hsteps : ∀ i, e₀.store.find? l.target = some i → ∀ o ∈ i.executor.graph.outs, ¬ l.targetPath.overlaps o)
    (hlink : e₀.link source sourcePath target targetPath = .ok (true, e₁))
    (hrun : Relation.ReflTransGen (Spared l) e₁ e) :
    (∀ v, e.store.outgoing l = some v → ∃ w, e.store.landed l = some w ∧ v.same w = true) ∧
      ∀ e', Spared l e e' → e'.store.outgoing l = none → e'.store.landed l = e.store.landed l := by
  obtain ⟨-, -, hl⟩ := Link.parse_eq_ok hparse
  have hspares : e₀.store.All (Instance.SparesLink l) := fun i hi hk => hsteps i (hk ▸ h₀.keyed.find?_eq hi)
  have hheld : Holds config l e ∧ e.store.InStep l := by
    induction hrun with
    | refl => exact link_holds h₀ hparse halone hspares hlink
    | tail _ hstep ih =>
      obtain ⟨hheld, hin⟩ := ih
      exact ⟨hheld.spared hstep, (hheld.follows hl hstep).inStep hin⟩
  exact ⟨hheld.2, fun e' hstep => (hheld.1.follows hl hstep).absent⟩

end Engine

namespace Relay

def two : Key := ⟨"relay", "2"⟩

/-- The second relay copies to its `x` what the first one derives as `a`. -/
def wire : Link := ⟨one, a, two, x⟩

/-- Two relays; the `x` of the first one was set, and no tick has run. -/
def coupled : Engine :=
  match unticked.register declaration "2" (state 1 1 1) with
  | .error _ => unticked
  | .ok (_, e) => e

theorem coupled_reached : Engine.Reached .builtin coupled := by
  unfold coupled
  split
  · exact unticked_reached
  · rename_i he
    exact unticked_reached.register _ _ _ he

/-- The two relays with the link. -/
def wired : Engine :=
  match coupled.link one "a" two "x" with
  | .error _ => coupled
  | .ok (_, e) => e

/-- A transaction on the second relay that writes its memo. -/
def jotted : Transaction :=
  match (Transaction.start two (state 1 1 1)).set "memo" (.int 1) with
  | .error _ => .start two .null
  | .ok t => t

theorem wired_linked : coupled.link one "a" two "x" = .ok (true, wired) := by
  have hadded : (coupled.link one "a" two "x").toOption.map (·.1) = some true := by cbv
  unfold wired
  cases he : coupled.link one "a" two "x" with
  | error err =>
    rw [he] at hadded
    cases hadded
  | ok p =>
    obtain ⟨new, e⟩ := p
    rw [he] at hadded
    obtain rfl : new = true := Option.some.inj hadded
    rfl

/-- The transaction closes, and the tick after it copies: the link is in step. -/
theorem a_write_leaves_the_copy :
    (wired.commitTxn jotted .normal).tick.2.2.store.outgoing wire = some (.int 5) ∧
      ∃ w, (wired.commitTxn jotted .normal).tick.2.2.store.landed wire = some w ∧ Value.same (.int 5) w = true := by
  have hparse : Link.parse one "a" two "x" = .ok wire := by cbv
  have hcoupled : coupled.links = [] ∧
      (coupled.store.find? two).map (fun i => i.executor.graph.outs.all fun o => !x.overlaps o) = some true := by cbv
  have hjotted : (wired.store.find? jotted.key).map (·.pending) = some (state 1 1 1) ∧ jotted.replaced = false ∧
      State.sparesAll x (state 1 1 1) jotted.writes = true := by cbv
  obtain ⟨hnone, hsteps⟩ := hcoupled
  obtain ⟨hpending, hwrites, hspared⟩ := hjotted
  have hclosed : Engine.Spared wire wired (wired.commitTxn jotted .normal) := by
    refine .commit jotted .normal fun _ i hi => ?_
    rw [hi] at hpending
    have hstate : i.pending = state 1 1 1 := Option.some.inj hpending
    unfold Transaction.Spares
    rw [hwrites, hstate]
    exact hspared
  have hspares : ∀ i, coupled.store.find? two = some i → ∀ o ∈ i.executor.graph.outs, ¬ x.overlaps o := by
    intro i hi o ho
    rw [hi] at hsteps
    simpa using List.all_eq_true.1 (Option.some.inj hsteps) o ho
  obtain ⟨hin, -⟩ := Engine.link_in_step coupled_reached hparse (fun _ hl => absurd (hnone ▸ hl) List.not_mem_nil) hspares wired_linked
    (.tail (.single hclosed) .tick)
  have hout : (wired.commitTxn jotted .normal).tick.2.2.store.outgoing wire = some (.int 5) := by cbv
  exact ⟨hout, hin _ hout⟩

/-- A transaction on the second relay, after a body that runs a tick and replaces its draft
by one with a memo in it. -/
def noted : Transaction.Running :=
  match wired.openTxn two with
  | .error _ => ⟨wired, .start two .null, [], .done⟩
  | .ok (t, opened) => .edits Engine.flush ⟨opened, t, [], .done⟩ noting

/-- The tick that the body runs copies, and the body leaves `x` alone; it closes, and the copy
is gone. Nothing is queued that would bring it back. -/
theorem a_copy_is_undone :
    noted.ending = .done ∧ State.read noted.txn.draft x = wired.store.landed wire ∧
      noted.engine.store.outgoing wire = some (.int 5) ∧ noted.engine.store.landed wire = some (.int 5) ∧
      ((noted.close .normal).flush.1.units.map fun r => r.patches.map (·.path)) = [["memo"]] ∧
      (noted.close .normal).flush.2.store.outgoing wire = some (.int 5) ∧
      (noted.close .normal).flush.2.store.landed wire = some (.int 1) ∧
      (noted.close .normal).flush.2.store.backlog = (0, 0) := by
  cbv

end Relay

end Settle
