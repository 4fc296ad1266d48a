/-
  Settle.Proofs.Copies — what a tick does to the two ends of a link (see `Settle.Tick`).

  A link copies when a unit changed what its source has committed, and only then. A copy
  is left out when the target has that value pending already. So the target has pending
  what the source has committed (`Store.InStep`) as long as nothing else writes there:
  - a unit of the target leaves it, since it commits what was pending and no step writes
    there (`Instance.UpToDate.unit_spares`);
  - a unit of the source that changes it is followed by a copy, which lands
    (`Running.copies_land`); one that does not, by none;
  - the copies of other links go elsewhere (`Running.copy_apart`).

  An instance has one turn in a tick, so what a tick leaves of a source that is absent is
  what had landed before it (`Store.run_follows`).
-/

import Settle.Proofs.Drafts
import Settle.Proofs.History
import Settle.Proofs.Unsigned

namespace Settle

namespace Value

theorem same_comm {a b : Value} : a.same b = true ↔ b.same a = true := by rw [same_iff, same_iff, eq_comm]

theorem same_trans {a b c : Value} (hab : a.same b = true) (hbc : b.same c = true) : a.same c = true :=
  same_iff.2 ((same_iff.1 hab).trans (same_iff.1 hbc))

end Value

namespace State

/-- States that count as the same read the same. -/
theorem read_same {a b v : Value} {p : Path} (h : a.same b = true) (hv : read a p = some v) :
    ∃ w, read b p = some w ∧ v.same w = true := by
  have hread := read_unsigned b p
  rw [← Value.same_iff.1 h, read_unsigned, hv] at hread
  obtain ⟨w, hw, heq⟩ := Option.map_eq_some_iff.1 hread.symm
  exact ⟨w, hw, Value.same_iff.2 heq.symm⟩

/-- A write leaves what stands at keys that its path does not overlap. -/
theorem read_write_apart {p q : Path} (hq : q.hasWildcard = false) (ho : ¬ q.overlaps p) (root v : Value) :
    read (write root p v).state q = read root q := by
  cases hp : p.hasWildcard with
  | false => exact read_write_plain hp hq ho root v
  | true =>
    have hnone : Location.ofPath? p = none := by simp [Location.ofPath?, hp]
    simp [write, hnone]

end State

namespace Link

variable {l : Link} {before after v : Value}

/-- What a link queues is one write. -/
theorem applyTo_commit (l : Link) (v : Value) (prev : Option Value) (priority : Priority) (root : Value) :
    (l.commit v prev priority).change.applyTo root = (State.write root l.targetPath v).state := by
  unfold commit Change.applyTo State.write
  cases Location.ofPath? l.targetPath <;> rfl

theorem parse_eq_ok {source target : Key} {sourcePath targetPath : String}
    (h : parse source sourcePath target targetPath = .ok l) :
    l.source = source ∧ l.target = target ∧ l.targetPath.hasWildcard = false := by
  obtain ⟨p, -, h⟩ := Except.bind_eq_ok.1 h
  obtain ⟨q, -, h⟩ := Except.bind_eq_ok.1 h
  cases hq : q.hasWildcard with
  | true =>
    simp only [hq, if_true] at h
    cases h
  | false =>
    simp only [hq, Bool.false_eq_true, if_false] at h
    split at h
    · cases h
    · cases h
      exact ⟨rfl, rfl, hq⟩

/-- A value that the source went on to is copied, or one that counts as the same was there
before. -/
theorem read_of_not_copied (h : l.copied? before after = none) (hv : State.read after l.sourcePath = some v) :
    ∃ w, State.read before l.sourcePath = some w ∧ v.same w = true := by
  unfold copied? at h
  rw [hv] at h
  have hany : (State.read before l.sourcePath).any (·.same v) = true := by simpa using h
  obtain ⟨w, hw, hsame⟩ := (Option.any_eq_true _ _).1 hany
  exact ⟨w, hw, Value.same_comm.1 hsame⟩

theorem mem_propagate {links : List Link} {key : Key} :
    (l, v) ∈ propagate links key before after ↔ l ∈ links ∧ l.source = key ∧ l.copied? before after = some v := by
  unfold propagate
  simp only [List.mem_filterMap, List.mem_filter, decide_eq_true_eq, Option.map_eq_some_iff, Prod.mk.injEq]
  constructor
  · rintro ⟨l', ⟨hl, hsource⟩, v', hv, rfl, rfl⟩
    exact ⟨hl, hsource, hv⟩
  · rintro ⟨hl, hsource, hv⟩
    exact ⟨l, ⟨hl, hsource⟩, v, hv, rfl, rfl⟩

/-- No other of the links writes at the target path, above it or below it. -/
def Alone (l : Link) (links : List Link) : Prop :=
  ∀ l' ∈ links, l'.target = l.target → l' = l ∨ ¬ l.targetPath.overlaps l'.targetPath

/-- The value that the link copies after a unit, if any. -/
def sent? (l : Link) (a : Instance.Applied) : Option Value :=
  if a.report.changed then l.copied? a.previous a.inst.state else none

theorem read_of_sent {a : Instance.Applied} (h : l.sent? a = some v) :
    State.read a.inst.state l.sourcePath = some v := by
  unfold sent? at h
  split at h
  · exact (Option.filter_eq_some_iff.1 h).1
  · cases h

/-- What a unit left alone, or changed by signs of zeros at most, is not copied. -/
theorem read_of_not_sent {i : Instance} {u : WorkUnit} {now : Time} {d : Diagnostics} {budget : Option Nat}
    (h : l.sent? (i.apply u now d budget) = none)
    (hv : State.read (i.apply u now d budget).inst.state l.sourcePath = some v) :
    ∃ w, State.read i.state l.sourcePath = some w ∧ v.same w = true := by
  have hchanged : (i.apply u now d budget).report.changed = !(i.apply u now d budget).inst.state.same i.state := rfl
  unfold sent? at h
  rw [hchanged] at h
  cases hsame : (i.apply u now d budget).inst.state.same i.state with
  | true => exact State.read_same hsame hv
  | false =>
    rw [hsame] at h
    exact read_of_not_copied h hv

end Link

namespace Instance

variable {j : Instance} {u : WorkUnit} {p : Path}

/-- What a unit commits is pending after it. -/
theorem unit_pending (clock : Nat → Nat → Bool) (j : Instance) (u : WorkUnit) (now : Time) (d : Diagnostics)
    (budget : Option Nat) : (j.takeUnit.2.applyUnder clock u now d budget).inst.pending =
      (j.takeUnit.2.applyUnder clock u now d budget).inst.state := by
  have hspends := converge_spends j.takeUnit.2 u now (j.takeUnit.2.begin clock u d budget)
  have hleaves := applyUnder_leaves clock j.takeUnit.2 u now d budget
  rw [hleaves.state]
  refine hleaves.pending (hspends.queue.trans ?_)
  rw [begin_inst]
  rfl

/-- A unit leaves what is pending at keys that no step writes. -/
theorem UpToDate.unit_spares (h : j.UpToDate none) (hg : j.executor.graph.WellFormed) (hu : j.takeUnit.1 = some u)
    (hp : p.hasWildcard = false) (ho : ∀ o ∈ j.executor.graph.outs, ¬ p.overlaps o) (clock : Nat → Nat → Bool)
    (now : Time) (d : Diagnostics) (budget : Option Nat) :
    State.read (j.takeUnit.2.applyUnder clock u now d budget).inst.pending p = State.read j.pending p := by
  obtain ⟨ps, -, hstate⟩ := h.unit_state hg hu clock now d budget
  rw [unit_pending, hstate]
  exact read_unit hg (fun w hw => ho w.1 (Graph.mem_outs_of_writesOf hg hw)) (by rw [hp]; nofun)

/-- No step of the target writes where the link does. -/
def SparesLink (l : Link) (i : Instance) : Prop :=
  i.key = l.target → ∀ o ∈ i.executor.graph.outs, ¬ l.targetPath.overlaps o

theorem steady_sparesLink (l : Link) :
    Steady (fun k g => k = l.target → ∀ o ∈ g.outs, ¬ l.targetPath.overlaps o) (SparesLink l) where
  made := fun _ _ _ _ _ hc => hc
  rebind := fun _ hc _ => hc
  adjust := fun _ _ h => h
  enqueue := fun _ h => h
  unit := fun {i u} now d budget h _ => by
    have hans := apply_answers i.takeUnit.2 u now d budget
    unfold SparesLink
    rw [hans.key, hans.graph]
    exact h

end Instance

/-! ## The ends of a link -/

namespace Store

variable {l : Link} {s s' : Store} {i j : Instance} {k : Key} {c : Commit} {v : Value}

/-- What the source of the link has committed. -/
def outgoing (s : Store) (l : Link) : Option Value := (s.find? l.source).bind fun i => State.read i.state l.sourcePath

/-- What its target has pending. -/
def landed (s : Store) (l : Link) : Option Value := (s.find? l.target).bind fun i => State.read i.pending l.targetPath

/-- The value, or one that counts as the same, has landed. -/
def Lands (l : Link) (v : Value) (s : Store) : Prop := ∃ w, s.landed l = some w ∧ v.same w = true

/-- Whatever the source has committed has landed. -/
def InStep (l : Link) (s : Store) : Prop := ∀ v, s.outgoing l = some v → s.Lands l v

theorem exists_find? (h : s.contains k = true) : ∃ i, s.find? k = some i := Option.isSome_iff_exists.1 h

theorem contains_of_find? (h : s.find? k = some i) : s.contains k = true := Option.isSome_iff_exists.2 ⟨i, h⟩

theorem contains_of_keys (h : s'.instances.map (·.key) = s.instances.map (·.key)) (k : Key) :
    s'.contains k = s.contains k := by
  have hany : ∀ s : Store, s.contains k = (s.instances.map (·.key)).any (· = k) := fun s => by
    unfold contains find?
    induction s.instances with
    | nil => rfl
    | cons j l ih => by_cases hj : j.key = k <;> simp_all
  rw [hany, hany, h]

theorem outgoing_of_find? (hi : s.find? l.source = some i) : s.outgoing l = State.read i.state l.sourcePath := by
  unfold outgoing
  rw [hi]
  rfl

theorem landed_of_find? (hi : s.find? l.target = some i) : s.landed l = State.read i.pending l.targetPath := by
  unfold landed
  rw [hi]
  rfl

theorem outgoing_replace (hi : s.find? k = some i) (hj : j.key = k) (n : Nat) (l : Link) :
    ({ s.put j with seq := n } : Store).outgoing l =
      if k = l.source then State.read j.state l.sourcePath else s.outgoing l := by
  unfold outgoing
  rw [find?_replace (hj ▸ hi), hj]
  split <;> rfl

theorem landed_replace (hi : s.find? k = some i) (hj : j.key = k) (n : Nat) (l : Link) :
    ({ s.put j with seq := n } : Store).landed l =
      if k = l.target then State.read j.pending l.targetPath else s.landed l := by
  unfold landed
  rw [find?_replace (hj ▸ hi), hj]
  split <;> rfl

theorem enqueue_keys (he : s.enqueue k c = .ok s') : s'.instances.map (·.key) = s.instances.map (·.key) := by
  obtain ⟨i, -, rfl⟩ := enqueue_eq_ok he
  exact keys_put s _

/-- Nothing is committed when a commit is queued. -/
theorem enqueue_outgoing (he : s.enqueue k c = .ok s') (l : Link) : s'.outgoing l = s.outgoing l := by
  obtain ⟨i, hi, rfl⟩ := enqueue_eq_ok he
  have hkey : (i.enqueue { c with seq := s.seq + 1 }).key = k := (key_of_find? hi : i.key = k)
  refine (outgoing_replace hi hkey (s.seq + 1) l).trans ?_
  split
  · rename_i hk
    rw [outgoing_of_find? (hk ▸ hi)]
    rfl
  · rfl

theorem enqueue_landed (he : s.enqueue k c = .ok s') (hi : s.find? k = some i) (l : Link) :
    s'.landed l = if k = l.target then State.read (c.change.applyTo i.pending) l.targetPath else s.landed l := by
  obtain ⟨i', hi', rfl⟩ := enqueue_eq_ok he
  obtain rfl := Option.some.inj (hi.symm.trans hi')
  have hkey : (i.enqueue { c with seq := s.seq + 1 }).key = k := (key_of_find? hi : i.key = k)
  exact landed_replace hi hkey (s.seq + 1) l

/-- A commit that changes nothing where the link writes leaves what has landed. -/
theorem enqueue_spares (he : s.enqueue k c = .ok s') (hc : k = l.target → ∀ i, s.find? k = some i →
    State.read (c.change.applyTo i.pending) l.targetPath = State.read i.pending l.targetPath) :
    s'.landed l = s.landed l := by
  obtain ⟨i, hi, -⟩ := enqueue_eq_ok he
  rw [enqueue_landed he hi]
  split
  · rename_i hk
    rw [hc hk i hi, landed_of_find? (hk ▸ hi)]
  · rfl

/-- A link stays in step from one store to another, and an absent source leaves what had
landed. -/
structure Follows (l : Link) (s s' : Store) : Prop where
  inStep : s.InStep l → s'.InStep l
  absent : s'.outgoing l = none → s'.landed l = s.landed l

theorem Follows.of_eq (hout : s'.outgoing l = s.outgoing l) (hland : s'.landed l = s.landed l) : Follows l s s' := by
  refine ⟨fun h v hv => ?_, fun _ => hland⟩
  unfold Lands
  rw [hland]
  exact h v (hout ▸ hv)

/-- A store with both ends of a link in it, and no step of the target that writes where it
does. -/
structure Joined (l : Link) (s : Store) : Prop where
  upToDate : s.All (Instance.UpToDate none)
  wellFormed : s.All fun i => i.executor.graph.WellFormed
  spares : s.All (Instance.SparesLink l)
  source : s.contains l.source = true
  target : s.contains l.target = true

/-- A unit by itself leaves what has landed: it commits what was pending, and writes elsewhere. -/
theorem Joined.unit_landed (hs : s.Joined l) (hl : l.targetPath.hasWildcard = false) (hi : s.find? k = some i)
    {u : WorkUnit} (hu : WorkUnit.merge? i.queue = some u) (now : Time) (d : Diagnostics) (budget : Option Nat) :
    (s.put (({ i with queue := [] } : Instance).apply u now d budget).inst).landed l = s.landed l := by
  refine (landed_replace hi (key_of_apply hi u now d budget) s.seq l).trans ?_
  split
  · rename_i hk
    rw [landed_of_find? (hk ▸ hi)]
    exact (hs.upToDate.find? hi).unit_spares (hs.wellFormed.find? hi) hu hl
      (hs.spares.find? hi ((key_of_find? hi).trans hk)) _ now d budget
  · rfl

end Store

/-! ## Copies -/

namespace Tick

namespace Running

open Store

variable {f : Frame} {t t' : Running} {turn : Key × Priority} {ms : List Move} {l l' : Link} {s : Store} {v : Value}
  {priority : Priority}

/-- A copy is queued, unless what it copies has landed already. -/
theorem copy_cases (priority : Priority) (s : Store) (l : Link) (v : Value) :
    copy priority s l v = s ∧ (s.contains l.target = true → s.Lands l v) ∨
      s.enqueue l.target (l.commit v (s.landed l) priority) = .ok (copy priority s l v) := by
  unfold copy
  dsimp only
  split
  · rename_i hany
    obtain ⟨w, hw, hsame⟩ := (Option.any_eq_true _ _).1 hany
    exact .inl ⟨rfl, fun _ => ⟨w, hw, Value.same_comm.1 hsame⟩⟩
  · split
    · rename_i next he
      exact .inr he
    · rename_i err he
      refine .inl ⟨rfl, fun hc => ?_⟩
      obtain ⟨i, hi⟩ := exists_find? hc
      unfold Store.enqueue Store.get at he
      rw [hi] at he
      cases he

theorem copy_keys (priority : Priority) (s : Store) (l : Link) (v : Value) :
    (copy priority s l v).instances.map (·.key) = s.instances.map (·.key) := by
  rcases copy_cases priority s l v with ⟨he, -⟩ | he
  · rw [he]
  · exact enqueue_keys he

theorem copy_outgoing (priority : Priority) (s : Store) (l' : Link) (v : Value) (l : Link) :
    (copy priority s l' v).outgoing l = s.outgoing l := by
  rcases copy_cases priority s l' v with ⟨he, -⟩ | he
  · rw [he]
  · exact enqueue_outgoing he l

/-- A copy to elsewhere leaves what has landed. -/
theorem copy_apart (hl : l.targetPath.hasWildcard = false)
    (ho : l'.target = l.target → ¬ l.targetPath.overlaps l'.targetPath) (priority : Priority) (s : Store) (v : Value) :
    (copy priority s l' v).landed l = s.landed l := by
  rcases copy_cases priority s l' v with ⟨he, -⟩ | he
  · rw [he]
  · refine enqueue_spares he fun ht i _ => ?_
    rw [Link.applyTo_commit]
    exact State.read_write_apart hl (ho ht) _ _

/-- A copy lands. -/
theorem copy_lands (hl : l.targetPath.hasWildcard = false) (ht : s.contains l.target = true) (priority : Priority)
    (v : Value) : (copy priority s l v).Lands l v := by
  rcases copy_cases priority s l v with ⟨he, hlands⟩ | he
  · rw [he]
    exact hlands ht
  · obtain ⟨i, hi⟩ := exists_find? ht
    refine ⟨v, ?_, Value.same_refl v⟩
    rw [enqueue_landed he hi, if_pos rfl, Link.applyTo_commit, State.read_eq_lookup hl, State.lookup_write hl]

theorem copies_outgoing (priority : Priority) (cs : List (Link × Value)) (s : Store) (l : Link) :
    (cs.foldl (fun s c => copy priority s c.1 c.2) s).outgoing l = s.outgoing l := by
  induction cs generalizing s with
  | nil => rfl
  | cons c cs ih => exact (ih _).trans (copy_outgoing priority s c.1 c.2 l)

/-- Copies of other links leave what has landed. -/
theorem copies_apart (hl : l.targetPath.hasWildcard = false) {cs : List (Link × Value)}
    (ha : l.Alone (cs.map (·.1))) (hne : ∀ c ∈ cs, c.1 ≠ l) (priority : Priority) (s : Store) :
    (cs.foldl (fun s c => copy priority s c.1 c.2) s).landed l = s.landed l := by
  induction cs generalizing s with
  | nil => rfl
  | cons c cs ih =>
    obtain ⟨hc, hcs⟩ := List.forall_mem_cons.1 hne
    refine (ih (fun l' hl' => ha l' (List.mem_cons_of_mem _ hl')) hcs _).trans ?_
    exact copy_apart hl (fun ht => (ha c.1 List.mem_cons_self ht).resolve_left hc) priority s c.2

/-- Copies of a value that has landed leave it there. -/
theorem copies_keep (hl : l.targetPath.hasWildcard = false) {cs : List (Link × Value)}
    (ha : l.Alone (cs.map (·.1))) (hv : ∀ c ∈ cs, c.1 = l → c.2 = v) (ht : s.contains l.target = true)
    (h : s.Lands l v) (priority : Priority) : (cs.foldl (fun s c => copy priority s c.1 c.2) s).Lands l v := by
  induction cs generalizing s with
  | nil => exact h
  | cons c cs ih =>
    obtain ⟨hc, hcs⟩ := List.forall_mem_cons.1 hv
    refine ih (fun l' hl' => ha l' (List.mem_cons_of_mem _ hl')) hcs
      ((contains_of_keys (copy_keys priority s c.1 c.2) _).trans ht) ?_
    by_cases he : c.1 = l
    · dsimp only
      rw [he, hc he]
      exact copy_lands hl ht priority v
    · obtain ⟨w, hw, hsame⟩ := h
      refine ⟨w, (copy_apart hl (fun ht => ?_) priority s c.2).trans hw, hsame⟩
      exact (ha c.1 List.mem_cons_self ht).resolve_left he

/-- Of copies after one another, those of one link being of one value, each lands. -/
theorem copies_land (hl : l.targetPath.hasWildcard = false) {cs : List (Link × Value)}
    (ha : l.Alone (cs.map (·.1))) (hv : ∀ c ∈ cs, c.1 = l → c.2 = v) (ht : s.contains l.target = true)
    (hmem : (l, v) ∈ cs) (priority : Priority) : (cs.foldl (fun s c => copy priority s c.1 c.2) s).Lands l v := by
  induction cs generalizing s with
  | nil => cases hmem
  | cons c cs ih =>
    have hrest : l.Alone (cs.map (·.1)) := fun l' hl' => ha l' (List.mem_cons_of_mem _ hl')
    have hcs := (List.forall_mem_cons.1 hv).2
    have ht' := (contains_of_keys (copy_keys priority s c.1 c.2) _).trans ht
    rcases List.mem_cons.1 hmem with rfl | hmem
    · exact copies_keep hl hrest hcs ht' (copy_lands hl ht priority v) priority
    · exact ih hrest hcs ht' hmem

/-! ## Turns -/

theorem mem_copiesOf_iff {key : Key} {a : Instance.Applied} :
    (l, v) ∈ copiesOf f key a ↔ l ∈ f.links ∧ l.source = key ∧ l.sent? a = some v := by
  unfold copiesOf Link.sent?
  cases a.report.changed <;> simp [Link.mem_propagate]

theorem copiesOf_alone {key : Key} {a : Instance.Applied} (ha : l.Alone f.links) :
    l.Alone ((copiesOf f key a).map (·.1)) := by
  intro l' hl'
  obtain ⟨⟨_, v⟩, hc, rfl⟩ := List.mem_map.1 hl'
  exact ha _ (mem_copiesOf_iff.1 hc).1

/-- What a unit of its source sends over the link lands. -/
theorem copiesOf_land {a : Instance.Applied} (hl : l.targetPath.hasWildcard = false) (hmem : l ∈ f.links)
    (ha : l.Alone f.links) (ht : s.contains l.target = true) (hsent : l.sent? a = some v) (priority : Priority) :
    ((copiesOf f l.source a).foldl (fun s c => copy priority s c.1 c.2) s).Lands l v := by
  refine copies_land hl (copiesOf_alone ha) ?_ ht (mem_copiesOf_iff.2 ⟨hmem, rfl, hsent⟩) priority
  rintro ⟨_, v'⟩ hc rfl
  exact Option.some.inj ((mem_copiesOf_iff.1 hc).2.2.symm.trans hsent)

/-- A unit of another instance leaves what has landed, and so does one that sends nothing. -/
theorem copiesOf_apart {key : Key} {a : Instance.Applied} (hl : l.targetPath.hasWildcard = false)
    (ha : l.Alone f.links) (hnone : key = l.source → l.sent? a = none) (priority : Priority) (s : Store) :
    ((copiesOf f key a).foldl (fun s c => copy priority s c.1 c.2) s).landed l = s.landed l := by
  refine copies_apart hl (copiesOf_alone ha) ?_ priority s
  rintro ⟨_, v⟩ hc rfl
  obtain ⟨-, hk, hsent⟩ := mem_copiesOf_iff.1 hc
  exact absurd (hsent.symm.trans (hnone hk.symm)) nofun

/-- A link that nothing else writes to stays in step over every turn: what becomes of its
source is copied, or it had landed before. The turns of others do not move it. -/
theorem Turned.follows (h : Turned f t turn t' ms) (hl : l.targetPath.hasWildcard = false) (hmem : l ∈ f.links)
    (ha : l.Alone f.links) (hs : t.store.Joined l) : Follows l t.store t'.store ∧
      (turn.1 ≠ l.source → t'.store.outgoing l = t.store.outgoing l ∧ t'.store.landed l = t.store.landed l) := by
  have hstays : ∀ {s : Store}, s = t.store → Follows l t.store s ∧
      (turn.1 ≠ l.source → s.outgoing l = t.store.outgoing l ∧ s.landed l = t.store.landed l) := by
    rintro _ rfl
    exact ⟨.of_eq rfl rfl, fun _ => ⟨rfl, rfl⟩⟩
  cases h with
  | putOff _ _ hp => exact hstays hp.store
  | pushedBack _ _ _ hp => exact hstays hp.store
  | vacant _ he => exact hstays (he ▸ rfl)
  | @taken i u budget a _ hi hu happly hstore =>
    have hkey : a.inst.key = turn.1 := by
      rw [happly]
      exact key_of_apply hi _ _ _ _
    have hout : t'.store.outgoing l =
        if turn.1 = l.source then State.read a.inst.state l.sourcePath else t.store.outgoing l := by
      rw [hstore, copies_outgoing]
      exact outgoing_replace hi hkey t.store.seq l
    have hput : (t.store.put a.inst).landed l = t.store.landed l := by
      rw [happly]
      exact hs.unit_landed hl hi hu f.now t.diagnostics budget
    have hapart : (turn.1 = l.source → l.sent? a = none) → t'.store.landed l = t.store.landed l := fun hnone => by
      rw [hstore, copiesOf_apart hl ha hnone, hput]
    by_cases hk : turn.1 = l.source
    · rw [if_pos hk] at hout
      refine ⟨?_, fun hne => absurd hk hne⟩
      cases hsent : l.sent? a with
      | some v =>
        have hlands : t'.store.Lands l v := by
          rw [hstore, hk]
          exact copiesOf_land hl hmem ha ((contains_of_keys (keys_put t.store a.inst) _).trans hs.target) hsent turn.2
        rw [Link.read_of_sent hsent] at hout
        refine ⟨fun _ v' hv' => ?_, fun hnone => absurd (hout.symm.trans hnone) nofun⟩
        obtain rfl := Option.some.inj (hout.symm.trans hv')
        exact hlands
      | none =>
        have hland := hapart fun _ => hsent
        refine ⟨fun h v hv => ?_, fun _ => hland⟩
        -- nothing was copied, so this was there before the unit, and had landed
        rw [hout, happly] at hv
        rw [happly] at hsent
        obtain ⟨w, hw, hsame⟩ := Link.read_of_not_sent hsent hv
        have hbefore : t.store.outgoing l = some w := by
          rw [outgoing_of_find? (hk ▸ hi)]
          exact hw
        obtain ⟨w', hw', hsame'⟩ := h w hbefore
        exact ⟨w', hland.trans hw', Value.same_trans hsame hsame'⟩
    · rw [if_neg hk] at hout
      have hland := hapart fun h => absurd h hk
      exact ⟨.of_eq hout hland, fun _ => ⟨hout, hland⟩⟩

/-- A turn did nothing if its instance is not passed over after it. -/
theorem Turned.eq_of_not_skipped (h : Turned f t turn t' ms) (hout : turn.1 ∉ t'.skip) : t' = t := by
  cases h with
  | putOff _ _ hp => exact absurd (hp.skip ▸ List.mem_append_right _ (List.mem_singleton_self _)) hout
  | pushedBack _ _ _ hp => exact absurd (hp.skip ▸ List.mem_append_right _ (List.mem_singleton_self _)) hout
  | vacant _ he => exact he
  | taken _ _ _ _ _ _ _ _ hskip _ => exact absurd (hskip ▸ List.mem_append_right _ (List.mem_singleton_self _)) hout

end Running

/-! ## Ticks -/

open Store Running

/-- What every turn of an instance that is not passed over keeps of the store and of those
that are, a tick keeps. -/
theorem run_turns {P : Store → List Key → Prop} (f : Frame)
    (hturn : ∀ {t : Running} {turn : Key × Priority}, turn.1 ∉ t.skip → P t.store t.skip →
      P (offer f t turn).store (offer f t turn).skip)
    (last : Nat) {s : Store} (hs : s.Keyed) (d : Diagnostics) (h : P s []) : ∃ skip, P (run f last s d).store skip := by
  let Q : Running → Prop := fun t => t.store.Keyed ∧ P t.store t.skip
  have hoffer : ∀ {t : Running} {turn : Key × Priority}, Q t → turn.1 ∉ t.skip → Q (offer f t turn) :=
    fun {t turn} hq hout => ⟨hq.1.of_keys (offer_offered f t turn).keys, hturn hout hq.2⟩
  -- the lists of moves that rounds are told with do not matter here
  have hplayed : ∀ {t : Running}, Q t → Q (t.played f) := fun {t} hq =>
    @round_keeps f (fun _ => Q) hoffer (t.store.ready t.skip) [] t.opened hq (hq.1.ready t.skip)
      (ready_fresh t.store t.skip)
  rw [run_eq]
  split
  · exact ⟨[], h⟩
  · rw [close_store]
    have hend : Q (rounds f (max 1 f.limits.maxDrainRounds) (opening f last s d)) :=
      @rounds_keep f (fun _ => Q) hplayed _ [] _ ⟨hs, h⟩
    exact ⟨_, hend.2⟩

end Tick

namespace Store

variable {l : Link} {s s' : Store} {f : Tick.Frame} {t t' : Tick.Running} {turn : Key × Priority}

theorem Joined.offered (h : t.store.Joined l) (ho : Tick.Running.Offered f t turn t') : t'.store.Joined l where
  upToDate := h.upToDate.offered (Instance.steady_upToDate (C := fun _ _ => True)) ho
  wellFormed := h.wellFormed.offered Instance.steady_wellFormed ho
  spares := h.spares.offered (Instance.steady_sparesLink l) ho
  source := (contains_of_keys ho.keys _).trans h.source
  target := (contains_of_keys ho.keys _).trans h.target

/-- From the start of a tick to a later point of it a link stayed in step. Until its source
had its turn, neither end moved. -/
structure Followed (l : Link) (s s' : Store) (skip : List Key) : Prop where
  joined : s'.Joined l
  follows : Follows l s s'
  early : l.source ∉ skip → s'.outgoing l = s.outgoing l ∧ s'.landed l = s.landed l

theorem Followed.offered (h : Followed l s t.store t.skip) (hl : l.targetPath.hasWildcard = false) (hmem : l ∈ f.links)
    (ha : l.Alone f.links) (hout : turn.1 ∉ t.skip) :
    Followed l s (Tick.Running.offer f t turn).store (Tick.Running.offer f t turn).skip := by
  have hturned := Tick.Running.offer_turned f t turn
  obtain ⟨hfollows, hothers⟩ := hturned.follows hl hmem ha h.joined
  refine ⟨h.joined.offered (Tick.Running.offer_offered f t turn), ⟨hfollows.inStep ∘ h.follows.inStep, fun hnone => ?_⟩,
    fun hskip => ?_⟩
  · by_cases hk : turn.1 = l.source
    · exact (hfollows.absent hnone).trans (h.early (hk ▸ hout)).2
    · obtain ⟨hout', hland'⟩ := hothers hk
      exact hland'.trans (h.follows.absent (hout'.symm.trans hnone))
  · have hbefore : l.source ∉ t.skip := fun hin => hskip (by
      rcases hturned.skip with he | he
      · exact he ▸ hin
      · exact he ▸ List.mem_append_left _ hin)
    by_cases hk : turn.1 = l.source
    · rw [hturned.eq_of_not_skipped (hk ▸ hskip)]
      exact h.early hbefore
    · obtain ⟨hout', hland'⟩ := hothers hk
      obtain ⟨hout₀, hland₀⟩ := h.early hbefore
      exact ⟨hout'.trans hout₀, hland'.trans hland₀⟩

/-- A link that nothing else writes to stays in step over every tick. -/
theorem run_follows (hl : l.targetPath.hasWildcard = false) (hmem : l ∈ f.links) (ha : l.Alone f.links)
    (hs : s.Joined l) (hk : s.Keyed) (last : Nat) (d : Diagnostics) : Follows l s (Tick.run f last s d).store := by
  obtain ⟨skip, h⟩ := Tick.run_turns (P := Followed l s) f (fun hout h => h.offered hl hmem ha hout) last hk d
    ⟨hs, .of_eq rfl rfl, fun _ => ⟨rfl, rfl⟩⟩
  exact h.follows

end Store

end Settle
