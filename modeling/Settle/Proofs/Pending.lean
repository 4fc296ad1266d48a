/-
  Settle.Proofs.Pending — what is pending is what is committed with the queue applied.

  (1) A merge supersedes the writes before each replacement. What it leaves makes of every
  state what the commits make of it one after the other (`WorkUnit.applyTo_merge?`).

  (2) An instance brings its pending state up to date with each commit it queues, and anew
  after each unit. In between a unit that was taken is on its way: it counts as applied
  (`Instance.UpToDate`). Nothing else touches the three.

  (3) What nothing that an engine does to an instance breaks (`Instance.Steady`), all its
  instances have whatever happened (`Engine.Reached.all`). An engine takes a unit and
  applies it in one turn, so all its instances are up to date whenever a transaction can
  be opened (`Engine.Reached.upToDate`): by the owner, in the body of another, by a
  listener, between two ticks. Drafts hold everything queued.
-/

import Settle.Engine.Flush
import Settle.Proofs.Confluence
import Settle.Proofs.GraphCache
import Settle.Proofs.Turns

namespace Settle

open Commit (applyAll)

namespace WorkUnit

theorem applyTo_foldl (cs : List Commit) (u : WorkUnit) (v : Value) :
    (cs.foldl add u).change.applyTo v = applyAll cs (u.change.applyTo v) := by
  induction cs generalizing u with
  | nil => rfl
  | cons c cs ih =>
    rw [List.foldl_cons, ih, add, Change.applyTo_followedBy]
    rfl

/-- A merge makes of a state what its commits make of it in turn. -/
theorem applyTo_merge? {cs : List Commit} {u : WorkUnit} (h : merge? cs = some u) (v : Value) :
    u.change.applyTo v = applyAll cs v := by
  cases cs with
  | nil => cases h
  | cons c rest =>
    obtain rfl := Option.some.inj h
    exact applyTo_foldl rest (ofCommit c) v

end WorkUnit

namespace Instance

variable {flight : Option WorkUnit} {i i₀ i' : Instance}

/-- The committed state, with the unit on its way applied. -/
def base (i : Instance) (flight : Option WorkUnit) : Value :=
  match flight with
  | none => i.state
  | some u => u.change.applyTo i.state

/-- What is pending is that with every queued commit applied, in order. -/
def UpToDate (flight : Option WorkUnit) (i : Instance) : Prop := i.pending = applyAll i.queue (i.base flight)

theorem upToDate_ofCompiled (key : Key) (c : Compiled) (options : Policy.Overrides) (policies : Policy.Policies)
    (v : Value) : (ofCompiled key c options policies v).UpToDate none := rfl

theorem UpToDate.enqueue (h : i.UpToDate flight) (c : Commit) : (i.enqueue c).UpToDate flight := by
  show c.change.applyTo i.pending = applyAll (i.queue ++ [c]) (i.base flight)
  rw [h, applyAll, applyAll, List.foldl_append]
  rfl

/-- The commits of a unit go on counting once it is taken. -/
theorem UpToDate.take (h : i.UpToDate none) {u : WorkUnit} (hu : i.takeUnit.1 = some u) :
    i.takeUnit.2.UpToDate (some u) := by
  show i.pending = u.change.applyTo i.state
  rw [h, WorkUnit.applyTo_merge? hu]
  rfl

theorem upToDate_refresh (i : Instance) : i.refreshPending.UpToDate none := rfl

theorem upToDate_applyUnder (clock : Nat → Nat → Bool) (i : Instance) (u : WorkUnit) (now : Time) (d : Diagnostics)
    (budget : Option Nat) : (i.applyUnder clock u now d budget).inst.UpToDate none := by
  unfold applyUnder
  exact upToDate_refresh _

/-- Anything else about an instance may change. -/
theorem UpToDate.congr (h : i.UpToDate flight) (hstate : i'.state = i.state) (hpending : i'.pending = i.pending)
    (hqueue : i'.queue = i.queue) : i'.UpToDate flight := by
  have hbase : i'.base flight = i.base flight := by cases flight <;> simp only [base, hstate]
  rw [UpToDate, hpending, hqueue, hbase]
  exact h

/-- What may happen to an instance, and the unit on its way: commits are queued, a unit is
taken and then applied, whatever is not its state and its queue changes. -/
inductive Worked (i₀ : Instance) : Option WorkUnit → Instance → Prop
  | start : Worked i₀ none i₀
  | enqueue {flight : Option WorkUnit} {i : Instance} (c : Commit) : Worked i₀ flight i → Worked i₀ flight (i.enqueue c)
  | take {i : Instance} {u : WorkUnit} : Worked i₀ none i → i.takeUnit.1 = some u → Worked i₀ (some u) i.takeUnit.2
  | apply {i : Instance} {u : WorkUnit} (clock : Nat → Nat → Bool) (now : Time) (d : Diagnostics) (budget : Option Nat) :
      Worked i₀ (some u) i → Worked i₀ none (i.applyUnder clock u now d budget).inst
  | adjust {flight : Option WorkUnit} {i i' : Instance} : Worked i₀ flight i → i'.state = i.state →
      i'.pending = i.pending → i'.queue = i.queue → Worked i₀ flight i'

theorem Worked.upToDate (h₀ : i₀.UpToDate none) (h : Worked i₀ flight i) : i.UpToDate flight := by
  induction h with
  | start => exact h₀
  | enqueue c _ ih => exact ih.enqueue c
  | take _ hu ih => exact ih.take hu
  | apply clock now d budget _ _ => exact upToDate_applyUnder clock _ _ now d budget
  | adjust _ hstate hpending hqueue ih => exact ih.congr hstate hpending hqueue

end Instance

/-! ## What every instance keeps -/

/-- A property that instances are made with and that nothing an engine does to one breaks,
while it binds them to graphs that meet the condition. -/
structure Instance.Steady (C : Key → Graph → Prop) (P : Instance → Prop) : Prop where
  made : ∀ (key : Key) (c : Compiled) (options : Policy.Overrides) (policies : Policy.Policies) (v : Value),
    C key c.graph → P (.ofCompiled key c options policies v)
  rebind : ∀ {i : Instance} (c : Compiled), C i.key c.graph → P i → P (i.rebind c)
  adjust : ∀ {i : Instance} (policies : Policy.Policies) (lane : Option Lane), P i →
    P { i with policies := policies, lane := lane }
  enqueue : ∀ {i : Instance} (c : Commit), P i → P (i.enqueue c)
  unit : ∀ {i : Instance} {u : WorkUnit} (now : Time) (d : Diagnostics) (budget : Option Nat), P i →
    i.takeUnit.1 = some u → P (i.takeUnit.2.apply u now d budget).inst

namespace Instance

variable {C : Key → Graph → Prop}

theorem steady_upToDate : Steady C (UpToDate none) where
  made := fun key c options policies v _ => upToDate_ofCompiled key c options policies v
  rebind := fun _ _ h => h.congr rfl rfl rfl
  adjust := fun _ _ h => h.congr rfl rfl rfl
  enqueue := fun c h => h.enqueue c
  unit := fun _ _ _ _ _ => upToDate_applyUnder _ _ _ _ _ _

/-- The graph that an instance steps through was compiled. -/
theorem steady_wellFormed : Steady (fun _ g => g.WellFormed) fun i => i.executor.graph.WellFormed where
  made := fun _ _ _ _ _ hc => hc
  rebind := fun _ hc _ => hc
  adjust := fun _ _ h => h
  enqueue := fun _ h => h
  unit := fun now d budget h _ => by
    rw [(apply_answers _ _ now d budget).graph]
    exact h

theorem Steady.syncLane {P : Instance → Prop} (hP : Steady C P) {i : Instance} (h : P i) (clocked : Bool) :
    P (i.syncLane clocked).2 := by
  unfold Instance.syncLane
  split
  · exact hP.adjust i.policies _ h
  · exact hP.adjust i.policies _ h
  · exact hP.adjust i.policies _ h
  · exact h

end Instance

/-- What a cache answers is what the declaration compiles to, but for its generation. -/
theorem GraphCache.graph_of_get {c c' : GraphCache} {d : Declaration} {a : GraphCache.Answer}
    (h : c.get d = .ok (a, c')) : ∃ g n, Graph.compile d 1 = .ok g ∧ a.compiled.graph = { g with generation := n } := by
  rw [GraphCache.get_eq] at h
  cases hg : Graph.compile d 1 with
  | error err =>
    rw [hg] at h
    cases h
  | ok g =>
    rw [hg] at h
    have he : c.reply d.moduleId g = (a, c') := Except.ok.inj h
    have hgraph := (GraphCache.reply_replied c d.moduleId g).graph
    rw [he] at hgraph
    exact ⟨g, _, rfl, hgraph⟩

namespace Store

open Instance (Steady)

variable {C : Key → Graph → Prop} {P : Instance → Prop} {s s' : Store} {i : Instance} {k : Key} {c : Commit}

/-- Every instance has the property. -/
def All (P : Instance → Prop) (s : Store) : Prop := ∀ i ∈ s.instances, P i

theorem All.find? (h : s.All P) (hi : s.find? k = some i) : P i := h i (List.mem_of_find?_eq_some hi)

theorem All.put (h : s.All P) (hi : P i) : (s.put i).All P := by
  intro j hj
  obtain ⟨j₀, hj₀, rfl⟩ := List.mem_map.1 hj
  split
  · exact hi
  · exact h j₀ hj₀

theorem All.add (h : s.All P) (hi : P i) : (s.add i).All P := by
  intro j hj
  rcases List.mem_append.1 hj with hj | hj
  · exact h j hj
  · exact List.mem_singleton.1 hj ▸ hi

theorem All.enqueue (hP : Steady C P) (h : s.All P) (he : s.enqueue k c = .ok s') : s'.All P := by
  obtain ⟨i, hi, rfl⟩ := enqueue_eq_ok he
  exact h.put (hP.enqueue _ (h.find? hi))

theorem All.copied {links : List Link} (hP : Steady C P) (h : s.All P) (hc : Copied links s s') : s'.All P := by
  induction hc with
  | refl => exact h
  | step _ _ he ih => exact ih.enqueue hP he

/-- A tick takes each unit and applies it in one turn. -/
theorem All.offered {f : Tick.Frame} {t t' : Tick.Running} {turn : Key × Priority} (hP : Steady C P)
    (ho : Tick.Running.Offered f t turn t') (h : t.store.All P) : t'.store.All P := by
  cases ho with
  | passed hstore _ _ =>
    rw [hstore]
    exact h
  | taken hi hu _ ha hcopied _ _ =>
    refine All.copied hP (h.put ?_) hcopied
    rw [ha]
    exact hP.unit _ _ _ (h.find? hi) hu

theorem All.tick (hP : Steady C P) (h : s.All P) (f : Tick.Frame) (last : Nat) (d : Diagnostics) :
    (Tick.run f last s d).store.All P :=
  Tick.run_preserves f (All.offered hP) last d h

end Store

/-! ## Engines -/

namespace Engine

open Instance (Steady)

variable {C : Key → Graph → Prop} {P : Instance → Prop} {e e' : Engine} {k : Key} {flush : Flushing}

/-- What may happen to an engine, one thing after the other. -/
inductive Reached (config : Policy.Config) : Engine → Prop
  | start (keeps clocked : Bool) : Reached config (.ofConfig config keeps clocked)
  | register {e e' : Engine} {k : Key} (d : Declaration) (id : String) (v : Value) : Reached config e →
      e.register d id v = .ok (k, e') → Reached config e'
  | override {e e' : Engine} (k : Key) (provider : Option Policy.Overrides) : Reached config e →
      e.override k provider = .ok e' → Reached config e'
  | link {e e' : Engine} {new : Bool} (source target : Key) (sourcePath targetPath : String) : Reached config e →
      e.link source sourcePath target targetPath = .ok (new, e') → Reached config e'
  /-- A transaction ends, with whatever it recorded. -/
  | commit {e : Engine} (t : Transaction) (priority : Priority) : Reached config e → Reached config (e.commitTxn t priority)
  /-- A lane flushes, with whatever it held. -/
  | lane {e : Engine} {k : Key} {i : Instance} (l : Lane) : Reached config e → e.store.find? k = some i →
      Reached config { e with store := e.store.put { i with lane := some l } }
  | flushed {e : Engine} (k : Key) (f : Lane.Flush) : Reached config e → Reached config (e.acceptDeferred k f)
  | tick {e : Engine} : Reached config e → Reached config e.tick.2.2
  /-- Something that is not about the instances. -/
  | aside {e e' : Engine} : Reached config e → e'.store = e.store → Reached config e'

theorem get_eq_ok {s : Store} {i : Instance} (h : s.get k = .ok i) : s.find? k = some i := by
  unfold Store.get at h
  split at h
  · rename_i j hj
    cases h
    exact hj
  · cases h

section

variable (hP : Steady C P) (h : e.store.All P)

include hP h

theorem enqueue_all (k : Key) (c : Commit) : (e.enqueue k c).store.All P := by
  unfold enqueue
  split
  · rename_i s' he
    exact h.enqueue hP he
  · exact h

theorem syncLane_all (k : Key) : (e.syncLane k).store.All P := by
  unfold syncLane
  split
  · exact h
  · rename_i i hi
    have hput : (e.store.put (i.syncLane e.clock.isSome).2).All P := h.put (hP.syncLane (h.find? hi) _)
    dsimp only
    split
    · exact enqueue_all (e := { e with store := _ }) hP hput k _
    · exact hput

theorem foldl_syncLane_all (ks : List Key) : (ks.foldl syncLane e).store.All P := by
  induction ks generalizing e with
  | nil => exact h
  | cons k ks ih => exact ih (syncLane_all hP h k)

theorem acceptDeferred_all (k : Key) (f : Lane.Flush) : (e.acceptDeferred k f).store.All P := by
  unfold acceptDeferred
  split
  · exact h
  · exact enqueue_all hP h k _

theorem commitTxn_all (t : Transaction) (priority : Priority) : (e.commitTxn t priority).store.All P := by
  unfold commitTxn
  dsimp only
  split
  · exact enqueue_all (e := e.abandon t.key) hP h t.key _
  · exact h

theorem register_all {d : Declaration} {id : String} {v : Value}
    (hC : ∀ g n id, Graph.compile d 1 = .ok g → C ⟨d.moduleId, id⟩ { g with generation := n })
    (he : e.register d id v = .ok (k, e')) : e'.store.All P := by
  unfold register at he
  dsimp only at he
  split at he
  · cases he
  · obtain ⟨⟨answer, graphs⟩, hget, he⟩ := Except.bind_eq_ok.1 he
    have hc : ∀ id, C ⟨d.moduleId, id⟩ answer.compiled.graph := fun id => by
      obtain ⟨g, n, hg, hgraph⟩ := GraphCache.graph_of_get hget
      rw [hgraph]
      exact hC g n id hg
    cases he
    refine syncLane_all hP (Store.All.add (foldl_syncLane_all hP (fun j hj => ?_) _) (hP.made _ _ _ _ v (hc id))) _
    obtain ⟨i, hi, rfl⟩ := List.mem_map.1 hj
    split
    · rename_i hm
      have hkey : ⟨d.moduleId, i.key.instanceId⟩ = i.key :=
        congrArg (Key.mk · i.key.instanceId) (of_decide_eq_true hm).symm
      exact hP.rebind _ (hkey ▸ hc i.key.instanceId) (h i hi)
    · exact h i hi

theorem override_all {provider : Option Policy.Overrides} (he : e.override k provider = .ok e') : e'.store.All P := by
  obtain ⟨i, hi, he⟩ := Except.bind_eq_ok.1 he
  cases he
  exact syncLane_all hP (Store.All.put h (hP.adjust _ i.lane (h.find? (get_eq_ok hi)))) k

theorem link_all {new : Bool} {source target : Key} {sourcePath targetPath : String}
    (he : e.link source sourcePath target targetPath = .ok (new, e')) : e'.store.All P := by
  obtain ⟨l, -, he⟩ := Except.bind_eq_ok.1 he
  obtain ⟨i, -, he⟩ := Except.bind_eq_ok.1 he
  obtain ⟨j, -, he⟩ := Except.bind_eq_ok.1 he
  split at he
  · cases he
    exact h
  · split at he
    · cases he
      exact h
    · cases he
      split
      · exact h
      · exact enqueue_all (e := { e with links := e.links ++ [l] }) hP h target _

end

variable {config : Policy.Config}

/-- Whatever happened to an engine, its instances have what nothing breaks. -/
theorem Reached.all (hP : Steady (fun _ g => g.WellFormed) P) (h : Reached config e) : e.store.All P := by
  induction h with
  | start keeps clocked => exact fun _ hi => absurd hi List.not_mem_nil
  | register d id v _ he ih =>
    exact register_all hP ih (fun g n _ hg => Graph.compile_wellFormed (Graph.compile_renumbered hg n)) he
  | override k provider _ he ih => exact override_all hP ih he
  | link source target sourcePath targetPath _ he ih => exact link_all hP ih he
  | commit t priority _ ih => exact commitTxn_all hP ih t priority
  | @lane _ _ i l _ hi ih => exact ih.put (hP.adjust i.policies _ (ih.find? hi))
  | flushed k f _ ih => exact acceptDeferred_all hP ih k f
  | tick _ ih => exact ih.tick hP _ _ _
  | aside _ hstore ih =>
    rw [hstore]
    exact ih

theorem Reached.upToDate (h : Reached config e) : e.store.All (Instance.UpToDate none) := h.all Instance.steady_upToDate

theorem Reached.wellFormed (h : Reached config e) : e.store.All fun i => i.executor.graph.WellFormed :=
  h.all Instance.steady_wellFormed

/-! ## Scripts -/

/-- Ticks that are run from inside a script are things that happen to the engine. -/
def Sound (config : Policy.Config) (flush : Flushing) : Prop := ∀ e, Reached config e → Reached config (flush e).2

/-- A transaction opens on an instance that has none open, and marks it. -/
theorem openTxn_eq_ok_iff {t : Transaction} : e.openTxn k = .ok (t, e') ↔ ∃ i, e.store.find? k = some i ∧ k ∉ e.active ∧
    t = .start k i.pending ∧ e' = { e with active := k :: e.active } := by
  constructor
  · intro h
    obtain ⟨i, hi, h⟩ := Except.bind_eq_ok.1 h
    split at h
    · cases h
    · rename_i hactive
      cases h
      exact ⟨i, get_eq_ok hi, fun hmem => hactive (List.contains_iff_mem.2 hmem), rfl, rfl⟩
  · rintro ⟨i, hi, hmem, rfl, rfl⟩
    have hactive : e.active.contains k = false := by simpa using hmem
    rw [openTxn, Store.get, hi]
    simp only [bind, Except.bind, hactive, Bool.false_eq_true, if_false]
    rfl

theorem openTxn_eq_ok {t : Transaction} (h : e.openTxn k = .ok (t, e')) :
    ∃ i, e.store.find? k = some i ∧ t = .start k i.pending ∧ e'.store = e.store := by
  obtain ⟨i, hi, -, ht, rfl⟩ := openTxn_eq_ok_iff.1 h
  exact ⟨i, hi, ht, rfl⟩

theorem Reached.opened (h : Reached config e) {t : Transaction} (ho : e.openTxn k = .ok (t, e')) :
    Reached config e' := by
  obtain ⟨-, -, -, hstore⟩ := openTxn_eq_ok ho
  exact h.aside hstore

theorem Reached.write (h : Reached config e) {f : Transaction → Except Error Transaction} (hw : e.write k f = .ok e') :
    Reached config e' := by
  obtain ⟨⟨t, opened⟩, ho, hw⟩ := Except.bind_eq_ok.1 hw
  obtain ⟨t', -, hw⟩ := Except.bind_eq_ok.1 hw
  cases hw
  exact (h.opened ho).commit t' .normal

theorem Reached.ofWrite (h : Reached config e) {f : Transaction → Except Error Transaction} :
    Reached config (Act.ofWrite e (e.write k f)).2 := by
  unfold Act.ofWrite
  split
  · rename_i next hw
    exact h.write hw
  · exact h

theorem Reached.act (h : Reached config e) (hf : Sound config flush) (target : Key) (payload : Value) (a : Act) :
    Reached config (a.run flush target payload e).2 := by
  cases a with
  | set path v => exact h.ofWrite (f := fun t => t.set path v)
  | setPayload path => exact h.ofWrite (f := fun t => t.set path payload)
  | addPayload path =>
    simp only [Act.run]
    split
    · exact h
    · exact h.ofWrite
  | flush => exact hf e h
  | fail text => exact h
  | panic message => exact h
  | sleep ms => exact h

theorem Reached.follow (h : Reached config e) (hf : Sound config flush) (l : Listener) (payload : Value)
    (acts : List Act) : Reached config (l.follow flush payload acts e) := by
  induction acts generalizing e with
  | nil => exact h
  | cons a rest ih =>
    have hact := h.act hf l.target payload a
    unfold Listener.follow
    split
    · rename_i e₁ hrun
      rw [hrun] at hact
      exact ih hact
    · rename_i text e₁ hrun
      rw [hrun] at hact
      exact ih (hact.aside rfl)
    · rename_i message e₁ hrun
      rw [hrun] at hact
      refine hact.aside ?_
      unfold reportPanic
      split <;> rfl

theorem Reached.call (h : Reached config e) (hf : Sound config flush) (l : Listener) (state : Value) :
    Reached config (l.call flush state e) := by
  have htold : Reached config (e.note (.told l.label l.key state)) := h.aside rfl
  exact htold.follow hf l state l.acts

theorem Reached.close {b : Transaction.Running} (h : Reached config b.engine) (priority : Priority) :
    Reached config (b.close priority) := by
  unfold Transaction.Running.close
  split
  · exact h.commit b.txn priority
  · exact h.aside rfl

theorem Reached.resume {b inner : Transaction.Running} (h : Reached config inner.engine) (priority : Priority) :
    Reached config (b.resume inner priority).engine := by
  unfold Transaction.Running.resume
  dsimp only
  split <;> exact h.close priority

mutual

/-- Whatever a body does happens to the engine. -/
theorem Reached.edit (hf : Sound config flush) (b : Transaction.Running) (x : Edit) (h : Reached config b.engine) :
    Reached config (b.edit flush x).engine := by
  cases x with
  | set path v =>
    unfold Transaction.Running.edit Transaction.Running.write
    cases b.txn.set path v <;> exact h
  | trySet path v =>
    unfold Transaction.Running.edit Transaction.Running.write
    cases b.txn.set path v <;> exact h
  | flush =>
    unfold Transaction.Running.edit
    exact hf b.engine h
  | nested key priority body =>
    unfold Transaction.Running.edit
    split
    · exact h
    · rename_i t e ho
      exact Reached.resume (Reached.edits hf ⟨e, t, b.replies, .done⟩ body (h.opened ho)) priority
  | _ =>
    unfold Transaction.Running.edit
    exact h

theorem Reached.edits (hf : Sound config flush) (b : Transaction.Running) (xs : List Edit)
    (h : Reached config b.engine) : Reached config (b.edits flush xs).engine := by
  cases xs with
  | nil =>
    unfold Transaction.Running.edits
    exact h
  | cons x rest =>
    have hedit := Reached.edit hf b x h
    unfold Transaction.Running.edits
    dsimp only
    split
    · exact Reached.edits hf _ rest hedit
    · exact hedit

end

theorem Reached.transact (h : Reached config e) (hf : Sound config flush) (k : Key) (priority : Priority)
    (body : List Edit) : Reached config (e.transact flush k priority body).2.2 := by
  unfold Engine.transact
  split
  · exact h
  · rename_i t opened ho
    exact Reached.close (Reached.edits hf ⟨opened, t, [], .done⟩ body (h.opened ho)) priority

theorem Reached.calls (h : Reached config e) (hf : Sound config flush) (calls : List (Listener × Value)) :
    Reached config (calls.foldl (fun e (l, state) => l.call flush state e) e) := by
  induction calls generalizing e with
  | nil => exact h
  | cons c rest ih => exact ih (h.call hf c.1 c.2)

theorem Reached.told (h : Reached config e) (r : TickReport) : Reached config (e.tellTelemetry r) := by
  unfold tellTelemetry
  split
  · exact h.aside rfl
  · exact h

/-- The induction is on how deep the flushes of listeners may nest. -/
theorem sound_flushNested (config : Policy.Config) (depth : Nat) : Sound config (flushNested depth) := by
  induction depth with
  | zero => exact fun e h => h.tick
  | succ depth ih =>
    intro e h
    unfold flushNested
    exact (h.tick.calls ih _).told _

theorem sound_flush (config : Policy.Config) : Sound config Engine.flush := sound_flushNested config maxNesting

theorem Reached.laneFlushed (h : Reached config e) (k : Key) (f : Lane.Flush) : Reached config (e.laneFlushed k f) := by
  unfold Engine.laneFlushed
  split
  · exact sound_flush config _ (h.flushed k f)
  · exact h

end Engine

/-! ## Drafts -/

/-- A merge does to every state what its commits do, one after the other. Whatever was
queued, taken and applied, an instance has pending what is committed, with the unit on its
way and then each queued commit applied. In an engine no unit is ever on its way, whoever
asks, so a transaction that opens drafts on everything queued. -/
theorem Engine.drafts_hold_the_queue :
    (∀ (cs : List Commit) (u : WorkUnit) (v : Value), WorkUnit.merge? cs = some u →
      u.change.writes.foldl (fun s w => (State.writeAt s w.1 w.2).state) (u.change.replace.getD v) =
        cs.foldl (fun s c => c.change.applyTo s) v) ∧
    (∀ (key : Key) (c : Compiled) (options : Policy.Overrides) (policies : Policy.Policies) (v : Value)
      (flight : Option WorkUnit) (i : Instance), Instance.Worked (.ofCompiled key c options policies v) flight i →
      i.pending = i.queue.foldl (fun s c => c.change.applyTo s)
        (match flight with
          | none => i.state
          | some u => u.change.applyTo i.state)) ∧
    (∀ (config : Policy.Config) (e : Engine), Engine.Reached config e →
      (∀ i ∈ e.store.instances, i.pending = i.queue.foldl (fun s c => c.change.applyTo s) i.state) ∧
      (∀ k t e', e.openTxn k = .ok (t, e') → ∃ i, e.store.find? k = some i ∧
        t.draft = i.queue.foldl (fun s c => c.change.applyTo s) i.state) ∧
      Engine.Reached config e.flush.2 ∧
      (∀ k priority body, Engine.Reached config (e.transact Engine.flush k priority body).2.2) ∧
      (∀ k f, Engine.Reached config (e.laneFlushed k f))) := by
  refine ⟨fun cs u v hu => WorkUnit.applyTo_merge? hu v, fun key c options policies v flight i hi => ?_, fun config e he => ?_⟩
  · exact hi.upToDate (Instance.upToDate_ofCompiled key c options policies v)
  · refine ⟨he.upToDate, fun k t e' ho => ?_, Engine.sound_flush config e he,
      he.transact (Engine.sound_flush config), he.laneFlushed⟩
    obtain ⟨i, hi, rfl, -⟩ := Engine.openTxn_eq_ok ho
    exact ⟨i, hi, he.upToDate.find? hi⟩

namespace Relay

/-- A write, then a new state, then a write on top of it. -/
def rewritten : List Commit :=
  [.set x (.int 2), ⟨0, .transaction, .low, { Change.empty with replace := some (state 5 5 5) }⟩, .set x (.int 7)]

/-- Of a merge with a replacement in it only the write after that is left. It gives any
state what the three commits give it, and the instance that queues them has it pending. -/
theorem rewritten_pending :
    ∃ u, WorkUnit.merge? rewritten = some u ∧ u.change.writes.length = 1 ∧
      (∀ v, u.change.writes.foldl (fun s w => (State.writeAt s w.1 w.2).state) (u.change.replace.getD v) =
        state 7 5 5) ∧
      (rewritten.foldl Instance.enqueue (.direct compiled (state 1 1 1))).pending = state 7 5 5 := by
  obtain ⟨hmerge, hworked, -⟩ := Engine.drafts_hold_the_queue
  refine ⟨_, rfl, rfl, fun v => ?_, ?_⟩
  · rw [hmerge rewritten _ v rfl]
    rfl
  · have hrun : Instance.Worked (.direct compiled (state 1 1 1)) none
        (rewritten.foldl Instance.enqueue (.direct compiled (state 1 1 1))) :=
      .enqueue _ (.enqueue _ (.enqueue _ .start))
    exact (hworked _ _ _ _ _ none _ hrun).trans rfl

end Relay

end Settle
