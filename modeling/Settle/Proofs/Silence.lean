/-
  Settle.Proofs.Silence — diagnostics never influence a run (see `Settle.Diagnostics` and
  `Settle.Call`).

  Two engines are alike if they differ in their diagnostics and in what they are
  configured to report, two hosts if their engines are and nothing else of them differs.
  Whatever an engine or a host is asked to do, it does to both of two that are alike: both
  answer the same, or go wrong with the same error, and both are alike afterwards
  (`Host.Alike.perform`). What calls back into an engine is taken care of from the inside
  out: a tick first (`Engine.Alike.tick`), then the acts of a listener over any flush that
  keeps engines alike, and a flush over such listeners (`Engine.flush_even`); transactions,
  handlers and lanes flush through that one.

  So two hosts that begin alike tell the same story (`Host.diagnostics_silent`).
-/

import Settle.Call
import Settle.Proofs.Told

namespace Settle

/-- Both go wrong with the same error, or both go well with what is related. -/
inductive Both {α : Type} (R : α → α → Prop) : Except Error α → Except Error α → Prop
  | failed (err : Error) : Both R (.error err) (.error err)
  | went {a a' : α} (h : R a a') : Both R (.ok a) (.ok a')

theorem Both.bind {α β : Type} {R : α → α → Prop} {S : β → β → Prop} {x x' : Except Error α} {f f' : α → Except Error β}
    (h : Both R x x') (hf : ∀ a a', R a a' → Both S (f a) (f' a')) : Both S (x >>= f) (x' >>= f') := by
  cases h with
  | failed err => exact .failed err
  | went h => exact hf _ _ h

theorem Both.same {α : Type} (x : Except Error α) : Both Eq x x := by
  cases x with
  | error err => exact .failed err
  | ok a => exact .went rfl

/-- The answers are the same, and what is left is related. -/
def AgreeUpTo {α σ : Type} (R : σ → σ → Prop) (x x' : α × σ) : Prop := x'.1 = x.1 ∧ R x.2 x'.2

theorem AgreeUpTo.out {α σ : Type} {R : σ → σ → Prop} {x x' : α × σ} (h : AgreeUpTo R x x') :
    ∃ a w w', x = (a, w) ∧ x' = (a, w') ∧ R w w' :=
  ⟨x.1, x.2, x'.2, rfl, by rw [← h.1], h.2⟩

/-! ## Engines -/

namespace Engine

/-- The engines differ in their diagnostics, and in what they are configured to report. -/
def Alike (e e' : Engine) : Prop :=
  ∃ r d, e' = { e with config := { e.config with reporting := r }, diagnostics := d }

abbrev Agree {α : Type} (x x' : α × Engine) : Prop := AgreeUpTo Engine.Alike x x'

variable {e e' : Engine}

theorem Alike.refl (e : Engine) : e.Alike e := ⟨e.config.reporting, e.diagnostics, rfl⟩

theorem Alike.store (h : e.Alike e') : e'.store = e.store := by
  obtain ⟨r, d, rfl⟩ := h
  rfl

theorem Alike.now (h : e.Alike e') : e'.now = e.now := by
  obtain ⟨r, d, rfl⟩ := h
  rfl

/-- An update that neither reads nor changes diagnostics. -/
theorem Alike.update (h : e.Alike e') (f : Engine → Engine)
    (hf : ∀ e r d, f { e with config := { e.config with reporting := r }, diagnostics := d }
      = { f e with config := { (f e).config with reporting := r }, diagnostics := d }) : (f e).Alike (f e') := by
  obtain ⟨r, d, rfl⟩ := h
  exact ⟨r, d, hf e r d⟩

theorem Alike.foldl {α : Type} {f : Engine → α → Engine} (hf : ∀ {e e'} a, e.Alike e' → (f e a).Alike (f e' a))
    (l : List α) (h : e.Alike e') : (l.foldl f e).Alike (l.foldl f e') :=
  List.foldl_rel h fun a _ _ _ h => hf a h

theorem Alike.emit (h : e.Alike e') (ev : Event) : (e.emit ev).Alike (e'.emit ev) := by
  obtain ⟨r, d, rfl⟩ := h
  exact ⟨r, _, rfl⟩

theorem Alike.note (h : e.Alike e') (n : Note) : (e.note n).Alike (e'.note n) := h.update (·.note n) fun _ _ _ => rfl

theorem Alike.reportPanic (h : e.Alike e') (key : Key) (action : String) (message : Option String) :
    (e.reportPanic key action message).Alike (e'.reportPanic key action message) := by
  cases message with
  | some m => exact h.emit _
  | none => exact h.emit _

theorem Alike.enqueue (h : e.Alike e') (key : Key) (c : Commit) : (e.enqueue key c).Alike (e'.enqueue key c) := by
  refine h.update (·.enqueue key c) fun e r d => ?_
  unfold Engine.enqueue
  dsimp only
  split <;> rfl

theorem Alike.syncLane (h : e.Alike e') (key : Key) : (e.syncLane key).Alike (e'.syncLane key) := by
  obtain ⟨r, d, rfl⟩ := h
  unfold Engine.syncLane
  dsimp only
  split
  · exact ⟨r, d, rfl⟩
  · split
    · exact Alike.enqueue ⟨r, d, rfl⟩ ..
    · exact ⟨r, d, rfl⟩

theorem Alike.warnShape (h : e.Alike e') (g : Graph) : (e.warnShape g).Alike (e'.warnShape g) := by
  obtain ⟨r, d, rfl⟩ := h
  exact ⟨r, _, rfl⟩

theorem Alike.withStore (h : e.Alike e') (s : Store) : Engine.Alike { e with store := s } { e' with store := s } :=
  h.update (fun e => { e with store := s }) fun _ _ _ => rfl

theorem Alike.policies (h : e.Alike e') (moduleId : String) (options : Policy.Overrides)
    (provider : Option Policy.Overrides) :
    Policy.Policies.resolve e'.config moduleId options provider
      = Policy.Policies.resolve e.config moduleId options provider := by
  obtain ⟨r, d, rfl⟩ := h
  rfl

/-- The instances of a module follow a new compilation, and their lanes its policies. -/
def follow (e : Engine) (moduleId : String) (c : Compiled) : Engine :=
  let isSibling (i : Instance) : Bool := i.key.moduleId = moduleId
  ((e.store.instances.filter isSibling).map (·.key)).foldl Engine.syncLane
    { e with store := { e.store with
        instances := e.store.instances.map fun i => if isSibling i then i.rebind c else i } }

/-- A new instance, with its lane. -/
def seat (e : Engine) (key : Key) (d : Declaration) (c : Compiled) (initial : Value) : Engine :=
  let policies := Policy.Policies.resolve e.config d.moduleId d.options none
  { e with store := e.store.add (.ofCompiled key c d.options policies initial) }.syncLane key

theorem register_eq (e : Engine) (d : Declaration) (id : String) (initial : Value) :
    e.register d id initial =
      if e.store.contains ⟨d.moduleId, id⟩ then .error (.duplicateInstance ⟨d.moduleId, id⟩)
      else e.graphs.get d >>= fun (answer, graphs) =>
        let e := { e with graphs := graphs }.warnShape answer.compiled.graph
        let followed := e.follow d.moduleId answer.compiled
        .ok (⟨d.moduleId, id⟩, followed.seat ⟨d.moduleId, id⟩ d answer.compiled initial) := by
  unfold register
  dsimp only
  split <;> rfl

theorem Alike.follow (h : e.Alike e') (moduleId : String) (c : Compiled) :
    (e.follow moduleId c).Alike (e'.follow moduleId c) := by
  unfold Engine.follow
  rw [h.store]
  exact Alike.foldl (fun k h => h.syncLane k) _ (h.withStore _)

theorem Alike.seat (h : e.Alike e') (key : Key) (d : Declaration) (c : Compiled) (initial : Value) :
    (e.seat key d c initial).Alike (e'.seat key d c initial) := by
  unfold Engine.seat
  rw [h.store, h.policies]
  exact (h.withStore _).syncLane key

theorem Alike.register (h : e.Alike e') (d : Declaration) (id : String) (initial : Value) :
    Both Agree (e.register d id initial) (e'.register d id initial) := by
  have hgraphs : e'.graphs = e.graphs := by
    obtain ⟨r, di, rfl⟩ := h
    rfl
  rw [register_eq, register_eq, h.store, hgraphs]
  split
  · exact .failed _
  · refine (Both.same (e.graphs.get d)).bind ?_
    rintro ⟨answer, graphs⟩ _ rfl
    have hwarned := (h.update (fun e => { e with graphs := graphs }) fun _ _ _ => rfl).warnShape answer.compiled.graph
    rw [h.store] at hwarned
    exact .went ⟨rfl, (hwarned.follow _ _).seat _ _ _ _⟩

theorem Alike.override (h : e.Alike e') (key : Key) (provider : Option Policy.Overrides) :
    Both Engine.Alike (e.override key provider) (e'.override key provider) := by
  unfold Engine.override
  rw [h.store]
  refine (Both.same (e.store.get key)).bind ?_
  rintro i _ rfl
  rw [h.policies]
  exact .went ((h.withStore _).syncLane key)

theorem Alike.acceptDeferred (h : e.Alike e') (key : Key) (f : Lane.Flush) :
    (e.acceptDeferred key f).Alike (e'.acceptDeferred key f) := by
  unfold Engine.acceptDeferred
  rw [h.store]
  split
  · exact h
  · exact h.enqueue ..

theorem Alike.link (h : e.Alike e') (source : Key) (sourcePath : String) (target : Key) (targetPath : String) :
    Both Agree (e.link source sourcePath target targetPath) (e'.link source sourcePath target targetPath) := by
  have hlinks : e'.links = e.links := by
    obtain ⟨r, d, rfl⟩ := h
    rfl
  unfold Engine.link
  rw [h.store]
  refine (Both.same (Link.parse ..)).bind ?_
  rintro l _ rfl
  refine (Both.same (e.store.get source)).bind ?_
  rintro i _ rfl
  refine (Both.same (e.store.get target)).bind ?_
  rintro j _ rfl
  have hlinked := h.update (fun e => { e with links := e.links ++ [l] }) fun _ _ _ => rfl
  dsimp only at hlinked ⊢
  rw [hlinks, h.store] at hlinked
  rw [hlinks]
  split
  · exact .went ⟨rfl, h⟩
  · split
    · exact .went ⟨rfl, hlinked⟩
    · refine .went ⟨rfl, ?_⟩
      split
      · exact hlinked
      · exact hlinked.enqueue ..

theorem Alike.read (h : e.Alike e') (key : Key) (path : String) : e'.read key path = e.read key path := by
  unfold Engine.read
  rw [h.store]

theorem Alike.subscribe (h : e.Alike e') (key : Key) (label : String) (target : Key) (acts : List Act) :
    Both Agree (e.subscribe key label target acts) (e'.subscribe key label target acts) := by
  obtain ⟨r, d, rfl⟩ := h
  refine (Both.same (e.store.get key)).bind ?_
  rintro i _ rfl
  exact .went ⟨rfl, r, d, rfl⟩

theorem Alike.unsubscribe (h : e.Alike e') (id : Nat) : Agree (e.unsubscribe id) (e'.unsubscribe id) := by
  obtain ⟨r, d, rfl⟩ := h
  exact ⟨rfl, r, d, rfl⟩

/-! ### Transactions -/

theorem Alike.openTxn (h : e.Alike e') (key : Key) : Both Agree (e.openTxn key) (e'.openTxn key) := by
  obtain ⟨r, d, rfl⟩ := h
  refine (Both.same (e.store.get key)).bind ?_
  rintro i _ rfl
  dsimp only
  split
  · exact .failed _
  · exact .went ⟨rfl, r, d, rfl⟩

theorem Alike.abandon (h : e.Alike e') (key : Key) : (e.abandon key).Alike (e'.abandon key) :=
  h.update (·.abandon key) fun _ _ _ => rfl

theorem Alike.commitTxn (h : e.Alike e') (t : Transaction) (priority : Priority) :
    (e.commitTxn t priority).Alike (e'.commitTxn t priority) := by
  unfold Engine.commitTxn
  dsimp only
  split
  · exact (h.abandon t.key).enqueue ..
  · exact h.abandon _

theorem Alike.write (h : e.Alike e') (key : Key) (f : Transaction → Except Error Transaction) :
    Both Engine.Alike (e.write key f) (e'.write key f) := by
  refine (h.openTxn key).bind ?_
  rintro ⟨_, opened⟩ ⟨t, opened'⟩ ⟨rfl, hopened⟩
  refine (Both.same (f t)).bind ?_
  rintro t _ rfl
  exact .went (hopened.commitTxn ..)

/-! ### Ticks -/

theorem Alike.tick (h : e.Alike e') :
    e'.tick.1 = e.tick.1 ∧ e'.tick.2.1 = e.tick.2.1 ∧ e.tick.2.2.Alike e'.tick.2.2 := by
  obtain ⟨r, d, rfl⟩ := h
  obtain ⟨d', ht⟩ := Tick.run_alike ⟨e.config.tick, e.links, e.now⟩ e.tickSeq e.store e.diagnostics d
  have htick : tick { e with config := { e.config with reporting := r }, diagnostics := d } =
      let t := Tick.run ⟨e.config.tick, e.links, e.now⟩ e.tickSeq e.store d
      (t.report, t.changed,
        { e with
          config := { e.config with reporting := r }, store := t.store, diagnostics := t.diagnostics
          tickSeq := t.report.tickSeq, calls := e.calls ++ t.calls }) := rfl
  rw [htick, ht]
  exact ⟨rfl, rfl, r, d', rfl⟩

theorem Alike.tellTelemetry (h : e.Alike e') (r : TickReport) : (e.tellTelemetry r).Alike (e'.tellTelemetry r) := by
  have htells : (e'.telemetry && e'.samples r) = (e.telemetry && e.samples r) := by
    obtain ⟨_, _, rfl⟩ := h
    rfl
  unfold Engine.tellTelemetry
  rw [htells]
  split
  · exact h.note _
  · exact h

end Engine

/-! ## Scripts -/

open Engine (Agree)

/-- Run from engines that are alike, the tick reports the same and leaves them alike. -/
def Flushing.Even (flush : Flushing) : Prop := ∀ e e' : Engine, e.Alike e' → Agree (flush e) (flush e')

section

variable {flush : Flushing} (hf : flush.Even) {e e' : Engine}

theorem Act.ofWrite_agree (h : e.Alike e') {x x' : Except Error Engine} (hx : Both Engine.Alike x x') :
    Agree (Act.ofWrite e x) (Act.ofWrite e' x') := by
  cases hx with
  | failed err => exact ⟨rfl, h⟩
  | went hw => exact ⟨rfl, hw⟩

include hf

theorem Act.run_agree (h : e.Alike e') (target : Key) (payload : Value) (a : Act) :
    Agree (a.run flush target payload e) (a.run flush target payload e') := by
  cases a with
  | set path v => exact ofWrite_agree h (h.write target _)
  | setPayload path => exact ofWrite_agree h (h.write target _)
  | addPayload path =>
    unfold Act.run
    cases payload.asInt64? with
    | none => exact ⟨rfl, h⟩
    | some by_ => exact ofWrite_agree h (h.write target _)
  | flush => exact ⟨rfl, (hf e e' h).2⟩
  | fail text => exact ⟨rfl, h⟩
  | panic message => exact ⟨rfl, h⟩
  | sleep ms => exact ⟨rfl, h⟩

theorem Listener.follow_alike (l : Listener) (payload : Value) (acts : List Act) (h : e.Alike e') :
    (l.follow flush payload acts e).Alike (l.follow flush payload acts e') := by
  induction acts generalizing e e' with
  | nil => exact h
  | cons a acts ih =>
    obtain ⟨went, w, w', hx, hx', hw⟩ := (Act.run_agree hf h l.target payload a).out
    unfold Listener.follow
    rw [hx, hx']
    cases went with
    | well => exact ih hw
    | failed text => exact ih (hw.note _)
    | panicked message => exact hw.reportPanic ..

theorem Listener.call_alike (l : Listener) (state : Value) (h : e.Alike e') :
    (l.call flush state e).Alike (l.call flush state e') := l.follow_alike hf state l.acts (h.note _)

end

namespace Transaction.Running

variable {flush : Flushing} {b b' inner inner' : Running}

/-- The bodies are the same, and their engines alike. -/
def Alike (b b' : Running) : Prop := ∃ e, b.engine.Alike e ∧ b' = { b with engine := e }

theorem Alike.withEngine (h : b.Alike b') {e e' : Engine} (he : e.Alike e') :
    Running.Alike { b with engine := e } { b' with engine := e' } := by
  obtain ⟨_, -, rfl⟩ := h
  exact ⟨e', he, rfl⟩

theorem Alike.close (h : b.Alike b') (priority : Priority) : (b.close priority).Alike (b'.close priority) := by
  obtain ⟨e, he, rfl⟩ := h
  unfold Running.close
  dsimp only
  split
  · exact he.commitTxn ..
  · exact he.abandon _

theorem Alike.resume (h : b.Alike b') (hi : inner.Alike inner') (priority : Priority) :
    (b.resume inner priority).Alike (b'.resume inner' priority) := by
  have hclosed := hi.close priority
  obtain ⟨e, he, rfl⟩ := h
  obtain ⟨ei, hei, rfl⟩ := hi
  unfold Running.resume
  dsimp only
  split
  · exact ⟨_, hclosed, rfl⟩
  · exact ⟨_, hclosed, rfl⟩
  · exact ⟨_, hclosed, rfl⟩

mutual

theorem Alike.edit (hf : flush.Even) {b b' : Running} (h : b.Alike b') (x : Edit) :
    (b.edit flush x).Alike (b'.edit flush x) := by
  cases x with
  | set path v =>
    obtain ⟨e, he, rfl⟩ := h
    unfold Running.edit Running.write
    cases b.txn.set path v <;> exact ⟨e, he, rfl⟩
  | trySet path v =>
    obtain ⟨e, he, rfl⟩ := h
    unfold Running.edit Running.write
    cases b.txn.set path v <;> exact ⟨e, he, rfl⟩
  | flush =>
    obtain ⟨e, he, rfl⟩ := h
    obtain ⟨hreport, hflushed⟩ := hf _ _ he
    unfold Running.edit
    dsimp only
    rw [hreport]
    exact ⟨_, hflushed, rfl⟩
  | nested key priority body =>
    have hresume := fun inner inner' hi => @Alike.resume b b' inner inner' h hi priority
    obtain ⟨e, he, rfl⟩ := h
    unfold Running.edit
    dsimp only
    have hopen := he.openTxn key
    generalize b.engine.openTxn key = x at hopen
    generalize e.openTxn key = x' at hopen
    cases hopen with
    | failed err => exact ⟨e, he, rfl⟩
    | went hwent =>
      obtain ⟨t, opened, opened', rfl, rfl, hopened⟩ := hwent.out
      exact hresume _ _ (Alike.edits hf ⟨opened', hopened, rfl⟩ body)
  | _ =>
    obtain ⟨e, he, rfl⟩ := h
    unfold Running.edit
    exact ⟨e, he, rfl⟩

theorem Alike.edits (hf : flush.Even) {b b' : Running} (h : b.Alike b') (xs : List Edit) :
    (b.edits flush xs).Alike (b'.edits flush xs) := by
  cases xs with
  | nil =>
    unfold Running.edits
    exact h
  | cons x rest =>
    have hedit := Alike.edit hf h x
    have hending : (b'.edit flush x).ending = (b.edit flush x).ending := by
      obtain ⟨e, -, he⟩ := hedit
      rw [he]
    unfold Running.edits
    dsimp only
    rw [hending]
    split
    · exact Alike.edits hf hedit rest
    · exact hedit

end

end Transaction.Running

namespace Engine

variable {e e' : Engine}

theorem Alike.transact {flush : Flushing} (hf : flush.Even) (h : e.Alike e') (key : Key) (priority : Priority)
    (body : List Edit) :
    (e'.transact flush key priority body).1 = (e.transact flush key priority body).1
      ∧ Agree (e.transact flush key priority body).2 (e'.transact flush key priority body).2 := by
  have hopen := h.openTxn key
  unfold Engine.transact
  generalize e.openTxn key = x at hopen
  generalize e'.openTxn key = x' at hopen
  cases hopen with
  | failed err => exact ⟨rfl, rfl, h⟩
  | went hwent =>
    obtain ⟨t, opened, opened', rfl, rfl, hopened⟩ := hwent.out
    have hb : Transaction.Running.Alike ⟨opened, t, [], .done⟩ ⟨opened', t, [], .done⟩ := ⟨opened', hopened, rfl⟩
    have hdone := hb.edits hf body
    have hclosed := hdone.close priority
    obtain ⟨last, -, hlast⟩ := hdone
    dsimp only
    rw [hlast] at hclosed ⊢
    exact ⟨rfl, rfl, hclosed⟩

/-! ## Flushes -/

theorem flushNested_even (depth : Nat) : Flushing.Even (flushNested depth) := by
  induction depth with
  | zero =>
    intro e e' h
    obtain ⟨hreport, -, halike⟩ := h.tick
    exact ⟨hreport, halike⟩
  | succ depth ih =>
    intro e e' h
    obtain ⟨hreport, hchanged, halike⟩ := h.tick
    have hlisteners : e'.tick.2.2.listeners = e.tick.2.2.listeners := by
      obtain ⟨_, _, he⟩ := halike
      rw [he]
    unfold flushNested
    dsimp only
    rw [hreport, hchanged, hlisteners]
    exact ⟨rfl, (halike.foldl (fun (l, state) h => l.call_alike ih state h) _).tellTelemetry _⟩

theorem flush_even : Flushing.Even flush := flushNested_even maxNesting

theorem Alike.flushUntilIdle (h : e.Alike e') (n : Nat) : Agree (e.flushUntilIdle n) (e'.flushUntilIdle n) := by
  induction n generalizing e e' with
  | zero => exact ⟨rfl, h⟩
  | succ n ih =>
    obtain ⟨hreport, halike⟩ := flush_even e e' h
    obtain ⟨hreports, hrest⟩ := ih halike
    unfold Engine.flushUntilIdle
    dsimp only
    rw [hreport]
    split
    · exact ⟨rfl, halike⟩
    · exact ⟨congrArg (e.flush.1 :: ·) hreports, hrest⟩

theorem Alike.laneFlushed (h : e.Alike e') (key : Key) (f : Lane.Flush) :
    (e.laneFlushed key f).Alike (e'.laneFlushed key f) := by
  unfold Engine.laneFlushed
  rw [h.store]
  split
  · exact (flush_even _ _ (h.acceptDeferred key f)).2
  · exact h

end Engine

/-! ## Handlers -/

namespace Handler

variable {e e' : Engine}

theorem go_agree (w : Watcher) (payload : Value) (acts : List Act) (h : e.Alike e') :
    Agree (go w payload acts e) (go w payload acts e') := by
  induction acts generalizing e e' with
  | nil => exact ⟨rfl, h.note _⟩
  | cons a rest ih =>
    by_cases hsleep : ∃ ms, a = .sleep ms
    · obtain ⟨ms, rfl⟩ := hsleep
      unfold go
      split
      · exact ih h
      · exact ⟨by rw [h.now], h⟩
    · have hact : ∀ ms, a = .sleep ms → False := fun ms he => hsleep ⟨ms, he⟩
      rw [go.eq_3 w payload e a rest hact, go.eq_3 w payload e' a rest hact]
      obtain ⟨went, v, v', hx, hx', halike⟩ := (Act.run_agree Engine.flush_even h w.target payload a).out
      rw [hx, hx']
      cases went with
      | well => exact ih halike
      | failed text => exact ⟨rfl, halike⟩
      | panicked message => cases message <;> exact ⟨rfl, halike⟩

theorem turn_agree (k : Handler) (w : Watcher) (h : e.Alike e') : Agree (k.turn w e) (k.turn w e') := by
  have hbegun : Engine.Alike (if k.begun then e else e.note (.started w.label k.payload))
      (if k.begun then e' else e'.note (.started w.label k.payload)) := by
    split
    · exact h
    · exact h.note _
  obtain ⟨r, v, v', hx, hx', halike⟩ := (go_agree w k.payload k.rest hbegun).out
  unfold Handler.turn
  dsimp only
  rw [hx, hx']
  cases r with
  | inl r => exact ⟨rfl, halike⟩
  | inr r => exact ⟨rfl, halike⟩

end Handler

/-! ## Hosts -/

namespace Host

variable {h h' : Host}

/-- The hosts are the same, and their engines alike. -/
def Alike (h h' : Host) : Prop := ∃ e, h.engine.Alike e ∧ h' = { h with engine := e }

abbrev Agree {α : Type} (x x' : α × Host) : Prop := AgreeUpTo Host.Alike x x'

theorem Alike.engine (ha : h.Alike h') : h.engine.Alike h'.engine := by
  obtain ⟨e, he, rfl⟩ := ha
  exact he

theorem Alike.watchers (ha : h.Alike h') : h'.watchers = h.watchers := by
  obtain ⟨e, -, rfl⟩ := ha
  rfl

theorem Alike.alive (ha : h.Alike h') : h'.alive = h.alive := by
  obtain ⟨e, -, rfl⟩ := ha
  rfl

theorem Alike.watcher? (ha : h.Alike h') (id : Nat) : h'.watcher? id = h.watcher? id := by
  obtain ⟨e, -, rfl⟩ := ha
  rfl

theorem Alike.now (ha : h.Alike h') : h'.now = h.now := ha.engine.now

theorem Alike.withEngine (ha : h.Alike h') {e e' : Engine} (he : e.Alike e') :
    Host.Alike { h with engine := e } { h' with engine := e' } := by
  obtain ⟨_, -, rfl⟩ := ha
  exact ⟨e', he, rfl⟩

theorem Alike.withReady (ha : h.Alike h') (ready : List Turn) :
    Host.Alike { h with ready := ready } { h' with ready := ready } := by
  obtain ⟨e, he, rfl⟩ := ha
  exact ⟨e, he, rfl⟩

theorem Alike.withWatchers (ha : h.Alike h') (watchers : List Watcher) :
    Host.Alike { h with watchers := watchers } { h' with watchers := watchers } := by
  obtain ⟨e, he, rfl⟩ := ha
  exact ⟨e, he, rfl⟩

theorem Alike.foldl {α : Type} {f : Host → α → Host} (hf : ∀ {h h'} a, h.Alike h' → (f h a).Alike (f h' a))
    (l : List α) (ha : h.Alike h') : (l.foldl f h).Alike (l.foldl f h') :=
  List.foldl_rel ha fun a _ _ _ ha => hf a ha

theorem Alike.put (ha : h.Alike h') (w : Watcher) : (h.put w).Alike (h'.put w) := by
  obtain ⟨e, he, rfl⟩ := ha
  exact ⟨e, he, rfl⟩

theorem Alike.wake (ha : h.Alike h') (t : Turn) : (h.wake t).Alike (h'.wake t) := by
  obtain ⟨e, he, rfl⟩ := ha
  unfold Host.wake
  dsimp only
  split <;> exact ⟨e, he, rfl⟩

theorem Alike.wakeIf (ha : h.Alike h') (c : Bool) (t : Turn) : (h.wakeIf c t).Alike (h'.wakeIf c t) := by
  unfold Host.wakeIf
  split
  · exact ha.wake t
  · exact ha

theorem Alike.bury (ha : h.Alike h') : h.bury.Alike h'.bury := by
  unfold Host.bury
  rw [ha.alive, ha.watchers]
  split
  · exact ha
  · exact (ha.withWatchers _).foldl
      (f := fun (h : Host) w => h.wakeIf (w.registered && !w.attached && w.waitsForPayload) (.watcher w.id))
      (fun w ha => ha.wakeIf ..) h.watchers

/-! ### Turns -/

theorem Alike.turnWatcher (ha : h.Alike h') (w : Watcher) : (h.turnWatcher w).Alike (h'.turnWatcher w) := by
  unfold Host.turnWatcher
  rw [ha.alive]
  have hemitted := Engine.Alike.foldl (f := Engine.emit) (fun ev he => he.emit ev) (w.turn h.alive).events ha.engine
  exact (((ha.put _).withEngine hemitted).foldl (f := fun (h : Host) id => h.wake (.handler w.id id))
    (fun id ha => ha.wake _) (w.turn h.alive).started).bury

theorem Alike.turnHandler (ha : h.Alike h') (w : Watcher) (k : Handler) :
    (h.turnHandler w k).Alike (h'.turnHandler w k) := by
  obtain ⟨r, e, e', hx, hx', he⟩ := (k.turn_agree w ha.engine).out
  unfold Host.turnHandler
  rw [hx, hx']
  cases r with
  | inl r => exact ((ha.put _).withEngine he).bury.wakeIf _ _
  | inr k => exact (ha.put _).withEngine he

theorem Alike.take (ha : h.Alike h') (t : Turn) : (h.take t).Alike (h'.take t) := by
  cases t with
  | watcher id =>
    unfold Host.take
    dsimp only
    rw [ha.watcher?]
    split
    · exact ha.turnWatcher _
    · exact ha
  | handler wid id =>
    unfold Host.take
    dsimp only
    rw [ha.watcher?]
    split
    · exact ha
    · split
      · exact ha.turnHandler ..
      · exact ha

theorem Alike.takeTurns (ha : h.Alike h') (n : Nat) : (takeTurns n h).Alike (takeTurns n h') := by
  induction n generalizing h h' with
  | zero => exact ha
  | succ n ih =>
    have hready : h'.ready = h.ready := by
      obtain ⟨e, -, rfl⟩ := ha
      rfl
    unfold Host.takeTurns
    rw [hready]
    split
    · exact ha
    · exact ih ((ha.withReady _).take _)

theorem Alike.settle (ha : h.Alike h') : h.settle.Alike h'.settle := by
  have hbound : h'.turnBound = h.turnBound := by
    obtain ⟨e, -, rfl⟩ := ha
    rfl
  unfold Host.settle
  rw [hbound]
  exact ha.takeTurns _

/-! ### The clock -/

theorem Alike.setClock (ha : h.Alike h') (t : Time) : (h.setClock t).Alike (h'.setClock t) := by
  obtain ⟨e, ⟨r, d, rfl⟩, rfl⟩ := ha
  exact ⟨_, ⟨r, d, rfl⟩, rfl⟩

theorem Alike.nextDue (ha : h.Alike h') : h'.nextDue = h.nextDue := by
  obtain ⟨e, ⟨r, d, rfl⟩, rfl⟩ := ha
  rfl

theorem flushLane_alike {e e' : Engine} (he : e.Alike e') (key : Key) : (flushLane e key).Alike (flushLane e' key) := by
  unfold flushLane
  rw [he.store, he.now]
  split
  · exact he
  · split
    · exact he
    · split
      · dsimp only
        split
        · exact (he.withStore _).laneFlushed ..
        · exact he.withStore _
      · exact he

theorem Alike.wakeHandler (ha : h.Alike h') (wid : Nat) (k : Handler) :
    (h.wakeHandler wid k).Alike (h'.wakeHandler wid k) := by
  unfold Host.wakeHandler
  rw [ha.now, ha.watcher?]
  split
  · split
    · exact (ha.put _).wake _
    · exact ha
  · exact ha

theorem Alike.wakeAll (ha : h.Alike h') :
    (h.watchers.foldl (fun (h : Host) w => w.running.foldl (fun h k => h.wakeHandler w.id k) h) h).Alike
      (h'.watchers.foldl (fun (h : Host) w => w.running.foldl (fun h k => h.wakeHandler w.id k) h) h') := by
  rw [ha.watchers]
  exact ha.foldl (fun w ha => ha.foldl (fun k ha => ha.wakeHandler w.id k) w.running) h.watchers

theorem Alike.fireDue (ha : h.Alike h') : h.fireDue.Alike h'.fireDue := by
  have hflushed := fun keys => ha.withEngine
    (Engine.Alike.foldl (f := flushLane) (fun key he => flushLane_alike he key) keys ha.engine)
  unfold Host.fireDue
  rw [ha.alive, ha.engine.store]
  exact (hflushed _).wakeAll

theorem Alike.advanceWithin (ha : h.Alike h') (target : Time) (n : Nat) :
    (advanceWithin target n h).Alike (advanceWithin target n h') := by
  induction n generalizing h h' with
  | zero => exact ha.setClock target
  | succ n ih =>
    unfold Host.advanceWithin
    dsimp only
    rw [ha.settle.nextDue]
    split
    · exact ha.settle.setClock target
    · split
      · exact ih (ha.settle.setClock _).fireDue
      · exact ha.settle.setClock target

theorem Alike.advance (ha : h.Alike h') (ms : Nat) : (h.advance ms).Alike (h'.advance ms) := by
  unfold Host.advance
  rw [ha.now]
  exact ha.advanceWithin ..

theorem Alike.awaitWithin {p : Host → Bool} (hp : ∀ {h h' : Host}, h.Alike h' → p h' = p h) (ha : h.Alike h')
    (n : Nat) : (awaitWithin p n h).Alike (awaitWithin p n h') := by
  induction n generalizing h h' with
  | zero => exact ha
  | succ n ih =>
    unfold Host.awaitWithin
    dsimp only
    rw [ha.settle.nextDue, hp ha.settle]
    split
    · exact ha.settle
    · split
      · exact ha.settle
      · exact ih (ha.settle.setClock _).fireDue

theorem Alike.await {p : Host → Bool} (hp : ∀ {h h' : Host}, h.Alike h' → p h' = p h) (ha : h.Alike h') :
    (h.await p).Alike (h'.await p) := by
  unfold Host.await
  rw [hp ha]
  split
  · exact ha
  · exact ha.awaitWithin hp _

/-! ### Watchers -/

theorem Alike.watch (ha : h.Alike h') (key : Key) (action label : String) (target : Key) (acts : List Act) :
    Both Agree (h.watch key action label target acts) (h'.watch key action label target acts) := by
  have hclock : h'.engine.clock = h.engine.clock := by
    obtain ⟨e, ⟨_, _, rfl⟩, rfl⟩ := ha
    rfl
  unfold Host.watch
  rw [ha.engine.store, ha.watchers, hclock]
  refine (Both.same (h.engine.store.get key)).bind ?_
  rintro i _ rfl
  dsimp only
  split
  · exact .failed _
  · exact .went ⟨rfl, (ha.withWatchers _).wake _⟩

theorem Alike.detach (ha : h.Alike h') (id : Nat) : (h.detach id).Alike (h'.detach id) := by
  unfold Host.detach
  rw [ha.watcher?]
  split
  · exact ha
  · exact (ha.put _).wakeIf _ _

theorem Alike.warnPressure (ha : h.Alike h') (w : Watcher) : (h.warnPressure w).Alike (h'.warnPressure w) := by
  obtain ⟨e, ⟨r, d, rfl⟩, rfl⟩ := ha
  unfold Host.warnPressure
  split
  · exact ⟨_, ⟨r, d, rfl⟩, rfl⟩
  · exact ⟨_, ⟨r, _, rfl⟩, rfl⟩

theorem Alike.deliver (ha : h.Alike h') (w : Watcher) (payload : Value) :
    Agree (h.deliver w payload) (h'.deliver w payload) := by
  unfold Host.deliver
  split
  · exact ⟨rfl, ha⟩
  · exact ⟨rfl, (ha.put _).wakeIf _ _⟩

theorem Alike.trySend (ha : h.Alike h') (id : Nat) (payload : Value) :
    Agree (h.trySend id payload) (h'.trySend id payload) := by
  unfold Host.trySend
  rw [ha.watcher?]
  split
  · exact ⟨rfl, ha⟩
  · exact (ha.warnPressure _).deliver ..

theorem Alike.send (ha : h.Alike h') (id : Nat) (payload : Value) : Agree (h.send id payload) (h'.send id payload) := by
  unfold Host.send
  rw [ha.watcher?]
  split
  · exact ⟨rfl, ha⟩
  · rename_i w _
    have hawaited := (ha.warnPressure w).await (p := accepts id) fun ha => by
      unfold accepts
      rw [ha.watcher?]
    dsimp only
    rw [hawaited.watcher?]
    split
    · exact ⟨rfl, hawaited⟩
    · exact hawaited.deliver ..

theorem Alike.sendAll {one : Host → Nat → Option Error × Host}
    (hone : ∀ {h h' : Host} id, h.Alike h' → Agree (one h id) (one h' id)) (ids : List Nat) (ha : h.Alike h') :
    Agree (sendAll one ids h) (sendAll one ids h') := by
  induction ids generalizing h h' with
  | nil => exact ⟨rfl, ha⟩
  | cons id ids ih =>
    obtain ⟨err, next, next', hx, hx', hnext⟩ := (hone id ha).out
    unfold Host.sendAll
    rw [hx, hx']
    cases err with
    | none => exact ih hnext
    | some err => exact ⟨rfl, hnext⟩

theorem Alike.dispatchBy {send : Host → Nat → Value → Option Error × Host}
    (hsend : ∀ {h h' : Host} id v, h.Alike h' → Agree (send h id v) (send h' id v)) (ha : h.Alike h') (key : Key)
    (action : String) (payload : Value) :
    Agree (dispatchBy send h key action payload) (dispatchBy send h' key action payload) := by
  have hreached : h'.reached key action = h.reached key action := by
    obtain ⟨e, -, rfl⟩ := ha
    rfl
  unfold Host.dispatchBy
  rw [ha.engine.store, hreached]
  split
  · exact ⟨rfl, ha⟩
  · obtain ⟨err, next, next', hx, hx', hnext⟩ :=
      (ha.sendAll (fun id ha => hsend id payload ha) (h.reached key action)).out
    dsimp only
    rw [hx, hx']
    cases err with
    | none => exact ⟨rfl, hnext⟩
    | some err => exact ⟨rfl, hnext⟩

theorem Alike.dispatch (ha : h.Alike h') (key : Key) (action : String) (payload : Value) :
    Agree (h.dispatch key action payload) (h'.dispatch key action payload) :=
  ha.dispatchBy (fun id v ha => ha.send id v) key action payload

theorem Alike.tryDispatch (ha : h.Alike h') (key : Key) (action : String) (payload : Value) :
    Agree (h.tryDispatch key action payload) (h'.tryDispatch key action payload) :=
  ha.dispatchBy (fun id v ha => ha.trySend id v) key action payload

theorem Alike.cancel (ha : h.Alike h') (id : Nat) : (h.cancel id).Alike (h'.cancel id) := by
  unfold Host.cancel
  rw [ha.watcher?]
  split
  · exact ha
  · exact (ha.put _).wakeIf _ _

theorem Alike.join (ha : h.Alike h') (id : Nat) : Agree (h.join id) (h'.join id) := by
  have hawaited := (ha.detach id).await (p := fun h => ((h.watcher? id).map (·.closed)).getD true) fun ha => by
    rw [ha.watcher?]
  refine ⟨?_, hawaited⟩
  unfold Host.join
  dsimp only
  rw [hawaited.watcher?]

theorem Alike.shutdown (ha : h.Alike h') (id : Nat) : Agree (h.shutdown id) (h'.shutdown id) := (ha.cancel id).join id

theorem Alike.release (ha : h.Alike h') : h.release.Alike h'.release := by
  refine Alike.bury ?_
  obtain ⟨e, he, rfl⟩ := ha
  exact ⟨e, he, rfl⟩

end Host

/-! ## Calls -/

namespace Host

variable {h h' : Host}

theorem Alike.engineDid {α : Type} (ha : h.Alike h') (f : α → Answer) {x x' : Except Error (α × Engine)}
    (hx : Both Engine.Agree x x') : Agree (h.engineDid f x) (h'.engineDid f x') := by
  cases hx with
  | failed err => exact ⟨rfl, ha⟩
  | went hwent =>
    obtain ⟨a, e, e', rfl, rfl, he⟩ := hwent.out
    exact ⟨rfl, ha.withEngine he⟩

theorem Agree.map {α : Type} {x x' : α × Host} (hx : Agree x x') (f : α → Answer) :
    Agree (f x.1, x.2) (f x'.1, x'.2) := ⟨congrArg f hx.1, hx.2⟩

theorem Alike.answers {α : Type} (ha : h.Alike h') {x x' : α × Engine} (hx : Engine.Agree x x') (f : α → Answer) :
    Agree (f x.1, { h with engine := x.2 }) (f x'.1, { h' with engine := x'.2 }) :=
  ⟨congrArg f hx.1, ha.withEngine hx.2⟩

theorem Alike.perform (ha : h.Alike h') (c : Call) : Agree (h.perform c) (h'.perform c) := by
  have he := ha.engine
  have hunit {x x' : Except Error Engine} (hx : Both Engine.Alike x x') :
      Both Engine.Agree (x.map ((), ·)) (x'.map ((), ·)) := by
    cases hx with
    | failed err => exact .failed err
    | went hw => exact .went ⟨rfl, hw⟩
  cases c with
  | register d id initial => exact ha.engineDid _ (he.register d id initial)
  | override key provider => exact ha.engineDid _ (hunit (he.override key provider))
  | link source sourcePath target targetPath => exact ha.engineDid _ (he.link source sourcePath target targetPath)
  | set key path v => exact ha.engineDid _ (hunit (he.write key _))
  | transact key priority body =>
    obtain ⟨hhow, hreplies, hnext⟩ := he.transact Engine.flush_even key priority body
    have hanswer := congr (congrArg Answer.ended hhow) hreplies
    exact ⟨hanswer, ha.withEngine hnext⟩
  | read key path => exact ⟨congrArg (Answer.ofExcept .found) (he.read key path), ha⟩
  | flush => exact ha.answers (Engine.flush_even _ _ he) fun r => .reports [r]
  | flushUntilIdle n => exact ha.answers (he.flushUntilIdle n) .reports
  | subscribe key label target acts => exact ha.engineDid _ (he.subscribe key label target acts)
  | unsubscribe id => exact ha.answers (he.unsubscribe id) .flag
  | telemetry => exact ⟨rfl, ha.withEngine (he.update (fun e => { e with telemetry := true }) fun _ _ _ => rfl)⟩
  | watch key action label target acts =>
    have hwatch := ha.watch key action label target acts
    unfold Host.perform
    dsimp only
    generalize h.watch key action label target acts = x at hwatch
    generalize h'.watch key action label target acts = x' at hwatch
    cases hwatch with
    | failed err => exact ⟨rfl, ha⟩
    | went hwent =>
      obtain ⟨id, w, w', rfl, rfl, hw⟩ := hwent.out
      exact ⟨rfl, hw⟩
  | dispatch key action payload => exact (ha.dispatch key action payload).map (.ofExcept .number)
  | tryDispatch key action payload => exact (ha.tryDispatch key action payload).map (.ofExcept .number)
  | send id payload => exact (ha.send id payload).map .ofRefusal
  | trySend id payload => exact (ha.trySend id payload).map .ofRefusal
  | cancel id => exact ⟨rfl, ha.cancel id⟩
  | detach id => exact ⟨rfl, ha.detach id⟩
  | join id => exact (ha.join id).map .stats
  | shutdown id => exact (ha.shutdown id).map .stats
  | advance ms => exact ⟨rfl, ha.advance ms⟩
  | release => exact ⟨rfl, ha.release⟩

theorem Alike.story (ha : h.Alike h') (calls : List Call) : h'.story calls = h.story calls := by
  induction calls generalizing h h' with
  | nil => rfl
  | cons c calls ih =>
    obtain ⟨hanswer, hnext⟩ := ha.perform c
    unfold Host.story
    dsimp only
    rw [hanswer, hnext.engine.store, ih hnext]

theorem Alike.after (ha : h.Alike h') (calls : List Call) : (h.after calls).Alike (h'.after calls) :=
  ha.foldl (fun c ha => (ha.perform c).2) calls

/-- Of two hosts that are asked for the same things, neither what diagnostics report nor
the sink they go to tells in an answer, or in what any instance has committed, pending or
queued after any call. -/
theorem diagnostics_silent (config : Policy.Config) (r r' : Policy.Reporting) (sink sink' : Sink) (clocked : Bool)
    (calls : List Call) :
    let h := Host.ofEngine (.ofSink { config with reporting := r } sink clocked)
    let h' := Host.ofEngine (.ofSink { config with reporting := r' } sink' clocked)
    h'.story calls = h.story calls ∧ (h.after calls).Alike (h'.after calls) := by
  intro h h'
  have ha : h.Alike h' := ⟨h'.engine, ⟨r', .ofSink r' sink', rfl⟩, rfl⟩
  exact ⟨ha.story calls, ha.after calls⟩

end Host

end Settle
