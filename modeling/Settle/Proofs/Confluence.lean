/-
  Settle.Proofs.Confluence — how deferred steps run makes no difference in the end (see
  `Settle.Instance.Apply`).

  An instance is run from rest (`Ran`): users queue commits, units merge what is queued,
  at any time and stopped at any point, and the lane takes in and hands out deferred work
  as it likes. Units write the fields of steps alone, so what stands around those fields
  is what the commits made of it, in whatever way the steps ran (`Ran.traced`). Once
  nothing is queued and the lane is empty every step is settled as well, and two runs of
  the same commits end in states that count as the same (`Rested.states_agree`).

  Both conditions that go beyond an order without cycles are needed: a step that depends
  on its own field shows how often it ran, and a derive function that tells the two zeros
  apart shows which one an unchanged field kept (`Instance.courses_part`).
-/

import Settle.Formula
import Settle.Proofs.Acyclic
import Settle.Proofs.Instance

namespace Settle

namespace Graph

variable {g : Graph}

/-- What a declaration is taken to be: its steps do not depend on each other in a circle
and write fields that do not overlap, they compare values by what counts as the same, and
its derive functions read their dependencies alone and never fail. -/
structure Plain (g : Graph) : Prop where
  acyclic : g.orders.all.hasBackEdges = false
  separate : ∀ i j s t, g.step? i = some s → g.step? j = some t → g.table.overlap s.out t.out = true → i = j
  structural : g.Structural
  local_ : g.Local
  total : g.Total

/-- It is enough to look at each two steps once. -/
theorem separate_of_pairwise
    (h : g.steps.Pairwise fun s t => g.table.overlap s.out t.out = false ∧ g.table.overlap t.out s.out = false)
    (i j : StepId) (s t : Step) (hs : g.step? i = some s) (ht : g.step? j = some t)
    (ho : g.table.overlap s.out t.out = true) : i = j := by
  obtain ⟨hi, rfl⟩ := List.getElem?_eq_some_iff.1 hs
  obtain ⟨hj, rfl⟩ := List.getElem?_eq_some_iff.1 ht
  have hpair := List.pairwise_iff_getElem.1 h
  rcases Nat.lt_trichotomy i j with hlt | heq | hlt
  · rw [(hpair i j hi hj hlt).1] at ho
    cases ho
  · exact heq
  · rw [(hpair j i hj hi hlt).2] at ho
    cases ho

theorem Plain.apart (h : g.Plain) (hg : g.WellFormed) : State.Apart g.outs where
  keys := fun o ho => by
    obtain ⟨i, -, ho⟩ := List.mem_filterMap.1 ho
    obtain ⟨s, hs, ho⟩ := out?_eq_some.1 ho
    obtain ⟨p, hp, hw⟩ := hg.out hs
    cases ho.symm.trans hp
    exact hw
  eq := fun o ho p hp hov => by
    obtain ⟨i, -, ho⟩ := List.mem_filterMap.1 ho
    obtain ⟨j, -, hp⟩ := List.mem_filterMap.1 hp
    obtain ⟨s, hs, hso⟩ := out?_eq_some.1 ho
    obtain ⟨t, ht, htp⟩ := out?_eq_some.1 hp
    obtain rfl := h.separate i j s t hs ht (by rw [PathTable.overlap_iff hso htp]; exact hov)
    exact Option.some.inj (ho.symm.trans hp)

/-- Patches of steps record writes of their fields. -/
theorem mem_outs_of_writesOf (hg : g.WellFormed) {ps : List Patch} {w : Path × Value} (hw : w ∈ g.writesOf ps) :
    w.1 ∈ g.outs := by
  obtain ⟨p, -, hw⟩ := List.mem_filterMap.1 hw
  obtain ⟨i, -, hw⟩ := Option.bind_eq_some_iff.1 hw
  obtain ⟨s, hs, hw⟩ := Option.bind_eq_some_iff.1 hw
  obtain ⟨o, ho, hw⟩ := Option.bind_eq_some_iff.1 hw
  obtain ⟨v, -, rfl⟩ := Option.map_eq_some_iff.1 hw
  exact List.mem_filterMap.2 ⟨i, hg.mem_all.2 ⟨s, hs⟩, out?_eq_some.2 ⟨s, hs, ho⟩⟩

end Graph

/-- What a change does to the state. -/
def Change.edit (c : Change) : Option Value × List (Location × Value) := (c.replace, c.writes)

/-- The state that commits make of a state. -/
def Commit.applyAll (cs : List Commit) (v : Value) : Value := cs.foldl (fun s c => c.change.applyTo s) v

theorem Commit.applyAll_congr {cs ds : List Commit} (h : cs.map (·.change.edit) = ds.map (·.change.edit)) (v : Value) :
    applyAll cs v = applyAll ds v := by
  induction cs generalizing ds v with
  | nil =>
    cases ds with
    | nil => rfl
    | cons d ds => cases h
  | cons c cs ih =>
    cases ds with
    | nil => cases h
    | cons d ds =>
      obtain ⟨hcd, hrest⟩ := List.cons.inj h
      obtain ⟨hreplace, hwrites⟩ := Prod.mk.inj hcd
      have hstep : c.change.applyTo v = d.change.applyTo v := by
        unfold Change.applyTo
        rw [hreplace, hwrites]
      show applyAll cs (c.change.applyTo v) = applyAll ds (d.change.applyTo v)
      rw [hstep, ih hrest]

namespace Instance

variable {c : Compiled} {i₀ i i' : Instance} {cs : List Commit}

/-! ## Runs -/

/-- What may happen to the lane of an instance while its policies stand. -/
inductive Laned : Instance → Instance → Prop
  | signal (i : Instance) (l : Lane) (now : Time) (d : DirtySet) : i.lane = some l →
      Laned i ({ i with lane := some (l.signal now d).2 }.requeue (l.signal now d).1)
  | flush (i : Instance) (l : Lane) : i.lane = some l → Laned i ({ i with lane := some l.fire.2 }.requeue l.fire.1)
  | cancel (i : Instance) (l : Lane) (reason : LaneReason) : i.lane = some l →
      Laned i ({ i with lane := some (l.cancel reason).2 }.requeue (l.cancel reason).1)
  | sync (i : Instance) (clocked : Bool) : Laned i ((i.syncLane clocked).2.requeue (i.syncLane clocked).1)

/-- Whatever happens to an instance, with the commits that users queued on it on the way.
Each tells every read that it changes and replaces no structure that the write of a step
goes through. Units may be stopped by a cap, by a time budget or by the budget they are
given, and leave the rest to later ones. -/
inductive Ran (i₀ : Instance) : List Commit → Instance → Prop
  | start : Ran i₀ [] i₀
  | commit {cs : List Commit} {i : Instance} (c : Commit) : Ran i₀ cs i →
      i.executor.graph.Covers (i.executor.wiring.order .all) c.change.dirty i.pending (c.change.applyTo i.pending) →
      i.executor.graph.Open (c.change.applyTo i.pending) → Ran i₀ (cs ++ [c]) (i.enqueue c)
  | unit {cs : List Commit} {i : Instance} (u : WorkUnit) (clock : Nat → Nat → Bool) (now : Time) (d : Diagnostics)
      (budget : Option Nat) : Ran i₀ cs i → i.takeUnit.1 = some u →
      Ran i₀ cs (i.takeUnit.2.applyUnder clock u now d budget).inst
  | lane {cs : List Commit} {i i' : Instance} : Ran i₀ cs i → Laned i i' → Ran i₀ cs i'

theorem Laned.step (h : Laned i i') : Step i i' := by
  cases h with
  | signal l now d hl => exact .signal i l now d hl
  | flush l hl => exact .flush i l hl
  | cancel l reason hl => exact .cancel i l reason hl
  | sync clocked => exact .sync i clocked

/-- Work that the lane hands out writes nothing. -/
theorem requeue_pending (i : Instance) (lane : Option Lane) (f : Option Lane.Flush) :
    ({ i with lane := lane }.requeue f).pending = i.pending := by
  cases f with
  | none => rfl
  | some f => rfl

theorem Laned.pending (h : Laned i i') : i'.pending = i.pending := by
  cases h with
  | signal l now d hl => exact requeue_pending i _ _
  | flush l hl => exact requeue_pending i _ _
  | cancel l reason hl => exact requeue_pending i _ _
  | sync clocked =>
    obtain ⟨lane, f, he, -⟩ := syncLane_cases (g := i.executor.graph) i clocked
    rw [he]
    exact requeue_pending i lane f

/-- What a run keeps: it takes steps that account for their work, writes of steps stay
open, and around their fields stands what the commits made of the state at the start. -/
structure Traced (c : Compiled) (i₀ : Instance) (cs : List Commit) (i : Instance) : Prop where
  reached : Reached i₀ i
  opened : c.graph.Open i.pending
  around : ∀ f, State.fill c.graph.outs f i.pending = State.fill c.graph.outs f (Commit.applyAll cs i₀.state)

section

variable {decl : Declaration} (hc : c.Of decl) (hp : c.graph.Plain) (hself : c.graph.SelfFree) (h₀ : Quiet c i₀)

include hc hp hself h₀

theorem Reached.accounted (h : Reached i₀ i) : Accounted c.graph c.wiring i :=
  (h₀.accounted hc).reached hp.local_ hp.structural.reflexive hself hp.total h

/-- A unit writes the fields of steps alone. -/
theorem Traced.unit (h : Traced c i₀ cs i) {u : WorkUnit} (hu : i.takeUnit.1 = some u) (clock : Nat → Nat → Bool)
    (now : Time) (d : Diagnostics) (budget : Option Nat) :
    Traced c i₀ cs (i.takeUnit.2.applyUnder clock u now d budget).inst := by
  have hg := hc.wired.graph
  have hapart := hp.apart hg
  have hacc := Reached.accounted hc hp hself h₀ h.reached
  have hstart : u.change.applyTo i.state = i.pending := by
    rw [(WorkUnit.gathers_merge? (g := c.graph) hu).applyTo, ← hacc.pending]
  have hfit : ∀ ps, State.fitsAll (u.change.applyTo i.state) (c.graph.writesOf ps) = true := fun ps => by
    rw [hstart]
    exact hapart.fitsAll (fun w hw => Graph.mem_outs_of_writesOf hg hw) h.opened
  obtain ⟨htracks, -, -, hqueue⟩ := (hacc.but fun _ => False).ended hp.local_ hp.structural.reflexive hself hu clock now
    d budget rfl (hfit _)
  obtain ⟨ps, -, hdraft⟩ := htracks.logged
  have hpending := (applyUnder_leaves clock i.takeUnit.2 u now d budget).pending hqueue
  rw [hdraft, hstart] at hpending
  have hws : ∀ w ∈ c.graph.writesOf ps, w.1 ∈ c.graph.outs := fun w hw => Graph.mem_outs_of_writesOf hg hw
  refine ⟨h.reached.step (.unit i u clock now d budget _ hu rfl ?_), ?_, fun f => ?_⟩
  · rw [hacc.graph]
    exact hfit _
  · rw [hpending]
    exact hapart.open_writeAll hws h.opened
  · rw [hpending, State.fill_writeAll hapart hws, h.around]

theorem Ran.traced (hopen : c.graph.Open i₀.state) (h : Ran i₀ cs i) : Traced c i₀ cs i := by
  induction h with
  | start =>
    refine ⟨.refl, ?_, fun f => ?_⟩
    · rw [h₀.pending]
      exact hopen
    · rw [h₀.pending]
      rfl
  | @commit cs i e _ hcovers hopen ih =>
    have hacc := Reached.accounted hc hp hself h₀ ih.reached
    rw [hacc.graph] at hopen
    refine ⟨ih.reached.step (.enqueue i e hcovers), hopen, fun f => ?_⟩
    rw [Commit.applyAll, List.foldl_append]
    exact e.change.fill_applyTo (hp.apart hc.wired.graph) (ih.around f)
  | unit u clock now d budget _ hu ih => exact ih.unit hc hp hself h₀ hu clock now d budget
  | lane _ hl ih =>
    refine ⟨ih.reached.step hl.step, ?_, fun f => ?_⟩
    · rw [hl.pending]
      exact ih.opened
    · rw [hl.pending]
      exact ih.around f

end

/-! ## Commits that set a field -/

/-- The instance after a unit of all that is queued, if anything is. -/
def drained (i : Instance) : Instance :=
  match i.takeUnit.1 with
  | none => i
  | some u => (i.takeUnit.2.applyUnder (fun _ _ => false) u 0 (.ofReporting .builtin false) none).inst

/-- The instance after its lane, if it has one, has handed out what waits in it. -/
def flushed (i : Instance) : Instance :=
  match i.lane with
  | none => i
  | some l => { i with lane := some l.fire.2 }.requeue l.fire.1

theorem drained_graph (hs : i.executor.Sound) : i.drained.executor.graph = i.executor.graph := by
  unfold Instance.drained
  split
  · rfl
  · rename_i u _
    have hworks : Run.Works i.executor.graph i.executor.wiring
        (i.takeUnit.2.begin (fun _ _ => false) u (.ofReporting .builtin false) none) :=
      (begin_tracks (i := i.takeUnit.2) hs).toWorks
    have hlane : (i.takeUnit.2.begin (fun _ _ => false) u (.ofReporting .builtin false) none).inst.lane
        = i.takeUnit.2.lane := by
      rw [begin_inst]
    obtain ⟨_, hfollows⟩ := converge_follows (u := u) hworks hlane 0
    exact hfollows.graph.trans hworks.graph

theorem Ran.drained (h : Ran i₀ cs i) : Ran i₀ cs i.drained := by
  unfold Instance.drained
  split
  · exact h
  · exact .unit _ _ _ _ _ h ‹_›

theorem Ran.flushed (h : Ran i₀ cs i) : Ran i₀ cs i.flushed := by
  unfold Instance.flushed
  split
  · exact h
  · exact .lane h (.flush _ _ ‹_›)

end Instance

/-- The commit that sets a field. -/
def Commit.set (p : Path) (v : Value) : Commit :=
  ⟨0, .transaction, .normal,
    { Change.empty with writes := [(.ofKeys p, v)], dirty := .ofPaths [p] }⟩

namespace Instance

variable {c : Compiled} {i₀ i i' : Instance} {cs : List Commit}

/-- Setting a field apart from those of steps tells what it changes and stands in no way. -/
theorem Ran.set (h : Ran i₀ cs i) {p : Path} (hp : p.hasWildcard = false) (hx : State.Open i.pending p.segments)
    (hopen : i.executor.graph.Open i.pending) (hfree : ∀ o ∈ i.executor.graph.outs, ¬ p.overlaps o) (v : Value) :
    Ran i₀ (cs ++ [.set p v]) (i.enqueue (.set p v)) := by
  have hwrite : (Commit.set p v).change.applyTo i.pending = (State.write i.pending p v).state :=
    (State.write_eq_put hp i.pending v).symm
  refine .commit _ h ?_ ?_
  · intro j _ s k q _ _ _ hne
    rw [hwrite] at hne
    refine DirtySet.touches_ofPaths.2 ⟨p, List.mem_singleton.2 rfl, Classical.byContradiction fun ho => hne ?_⟩
    rw [Path.overlaps_comm] at ho
    exact (State.read_write hp hx.fits ho v).symm
  · intro o ho
    rw [hwrite, State.write_eq_put hp]
    exact (hopen o ho).put (fun hpre => absurd (Path.overlaps_iff.2 (.inl (Path.covers_iff.2 hpre))) (hfree o ho)) v

/-! ## Runs from rest to rest -/

/-- A run of these commits from one state of rest to another. -/
structure Rested (c : Compiled) (i₀ : Instance) (cs : List Commit) (i : Instance) : Prop where
  quiet : Quiet c i₀
  opened : c.graph.Open i₀.state
  ran : Ran i₀ cs i
  queue : i.queue = []
  lane : i.lanePending = false
  linked : c.graph.Linked i.state

/-- At rest every step is settled. -/
theorem Rested.settled {decl : Declaration} (hc : c.Of decl) (hp : c.graph.Plain) (hself : c.graph.SelfFree)
    (h : Rested c i₀ cs i) : ∀ j ∈ c.graph.orders.all.order, c.graph.Settled i.state j := by
  intro j hj
  have hacc := Reached.accounted hc hp hself h.quiet (h.ran.traced hc hp hself h.quiet h.opened).reached
  obtain ⟨s, hs⟩ := hc.wired.graph.mem_all.1 hj
  have hj : j ∈ c.wiring.order .all := hc.wired.mem_order.2 ⟨s, hs, rfl⟩
  exact Classical.byContradiction fun hn => not_covered hc.wired h.queue h.lane hj (hacc.covered j hj hn)

/-- However deferred steps ran, and whenever, the same commits lead from the same state of
rest to states that count as the same. The two instances may differ in their policies and
lanes. -/
theorem Rested.states_agree {decl : Declaration} (hc : c.Of decl) (hp : c.graph.Plain) (hself : c.graph.SelfFree)
    (hresp : c.graph.Respects) {i₀ j₀ i j : Instance} {cs ds : List Commit} (hi : Rested c i₀ cs i)
    (hj : Rested c j₀ ds j) (hstart : i₀.state = j₀.state) (hsame : cs.map (·.change.edit) = ds.map (·.change.edit)) :
    i.state.same j.state = true := by
  have hg := hc.wired.graph
  have hpending : ∀ {i₀ i : Instance} {cs : List Commit}, Rested c i₀ cs i → Traced c i₀ cs i ∧ i.pending = i.state := by
    intro i₀ i cs h
    have htraced := h.ran.traced hc hp hself h.quiet h.opened
    refine ⟨htraced, ?_⟩
    rw [(Reached.accounted hc hp hself h.quiet htraced.reached).pending, h.queue]
    rfl
  obtain ⟨hti, hpi⟩ := hpending hi
  obtain ⟨htj, hpj⟩ := hpending hj
  obtain ⟨n, hcompile⟩ := hc.graph
  refine Graph.same_of_settled hg (hp.apart hg) hp.local_ hresp hp.structural hself hp.total (hi.settled hc hp hself)
    (hj.settled hc hp hself) hi.linked hj.linked (Graph.compile_pairwise hcompile .all hp.acyclic) (hpi ▸ hti.opened)
    (hpj ▸ htj.opened) (f := fun _ => .null) ?_
  rw [← hpi, ← hpj, hti.around, htj.around, hstart, Commit.applyAll_congr hsame]

/-! ## Courses -/

/-- An instance at a state, with policies under which one pass covers every step. -/
def direct (c : Compiled) (v : Value) : Instance := .ofCompiled ⟨"course", "1"⟩ c .empty Relay.inlined v

/-- An instance at a state, whose deferred steps are left to a lane. -/
def laned (c : Compiled) (v : Value) : Instance :=
  { Instance.ofCompiled ⟨"course", "1"⟩ c .empty Relay.sliced v with lane := some (.ofSettings ⟨50, 1000, true, 8⟩) }

/-- The instance after a field is set and a unit has run. -/
def afterSet (p : Path) (v : Value) (i : Instance) : Instance := (i.enqueue (.set p v)).drained

/-- A field is set twice, each time with a unit; then the lane is flushed. -/
def course (p : Path) (v w : Value) (i : Instance) : Instance := ((i.afterSet p v).afterSet p w).flushed.drained

/-- The state of an instance, if nothing is queued on it and its lane is empty. -/
def resting? (i : Instance) : Option Value := if i.queue.isEmpty && !i.lanePending then some i.state else none

theorem resting?_eq_some {v : Value} (h : i.resting? = some v) : i.queue = [] ∧ i.lanePending = false ∧ i.state = v := by
  unfold resting? at h
  split at h
  · rename_i hidle
    obtain ⟨hq, hl⟩ := Bool.and_eq_true_iff.1 hidle
    exact ⟨List.isEmpty_iff.1 hq, by simpa using hl, Option.some.inj h⟩
  · cases h

/-- A course of an instance whose fields all stand at the top. -/
theorem Rested.course {decl : Declaration} (hc : c.Of decl) {p : Path} {v w u : Value} {fs gs : Fields}
    (hq : Quiet c i₀) (hp : p.hasWildcard = false) (hfree : ∀ o ∈ c.graph.outs, ¬ p.overlaps o)
    (hflat : ∀ o ∈ p :: c.graph.outs, o.segments.length = 1) (h₀ : i₀.state = .obj fs) (hfs : Fields.Ordered fs)
    (hgs : Fields.Ordered gs)
    (hseen : (i₀.afterSet p v).pending = .obj gs ∧ (course p v w i₀).resting? = some u) (hlinked : c.graph.Linked u) :
    Rested c i₀ [.set p v, .set p w] (course p v w i₀) := by
  obtain ⟨hqueue, hlane, rfl⟩ := resting?_eq_some hseen.2
  have hopen : ∀ {fs : Fields}, Fields.Ordered fs → ∀ o ∈ p :: c.graph.outs, State.Open (.obj fs) o.segments :=
    fun hfs o ho => State.open_of_length_eq_one hfs (hflat o ho)
  have hset : ∀ {cs : List Commit} {i : Instance} {fs : Fields}, Ran i₀ cs i → i.executor.graph = c.graph →
      i.pending = .obj fs → Fields.Ordered fs → ∀ v, Ran i₀ (cs ++ [.set p v]) (i.afterSet p v) := by
    intro cs i fs hran hg hpending hfs v
    refine (hran.set hp ?_ ?_ (hg ▸ hfree) v).drained
    · rw [hpending]
      exact hopen hfs p List.mem_cons_self
    · rw [hpending, hg]
      exact fun o ho => hopen hfs o (List.mem_cons_of_mem _ ho)
  have hg : i₀.executor.graph = c.graph := hq.executor.same.1
  have hgraph : (i₀.afterSet p v).executor.graph = c.graph :=
    (drained_graph (i := i₀.enqueue (.set p v)) (hq.executor.sound hc)).trans hg
  refine ⟨hq, ?_, ?_, hqueue, hlane, hlinked⟩
  · rw [h₀]
    exact fun o ho => hopen hfs o (List.mem_cons_of_mem _ ho)
  have hfirst : Ran i₀ [.set p v] (i₀.afterSet p v) := hset .start hg (hq.pending.trans h₀) hfs v
  exact (hset hfirst hgraph hseen.1 hgs w).flushed.drained

end Instance

/-! ## Fields that formulas read -/

theorem View.get_of_parse {s : String} {p : Path} (h : Path.parse s = .ok p) (v : View) :
    v.get s = ((State.read v.state p).getD .null, v.keep [p]) := by
  simp only [View.get, h]

theorem View.keep_nil (v : View) : v.keep [] = v := by
  unfold keep
  split
  · rw [List.append_nil]
  · rfl

theorem View.keep_keep (v : View) (ps qs : List Path) : (v.keep ps).keep qs = v.keep (ps ++ qs) := by
  unfold keep
  cases htraced : v.traced with
  | true => simp only [if_true, List.append_assoc]
  | false => simp only [Bool.false_eq_true, if_false, htraced]

namespace Formula

/-- A reading that gives a value is followed by the rest, on the view it leaves. -/
theorem bind_of_ok {α β : Type} {m : Reading α} {f : α → Reading β} {v v' : View} {a : α} (h : m v = (.ok a, v')) :
    (m >>= f) v = f a v' := by
  simp only [bind, ExceptT.bind, ExceptT.mk, StateT.bind, h]
  rfl

/-- Formulas that read fields give what stands there, or null. -/
theorem evalAll_get (ss : List String) (ps : List Path) (h : ss.map Path.parse = ps.map .ok) (v : View) :
    evalAll (ss.map .get) v = (.ok (ps.map fun p => (State.read v.state p).getD .null), v.keep ps) := by
  induction ss generalizing ps v with
  | nil =>
    cases ps with
    | nil =>
      simp only [List.map_nil, evalAll, View.keep_nil]
      rfl
    | cons p ps => cases h
  | cons s ss ih =>
    cases ps with
    | nil => cases h
    | cons p ps =>
      obtain ⟨hs, hss⟩ := List.cons.inj h
      have hget : eval (.get s) v = (.ok ((State.read v.state p).getD .null), v.keep [p]) := by
        simp only [eval, reading, View.get_of_parse hs]
      rw [List.map_cons, evalAll, bind_of_ok hget, bind_of_ok (ih ps hss _), View.keep_keep, View.keep_state]
      rfl

end Formula

namespace Relay

theorem plain : graph.Plain where
  acyclic := rfl
  separate := Graph.separate_of_pairwise (by decide)
  structural := Graph.structural_of_mem (by simp [graph])
  local_ := local_
  total := total

theorem respects : graph.Respects := by
  intro i s d eq hs hb v w hd
  match i with
  | 0 =>
    cases hs
    cases hb
    have hx := hd 2 List.mem_cons_self x rfl
    simp only [derive, Derive.ofRun_run, Except.map]
    revert hx
    cases State.read v x <;> cases State.read w x <;> simp
  | 1 => cases hb
  | _ + 2 => cases hb

theorem linked {x a b : Int} : graph.Linked (state x a b) := by
  intro i s p hs hb hp
  match i with
  | 0 => cases hb
  | 1 =>
    cases hs
    cases hp
    rfl
  | _ + 2 => cases hs

theorem ordered (x a b : Int) : Fields.Ordered [("a", .int a), ("b", .int b), ("x", .int x)] :=
  Fields.ordered_of_keys (show ["a", "b", "x"].Pairwise (· < ·) by decide)

theorem direct_rested : Instance.Rested compiled (.direct compiled (state 1 1 1)) [.set x (.int 2), .set x (.int 3)]
    (.course x (.int 2) (.int 3) (.direct compiled (state 1 1 1))) := by
  have hseen : ((Instance.direct compiled (state 1 1 1)).afterSet x (.int 2)).pending = state 2 2 2 ∧
      (Instance.course x (.int 2) (.int 3) (.direct compiled (state 1 1 1))).resting? = some (state 3 3 3) := by
    cbv
  exact .course compiled_of ⟨.ofCompiled _, rfl, rfl, settled_at_rest⟩ rfl (by decide) (by decide) rfl
    (ordered 1 1 1) (ordered 2 2 2) hseen linked

theorem laned_rested : Instance.Rested compiled (.laned compiled (state 1 1 1)) [.set x (.int 2), .set x (.int 3)]
    (.course x (.int 2) (.int 3) (.laned compiled (state 1 1 1))) := by
  have hseen : ((Instance.laned compiled (state 1 1 1)).afterSet x (.int 2)).pending = state 2 2 1 ∧
      (Instance.course x (.int 2) (.int 3) (.laned compiled (state 1 1 1))).resting? = some (state 3 3 3) := by
    cbv
  exact .course compiled_of ⟨.ofCompiled _, rfl, rfl, settled_at_rest⟩ rfl (by decide) (by decide) rfl
    (ordered 1 1 1) (ordered 2 2 1) hseen linked

end Relay

/-- A relay whose deferred step runs with the others, and one that leaves it to its lane. -/
theorem Relay.courses_agree :
    Instance.Rested Relay.compiled (.direct Relay.compiled (Relay.state 1 1 1))
        [.set Relay.x (.int 2), .set Relay.x (.int 3)]
        (.course Relay.x (.int 2) (.int 3) (.direct Relay.compiled (Relay.state 1 1 1))) ∧
      Instance.Rested Relay.compiled (.laned Relay.compiled (Relay.state 1 1 1))
        [.set Relay.x (.int 2), .set Relay.x (.int 3)]
        (.course Relay.x (.int 2) (.int 3) (.laned Relay.compiled (Relay.state 1 1 1))) ∧
      (Instance.course Relay.x (.int 2) (.int 3) (.direct Relay.compiled (Relay.state 1 1 1))).state.same
        (Instance.course Relay.x (.int 2) (.int 3) (.laned Relay.compiled (Relay.state 1 1 1))).state = true :=
  ⟨Relay.direct_rested, Relay.laned_rested, Instance.Rested.states_agree Relay.compiled_of Relay.plain Relay.selfFree
    Relay.respects Relay.direct_rested Relay.laned_rested rfl rfl⟩

/-! ## Where courses part -/

/-- A declaration that is plain, and two courses of the same commits from the same state
of rest, one with deferred steps run inline and one with a lane, that end apart. -/
structure Instance.Parted (decl : Declaration) (c : Compiled) (v : Value) (p : Path) (u w : Value) : Prop where
  compiled : c.Of decl
  plain : c.graph.Plain
  inline_mode : (direct c v).deferredMode = .inline
  lane_mode : (laned c v).deferredMode = .lane
  direct_rested : Rested c (direct c v) [.set p u, .set p w] (course p u w (direct c v))
  laned_rested : Rested c (laned c v) [.set p u, .set p w] (course p u w (laned c v))
  ends_apart : (course p u w (direct c v)).state.same (course p u w (laned c v)).state = false

namespace Latch

def c : Path := Detour.c

def x : Path := Relay.x

def least : Derive := Formula.derive none (.least [.get "c", .get "x"])

/-- The deferred `c` keeps the least that `x` has been: it depends on itself. -/
def declaration : Declaration :=
  (Declaration.named "latch").group ((Group.named "latch").field "c" (.computed ⟨["c", "x"], least, none, .deferred⟩))

def graph : Graph where
  moduleId := "latch"
  table := ⟨[c, x]⟩
  steps := [⟨0, .computed, 0, [0, 1], none, .deferred, "c", "latch"⟩]
  bodies := [.computed least none]
  orders := ⟨⟨[0], []⟩, ⟨[], []⟩, ⟨[0], []⟩⟩
  levels := [[0]]
  reserved := []
  shapeWarnings := []
  generation := 1

def compiled : Compiled := ⟨graph, .ofGraph graph⟩

def state (c x : Int) : Value := .obj [("c", .int c), ("x", .int x)]

theorem compiled_of : compiled.Of declaration := by
  refine ⟨⟨1, ?_⟩, rfl⟩
  unfold compiled graph
  cbv

theorem least_outcome (v : Value) : (least.run v).outcome =
    .ok (.int (Formula.leastInt [(State.read v c).getD .null, (State.read v x).getD .null])) := by
  have hget : Formula.evalAll ([.get "c", .get "x"] : List Formula) (.ofState v) = _ :=
    Formula.evalAll_get ["c", "x"] [c, x] (by cbv) _
  unfold least Formula.derive Derive.ofView
  simp only [Formula.eval, Formula.bind_of_ok hget]
  rfl

theorem plain : graph.Plain where
  acyclic := rfl
  separate := Graph.separate_of_pairwise (by decide)
  structural := Graph.structural_of_mem (by simp [graph])
  local_ := Graph.local_of_zip fun s d eq hs v w hd => by
    obtain ⟨rfl, rfl, rfl⟩ : s = graph.steps[0] ∧ d = least ∧ eq = none := by simpa [graph] using hs
    rw [least_outcome, least_outcome, hd 0 List.mem_cons_self c rfl,
      hd 1 (List.mem_cons_of_mem _ List.mem_cons_self) x rfl]
  total := Graph.total_of_mem fun d eq hb v => by
    obtain ⟨rfl, rfl⟩ : d = least ∧ eq = none := by simpa [graph] using hb
    exact ⟨_, least_outcome v⟩

theorem linked (v : Value) : graph.Linked v := fun i s p _ hb _ => by
  match i with
  | 0 => cases hb
  | _ + 1 => cases hb

theorem ordered (c x : Int) : Fields.Ordered [("c", .int c), ("x", .int x)] :=
  Fields.ordered_of_keys (show ["c", "x"].Pairwise (· < ·) by decide)

theorem settled_at_rest : ∀ j ∈ compiled.wiring.order .all, graph.Settled (state 5 5) j := by
  intro j hj
  obtain rfl := List.mem_singleton.1 (show j ∈ [0] from hj)
  cbv

theorem direct_seen : ((Instance.direct compiled (state 5 5)).afterSet x (.int 3)).pending = state 3 3 ∧
    (Instance.course x (.int 3) (.int 7) (.direct compiled (state 5 5))).resting? = some (state 3 7) := by cbv

theorem laned_seen : ((Instance.laned compiled (state 5 5)).afterSet x (.int 3)).pending = state 5 3 ∧
    (Instance.course x (.int 3) (.int 7) (.laned compiled (state 5 5))).resting? = some (state 5 7) := by cbv

/-- The least is 3 where the step ran in between, and 5 where it did not. -/
theorem parted : Instance.Parted declaration compiled (state 5 5) x (.int 3) (.int 7) where
  compiled := compiled_of
  plain := plain
  inline_mode := rfl
  lane_mode := rfl
  direct_rested := .course compiled_of ⟨.ofCompiled _, rfl, rfl, settled_at_rest⟩ rfl (by decide)
    (by decide) rfl (ordered 5 5) (ordered 3 3) direct_seen (linked _)
  laned_rested := .course compiled_of ⟨.ofCompiled _, rfl, rfl, settled_at_rest⟩ rfl (by decide)
    (by decide) rfl (ordered 5 5) (ordered 5 3) laned_seen (linked _)
  ends_apart := by
    rw [(Instance.resting?_eq_some direct_seen.2).2.2, (Instance.resting?_eq_some laned_seen.2).2.2]
    rfl

end Latch

namespace Echo

def b : Path := Relay.b

def c : Path := Latch.c

def x : Path := Relay.x

def text : Derive := Formula.derive none (.concat [.get "b"])

/-- The deferred `b` copies `x`, and the deferred `c` is the text of `b`, which shows the
sign of a zero. -/
def declaration : Declaration :=
  (Declaration.named "echo").group
    (((Group.named "echo").field "b" (.link "x" .deferred)).field "c" (.computed ⟨["b"], text, none, .deferred⟩))

def graph : Graph where
  moduleId := "echo"
  table := ⟨[b, c, x]⟩
  steps := [⟨0, .link, 0, [2], some 2, .deferred, "b", "echo"⟩, ⟨1, .computed, 1, [0], none, .deferred, "c", "echo"⟩]
  bodies := [.link, .computed text none]
  orders := ⟨⟨[0, 1], []⟩, ⟨[], []⟩, ⟨[0, 1], []⟩⟩
  levels := [[0], [1]]
  reserved := []
  shapeWarnings := []
  generation := 1

def compiled : Compiled := ⟨graph, .ofGraph graph⟩

def zero : Double := .zero

theorem negativeZero_finite : (0x8000000000000000 : UInt64) &&& 0x7ff0000000000000 ≠ 0x7ff0000000000000 := by decide

def negativeZero : Double := ⟨0x8000000000000000, negativeZero_finite⟩

def one : Double := ⟨0x3ff0000000000000, by decide⟩

def state (b : Double) (c : String) (x : Double) : Value := .obj [("b", .double b), ("c", .str c), ("x", .double x)]

theorem compiled_of : compiled.Of declaration := by
  refine ⟨⟨1, ?_⟩, rfl⟩
  unfold compiled graph
  cbv

theorem text_outcome (v : Value) :
    (text.run v).outcome = .ok (.str (String.join [((State.read v b).getD .null).display])) := by
  have hget : Formula.evalAll ([.get "b"] : List Formula) (.ofState v) = _ :=
    Formula.evalAll_get ["b"] [b] (by cbv) _
  unfold text Formula.derive Derive.ofView
  simp only [Formula.eval, Formula.bind_of_ok hget]
  rfl

theorem plain : graph.Plain where
  acyclic := rfl
  separate := Graph.separate_of_pairwise (by decide)
  structural := Graph.structural_of_mem (by simp [graph])
  local_ := Graph.local_of_zip fun s d eq hs v w hd => by
    obtain ⟨rfl, rfl, rfl⟩ : s = graph.steps[1] ∧ d = text ∧ eq = none := by simpa [graph] using hs
    rw [text_outcome, text_outcome, hd 0 List.mem_cons_self b rfl]
  total := Graph.total_of_mem fun d eq hb v => by
    obtain ⟨rfl, rfl⟩ : d = text ∧ eq = none := by simpa [graph] using hb
    exact ⟨_, text_outcome v⟩

theorem linked {b x : Double} {c : String} : graph.Linked (state b c x) := fun i s p hs hb hp => by
  match i with
  | 0 =>
    cases hs
    cases hp
    rfl
  | 1 => cases hb
  | _ + 2 => cases hs

theorem ordered (b x : Double) (c : String) : Fields.Ordered [("b", .double b), ("c", .str c), ("x", .double x)] :=
  Fields.ordered_of_keys (show ["b", "c", "x"].Pairwise (· < ·) by decide)

theorem settled_at_rest : ∀ j ∈ compiled.wiring.order .all, graph.Settled (state zero "0.0" zero) j := by
  intro j hj
  have hj : j ∈ [0, 1] := hj
  rcases List.mem_cons.1 hj with rfl | hj
  · cbv
  · obtain rfl := List.mem_singleton.1 hj
    have htext : String.join [((State.read (state zero "0.0" zero) b).getD .null).display] = "0.0" := by
      cbv
    refine (Graph.effect_computed (g := graph) rfl rfl _).trans ?_
    rw [text_outcome, htext]
    exact congrArg Except.ok (changeTo_self (fun _ he => by cases he) _)

theorem direct_seen :
    ((Instance.direct compiled (state zero "0.0" zero)).afterSet x (.double one)).pending = state one "1.0" one ∧
      (Instance.course x (.double one) (.double negativeZero) (.direct compiled (state zero "0.0" zero))).resting?
        = some (state negativeZero "-0.0" negativeZero) := by
  -- the texts come out as the bytes they are made of
  cbv
  exact ⟨rfl, rfl⟩

theorem laned_seen :
    ((Instance.laned compiled (state zero "0.0" zero)).afterSet x (.double one)).pending = state zero "0.0" one ∧
      (Instance.course x (.double one) (.double negativeZero) (.laned compiled (state zero "0.0" zero))).resting?
        = some (state zero "0.0" negativeZero) := by cbv

/-- Where the link ran in between it copies the other zero; where it did not, its field
keeps the zero that it has. -/
theorem parted :
    Instance.Parted declaration compiled (state zero "0.0" zero) x (.double one) (.double negativeZero) where
  compiled := compiled_of
  plain := plain
  inline_mode := rfl
  lane_mode := rfl
  direct_rested := .course compiled_of ⟨.ofCompiled _, rfl, rfl, settled_at_rest⟩ rfl (by decide)
    (by decide) rfl (ordered zero zero "0.0") (ordered one one "1.0") direct_seen linked
  laned_rested := .course compiled_of ⟨.ofCompiled _, rfl, rfl, settled_at_rest⟩ rfl (by decide)
    (by decide) rfl (ordered zero zero "0.0") (ordered zero one "0.0") laned_seen linked
  ends_apart := by
    rw [(Instance.resting?_eq_some direct_seen.2).2.2, (Instance.resting?_eq_some laned_seen.2).2.2]
    rfl

end Echo

/-- An order without a cycle does not make courses agree: a step may depend on its own
field, and a derive function may tell apart what counts as the same. -/
theorem Instance.courses_part :
    Instance.Parted Latch.declaration Latch.compiled (Latch.state 5 5) Latch.x (.int 3) (.int 7) ∧
      Instance.Parted Echo.declaration Echo.compiled (Echo.state Echo.zero "0.0" Echo.zero) Echo.x (.double Echo.one)
        (.double Echo.negativeZero) :=
  ⟨Latch.parted, Echo.parted⟩

end Settle
