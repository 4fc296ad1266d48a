/-
  Settle.Proofs.Hosted — the watchers of a host live through histories (see `Settle.Host`
  and `Settle.Proofs.Watcher`).

  All that a host does to a watcher is moves. Turns, timers and waiting are rounds, and
  handlers that go on and end; an engine that is gone gives up its way to send
  (`take_goes`, `advance_goes`, `await_goes`). A call adds offers, cancellations and
  detachments (`perform_lived`), provided that its owner can make it: that it has a way to
  send to the watchers it sends to, and holds the engine it dispatches through (`Owned`).

  So each watcher of a host that an owner can come to is what a history makes of one just
  started (`Reached.history`), whatever turns were taken in between and in whatever order
  watchers and handlers took them. What every history keeps is so of it (`Reached.sane`).
-/

import Settle.Call
import Settle.Proofs.Watcher

namespace Settle

namespace Watcher

/-! ## What becomes of a watcher -/

/-- One move makes of a watcher the same whatever it accepted and started before. -/
theorem History.move_watcher (x : History) (m : Move) :
    (x.move m).watcher = ((History.ofWatcher x.watcher).move m).watcher := by
  cases m with
  | offer payload =>
    cases hs : x.watcher.hasSender with
    | true =>
      simp only [History.move, History.ofWatcher, hs, if_true]
      cases x.watcher.offer payload <;> rfl
    | false => simp only [History.move, History.ofWatcher, hs, Bool.false_eq_true, if_false]
  | ended id r =>
    cases hrun : x.watcher.running.any (·.id = id) with
    | true => simp only [History.move, History.ofWatcher, hrun, if_true]
    | false => simp only [History.move, History.ofWatcher, hrun, Bool.false_eq_true, if_false]
  | _ => rfl

theorem History.play_watcher (x : History) (moves : List Move) :
    (x.play moves).watcher = (x.watcher.after moves).watcher := by
  induction moves generalizing x with
  | nil => rfl
  | cons m moves ih => 
    have hfirst := ih ((History.ofWatcher x.watcher).move m)
    rw [← x.move_watcher m] at hfirst
    exact (ih (x.move m)).trans hfirst.symm

/-- Moves that are allowed make the one of the other. -/
def Becomes (P : Move → Prop) (w v : Watcher) : Prop := ∃ moves, (∀ m ∈ moves, P m) ∧ (w.after moves).watcher = v

variable {P Q : Move → Prop} {w v u : Watcher}

theorem Becomes.refl (w : Watcher) : w.Becomes P w := ⟨[], nofun, rfl⟩

theorem Becomes.step {m : Move} (hm : P m) (w : Watcher) : w.Becomes P ((History.ofWatcher w).move m).watcher :=
  ⟨[m], fun _ hm' => List.mem_singleton.1 hm' ▸ hm, rfl⟩

theorem Becomes.trans (h : w.Becomes P v) (h' : v.Becomes P u) : w.Becomes P u := by
  obtain ⟨moves, hm, rfl⟩ := h
  obtain ⟨more, hmore, rfl⟩ := h'
  refine ⟨moves ++ more, fun m h => (List.mem_append.1 h).elim (hm m) (hmore m), ?_⟩
  rw [← History.play_watcher]
  exact congrArg History.watcher List.foldl_append

theorem Becomes.mono (h : w.Becomes P v) (hPQ : ∀ m, P m → Q m) : w.Becomes Q v := by
  obtain ⟨moves, hm, he⟩ := h
  exact ⟨moves, fun m h => hPQ m (hm m h), he⟩

theorem turn_becomes (hP : ∀ alive, P (.round alive)) (w : Watcher) (alive : Bool) :
    w.Becomes P (w.turn alive).watcher := by
  have hrounds (n : Nat) (w : Watcher) : w.Becomes P (rounds alive n w).watcher := by
    induction n generalizing w with
    | zero => exact .refl w
    | succ n ih => exact (Becomes.step (hP alive) w).trans (ih _)
  rw [turn_eq_rounds]
  exact hrounds _ w

theorem handlerEnded_becomes {id : Nat} {r : HandlerEnd} (hP : P (.ended id r)) (hrun : ∃ k ∈ w.running, k.id = id) :
    w.Becomes P (w.handlerEnded id r) := by
  obtain ⟨k, hk, hid⟩ := hrun
  have hany : w.running.any (·.id = id) = true := List.any_eq_true.2 ⟨k, hk, decide_eq_true hid⟩
  have hstep := Becomes.step hP w
  simp only [History.move, History.ofWatcher, hany, if_true] at hstep
  exact hstep

theorem offer_becomes {payload : Value} (hP : P (.offer payload)) (hs : w.hasSender = true)
    (ho : w.offer payload = .ok v) : w.Becomes P v := by
  have hstep := Becomes.step hP w
  simp only [History.move, History.ofWatcher, hs, if_true, ho] at hstep
  exact hstep

theorem Becomes.sane (h : w.Becomes P v) (hw : w.Sane) : v.Sane := by
  obtain ⟨moves, -, rfl⟩ := h
  exact History.play_keeps (P := fun y => y.watcher.Sane) (Q := fun _ => True) (fun _ m _ hy => hy.move m)
    (fun _ _ => trivial) hw

/-- It was just started. -/
def Fresh (w : Watcher) : Prop :=
  ∃ id key action label target acts policy, w = start id key action label target acts policy

/-- The move takes no way to send to the watcher, but that of an engine which is gone. -/
def Move.Keeps (held : Bool) : Move → Prop
  | .detach => False
  | .unregister => held = false
  | _ => True

/-- Who can send to it is as before, but for an engine that is gone. -/
structure Alike (held : Bool) (w v : Watcher) : Prop where
  id : v.id = w.id
  attached : v.attached = w.attached
  registered : held = true → v.registered = w.registered

variable {held : Bool}

theorem Alike.refl (w : Watcher) : w.Alike held w := ⟨rfl, rfl, fun _ => rfl⟩

theorem Alike.trans (h : w.Alike held v) (h' : v.Alike held u) : w.Alike held u :=
  ⟨h'.id.trans h.id, h'.attached.trans h.attached, fun hh => (h'.registered hh).trans (h.registered hh)⟩

theorem Alike.windUp (h : w.Alike held v) : w.Alike held v.windUp.2 := by
  rcases windUp_cases v with ⟨-, he⟩ | ⟨-, he⟩
  · rw [he]
    exact ⟨h.id, h.attached, h.registered⟩
  · rw [he]
    exact ⟨h.id, h.attached, h.registered⟩

theorem Move.Keeps.alike {m : Move} (hm : m.Keeps held) (x : History) : x.watcher.Alike held (x.move m).watcher := by
  cases m with
  | offer payload =>
    rcases x.move_offer payload with he | ⟨-, -, -, he⟩
    · rw [he]
      exact .refl _
    · rw [he]
      exact ⟨rfl, rfl, fun _ => rfl⟩
  | round alive =>
    have hcases := round_cases alive x.watcher
    simp only [History.move]
    generalize x.watcher.round alive = t at hcases
    cases hcases with
    | stopped | full | empty | starts => exact ⟨rfl, rfl, fun _ => rfl⟩
    | stopping | deserted => exact .windUp (.refl _)
    | interrupted => exact Alike.windUp (v := x.watcher.abort) ⟨rfl, rfl, fun _ => rfl⟩
    | @orphaned _ rest => exact Alike.windUp (v := { x.watcher with queue := rest }) ⟨rfl, rfl, fun _ => rfl⟩
  | ended id r =>
    rcases x.move_ended id r with he | ⟨-, he⟩
    · rw [he]
      exact .refl _
    · rw [he]
      exact ⟨rfl, rfl, fun _ => rfl⟩
  | goOn | count | cancel => exact ⟨rfl, rfl, fun _ => rfl⟩
  | unregister => exact ⟨rfl, rfl, fun hh => absurd (hm.symm.trans hh) Bool.false_ne_true⟩
  | detach => exact hm.elim

theorem Becomes.alike (h : w.Becomes (Move.Keeps held) v) : w.Alike held v := by
  obtain ⟨moves, hm, rfl⟩ := h
  exact History.play_keeps (P := fun y => w.Alike held y.watcher) (fun y _ hm hy => hy.trans (hm.alike y)) hm (.refl w)

/-- A watcher keeps its number. -/
theorem Becomes.id (h : w.Becomes P v) : v.id = w.id := by
  obtain ⟨moves, -, rfl⟩ := h
  refine History.play_keeps (P := fun y => y.watcher.id = w.id) (Q := fun _ => True) (fun y m _ hy => ?_)
    (fun _ _ => trivial) rfl
  by_cases hm : m.Keeps false
  · exact (hm.alike y).id.trans hy
  · cases m with
    | detach => exact hy
    | unregister => exact absurd rfl hm
    | _ => exact absurd trivial hm

end Watcher

namespace Host

variable {P Q : Watcher.Move → Prop} {h h' h'' : Host} {w : Watcher}

/-! ## What becomes of a host -/

/-- Its watchers come of those there were, in their order, and its owner holds the engine as
before. -/
structure Goes (P : Watcher.Move → Prop) (h h' : Host) : Prop where
  held : h'.held = h.held
  ids : h'.watchers.map (·.id) = h.watchers.map (·.id)
  watchers : ∀ v ∈ h'.watchers, ∃ w ∈ h.watchers, w.Becomes P v

theorem Goes.of_eq (hheld : h'.held = h.held) (hwatchers : h'.watchers = h.watchers) : h.Goes P h' :=
  ⟨hheld, by rw [hwatchers], fun v hv => ⟨v, hwatchers ▸ hv, .refl v⟩⟩

theorem Goes.refl (h : Host) : h.Goes P h := .of_eq rfl rfl

theorem Goes.trans (hg : h.Goes P h') (hg' : h'.Goes P h'') : h.Goes P h'' := by
  refine ⟨hg'.held.trans hg.held, hg'.ids.trans hg.ids, fun u hu => ?_⟩
  obtain ⟨v, hv, hvu⟩ := hg'.watchers u hu
  obtain ⟨w, hw, hwv⟩ := hg.watchers v hv
  exact ⟨w, hw, hwv.trans hvu⟩

theorem Goes.mono (hg : h.Goes P h') (hPQ : ∀ m, P m → Q m) : h.Goes Q h' :=
  ⟨hg.held, hg.ids, fun v hv => (hg.watchers v hv).imp fun _ hw => ⟨hw.1, hw.2.mono hPQ⟩⟩

theorem Goes.foldl {α : Type} {f : Host → α → Host} (hf : ∀ (g : Host) a, g.Goes P (f g a)) (l : List α) (h : Host) :
    h.Goes P (l.foldl f h) :=
  List.foldlRecOn l f (motive := h.Goes P) (.refl h) fun g hg a _ => hg.trans (hf g a)

theorem mem_of_watcher? {id : Nat} (hw : h.watcher? id = some w) : w ∈ h.watchers := List.mem_of_find?_eq_some hw

theorem id_of_watcher? {id : Nat} (hw : h.watcher? id = some w) : w.id = id := by
  have hid := List.find?_some hw
  exact of_decide_eq_true hid

theorem put_goes {v : Watcher} (hw : w ∈ h.watchers) (hb : w.Becomes P v) : h.Goes P (h.put v) := by
  refine ⟨rfl, ?_, fun u hu => ?_⟩
  · refine List.map_map.trans (List.map_congr_left fun u _ => ?_)
    dsimp only [Function.comp]
    split
    · exact (‹u.id = v.id›).symm
    · rfl
  obtain ⟨u', hu', rfl⟩ := List.mem_map.1 hu
  split
  · exact ⟨w, hw, hb⟩
  · exact ⟨u', hu', .refl u'⟩

theorem wake_goes (h : Host) (t : Turn) : h.Goes P (h.wake t) := by
  unfold wake
  split
  · exact .refl h
  · exact .of_eq rfl rfl

theorem wakeIf_goes (h : Host) (c : Bool) (t : Turn) : h.Goes P (h.wakeIf c t) := by
  unfold wakeIf
  split
  · exact h.wake_goes t
  · exact .refl h

theorem bury_goes (hP : h.held = false → P .unregister) : h.Goes P h.bury := by
  unfold bury
  split
  · exact .refl h
  · rename_i halive
    have hheld : h.held = false := Bool.eq_false_iff.2 fun hh => halive (Bool.or_eq_true_iff.2 (.inl hh))
    have hcut : h.Goes P { h with watchers := h.watchers.map fun w => { w with registered := false } } := by
      refine ⟨rfl, List.map_map, fun v hv => ?_⟩
      obtain ⟨w, hw, rfl⟩ := List.mem_map.1 hv
      exact ⟨w, hw, .step (hP hheld) w⟩
    exact hcut.trans (Goes.foldl (fun g _ => g.wakeIf_goes _ _) _ _)

/-! ## Between two calls -/

/-- The watchers go on by moves that take no way to send. -/
def GoesOn (h h' : Host) : Prop := h.Goes (Watcher.Move.Keeps h.held) h'

theorem GoesOn.trans (hg : h.GoesOn h') (hg' : h'.GoesOn h'') : h.GoesOn h'' := by
  unfold GoesOn at hg'
  rw [hg.held] at hg'
  exact Goes.trans hg hg'

theorem GoesOn.bury (hg : h.GoesOn h') : h.GoesOn h'.bury := hg.trans (bury_goes id)

theorem GoesOn.foldl {α : Type} {f : Host → α → Host} (hf : ∀ (g : Host) a, g.GoesOn (f g a)) (l : List α) (h : Host) :
    h.GoesOn (l.foldl f h) :=
  List.foldlRecOn l f (motive := h.GoesOn) (Goes.refl h) fun g hg a _ => hg.trans (hf g a)

theorem turnWatcher_goes (hw : w ∈ h.watchers) : h.GoesOn (h.turnWatcher w) := by
  have hput : h.GoesOn (h.put (w.turn h.alive).watcher) := put_goes hw (Watcher.turn_becomes (fun _ => trivial) w _)
  have htold : h.GoesOn { h.put (w.turn h.alive).watcher with
      engine := (w.turn h.alive).events.foldl Engine.emit h.engine } := hput.trans (.of_eq rfl rfl)
  exact (htold.trans (Goes.foldl (fun g _ => g.wake_goes _) _ _)).bury

theorem turnHandler_goes {k : Handler} (hw : w ∈ h.watchers) (hk : k ∈ w.running) : h.GoesOn (h.turnHandler w k) := by
  unfold turnHandler
  split
  · exact (put_goes hw (.step (m := .goOn _) trivial w)).trans (.of_eq rfl rfl)
  · rename_i r e _
    have hput : h.GoesOn (h.put (w.handlerEnded k.id r)) :=
      put_goes hw (Watcher.handlerEnded_becomes trivial ⟨k, hk, rfl⟩)
    have hleft : h.GoesOn { h.put (w.handlerEnded k.id r) with engine := e } := hput.trans (.of_eq rfl rfl)
    exact hleft.bury.trans (wakeIf_goes ..)

theorem take_goes (h : Host) (t : Turn) : h.GoesOn (h.take t) := by
  cases t with
  | watcher id =>
    unfold take
    dsimp only
    split
    · exact turnWatcher_goes (mem_of_watcher? ‹_›)
    · exact .refl h
  | handler wid id =>
    unfold take
    dsimp only
    split
    · exact .refl h
    · rename_i w hw
      split
      · exact turnHandler_goes (mem_of_watcher? hw) (List.mem_of_find?_eq_some ‹_›)
      · exact .refl h

theorem takeTurns_goes (n : Nat) (h : Host) : h.GoesOn (takeTurns n h) := by
  induction n generalizing h with
  | zero => exact .refl h
  | succ n ih =>
    unfold takeTurns
    split
    · exact .refl h
    · rename_i t rest _
      have hline : h.GoesOn { h with ready := rest } := .of_eq rfl rfl
      exact (hline.trans (take_goes _ t)).trans (ih _)

theorem settle_goes (h : Host) : h.GoesOn h.settle := takeTurns_goes _ h

theorem wakeHandler_goes (h : Host) (wid : Nat) (k : Handler) : h.GoesOn (h.wakeHandler wid k) := by
  unfold wakeHandler
  split
  · split
    · have hput : h.GoesOn (h.put _) :=
        put_goes (mem_of_watcher? ‹_›) (.step (m := .goOn { k with wakeAt := none }) trivial _)
      exact hput.trans (wake_goes ..)
    · exact .refl h
  · exact .refl h

theorem fireDue_goes (h : Host) : h.GoesOn h.fireDue := by
  unfold fireDue
  dsimp only
  generalize (if h.alive then h.engine.store.instances.map (·.key) else []).foldl flushLane h.engine = e
  have hflushed : h.GoesOn { h with engine := e } := .of_eq rfl rfl
  have hwoken (g : Host) (w : Watcher) : g.GoesOn (w.running.foldl (fun g k => g.wakeHandler w.id k) g) :=
    GoesOn.foldl (fun g k => g.wakeHandler_goes w.id k) w.running g
  exact hflushed.trans (GoesOn.foldl hwoken _ _)

theorem setClock_goes (h : Host) (t : Time) : h.GoesOn (h.setClock t) := .of_eq rfl rfl

theorem advanceWithin_goes (target : Time) (n : Nat) (h : Host) : h.GoesOn (advanceWithin target n h) := by
  induction n generalizing h with
  | zero => exact h.setClock_goes target
  | succ n ih =>
    have hsettled := h.settle_goes
    unfold advanceWithin
    dsimp only
    split
    · exact hsettled.trans (setClock_goes _ target)
    · split
      · exact ((hsettled.trans (setClock_goes _ _)).trans (fireDue_goes _)).trans (ih _)
      · exact hsettled.trans (setClock_goes _ target)

theorem advance_goes (h : Host) (ms : Nat) : h.GoesOn (h.advance ms) := advanceWithin_goes _ _ h

theorem awaitWithin_goes (p : Host → Bool) (n : Nat) (h : Host) : h.GoesOn (awaitWithin p n h) := by
  induction n generalizing h with
  | zero => exact .refl h
  | succ n ih =>
    have hsettled := h.settle_goes
    unfold awaitWithin
    dsimp only
    split
    · exact hsettled
    · split
      · exact hsettled
      · exact ((hsettled.trans (setClock_goes _ _)).trans (fireDue_goes _)).trans (ih _)

theorem await_goes (h : Host) (p : Host → Bool) : h.GoesOn (h.await p) := by
  unfold await
  split
  · exact .refl h
  · exact awaitWithin_goes p _ h

/-! ## Calls -/

theorem deliver_goes {payload : Value} (hw : w ∈ h.watchers) (hs : w.hasSender = true) :
    h.GoesOn (h.deliver w payload).2 := by
  unfold deliver
  split
  · exact .refl h
  · have hput : h.GoesOn (h.put _) := put_goes hw (Watcher.offer_becomes trivial hs ‹_›)
    exact hput.trans (wakeIf_goes ..)

theorem warnPressure_watchers (h : Host) (w : Watcher) : (h.warnPressure w).watchers = h.watchers := by
  unfold warnPressure
  split <;> rfl

theorem warnPressure_goes (h : Host) (w : Watcher) : h.GoesOn (h.warnPressure w) := by
  refine .of_eq ?_ (h.warnPressure_watchers w)
  unfold warnPressure
  split <;> rfl

/-- Its owner can send to each watcher of this number. -/
def Reachable (h : Host) (id : Nat) : Prop :=
  ∀ w ∈ h.watchers, w.id = id → w.attached = true ∨ w.registered = true ∧ h.held = true

theorem Reachable.hasSender {id : Nat} (hr : h.Reachable id) (hw : h.watcher? id = some w) : w.hasSender = true :=
  Bool.or_eq_true_iff.2 ((hr w (mem_of_watcher? hw) (id_of_watcher? hw)).imp_right And.left)

theorem GoesOn.reachable (hg : h.GoesOn h') {id : Nat} (hr : h.Reachable id) : h'.Reachable id := by
  intro v hv hid
  obtain ⟨w, hw, hb⟩ := hg.watchers v hv
  have ha := hb.alike
  refine (hr w hw (ha.id.symm.trans hid)).imp (ha.attached.trans ·) fun ⟨hreg, hheld⟩ => ?_
  exact ⟨(ha.registered hheld).trans hreg, hg.held.trans hheld⟩

theorem trySend_goes {id : Nat} (hr : h.Reachable id) (payload : Value) : h.GoesOn (h.trySend id payload).2 := by
  unfold trySend
  split
  · exact .refl h
  · rename_i w hw
    exact (h.warnPressure_goes w).trans
      (deliver_goes ((warnPressure_watchers h w).symm ▸ mem_of_watcher? hw) (hr.hasSender hw))

theorem send_goes {id : Nat} (hr : h.Reachable id) (payload : Value) : h.GoesOn (h.send id payload).2 := by
  unfold send
  split
  · exact .refl h
  · rename_i w _
    have hawaited := (h.warnPressure_goes w).trans (await_goes _ (accepts id))
    dsimp only
    split
    · exact hawaited
    · rename_i v hv
      exact hawaited.trans (deliver_goes (mem_of_watcher? hv) ((hawaited.reachable hr).hasSender hv))

theorem sendAll_goes {one : Host → Nat → Option Error × Host}
    (hone : ∀ (g : Host) id, g.Reachable id → g.GoesOn (one g id).2) (ids : List Nat) (h : Host)
    (hr : ∀ id ∈ ids, h.Reachable id) : h.GoesOn (sendAll one ids h).2 := by
  induction ids generalizing h with
  | nil => exact .refl h
  | cons id ids ih =>
    have hfirst := hone h id (hr id List.mem_cons_self)
    unfold sendAll
    split
    · rename_i g hsent
      rw [hsent] at hfirst
      exact hfirst.trans (ih g fun id' hid => hfirst.reachable (hr id' (List.mem_cons_of_mem _ hid)))
    · rename_i err g hsent
      rw [hsent] at hfirst
      exact hfirst

/-- Watchers are numbered in the order in which they were started. -/
def Numbered (h : Host) : Prop := h.watchers.map (·.id) = List.range h.watchers.length

theorem Goes.numbered (hg : h.Goes P h') (hn : h.Numbered) : h'.Numbered := by
  have hlen : h'.watchers.length = h.watchers.length := by
    simpa only [List.length_map] using congrArg List.length hg.ids
  rw [Numbered, hg.ids, hlen]
  exact hn

theorem Numbered.nodup (hn : h.Numbered) : (h.watchers.map (·.id)).Nodup := hn.symm ▸ List.nodup_range

theorem Numbered.eq_of_id (hn : h.Numbered) {v : Watcher} (hv : v ∈ h.watchers) (hw : w ∈ h.watchers)
    (hid : v.id = w.id) : v = w :=
  List.inj_on_of_nodup_map hn.nodup hv hw hid

theorem Numbered.reachable (hn : h.Numbered) (hheld : h.held = true) {key : Key} {action : String} {id : Nat}
    (hid : id ∈ h.reached key action) : h.Reachable id := by
  obtain ⟨w, hw, rfl⟩ := List.mem_map.1 hid
  obtain ⟨hmem, hreg⟩ := List.mem_filter.1 hw
  intro v hv hvid
  obtain rfl := hn.eq_of_id hv hmem hvid
  simp only [Bool.and_eq_true] at hreg
  exact .inr ⟨hreg.1.1.1, hheld⟩

theorem dispatchBy_goes {send : Host → Nat → Value → Option Error × Host}
    (hsend : ∀ (g : Host) id v, g.Reachable id → g.GoesOn (send g id v).2) (hn : h.Numbered) (hheld : h.held = true)
    (key : Key) (action : String) (payload : Value) : h.GoesOn (dispatchBy send h key action payload).2 := by
  have hsent := sendAll_goes (fun g id => hsend g id payload) (h.reached key action) h
    fun id hid => hn.reachable hheld hid
  unfold dispatchBy
  split
  · exact .refl h
  · dsimp only
    split
    · rename_i g he
      rw [he] at hsent
      exact hsent
    · rename_i err g he
      rw [he] at hsent
      exact hsent

/-- Its owner calls only what it can: it sends with a way to send, and dispatches through an
engine it holds. -/
def Owned (h : Host) : Call → Prop
  | .send id _ | .trySend id _ => h.Reachable id
  | .dispatch .. | .tryDispatch .. => h.held = true
  | _ => True

/-- All that an owner can come to. -/
inductive Reached : Host → Prop
  | start (e : Engine) : Reached (.ofEngine e)
  | call {h : Host} (hr : Reached h) {c : Call} (ho : h.Owned c) : Reached (h.perform c).2

/-- Each watcher is what moves have made of one that was just started. -/
structure Lived (h : Host) : Prop where
  numbered : h.Numbered
  started : ∀ w ∈ h.watchers, ∃ v : Watcher, v.Fresh ∧ v.Becomes (fun _ => True) w

theorem Goes.lived (hg : h.Goes P h') (hl : h.Lived) : h'.Lived := by
  refine ⟨hg.numbered hl.numbered, fun w hw => ?_⟩
  obtain ⟨v, hv, hvw⟩ := hg.watchers w hw
  obtain ⟨u, hu, huv⟩ := hl.started v hv
  exact ⟨u, hu, huv.trans (hvw.mono fun _ _ => trivial)⟩

theorem engineDid_goes {α : Type} (h : Host) (f : α → Answer) (x : Except Error (α × Engine)) :
    h.Goes P (h.engineDid f x).2 := by
  cases x with
  | error err => exact .refl h
  | ok r => exact .of_eq rfl rfl

theorem watch_lived (hl : h.Lived) {key : Key} {action label : String} {target : Key} {acts : List Act} {id : Nat}
    (hw : h.watch key action label target acts = .ok (id, h')) : h'.Lived := by
  unfold watch at hw
  cases hi : h.engine.store.get key with
  | error err =>
    rw [hi] at hw
    cases hw
  | ok i =>
    rw [hi] at hw
    simp only [bind, Except.bind] at hw
    split at hw
    · cases hw
    · obtain ⟨-, rfl⟩ := Prod.mk.inj (Except.ok.inj hw)
      refine (wake_goes (P := fun _ => True) _ _).lived ⟨?_, fun w hw => ?_⟩
      · rw [Numbered, List.map_append, List.length_append, List.length_singleton, List.range_succ, hl.numbered]
        rfl
      · rcases List.mem_append.1 hw with hw | hw
        · exact hl.started w hw
        · exact ⟨w, ⟨_, _, _, _, _, _, _, List.mem_singleton.1 hw⟩, .refl w⟩

theorem detach_goes (h : Host) (id : Nat) : h.Goes (fun _ => True) (h.detach id) := by
  unfold detach
  split
  · exact .refl h
  · exact (put_goes (mem_of_watcher? ‹_›) (.step (m := .detach) trivial _)).trans (wakeIf_goes ..)

theorem cancel_goes (h : Host) (id : Nat) : h.GoesOn (h.cancel id) := by
  unfold cancel
  split
  · exact .refl h
  · have hput : h.GoesOn (h.put _) := put_goes (mem_of_watcher? ‹_›) (.step (m := .cancel) trivial _)
    exact hput.trans (wakeIf_goes ..)

theorem join_lived (hl : h.Lived) (id : Nat) : (h.join id).2.Lived := by
  unfold join
  dsimp only
  exact (await_goes _ _).lived ((h.detach_goes id).lived hl)

theorem release_lived (hl : h.Lived) : h.release.Lived :=
  (bury_goes (P := fun _ => True) fun _ => trivial).lived ⟨hl.numbered, hl.started⟩

theorem perform_lived (hl : h.Lived) {c : Call} (ho : h.Owned c) : (h.perform c).2.Lived := by
  cases c with
  | register | override | link | set | subscribe => exact (engineDid_goes (P := fun _ => True) h _ _).lived hl
  | transact | read | flush | flushUntilIdle | unsubscribe | telemetry =>
    refine Goes.lived (P := fun _ => True) ?_ hl
    exact .of_eq rfl rfl
  | watch key action label target acts =>
    unfold perform
    dsimp only
    split
    · exact watch_lived hl ‹_›
    · exact hl
  | dispatch key action payload =>
    exact (dispatchBy_goes (fun g id v hr => send_goes hr v) hl.numbered ho key action payload).lived hl
  | tryDispatch key action payload =>
    exact (dispatchBy_goes (fun g id v hr => trySend_goes hr v) hl.numbered ho key action payload).lived hl
  | send id payload => exact (send_goes ho payload).lived hl
  | trySend id payload => exact (trySend_goes ho payload).lived hl
  | cancel id => exact (h.cancel_goes id).lived hl
  | detach id => exact (h.detach_goes id).lived hl
  | join id => exact join_lived hl id
  | shutdown id => exact join_lived ((h.cancel_goes id).lived hl) id
  | advance ms => exact (h.advance_goes ms).lived hl
  | release => exact release_lived hl

theorem Reached.lived (hr : Reached h) : h.Lived := by
  induction hr with
  | start e => exact ⟨rfl, fun _ hw => absurd hw List.not_mem_nil⟩
  | call _ ho ih => exact perform_lived ih ho

/-- A watcher of a host is what a history makes of one that was just started. -/
theorem Reached.history (hr : Reached h) (hw : w ∈ h.watchers) :
    ∃ (v : Watcher) (moves : List Watcher.Move), v.Fresh ∧ (v.after moves).watcher = w := by
  obtain ⟨v, hv, moves, -, he⟩ := hr.lived.started w hw
  exact ⟨v, moves, hv, he⟩

/-- Its handlers are accounted for, numbered apart and permitted, and its payloads have room. -/
theorem Reached.sane (hr : Reached h) (hw : w ∈ h.watchers) : w.Sane := by
  obtain ⟨v, hv, hb⟩ := hr.lived.started w hw
  obtain ⟨id, key, action, label, target, acts, policy, rfl⟩ := hv
  exact hb.sane (Watcher.start_sane ..)

end Host

end Settle
