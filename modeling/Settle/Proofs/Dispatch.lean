/-
  Settle.Proofs.Dispatch — who gets a payload that is sent without waiting (see
  `Settle.Host`).

  The watchers of an action get it one after the other, in the order in which they were
  started, until one of them is full. So a dispatch that answers a count reached every
  live watcher once, and one that is refused reached those before the first full one
  (`Reached.tryDispatch_serves`): nobody only where the first of all is full. Who asks again
  then sends to the others a second time (`Bakery.baked_twice`).
-/

import Mathlib
import Settle.Proofs.Hosted

namespace Settle

namespace Host

variable {h g : Host} {w : Watcher} {payload : Value} {ids : List Nat}

/-- The watchers that a dispatch is for: those of the action that are not closed. -/
def live (h : Host) (key : Key) (action : String) : List Watcher :=
  h.watchers.filter fun w => w.registered && w.key = key && w.action = action && !w.closed

/-- The watchers after these numbers have got a payload each. -/
def served (h : Host) (payload : Value) (ids : List Nat) : List Watcher :=
  h.watchers.map fun w => if w.id ∈ ids then w.push payload else w

theorem served_nil (h : Host) (payload : Value) : h.served payload [] = h.watchers :=
  (List.map_congr_left fun _ _ => if_neg List.not_mem_nil).trans (List.map_id _)

/-- A payload more leaves no queue as it was. -/
theorem served_eq_watchers_iff (hids : ∀ id ∈ ids, ∃ w ∈ h.watchers, w.id = id) :
    h.served payload ids = h.watchers ↔ ids = [] := by
  refine ⟨fun he => List.eq_nil_iff_forall_not_mem.2 fun id hid => ?_, fun he => he ▸ h.served_nil payload⟩
  obtain ⟨w, hw, rfl⟩ := hids id hid
  have hsame := List.map_inj_left.1 (he.trans (List.map_id _).symm) w hw
  rw [if_pos hid] at hsame
  have hlength := congrArg (fun w : Watcher => w.queue.length) hsame
  simp [Watcher.push] at hlength

theorem served_cons (hg : g.watchers = h.served payload [w.id]) (hid : w.id ∉ ids) :
    g.served payload ids = h.served payload (w.id :: ids) := by
  rw [served, hg, served, List.map_map]
  refine List.map_congr_left fun v _ => ?_
  by_cases hv : v.id = w.id
  · have hpush : (v.push payload).id ∉ ids := hv ▸ hid
    simp [hv, hpush]
  · simp [hv]

theorem served_ids (h : Host) (payload : Value) (ids : List Nat) :
    (h.served payload ids).map (·.id) = h.watchers.map (·.id) := by
  rw [served, List.map_map]
  refine List.map_congr_left fun v _ => ?_
  dsimp only [Function.comp]
  split <;> rfl

theorem Numbered.served (hn : h.Numbered) (hg : g.watchers = h.served payload ids) : g.Numbered := by
  have hlength : g.watchers.length = h.watchers.length := by rw [hg, Host.served, List.length_map]
  rw [Numbered, hg, served_ids, ← hg, hlength]
  exact hn

theorem Numbered.watcher? (hn : h.Numbered) (hw : w ∈ h.watchers) : h.watcher? w.id = some w := by
  have hsome : (h.watcher? w.id).isSome := List.find?_isSome.2 ⟨w, hw, decide_eq_true (p := w.id = w.id) rfl⟩
  obtain ⟨v, hv⟩ := Option.isSome_iff_exists.1 hsome
  have hvw : v = w := hn.eq_of_id (mem_of_watcher? hv) hw (id_of_watcher? hv)
  exact hvw ▸ hv

theorem wakeIf_watchers (h : Host) (c : Bool) (t : Turn) : (h.wakeIf c t).watchers = h.watchers := by
  unfold wakeIf wake
  split
  · split <;> rfl
  · rfl

/-- A full watcher refuses, and all that is left of it is a warning. -/
theorem trySend_full (hn : h.Numbered) (hw : w ∈ h.watchers) (hopen : w.closed = false) (hfull : w.full = true)
    (payload : Value) :
    h.trySend w.id payload = (some (.backpressure w.key w.action), h.warnPressure w) := by
  have hoffer : w.offer payload = .error (.backpressure w.key w.action) := by simp [Watcher.offer, hopen, hfull]
  rw [trySend, hn.watcher? hw]
  dsimp only [deliver]
  rw [hoffer]

/-- One with room accepts. -/
theorem trySend_room (hn : h.Numbered) (hw : w ∈ h.watchers) (hopen : w.closed = false) (hroom : w.full = false)
    (payload : Value) :
    (h.trySend w.id payload).1 = none ∧ (h.trySend w.id payload).2.watchers = h.served payload [w.id] := by
  have hoffer : w.offer payload = .ok (w.push payload) := by simp [Watcher.offer, hopen, hroom]
  rw [trySend, hn.watcher? hw]
  dsimp only [deliver]
  rw [hoffer]
  refine ⟨rfl, ?_⟩
  rw [wakeIf_watchers, put, warnPressure_watchers]
  refine List.map_congr_left fun v hv => ?_
  by_cases hid : v.id = w.id
  · obtain rfl := hn.eq_of_id hv hw hid
    simp [Watcher.push]
  · simp [hid, Watcher.push]

/-- How sending one payload to these watchers, one after the other, can go: all had room, or
those before the first full one. -/
inductive Sent (h : Host) (payload : Value) (ws : List Watcher) : Option Error × Host → Prop
  | all {h' : Host} (hroom : ∀ w ∈ ws, w.full = false) (hserved : h'.watchers = h.served payload (ws.map (·.id))) :
    Sent h payload ws (none, h')
  | refused {h' : Host} (before after : List Watcher) {w : Watcher} (hws : ws = before ++ w :: after)
    (hroom : ∀ v ∈ before, v.full = false) (hfull : w.full = true)
    (hserved : h'.watchers = h.served payload (before.map (·.id))) :
    Sent h payload ws (some (.backpressure w.key w.action), h')

theorem sendAll_sent (hn : h.Numbered) {ws : List Watcher} (hws : ∀ w ∈ ws, w ∈ h.watchers ∧ w.closed = false)
    (hdistinct : (ws.map (·.id)).Nodup) (payload : Value) :
    h.Sent payload ws (sendAll (fun h id => h.trySend id payload) (ws.map (·.id)) h) := by
  induction ws generalizing h with
  | nil => exact .all (fun _ hv => absurd hv List.not_mem_nil) (h.served_nil payload).symm
  | cons w ws ih =>
    obtain ⟨hw, hopen⟩ := hws w List.mem_cons_self
    obtain ⟨hfresh, hdistinct⟩ := List.nodup_cons.1 hdistinct
    rw [List.map_cons, sendAll]
    cases hfull : w.full with
    | true =>
      rw [trySend_full hn hw hopen hfull]
      have hnobody : (h.warnPressure w).watchers = h.served payload [] :=
        (h.warnPressure_watchers w).trans (h.served_nil payload).symm
      dsimp only
      exact .refused [] ws rfl (fun _ hv => absurd hv List.not_mem_nil) hfull hnobody
    | false =>
      obtain ⟨hnone, hserved⟩ := trySend_room hn hw hopen hfull payload
      obtain ⟨g, hg⟩ : ∃ g, h.trySend w.id payload = (none, g) := ⟨_, Prod.ext hnone rfl⟩
      rw [hg] at hserved ⊢
      -- the watchers that are left have got nothing yet
      have hleft : ∀ v ∈ ws, v ∈ g.watchers ∧ v.closed = false := fun v hv => by
        obtain ⟨hmem, hvopen⟩ := hws v (List.mem_cons_of_mem w hv)
        have hother : v.id ≠ w.id := fun hid => hfresh (List.mem_map.2 ⟨v, hv, hid⟩)
        refine ⟨hserved ▸ List.mem_map.2 ⟨v, hmem, if_neg ?_⟩, hvopen⟩
        simpa using hother
      have hsent := ih (hn.served hserved) hleft hdistinct
      dsimp only
      generalize sendAll (fun h id => h.trySend id payload) (ws.map (·.id)) g = r at hsent ⊢
      cases hsent with
      | all hroom hrest =>
        refine .all ?_ (hrest.trans (served_cons hserved hfresh))
        simpa using ⟨hfull, hroom⟩
      | @refused _ before after _ hsplit hroom hvfull hrest =>
        have hunsent : w.id ∉ before.map (·.id) := fun hid => by
          rw [hsplit, List.map_append] at hfresh
          exact hfresh (List.mem_append_left _ hid)
        refine .refused (w :: before) after (congrArg (w :: ·) hsplit) ?_ hvfull
          (hrest.trans (served_cons hserved hunsent))
        simpa using ⟨hfull, hroom⟩

/-- A dispatch that does not wait. It answers how many live watchers the action has, and
each of them has got the payload once; or it is refused, and those before the first full one
have got it once. No other watcher is touched. So a refusal leaves every queue as it was
exactly where the first live watcher is full. -/
theorem Reached.tryDispatch_serves (hr : h.Reached) (key : Key) (action : String) (payload : Value) :
    let live := h.live key action
    let r := h.tryDispatch key action payload
    (h.engine.store.contains key = false ∧ r = (.error (.unknownInstance key), h)) ∨
    (h.engine.store.contains key = true ∧ (∀ w ∈ live, w.full = false) ∧ r.1 = .ok live.length ∧
      r.2.watchers = h.served payload (live.map (·.id))) ∨
    (h.engine.store.contains key = true ∧ ∃ before w after, live = before ++ w :: after ∧
      (∀ v ∈ before, v.full = false) ∧ w.full = true ∧ r.1 = .error (.backpressure key action) ∧
      r.2.watchers = h.served payload (before.map (·.id)) ∧ (r.2.watchers = h.watchers ↔ before = [])) := by
  have hn := hr.lived.numbered
  have hlive : ∀ w ∈ h.live key action, w ∈ h.watchers ∧ w.key = key ∧ w.action = action ∧ w.closed = false := by
    intro w hw
    obtain ⟨hmem, hfor⟩ := List.mem_filter.1 hw
    simp only [Bool.and_eq_true, decide_eq_true_eq, Bool.not_eq_true'] at hfor
    exact ⟨hmem, hfor.1.1.2, hfor.1.2, hfor.2⟩
  have hdistinct : ((h.live key action).map (·.id)).Nodup :=
    (List.filter_sublist.map _).nodup hn.nodup
  have hsent := sendAll_sent hn (fun w hw => ⟨(hlive w hw).1, (hlive w hw).2.2.2⟩) hdistinct payload
  dsimp only
  cases hfind : h.engine.store.find? key with
  | none =>
    refine .inl ⟨by simp [Store.contains, hfind], ?_⟩
    simp [tryDispatch, dispatchBy, Store.get, hfind]
  | some i =>
    have hcontains : h.engine.store.contains key = true := by simp [Store.contains, hfind]
    have hreached : h.reached key action = (h.live key action).map (·.id) := rfl
    generalize hall : sendAll (fun h id => h.trySend id payload) ((h.live key action).map (·.id)) h = r at hsent
    cases hsent with
    | @all g hroom hserved =>
      have hdispatch : h.tryDispatch key action payload = (.ok (h.live key action).length, g) := by
        simp only [tryDispatch, dispatchBy, Store.get, hfind, hreached, hall, List.length_map]
      rw [hdispatch]
      exact .inr (.inl ⟨hcontains, hroom, rfl, hserved⟩)
    | @refused g before after w hsplit hroom hfull hserved =>
      have hdispatch : h.tryDispatch key action payload = (.error (.backpressure w.key w.action), g) := by
        simp only [tryDispatch, dispatchBy, Store.get, hfind, hreached, hall]
      obtain ⟨-, hkey, haction, -⟩ := hlive w (hsplit ▸ List.mem_append_right _ List.mem_cons_self)
      rw [hdispatch, hkey, haction]
      refine .inr (.inr ⟨hcontains, before, w, after, hsplit, hroom, hfull, rfl, hserved, ?_⟩)
      rw [hserved, served_eq_watchers_iff, List.map_eq_nil_iff]
      intro id hid
      obtain ⟨v, hv, rfl⟩ := List.mem_map.1 hid
      exact ⟨v, (hlive v (hsplit ▸ List.mem_append_left _ hv)).1, rfl⟩

end Host

namespace Bakery

def main : Key := ⟨"bakery", "main"⟩

def bun : Value := .str "bun"

/-- Ovens with room for one order each. -/
def declaration : Declaration :=
  { Declaration.named "bakery" with
    options := { Policy.Overrides.empty with concurrency := { Policy.ConcurrencyPatch.empty with capacity := some 1 } } }

def bakery : Engine :=
  match (Engine.ofConfig .builtin false true).register declaration "main" (.obj []) with
  | .error _ => .ofConfig .builtin false true
  | .ok (_, e) => e

/-- Two ovens. -/
def idle : Host :=
  (Host.ofEngine bakery).after [.watch main "bake" "upper" main [], .watch main "bake" "lower" main []]

/-- The two ovens, and a pie waiting for the lower one. -/
def busy : Host := (idle.perform (.trySend 1 (.str "pie"))).2

theorem idle_reached : idle.Reached :=
  ((Host.Reached.start bakery).call (c := .watch main "bake" "upper" main []) trivial).call
    (c := .watch main "bake" "lower" main []) trivial

theorem busy_reached : busy.Reached := by
  have hattached : idle.watchers.all (·.attached) = true := by cbv
  have howned : idle.Owned (.trySend 1 (.str "pie")) := fun w hw _ => .inl (List.all_eq_true.1 hattached w hw)
  exact idle_reached.call howned

/-- Both ovens get the bun where both have room, and where the lower one is full those that
stand before it. -/
theorem ovens_served :
    (idle.tryDispatch main "bake" bun).1 = .ok 2 ∧
      (idle.tryDispatch main "bake" bun).2.watchers = idle.served bun [0, 1] ∧
      ∃ before w after, busy.live main "bake" = before ++ w :: after ∧ w.full = true ∧
        (busy.tryDispatch main "bake" bun).2.watchers = busy.served bun (before.map (·.id)) := by
  have hidle : (idle.tryDispatch main "bake" bun).1 = .ok 2 ∧ (idle.live main "bake").map (·.id) = [0, 1] := by cbv
  have hbusy : (busy.tryDispatch main "bake" bun).1 = .error (.backpressure main "bake") := by cbv
  refine ⟨hidle.1, ?_, ?_⟩
  · rcases idle_reached.tryDispatch_serves main "bake" bun with ⟨-, he⟩ | ⟨-, -, -, he⟩ | ⟨-, _, _, _, -, -, -, he, -⟩
    · cases hidle.1.symm.trans (congrArg Prod.fst he)
    · rw [← hidle.2]
      exact he
    · cases hidle.1.symm.trans he
  · rcases busy_reached.tryDispatch_serves main "bake" bun with
      ⟨-, he⟩ | ⟨-, -, he, -⟩ | ⟨-, before, w, after, hsplit, -, hfull, -, hserved, -⟩
    · cases hbusy.symm.trans (congrArg Prod.fst he)
    · cases hbusy.symm.trans he
    · exact ⟨before, w, after, hsplit, hfull, hserved⟩

/-- A refusal that has served the upper oven: asked again, it bakes a second bun. -/
theorem baked_twice :
    busy.Reached ∧ (busy.tryDispatch main "bake" bun).1 = .error (.backpressure main "bake") ∧
      (busy.tryDispatch main "bake" bun).2.watchers.map (·.queue) = [[bun], [.str "pie"]] ∧
      (((busy.tryDispatch main "bake" bun).2.advance 0).tryDispatch main "bake" bun).1 = .ok 2 ∧
      ((((busy.tryDispatch main "bake" bun).2.advance 0).tryDispatch main "bake" bun).2.advance 0).engine.notes =
        [.started "upper" bun, .finished "upper" bun, .started "lower" (.str "pie"), .finished "lower" (.str "pie"),
          .started "upper" bun, .finished "upper" bun, .started "lower" bun, .finished "lower" bun] := by
  refine ⟨busy_reached, ?_⟩
  cbv

end Bakery

end Settle
