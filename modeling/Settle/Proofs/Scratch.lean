/-
  Settle.Proofs.Scratch — buffers make the plans that lists make (see
  `Settle.Plan.Scratch`).

  Whatever an earlier call left in the buffers, a call over them ends as `Plan.compute`
  does and leaves the same plan (`compute_eq`). Scanning the buffers is scanning the list
  of what they miss: a scan of the whole order meets the steps not reached in the order
  of that list. The queue is not followed step by step, since it discovers steps in
  another order; it is closed in the sense of `Plan.Closed`, and that alone determines
  what it reached. Both take as many paths, so a deadline cuts off both or none.
-/

import Settle.Plan.Scratch
import Settle.Proofs.Executor
import Settle.Proofs.Reach

namespace Settle.Plan.Scratch

variable {g : Graph} {w : Wiring} {scope : Scope} {roots : List PathId} {forced : List StepId} {b : Scratch}

/-- Emptied, the bit sets are those made for the wiring. -/
structure Fits (w : Wiring) (b : Scratch) : Prop where
  seeds : b.seeds.clear = .empty w
  reachable : b.reachable.clear = .empty w.stepCount

theorem sized_of_clear {r : BitSet} {n : Nat} (h : r.clear = .empty n) : r.Sized n := by
  have hlen := congrArg (fun s => s.words.length) h
  simpa [BitSet.clear, BitSet.empty, BitSet.Sized] using hlen

theorem lt_stepCount (h : Wired g w) {s : StepId} (hs : s ∈ w.order scope) : s < w.stepCount := by
  obtain ⟨st, hst, -⟩ := h.mem_order.1 hs
  obtain ⟨-, rfl⟩ := h
  have hlt := (List.getElem?_eq_some_iff.1 hst).1
  simpa [Wiring.stepCount, Wiring.ofGraph] using hlt

theorem fits_ofWiring (w : Wiring) : (ofWiring w).Fits w := by
  have hclear : ∀ n, (BitSet.empty n).clear = .empty n := fun n => by simp [BitSet.clear, BitSet.empty]
  exact ⟨by simp [ofWiring, Marks.clear, Marks.empty, hclear], hclear _⟩

theorem clear_clear (s : BitSet) : s.clear.clear = s.clear := by
  simp [BitSet.clear]

theorem Fits.start (hb : b.Fits w) : b.start.Fits w :=
  ⟨by simpa [Scratch.start, Marks.clear, clear_clear] using hb.seeds,
    by simpa [Scratch.start, clear_clear] using hb.reachable⟩

theorem clear_of_add? {r r' : BitSet} {i : Nat} (h : r.add? i = some r') : r'.clear = r.clear := by
  unfold BitSet.add? at h
  split at h
  · cases h
    exact BitSet.clear_set r i
  · cases h

theorem Fits.enter (hb : b.Fits w) {reachable : BitSet} (hr : reachable.clear = b.reachable.clear) (s : StepId) :
    (Scratch.enter w b reachable s).Fits w :=
  ⟨by simpa only [Scratch.enter, Marks.clear_mark] using hb.seeds, hr.trans hb.reachable⟩

/-- An index that is out can be put in. -/
theorem add?_of_missing {r : BitSet} {n i : Nat} (hr : r.Sized n) (hi : i < n) (hout : r.get i = false) :
    ∃ r', r.add? i = some r' := by
  unfold BitSet.Sized at hr
  have hword : i / 64 < r.words.length := by omega
  exact ⟨r.set i, by simp [BitSet.add?, hword, hout]⟩

theorem add?_of_get {r : BitSet} {i : Nat} (h : r.get i = true) : r.add? i = none := by
  simp [BitSet.add?, h]

/-! ## Scanning -/

theorem Fits.scan (hb : b.Fits w) (l : List StepId) : (Scratch.scan w l b).2.Fits w := by
  induction l generalizing b with
  | nil => exact hb
  | cons s rest ih =>
    rw [Scratch.scan]
    cases ha : b.reachable.add? s with
    | none => exact ih hb
    | some reachable =>
      simp only
      split
      · exact ih (hb.enter (clear_of_add? ha) s)
      · exact ih hb

theorem scan_plan (l : List StepId) (b : Scratch) : (scan w l b).2.plan = b.plan := by
  induction l generalizing b with
  | nil => rfl
  | cons s rest ih =>
    rw [scan]
    cases b.reachable.add? s with
    | none => exact ih b
    | some reachable =>
      simp only
      split
      · exact (ih _).trans (enter_plan w b reachable s)
      · exact ih b

theorem get_scan_of_not_mem {t : StepId} (l : List StepId) (b : Scratch) (ht : t ∉ l) :
    (scan w l b).2.reachable.get t = b.reachable.get t := by
  induction l generalizing b with
  | nil => rfl
  | cons s rest ih =>
    have hrest : t ∉ rest := fun hm => ht (List.mem_cons_of_mem s hm)
    rw [scan]
    cases ha : b.reachable.add? s with
    | none => exact ih b hrest
    | some reachable =>
      simp only
      split
      · have hne : s ≠ t := fun e => ht (e ▸ List.mem_cons_self)
        rw [ih _ hrest, enter_reachable, get_of_add? ha, decide_eq_false hne, Bool.or_false]
      · exact ih b hrest

/-- A scan that reached nothing changed nothing. -/
theorem scan_idle_eq {l : List StepId} (h : (scan w l b).1 = false) : (scan w l b).2 = b := by
  induction l with
  | nil => rfl
  | cons s rest ih =>
    rw [scan] at h ⊢
    cases ha : b.reachable.add? s with
    | none =>
      rw [ha] at h
      exact ih h
    | some reachable =>
      rw [ha] at h
      simp only at h ⊢
      split at h
      · cases h
      · rename_i ht
        rw [if_neg ht]
        exact ih h

theorem missing_cons (s : StepId) (l : List StepId) (r : BitSet) :
    missing (s :: l) r = if r.get s then missing l r else s :: missing l r := by
  cases hs : r.get s <;> simp [missing, hs]

/-- A scan of a list is a scan of what is missing of it. -/
theorem scan_missing {l : List StepId} (hnd : l.Nodup) (hlt : ∀ s ∈ l, s < w.stepCount) (hb : b.Fits w) :
    Plan.scan w (missing l b.reachable) b.seeds =
      (missing l (scan w l b).2.reachable, (scan w l b).2.seeds) := by
  induction l generalizing b with
  | nil => rfl
  | cons s rest ih =>
    obtain ⟨hs, hnd⟩ := List.nodup_cons.1 hnd
    have hrest : ∀ t ∈ rest, t < w.stepCount := fun t ht => hlt t (List.mem_cons_of_mem s ht)
    rw [missing_cons, missing_cons, scan]
    cases hin : b.reachable.get s with
    | true =>
      have hkept : (scan w rest b).2.reachable.get s = true := (get_scan_of_not_mem rest b hs).trans hin
      rw [add?_of_get hin, if_pos rfl, if_pos hkept]
      exact ih hnd hrest hb
    | false =>
      obtain ⟨reachable, ha⟩ := add?_of_missing (sized_of_clear hb.reachable) (hlt s List.mem_cons_self) hin
      rw [ha, if_neg Bool.false_ne_true, Plan.scan]
      cases ht : b.seeds.touchesStep w s with
      | true =>
        have hsame : missing rest b.reachable = missing rest reachable := by
          rw [missing_of_add? ha, List.filter_eq_self.2]
          intro t ht
          have hne : t ≠ s := fun e => hs (e ▸ (List.mem_filter.1 ht).1)
          simpa using hne
        have hkept : (scan w rest (enter w b reachable s)).2.reachable.get s = true := by
          rw [get_scan_of_not_mem rest _ hs]
          exact (get_of_add? ha s).trans (by simp)
        have hfits := hb.enter (clear_of_add? ha) s
        have hrec := ih hnd hrest hfits
        simp only [if_true, if_pos hkept]
        rw [hsame]
        exact hrec
      | false =>
        have hleft : (scan w rest b).2.reachable.get s = false := (get_scan_of_not_mem rest b hs).trans hin
        simp only [Bool.false_eq_true, if_false, hleft, ih hnd hrest hb]

/-- Scanning the order leaves what scanning the list of the missing steps leaves. -/
theorem scans_missing (h : Wired g w) (scope : Scope) {b : Scratch} (hb : b.Fits w) :
    Plan.scans w (missing (w.order scope) b.reachable) b.seeds = missing (w.order scope) (scans w scope b).reachable ∧
      (scans w scope b).Fits w ∧ (scans w scope b).plan = b.plan := by
  have hscan := scan_missing (h.nodup_order scope) (fun _ hs => lt_stepCount h hs) hb
  rw [Plan.scans, scans, hscan]
  simp only
  cases hadded : (scan w (w.order scope) b).1 with
  | false =>
    rw [scan_idle_eq hadded]
    simp [hb]
  | true =>
    have hless := (length_missing_scan w (w.order scope) b fun _ hs => hs).2 hadded
    obtain ⟨hleft, hfits, hplan⟩ := scans_missing h scope (hb.scan (w.order scope))
    rw [if_pos hless, if_pos rfl]
    exact ⟨hleft, hfits, hplan.trans (scan_plan _ _)⟩
termination_by (missing (w.order scope) b.reachable).length

theorem force_seeds (b : Scratch) (forced : List StepId) :
    (forced.foldl (force w scope) b).seeds =
      ((forced.filter (w.inScope scope)).map w.out).foldl (Marks.mark w) b.seeds := by
  induction forced generalizing b with
  | nil => rfl
  | cons s rest ih =>
    rw [List.foldl_cons, ih, force, List.filter_cons]
    split <;> rfl

theorem force_plan (b : Scratch) (forced : List StepId) : (forced.foldl (force w scope) b).plan = b.plan := by
  induction forced generalizing b with
  | nil => rfl
  | cons s rest ih =>
    rw [List.foldl_cons, ih, force]
    split <;> rfl

theorem Fits.force (hb : b.Fits w) (scope : Scope) (forced : List StepId) :
    (forced.foldl (Scratch.force w scope) b).Fits w := by
  induction forced generalizing b with
  | nil => exact hb
  | cons s rest ih =>
    rw [List.foldl_cons]
    refine ih ?_
    unfold Scratch.force
    split
    · exact hb.enter (BitSet.clear_set _ _) s
    · exact hb

theorem get_force (h : Wired g w) (hb : b.Fits w) (forced : List StepId) (t : StepId) :
    (forced.foldl (Scratch.force w scope) b).reachable.get t =
      (b.reachable.get t || (forced.filter (w.inScope scope)).contains t) := by
  induction forced generalizing b with
  | nil => simp
  | cons s rest ih =>
    have hb' : (Scratch.force w scope b s).Fits w := hb.force scope [s]
    rw [List.foldl_cons, ih hb', List.filter_cons]
    unfold Scratch.force
    split
    · rename_i hin
      have hs : s < w.stepCount := lt_stepCount h (Wired.inScope_iff.1 hin)
      simp only [enter_reachable, BitSet.get_set (sized_of_clear hb.reachable) hs, List.contains_cons, Bool.or_assoc]
      congr 1
      by_cases ht : s = t
      · simp [ht]
      · simp [ht, Ne.symm ht]
    · rfl

/-- A small scope is planned as `Plan.linear` plans it. -/
theorem linear_plan (h : Wired g w) (hb : b.Fits w) (roots : List PathId) (forced : List StepId) :
    (linear w scope roots forced b.start).plan = Plan.linear w scope roots forced ∧
      (linear w scope roots forced b.start).Fits w := by
  have hstart : ({ b.start with seeds := roots.foldl (Marks.mark w) b.start.seeds } : Scratch).Fits w :=
    ⟨by simpa only [Marks.clear_foldl_mark] using hb.start.seeds, hb.start.reachable⟩
  obtain ⟨hleft, hfits, hplan⟩ := scans_missing h scope (hstart.force scope forced)
  have hmarks : (forced.foldl (force w scope) { b.start with seeds := roots.foldl (Marks.mark w) b.start.seeds }).seeds
      = (roots ++ (forced.filter (w.inScope scope)).map w.out).foldl (Marks.mark w) (.empty w) := by
    rw [force_seeds, List.foldl_append, ← hb.seeds]
    rfl
  have htodo : missing (w.order scope)
      (forced.foldl (force w scope) { b.start with seeds := roots.foldl (Marks.mark w) b.start.seeds }).reachable
        = (w.order scope).filter fun s => !(forced.filter (w.inScope scope)).contains s := by
    refine List.filter_congr fun s _ => ?_
    rw [get_force h hstart]
    simp [start]
  rw [hmarks, htodo] at hleft
  refine ⟨?_, hfits.seeds, hfits.reachable⟩
  unfold linear Plan.linear picked
  simp only [hplan, hleft, force_plan]
  rw [show b.start.plan = [] from rfl, List.nil_append]
  refine List.filter_congr fun s hs => ?_
  rw [Bool.eq_iff_iff]
  simp [missing, hs]

/-! ## The queue -/

/-- The bit set holds the steps discovered, each of the scope and once. -/
structure Found (w : Wiring) (scope : Scope) (b : Scratch) (found : List StepId) : Prop where
  fits : b.Fits w
  get_iff : ∀ s, b.reachable.get s = true ↔ s ∈ found
  mem_order : ∀ s ∈ found, s ∈ w.order scope
  nodup : found.Nodup

/-- Visiting a list discovers its steps of the scope that were not, and puts the fields
of these into the queue. -/
structure Visited (w : Wiring) (scope : Scope) (l : List StepId) (b : Scratch) (found : List StepId) (b' : Scratch)
    (new : List StepId) : Prop where
  holds : Found w scope b' (found ++ new)
  queue : b'.queue = (new.map w.out).reverse ++ b.queue
  plan : b'.plan = b.plan
  mem : ∀ s ∈ new, s ∈ l
  complete : ∀ s ∈ l, s ∈ w.order scope → s ∈ found ++ new

theorem visit_visited (h : Wired g w) {found : List StepId} (hb : Found w scope b found) (s : StepId) :
    ∃ b' new, visit w scope (b, found) s = (b', found ++ new) ∧ Visited w scope [s] b found b' new := by
  unfold visit
  cases hin : b.reachable.get s with
  | true =>
    rw [add?_of_get hin]
    refine ⟨b, [], by simp, by simpa using hb, rfl, rfl, nofun, fun t ht _ => ?_⟩
    obtain rfl := List.mem_singleton.1 ht
    exact List.mem_append_left _ ((hb.get_iff _).1 hin)
  | false =>
    by_cases hs : w.inScope scope s = true
    · have ho := Wired.inScope_iff.1 hs
      have hnot : s ∉ found := fun hm => by
        rw [(hb.get_iff s).2 hm] at hin
        cases hin
      obtain ⟨reachable, ha⟩ := add?_of_missing (sized_of_clear hb.fits.reachable) (lt_stepCount h ho) hin
      refine ⟨{ b with reachable := reachable, queue := w.out s :: b.queue }, [s], by simp only [ha, if_pos hs], ?_, rfl, rfl,
        fun _ ht => ht, fun t ht _ => List.mem_append_right _ ht⟩
      refine ⟨⟨hb.fits.seeds, (clear_of_add? ha).trans hb.fits.reachable⟩, fun t => ?_, fun t ht => ?_, ?_⟩
      · rw [get_of_add? ha, Bool.or_eq_true, hb.get_iff, decide_eq_true_eq, List.mem_append, List.mem_singleton,
          @eq_comm _ s]
      · rcases List.mem_append.1 ht with ht | ht
        · exact hb.mem_order t ht
        · exact List.mem_singleton.1 ht ▸ ho
      · refine List.nodup_append.2 ⟨hb.nodup, List.nodup_cons.2 ⟨List.not_mem_nil, List.nodup_nil⟩, fun t ht u hu e => hnot ?_⟩
        rw [← List.mem_singleton.1 hu, ← e]
        exact ht
    · refine ⟨b, [], ?_, by simpa using hb, rfl, rfl, nofun, fun t ht ho => absurd ?_ hs⟩
      · rw [List.append_nil]
        split
        · rfl
        · rw [if_neg hs]
      · rw [← List.mem_singleton.1 ht]
        exact Wired.inScope_iff.2 ho

theorem foldl_visited (h : Wired g w) {found : List StepId} (hb : Found w scope b found) (l : List StepId) :
    ∃ b' new, l.foldl (visit w scope) (b, found) = (b', found ++ new) ∧ Visited w scope l b found b' new := by
  induction l generalizing b found with
  | nil => exact ⟨b, [], by simp, by simpa using hb, rfl, rfl, nofun, nofun⟩
  | cons s rest ih =>
    obtain ⟨b₁, new₁, h₁, hv₁⟩ := visit_visited h hb s
    obtain ⟨b₂, new₂, h₂, hv₂⟩ := ih hv₁.holds
    refine ⟨b₂, new₁ ++ new₂, by rw [List.foldl_cons, h₁, h₂, List.append_assoc], ?_, ?_, hv₂.plan.trans hv₁.plan,
      fun t ht => ?_, fun t ht ho => ?_⟩
    · rw [← List.append_assoc]
      exact hv₂.holds
    · rw [hv₂.queue, hv₁.queue, List.map_append, List.reverse_append, List.append_assoc]
    · rcases List.mem_append.1 ht with ht | ht
      · exact List.mem_singleton.1 (hv₁.mem t ht) ▸ List.mem_cons_self
      · exact List.mem_cons_of_mem s (hv₂.mem t ht)
    · rw [← List.append_assoc]
      rcases List.mem_cons.1 ht with rfl | ht
      · exact List.mem_append_left _ (hv₁.complete _ (List.mem_singleton_self _) ho)
      · exact hv₂.complete t ht ho

/-- Taking a path: what is missing and what is queued become fewer together. -/
theorem drain_cons (h : Wired g w) {found : List StepId} (hb : Found w scope b found) {p : PathId} {rest : List PathId}
    (hqueue : b.queue = p :: rest) :
    ∃ b₁ new, Visited w scope (w.affected p) { b with queue := rest } found b₁ new ∧
      (missing (w.order scope) b₁.reachable).length + b₁.queue.length <
        (missing (w.order scope) b.reachable).length + b.queue.length ∧
      ∀ expired popped, drain w scope expired b found popped =
        if (popped + 1) % deadlineInterval = 0 && expired then ({ b with queue := rest }, none)
        else drain w scope expired b₁ (found ++ new) (popped + 1) := by
  have hb₀ : Found w scope { b with queue := rest } found :=
    ⟨⟨hb.fits.seeds, hb.fits.reachable⟩, hb.get_iff, hb.mem_order, hb.nodup⟩
  obtain ⟨b₁, new, hfold, hv⟩ := foldl_visited h hb₀ (w.affected p)
  have hless := foldl_visit_measure w scope (w.affected p) ({ b with queue := rest }, found)
  rw [hfold] at hless
  refine ⟨b₁, new, hv, ?_, fun expired popped => ?_⟩
  · simp only at hless
    rw [hqueue, List.length_cons]
    omega
  · rw [drain]
    split
    · rename_i hempty
      rw [hqueue] at hempty
      cases hempty
    · rename_i p' rest' hcons
      obtain ⟨rfl, rfl⟩ := List.cons.inj (hqueue.symm.trans hcons)
      simp only [hfold]

theorem drain_nil (hqueue : b.queue = []) (expired : Bool) (found : List StepId) (popped : Nat) :
    drain w scope expired b found popped = (b, some found) := by
  rw [drain]
  split
  · rfl
  · rename_i hcons
    rw [hqueue] at hcons
    cases hcons

/-- Along a drain: each path that is taken visits what it affects, and the drain goes on from
there, unless it is time to look at a deadline and it has passed. -/
theorem drain_induct (h : Wired g w)
    {motive : (b : Scratch) → (found : List StepId) → Nat → Found w scope b found → Prop}
    (nil : ∀ b found popped hb, b.queue = [] → motive b found popped hb)
    (cons : ∀ b found popped hb p rest b₁ new, b.queue = p :: rest →
      (hv : Visited w scope (w.affected p) { b with queue := rest } found b₁ new) →
      (∀ expired, drain w scope expired b found popped =
        if (popped + 1) % deadlineInterval = 0 && expired then ({ b with queue := rest }, none)
        else drain w scope expired b₁ (found ++ new) (popped + 1)) →
      motive b₁ (found ++ new) (popped + 1) hv.holds → motive b found popped hb)
    {b : Scratch} {found : List StepId} (popped : Nat) (hb : Found w scope b found) : motive b found popped hb := by
  induction hn : (missing (w.order scope) b.reachable).length + b.queue.length using Nat.strongRecOn
    generalizing b found popped with
  | _ n ih =>
  cases hqueue : b.queue with
  | nil => exact nil b found popped hb hqueue
  | cons p rest =>
    obtain ⟨b₁, new, hv, hless, hdrain⟩ := drain_cons h hb hqueue
    exact cons b found popped hb p rest b₁ new hqueue hv (fun expired => hdrain expired popped)
      (ih _ (hn ▸ hless) (popped + 1) hv.holds rfl)

/-- What is left when the queue is drained. -/
structure Drained (g : Graph) (w : Wiring) (scope : Scope) (b : Scratch) (found : List StepId) (b' : Scratch)
    (all : List StepId) : Prop where
  holds : Found w scope b' all
  closed : Closed g w scope b.queue found all
  plan : b'.plan = b.plan

theorem drain_drained (h : Wired g w) {expired : Bool} {found all : List StepId} {popped : Nat} {b' : Scratch}
    (hb : Found w scope b found) (hq : ∀ k ∈ b.queue, k < g.table.size)
    (hd : drain w scope expired b found popped = (b', some all)) : Drained g w scope b found b' all := by
  induction popped, hb using drain_induct h with
  | nil b found popped hb hqueue =>
    rw [drain_nil hqueue] at hd
    cases hd
    refine ⟨hb, ?_, rfl⟩
    rw [hqueue]
    exact ⟨fun _ hs => hs, nofun, fun _ ht => .inl ht, fun R hR _ _ => hR, hb.mem_order, hb.nodup⟩
  | cons b found popped hb p rest b₁ new hqueue hv hdrain ih =>
    rw [hdrain] at hd
    split at hd
    · cases hd
    obtain ⟨path, hpath⟩ := PathTable.exists_path? (hq p (hqueue ▸ List.mem_cons_self))
    have hhit : ∀ s, Hits g w scope p s ↔ s ∈ w.order scope ∧ s ∈ w.affected p := fun s => by
      rw [h.mem_affected hpath, Hits, hpath]
      simp
    have hnew : ∀ t ∈ new, t ∈ w.order scope := fun t ht => hv.holds.mem_order t (List.mem_append_right _ ht)
    have hq₁ : ∀ k ∈ b₁.queue, k < g.table.size := fun k hk => by
      rw [hv.queue] at hk
      rcases List.mem_append.1 hk with hk | hk
      · obtain ⟨t, ht, rfl⟩ := List.mem_map.1 (List.mem_reverse.1 hk)
        exact out_lt h (hnew t ht)
      · exact hq k (hqueue ▸ List.mem_cons_of_mem p hk)
    obtain ⟨hfound, hclosed, hplan⟩ := ih hq₁ hd
    refine ⟨hfound, ?_, hplan.trans hv.plan⟩
    rw [hqueue]
    have hafter : Closed g w scope (new.map w.out ++ rest) (found ++ new) all := by
      rw [hv.queue] at hclosed
      exact hclosed.of_queue fun k => by simp
    exact hafter.pop (fun t ht => (hhit t).2 ⟨hnew t ht, hv.mem t ht⟩) fun s hit =>
      hv.complete s ((hhit s).1 hit).2 ((hhit s).1 hit).1

theorem drain_of_unexpired (b : Scratch) (found : List StepId) (popped : Nat) :
    ∃ b' all, drain w scope false b found popped = (b', some all) := by
  fun_induction drain w scope false b found popped with
  | case1 b found _ => exact ⟨b, found, rfl⟩
  | case2 => simp_all
  | case3 => assumption

theorem Fits.visit (hb : b.Fits w) (found : List StepId) (s : StepId) :
    (Scratch.visit w scope (b, found) s).1.Fits w := by
  unfold Scratch.visit
  cases ha : b.reachable.add? s with
  | none => exact hb
  | some reachable =>
    simp only
    split
    · exact ⟨hb.seeds, (clear_of_add? ha).trans hb.reachable⟩
    · exact hb

theorem Fits.foldl_visit (l : List StepId) {r : Scratch × List StepId} (hr : r.1.Fits w) :
    (l.foldl (Scratch.visit w scope) r).1.Fits w := by
  induction l generalizing r with
  | nil => exact hr
  | cons s rest ih => exact ih (hr.visit r.2 s)

theorem Fits.drain {expired : Bool} {found : List StepId} {popped : Nat} (hb : b.Fits w) :
    (Scratch.drain w scope expired b found popped).1.Fits w := by
  fun_induction Scratch.drain w scope expired b found popped with
  | case1 => exact hb
  | case2 b => exact ⟨hb.seeds, hb.reachable⟩
  | case3 b found popped p rest _ _ _ _ ih => exact ih (Fits.foldl_visit _ ⟨hb.seeds, hb.reachable⟩)

theorem length_le_of_drain (h : Wired g w) {expired : Bool} {found all : List StepId} {popped : Nat} {b' : Scratch}
    (hb : Found w scope b found) (hd : drain w scope expired b found popped = (b', some all)) :
    found.length ≤ all.length := by
  induction popped, hb using drain_induct h with
  | nil b found popped hb hqueue =>
    rw [drain_nil hqueue] at hd
    cases hd
    exact Nat.le_refl _
  | cons b found popped hb p rest b₁ new hqueue hv hdrain ih =>
    rw [hdrain] at hd
    split at hd
    · cases hd
    have hle := ih hd
    rw [List.length_append] at hle
    omega

/-- A path is taken for each in the queue and for each step discovered later; a deadline
that has passed is met when these are as many as lie between two looks. -/
theorem drain_of_expired (h : Wired g w) {found all : List StepId} {popped : Nat} {b' : Scratch}
    (hb : Found w scope b found) (hd : drain w scope false b found popped = (b', some all))
    (hp : popped < deadlineInterval) :
    (drain w scope true b found popped).2 =
      if popped + b.queue.length + (all.length - found.length) < deadlineInterval then some all else none := by
  induction popped, hb using drain_induct h with
  | nil b found popped hb hqueue =>
    rw [drain_nil hqueue] at hd
    cases hd
    rw [drain_nil hqueue, if_pos (by simpa [hqueue] using hp)]
  | cons b found popped hb p rest b₁ new hqueue hv hdrain ih =>
    rw [hdrain, Bool.and_false, if_neg Bool.false_ne_true] at hd
    rw [hdrain, Bool.and_true]
    simp only [decide_eq_true_eq]
    have hle := length_le_of_drain h hv.holds hd
    rw [List.length_append] at hle
    have hi : deadlineInterval = 32 := rfl
    by_cases hlast : (popped + 1) % deadlineInterval = 0
    · rw [if_pos hlast, if_neg]
      rw [hi] at hlast
      rw [hqueue, List.length_cons]
      omega
    · rw [if_neg hlast]
      rw [hi] at hlast
      have hsum : popped + 1 + b₁.queue.length + (all.length - (found ++ new).length)
          = popped + b.queue.length + (all.length - found.length) := by
        rw [hv.queue, hqueue]
        simp only [List.length_append, List.length_reverse, List.length_map, List.length_cons]
        omega
      rw [ih hd (by omega), hsum]

/-- What the queue reaches from the roots and the forced steps, with the bit set. -/
structure Closure (g : Graph) (w : Wiring) (scope : Scope) (roots : List PathId) (forced : List StepId) (b' : Scratch)
    (all : List StepId) : Prop where
  holds : Found w scope b' all
  mem_iff : ∀ s, s ∈ all ↔ Plan.Reached g w scope roots forced s
  plan : b'.plan = []

theorem found_start (hb : b.Fits w) (scope : Scope) (queue : List PathId) : Found w scope { b.start with queue := queue } [] :=
  ⟨⟨hb.start.seeds, hb.start.reachable⟩, fun s => by simp [start], nofun, List.nodup_nil⟩

theorem closure_closure (h : Wired g w) (hb : b.Fits w) (hr : ∀ k ∈ roots, k < g.table.size) {expired : Bool}
    {b' : Scratch} {all : List StepId} (hc : closure w scope roots forced expired b.start = (b', some all)) :
    Closure g w scope roots forced b' all := by
  obtain ⟨b₁, first, hfold, hv⟩ := foldl_visited h (found_start hb scope roots.reverse) forced
  unfold closure at hc
  simp only [hfold, List.nil_append] at hc
  have hholds : Found w scope b₁ first := hv.holds
  have hfirst : ∀ s, s ∈ first ↔ s ∈ w.order scope ∧ s ∈ forced := fun s =>
    ⟨fun hs => ⟨hholds.mem_order s hs, hv.mem s hs⟩, fun hs => by simpa using hv.complete s hs.2 hs.1⟩
  have hqueue : ∀ k, k ∈ b₁.queue ↔ k ∈ first.map w.out ∨ k ∈ roots := fun k => by
    rw [hv.queue, List.mem_append, List.mem_reverse, List.mem_reverse]
  have hd := drain_drained h hholds (fun k hk => ?_) hc
  · exact ⟨hd.holds, hd.closed.mem_iff hfirst hqueue, hd.plan.trans hv.plan⟩
  · rcases (hqueue k).1 hk with hk | hk
    · obtain ⟨s, hs, rfl⟩ := List.mem_map.1 hk
      exact out_lt h (hholds.mem_order s hs)
    · exact hr k hk

/-- Sorting what was discovered and picking it out of the order give the plan. -/
theorem Closure.isPlan (h : Wired g w) {b' : Scratch} {all : List StepId} (hc : Closure g w scope roots forced b' all) :
    IsPlan g w scope roots forced (b'.picked w scope) ∧ byPosition w scope all = b'.picked w scope := by
  have hpicked : b'.picked w scope = (w.order scope).filter all.contains := by
    refine List.filter_congr fun s _ => ?_
    rw [Bool.eq_iff_iff, hc.holds.get_iff, List.contains_iff_mem]
  refine ⟨⟨?_, fun s => ?_⟩, (byPosition_eq h hc.holds.mem_order hc.holds.nodup).trans hpicked.symm⟩
  · rw [hpicked, contains_filter]
  · rw [← hc.mem_iff, hpicked, List.mem_filter, List.contains_iff_mem]
    exact ⟨And.right, fun hs => ⟨hc.holds.mem_order s hs, hs⟩⟩

theorem closure_of_unexpired (w : Wiring) (scope : Scope) (roots : List PathId) (forced : List StepId) (b : Scratch) :
    ∃ b' all, closure w scope roots forced false b = (b', some all) :=
  drain_of_unexpired _ _ _

theorem closure_of_expired (h : Wired g w) (hb : b.Fits w) {b' : Scratch} {all : List StepId}
    (hc : closure w scope roots forced false b.start = (b', some all)) :
    (closure w scope roots forced true b.start).2 =
      if roots.length + all.length < deadlineInterval then some all else none := by
  obtain ⟨b₁, first, hfold, hv⟩ := foldl_visited h (found_start hb scope roots.reverse) forced
  unfold closure at hc ⊢
  simp only [hfold] at hc ⊢
  have hle := length_le_of_drain h hv.holds hc
  have hsum : 0 + b₁.queue.length + (all.length - ([] ++ first).length) = roots.length + all.length := by
    rw [hv.queue]
    simp only [List.nil_append, List.length_append, List.length_reverse, List.length_map] at hle ⊢
    omega
  rw [drain_of_expired h hv.holds hc (by decide), hsum]

theorem Fits.closure (hb : b.Fits w) (scope : Scope) (roots : List PathId) (forced : List StepId) (expired : Bool) :
    (Scratch.closure w scope roots forced expired b).1.Fits w :=
  Fits.drain (Fits.foldl_visit forced ⟨hb.seeds, hb.reachable⟩)

/-- What a call answers: the plan in the buffer, if one was made. -/
def answer (r : Bool × Scratch) : Option (List StepId) := if r.1 then some r.2.plan else none

theorem answer_queued_of_some (h : Wired g w) (hb : b.Fits w) (hr : ∀ k ∈ roots, k < g.table.size) {expired : Bool}
    {b' : Scratch} {all : List StepId} (hc : closure w scope roots forced expired b.start = (b', some all)) :
    answer (queued w scope roots forced expired b.start) = some (b'.picked w scope) := by
  have hcl := closure_closure h hb hr hc
  unfold queued
  rw [hc]
  simp only [(hcl.isPlan h).2, hcl.plan, List.nil_append]
  split <;> rfl

theorem answer_queued_of_none {expired : Bool} {b' : Scratch}
    (hc : closure w scope roots forced expired b = (b', none)) :
    answer (queued w scope roots forced expired b) = none := by
  unfold queued
  rw [hc]
  rfl

/-- Planning by the queue of the buffers ends as planning by the queue of lists. -/
theorem queued_eq (h : Wired g w) (hb : b.Fits w) (hr : ∀ k ∈ roots, k < g.table.size) (expired : Bool) :
    answer (queued w scope roots forced expired b.start) = Plan.queued w scope roots forced expired := by
  have hsame : ∀ {b' all plan}, closure w scope roots forced expired b.start = (b', some all) →
      Plan.queued w scope roots forced expired = some plan → some (b'.picked w scope) = some plan := fun hc hp =>
    congrArg some (((closure_closure h hb hr hc).isPlan h).1.eq (queued_isPlan h hr hp))
  obtain ⟨b₁, all, hc⟩ := closure_of_unexpired w scope roots forced b.start
  cases expired with
  | false =>
    obtain ⟨plan, hp⟩ := queued_of_unexpired w scope roots forced
    rw [answer_queued_of_some h hb hr hc, hp]
    exact hsame hc hp
  | true =>
    have hcl := closure_closure h hb hr hc
    have hplan := (hcl.isPlan h).1
    have hlen : all.length = (b₁.picked w scope).length := by
      have hnd : (b₁.picked w scope).Nodup := (h.nodup_order scope).filter _
      refine ((List.perm_ext_iff_of_nodup hcl.holds.nodup hnd).2 fun s => ?_).length_eq
      rw [hcl.mem_iff, hplan.mem_iff]
    have hcut := closure_of_expired h hb hc
    cases hp : Plan.queued w scope roots forced true with
    | none =>
      have hmany := (queued_of_expired h hr hplan).1 hp
      rw [if_neg (by omega)] at hcut
      exact answer_queued_of_none (Prod.ext rfl hcut)
    | some plan =>
      have hfew : ¬ deadlineInterval ≤ roots.length + (b₁.picked w scope).length := fun hmany => by
        rw [(queued_of_expired h hr hplan).2 hmany] at hp
        cases hp
      rw [if_pos (by omega)] at hcut
      have hc' : closure w scope roots forced true b.start = (_, some all) := Prod.ext rfl hcut
      rw [answer_queued_of_some h hb hr hc']
      exact hsame hc' hp

theorem Fits.queued (hb : b.Fits w) (roots : List PathId) (forced : List StepId) (expired : Bool) :
    (Scratch.queued w scope roots forced expired b).2.Fits w := by
  have hfits := hb.closure scope roots forced expired
  unfold Scratch.queued
  generalize Scratch.closure w scope roots forced expired b = r at hfits
  obtain ⟨b', found⟩ := r
  cases found with
  | none => exact hfits
  | some found =>
    simp only
    split
    · exact ⟨hfits.seeds, hfits.reachable⟩
    · exact ⟨hfits.seeds, hfits.reachable⟩

/-! ## Any call -/

theorem Fits.compute (h : Wired g w) (hb : b.Fits w) (scope : Scope) (roots : List PathId) (forced : List StepId)
    (expired : Bool) : (Scratch.compute w scope roots forced expired b).2.Fits w := by
  unfold Scratch.compute
  split
  · exact (linear_plan h hb roots forced).2
  · exact hb.start.queued roots forced expired

/-- A call over any buffers answers what planning answers. -/
theorem compute_eq (h : Wired g w) (hb : b.Fits w) (hr : ∀ k ∈ roots, k < g.table.size) (expired : Bool) :
    answer (compute w scope roots forced expired b) = Plan.compute w scope roots forced expired := by
  unfold compute Plan.compute
  split
  · rw [← (linear_plan h hb roots forced).1]
    rfl
  · exact queued_eq h hb hr expired

end Settle.Plan.Scratch

namespace Settle

namespace Plan

/-- A plan is what its roots and forced steps reach, each step once and in the order of
the scope. Scanning lists, scanning buffers and the queue of the buffers all give it,
the steps the queue discovered being sorted or picked out of the order; and buffers made
for the wiring give it whatever an earlier call left in them. -/
theorem plan_is_what_is_reached {d : Declaration} {c : Compiled} (hc : c.Of d) (scope : Scope) {roots : List PathId}
    (hr : ∀ k ∈ roots, k < c.graph.table.size) (forced : List StepId) :
    ∃ plan, compute c.wiring scope roots forced false = some plan ∧
      (∀ s, s ∈ plan ↔ Reached c.graph c.wiring scope roots forced s) ∧
      plan.Sublist (c.wiring.order scope) ∧ plan.Nodup ∧
      linear c.wiring scope roots forced = plan ∧ queued c.wiring scope roots forced false = some plan ∧
      (Scratch.ofWiring c.wiring).Fits c.wiring ∧ ∀ b : Scratch, b.Fits c.wiring →
        (Scratch.compute c.wiring scope roots forced false b).1 = true ∧
        (Scratch.compute c.wiring scope roots forced false b).2.plan = plan ∧
        (Scratch.compute c.wiring scope roots forced false b).2.Fits c.wiring ∧
        (Scratch.linear c.wiring scope roots forced b.start).plan = plan ∧
        ∃ b' found, Scratch.closure c.wiring scope roots forced false b.start = (b', some found) ∧
          byPosition c.wiring scope found = plan ∧ b'.picked c.wiring scope = plan := by
  have h := hc.wired
  obtain ⟨plan, hplan⟩ := compute_of_unexpired c.wiring scope roots forced
  obtain ⟨plan', hplan'⟩ := queued_of_unexpired c.wiring scope roots forced
  have his := compute_isPlan h hr hplan
  have hlinear : linear c.wiring scope roots forced = plan := (linear_isPlan h hr).eq his
  have hqueued : plan' = plan := (queued_isPlan h hr hplan').eq his
  refine ⟨plan, hplan, his.mem_iff, his.inOrder ▸ List.filter_sublist, his.inOrder ▸ (h.nodup_order scope).filter _,
    hlinear, hqueued ▸ hplan', Scratch.fits_ofWiring _, fun b hb => ?_⟩
  have hmade : (Scratch.compute c.wiring scope roots forced false b).1 = true ∧
      (Scratch.compute c.wiring scope roots forced false b).2.plan = plan := by
    have he := (Scratch.compute_eq h hb hr false).trans hplan
    unfold Scratch.answer at he
    split at he
    · rename_i hr
      exact ⟨hr, Option.some.inj he⟩
    · cases he
  obtain ⟨b', found, hclosure⟩ := Scratch.closure_of_unexpired c.wiring scope roots forced b.start
  obtain ⟨hpicked, hsorted⟩ := (Scratch.closure_closure h hb hr hclosure).isPlan h
  have hsame : b'.picked c.wiring scope = plan := hpicked.eq his
  exact ⟨hmade.1, hmade.2, hb.compute h scope roots forced false,
    (Scratch.linear_plan h hb roots forced).1.trans hlinear, b', found, hclosure, hsorted.trans hsame, hsame⟩

/-- A change of `x`, with the copy of `a` forced twice, reaches both steps. -/
theorem plan_of_relay :
    (∀ k ∈ [2], k < Relay.compiled.graph.table.size) ∧
      compute Relay.compiled.wiring .all [2] [1, 1] false = some [0, 1] ∧
      ∀ s, s ∈ [0, 1] ↔ Reached Relay.compiled.graph Relay.compiled.wiring .all [2] [1, 1] s := by
  have hroots : ∀ k ∈ [2], k < Relay.compiled.graph.table.size := by decide
  obtain ⟨plan, hplan, hmem, -⟩ := plan_is_what_is_reached Relay.compiled_of .all hroots [1, 1]
  have hboth : compute Relay.compiled.wiring .all [2] [1, 1] false = some [0, 1] := by cbv
  obtain rfl : plan = [0, 1] := Option.some.inj (hplan.symm.trans hboth)
  exact ⟨hroots, hboth, hmem⟩

end Plan

end Settle
