/-
  Settle.Proofs.Reach — a plan is what a change can reach (see `Settle.Plan.Reach`).

  What roots and forced steps reach is the least set of steps of the scope with the
  forced ones, those a root may move, and those that the field of a step in the set may
  move (`Reached`). A plan made by scanning and a plan made by the queue are both that
  set in the order of the scope (`compute_isPlan`), and only a deadline leaves a scope
  without a plan (`compute_of_unexpired`).

  Both algorithms keep a list of steps not reached yet and grow what is changed. While
  scanning, what is changed are the marks: at the end no step left is touched by them.
  With the queue, it is what was taken from it: a path leaves the queue once every step
  it may move is reached.
-/

import Settle.Plan.Reach
import Settle.Proofs.Wiring

namespace Settle.Plan

variable {g : Graph} {w : Wiring} {scope : Scope} {roots : List PathId} {forced : List StepId}

/-- A change of the id may move the step, and the scope has it. -/
def Hits (g : Graph) (w : Wiring) (scope : Scope) (k : PathId) (s : StepId) : Prop :=
  s ∈ w.order scope ∧ ∃ p, g.table.path? k = some p ∧ g.Moves p s

/-- What roots and forced steps reach in a scope. -/
inductive Reached (g : Graph) (w : Wiring) (scope : Scope) (roots : List PathId) (forced : List StepId) : StepId → Prop
  | forced {s : StepId} : s ∈ forced → s ∈ w.order scope → Reached g w scope roots forced s
  | root {k : PathId} {s : StepId} : k ∈ roots → Hits g w scope k s → Reached g w scope roots forced s
  | step {t s : StepId} : Reached g w scope roots forced t → Hits g w scope (w.out t) s →
      Reached g w scope roots forced s

theorem Reached.mem_order {s : StepId} (h : Reached g w scope roots forced s) : s ∈ w.order scope := by
  cases h with
  | forced _ h => exact h
  | root _ h => exact h.1
  | step _ h => exact h.1

/-- The steps reached, in the order of the scope. -/
structure IsPlan (g : Graph) (w : Wiring) (scope : Scope) (roots : List PathId) (forced : List StepId)
    (plan : List StepId) : Prop where
  inOrder : plan = (w.order scope).filter plan.contains
  mem_iff : ∀ s, s ∈ plan ↔ Reached g w scope roots forced s

theorem contains_filter {l : List StepId} {f : StepId → Bool} : l.filter (l.filter f).contains = l.filter f := by
  refine List.filter_congr fun s hs => ?_
  simp [hs]

theorem mem_filter_not_contains {l left : List StepId} {s : StepId} :
    s ∈ l.filter (fun t => !left.contains t) ↔ s ∈ l ∧ s ∉ left := by
  simp

theorem out_lt (h : Wired g w) {s : StepId} (hs : s ∈ w.order scope) : w.out s < g.table.size := by
  obtain ⟨st, p, hst, hp⟩ := h.exists_out hs
  exact h.out_eq hst ▸ PathTable.lt_size hp

theorem touchesStep_of_hits (h : Wired g w) {m : Marks} {ids : List PathId} (hm : m.Of g ids) {k : PathId}
    (hk : k ∈ ids) {s : StepId} (hs : Hits g w scope k s) : m.touchesStep w s = true := by
  obtain ⟨-, p, hp, hmv⟩ := hs
  exact (hm.touchesStep_iff h).2 ⟨k, hk, p, hp, hmv⟩

/-! ## Scanning -/

theorem scan_sublist (todo : List StepId) (m : Marks) : ((scan w todo m).1).Sublist todo := by
  induction todo generalizing m with
  | nil => exact List.Sublist.refl _
  | cons s rest ih =>
    rw [scan]
    split
    · exact (ih _).cons s
    · exact (ih _).cons_cons s

theorem scans_sublist (todo : List StepId) (m : Marks) : (scans w todo m).Sublist todo := by
  rw [scans]
  split
  · exact (scans_sublist _ _).trans (scan_sublist todo m)
  · exact scan_sublist todo m
termination_by todo.length

/-- A scan that adds nothing touched nothing. -/
theorem scan_idle {todo : List StepId} {m : Marks} (h : (scan w todo m).1.length = todo.length) :
    scan w todo m = (todo, m) ∧ ∀ s ∈ todo, m.touchesStep w s = false := by
  induction todo generalizing m with
  | nil => exact ⟨rfl, nofun⟩
  | cons s rest ih =>
    rw [scan] at h ⊢
    cases ht : m.touchesStep w s with
    | true =>
      rw [ht, if_pos rfl] at h
      have := (scan_sublist (w := w) rest (m.mark w (w.out s))).length_le
      simp at h
      omega
    | false =>
      simp only [ht, Bool.false_eq_true, if_false, List.length_cons, Nat.add_right_cancel_iff] at h ⊢
      obtain ⟨he, hn⟩ := ih h
      exact ⟨by rw [he], fun t hr => (List.mem_cons.1 hr).elim (fun e => e ▸ ht) (hn t)⟩

/-- What scanning leaves of the steps to do and the ids marked, from `todo` and `ids` to
`left` and `ids'`: a step goes when it is marked, and every id put in is its field. -/
structure Scanned (g : Graph) (w : Wiring) (scope : Scope) (todo : List StepId) (ids : List PathId)
    (left : List StepId) (ids' : List PathId) : Prop where
  kept : ∀ k ∈ ids, k ∈ ids'
  gone : ∀ s ∈ todo, s ∉ left → w.out s ∈ ids'
  /-- Whatever holds of all steps that the ids hit, and passes on from a step to those its
  field hits, holds of the steps that went. -/
  sound : ∀ R : StepId → Prop, (∀ k ∈ ids, ∀ s, Hits g w scope k s → R s) →
    (∀ t s, R t → Hits g w scope (w.out t) s → R s) →
    (∀ k ∈ ids', ∀ s, Hits g w scope k s → R s) ∧ ∀ s ∈ todo, s ∉ left → R s

theorem Scanned.trans {a b c : List StepId} {i j k : List PathId} (h₁ : Scanned g w scope a i b j)
    (h₂ : Scanned g w scope b j c k) : Scanned g w scope a i c k where
  kept := fun x hx => h₂.kept x (h₁.kept x hx)
  gone := fun s hs hc => by
    by_cases hb : s ∈ b
    · exact h₂.gone s hb hc
    · exact h₂.kept _ (h₁.gone s hs hb)
  sound := fun R hi hR => by
    obtain ⟨hj, hab⟩ := h₁.sound R hi hR
    obtain ⟨hk, hbc⟩ := h₂.sound R hj hR
    refine ⟨hk, fun s hs hc => ?_⟩
    by_cases hb : s ∈ b
    · exact hbc s hb hc
    · exact hab s hs hb

theorem scan_scanned (h : Wired g w) {todo : List StepId} {m : Marks} {ids : List PathId} (hm : m.Of g ids)
    (ho : ∀ s ∈ todo, s ∈ w.order scope) :
    ∃ ids', (scan w todo m).2.Of g ids' ∧ Scanned g w scope todo ids (scan w todo m).1 ids' := by
  induction todo generalizing m ids with
  | nil => exact ⟨ids, hm, fun _ hk => hk, nofun, fun R hi _ => ⟨hi, nofun⟩⟩
  | cons s rest ih =>
    have hs := ho s List.mem_cons_self
    have hrest : ∀ t ∈ rest, t ∈ w.order scope := fun t ht => ho t (List.mem_cons_of_mem s ht)
    rw [scan]
    split
    · rename_i ht
      obtain ⟨ids', hm', hsc⟩ := ih (hm.mark h (out_lt h hs)) hrest
      have hin : ∀ k ∈ ids, k ∈ ids' := fun k hk => hsc.kept k (List.mem_append_left _ hk)
      have hself : w.out s ∈ ids' := hsc.kept _ (List.mem_append_right _ (List.mem_singleton_self _))
      refine ⟨ids', hm', hin, fun t ht hl => ?_, fun R hi hR => ?_⟩
      · rcases List.mem_cons.1 ht with rfl | ht
        · exact hself
        · exact hsc.gone t ht hl
      · have hRs : R s := by
          obtain ⟨k, hk, p, hp, hmv⟩ := (hm.touchesStep_iff h).1 ht
          exact hi k hk s ⟨hs, p, hp, hmv⟩
        obtain ⟨hi', hgone⟩ := hsc.sound R (fun k hk t hit => by
          rcases List.mem_append.1 hk with hk | hk
          · exact hi k hk t hit
          · exact hR s t hRs (List.mem_singleton.1 hk ▸ hit)) hR
        refine ⟨hi', fun t ht hl => ?_⟩
        rcases List.mem_cons.1 ht with rfl | ht
        · exact hRs
        · exact hgone t ht hl
    · obtain ⟨ids', hm', hsc⟩ := ih hm hrest
      have hdrop : ∀ t ∈ s :: rest, t ∉ s :: (scan w rest m).1 → t ∈ rest ∧ t ∉ (scan w rest m).1 := fun t ht hl =>
        ⟨(List.mem_cons.1 ht).resolve_left fun e => hl (e ▸ List.mem_cons_self), fun e => hl (List.mem_cons_of_mem s e)⟩
      refine ⟨ids', hm', hsc.kept, fun t ht hl => ?_, fun R hi hR => ?_⟩
      · exact hsc.gone t (hdrop t ht hl).1 (hdrop t ht hl).2
      · obtain ⟨hi', hgone⟩ := hsc.sound R hi hR
        exact ⟨hi', fun t ht hl => hgone t (hdrop t ht hl).1 (hdrop t ht hl).2⟩

/-- Scanning until nothing is added leaves steps that no mark touches. -/
theorem scans_scanned (h : Wired g w) {todo : List StepId} {m : Marks} {ids : List PathId} (hm : m.Of g ids)
    (ho : ∀ s ∈ todo, s ∈ w.order scope) :
    ∃ ids', Scanned g w scope todo ids (scans w todo m) ids' ∧
      ∀ s ∈ scans w todo m, ∀ k ∈ ids', ¬ Hits g w scope k s := by
  obtain ⟨ids₁, hm₁, hsc⟩ := scan_scanned h hm ho
  have hsub := scan_sublist (w := w) todo m
  rw [scans]
  split
  · rename_i hlt
    obtain ⟨ids₂, hsc₂, hn⟩ := scans_scanned h hm₁ fun s hs => ho s (hsub.subset hs)
    exact ⟨ids₂, hsc.trans hsc₂, hn⟩
  · rename_i hge
    obtain ⟨he, hidle⟩ := scan_idle (Nat.le_antisymm hsub.length_le (Nat.not_lt.1 hge))
    rw [he] at hsc hm₁
    refine ⟨ids₁, by rw [he]; exact hsc, fun s hs k hk hit => ?_⟩
    have := touchesStep_of_hits h hm₁ hk hit
    rw [hidle s (by rwa [he] at hs)] at this
    cases this
termination_by todo.length

/-- The plan of a small scope is what its roots and forced steps reach. -/
theorem linear_isPlan (h : Wired g w) (hr : ∀ k ∈ roots, k < g.table.size) :
    IsPlan g w scope roots forced (linear w scope roots forced) := by
  refine ⟨contains_filter.symm, ?_⟩
  unfold linear
  have hf : ∀ t, t ∈ forced.filter (w.inScope scope) ↔ t ∈ forced ∧ t ∈ w.order scope := fun t => by
    rw [List.mem_filter, Wired.inScope_iff]
  revert hf
  generalize forced.filter (w.inScope scope) = first
  intro hf s
  have hlt : ∀ k ∈ roots ++ first.map w.out, k < g.table.size := fun k hk => by
    rcases List.mem_append.1 hk with hk | hk
    · exact hr k hk
    · obtain ⟨t, ht, rfl⟩ := List.mem_map.1 hk
      exact out_lt h ((hf t).1 ht).2
  have hm := (Marks.of_empty h).foldl_mark h hlt
  rw [List.nil_append] at hm
  have htodo : ∀ t, t ∈ (w.order scope).filter (fun s => !first.contains s) ↔ t ∈ w.order scope ∧ t ∉ first :=
    fun t => mem_filter_not_contains
  obtain ⟨ids', hsc, hleft⟩ := scans_scanned h hm fun t ht => ((htodo t).1 ht).1
  have hsub := scans_sublist (w := w) ((w.order scope).filter fun s => !first.contains s)
    ((roots ++ first.map w.out).foldl (Marks.mark w) (.empty w))
  rw [mem_filter_not_contains]
  constructor
  · intro ⟨hs, hl⟩
    by_cases hfs : s ∈ first
    · exact .forced ((hf s).1 hfs).1 hs
    refine (hsc.sound (Reached g w scope roots forced) (fun k hk t hit => ?_) fun t u ht hit => .step ht hit).2 s
      ((htodo s).2 ⟨hs, hfs⟩) hl
    rcases List.mem_append.1 hk with hk | hk
    · exact .root hk hit
    · obtain ⟨u, hu, rfl⟩ := List.mem_map.1 hk
      exact .step (.forced ((hf u).1 hu).1 ((hf u).1 hu).2) hit
  · intro hs
    refine ⟨hs.mem_order, ?_⟩
    induction hs with
    | forced hfs ho => exact fun hl => ((htodo _).1 (hsub.subset hl)).2 ((hf _).2 ⟨hfs, ho⟩)
    | root hk hit => exact fun hl => hleft _ hl _ (hsc.kept _ (List.mem_append_left _ hk)) hit
    | @step t s ht hit ih =>
      intro hl
      refine hleft _ hl (w.out t) ?_ hit
      by_cases hft : t ∈ first
      · exact hsc.kept _ (List.mem_append_right _ (List.mem_map_of_mem hft))
      · exact hsc.gone t ((htodo t).2 ⟨ht.mem_order, hft⟩) ih

/-! ## The queue -/

/-- Every step of the scope that the id hits is among these. -/
def Spread (g : Graph) (w : Wiring) (scope : Scope) (k : PathId) (reached : List StepId) : Prop :=
  ∀ s, Hits g w scope k s → s ∈ reached

/-- What a closed queue leaves of the paths in it and the steps reached before it. A step
reached is in the end spread as well, unless it was there before. -/
structure Closed (g : Graph) (w : Wiring) (scope : Scope) (queue : List PathId) (reached all : List StepId) : Prop where
  kept : ∀ s ∈ reached, s ∈ all
  spread : ∀ k ∈ queue, Spread g w scope k all
  out : ∀ t ∈ all, t ∈ reached ∨ Spread g w scope (w.out t) all
  sound : ∀ R : StepId → Prop, (∀ t ∈ reached, R t) → (∀ k ∈ queue, ∀ s, Hits g w scope k s → R s) →
    (∀ t s, R t → Hits g w scope (w.out t) s → R s) → ∀ s ∈ all, R s
  mem_order : ∀ s ∈ all, s ∈ w.order scope
  nodup : all.Nodup

/-- Taking a path off the queue, with what it hits moved over. -/
theorem Closed.pop {p : PathId} {queue : List PathId} {reached new all : List StepId}
    (hnew : ∀ t ∈ new, Hits g w scope p t) (hall : Spread g w scope p (reached ++ new))
    (hcl : Closed g w scope (new.map w.out ++ queue) (reached ++ new) all) : Closed g w scope (p :: queue) reached all where
  kept s hs := hcl.kept s (List.mem_append_left _ hs)
  spread k hk := by
    rcases List.mem_cons.1 hk with rfl | hk
    · exact fun s hit => hcl.kept s (hall s hit)
    · exact hcl.spread k (List.mem_append_right _ hk)
  out t ht := by
    rcases hcl.out t ht with hr | hs
    · rcases List.mem_append.1 hr with hr | hr
      · exact .inl hr
      · exact .inr (hcl.spread _ (List.mem_append_left _ (List.mem_map_of_mem hr)))
    · exact .inr hs
  sound R hR hk hstep := by
    have hRnew : ∀ t ∈ new, R t := fun t ht => hk p List.mem_cons_self t (hnew t ht)
    refine hcl.sound R (fun t ht => (List.mem_append.1 ht).elim (hR t) (hRnew t)) (fun k hk' s hit => ?_) hstep
    rcases List.mem_append.1 hk' with hk' | hk'
    · obtain ⟨t, ht, rfl⟩ := List.mem_map.1 hk'
      exact hstep t s (hRnew t ht) hit
    · exact hk k (List.mem_cons_of_mem p hk') s hit
  mem_order := hcl.mem_order
  nodup := hcl.nodup

/-- Only the paths in the queue count, not their order. -/
theorem Closed.of_queue {queue queue' : List PathId} {reached all : List StepId}
    (hcl : Closed g w scope queue reached all) (hq : ∀ k, k ∈ queue' ↔ k ∈ queue) : Closed g w scope queue' reached all where
  kept := hcl.kept
  spread k hk := hcl.spread k ((hq k).1 hk)
  out := hcl.out
  sound R hR hk hstep := hcl.sound R hR (fun k hk' => hk k ((hq k).2 hk')) hstep
  mem_order := hcl.mem_order
  nodup := hcl.nodup

/-- Closed from the forced steps, with their fields and the roots in the queue, is
reached. -/
theorem Closed.mem_iff {queue : List PathId} {first all : List StepId} (hcl : Closed g w scope queue first all)
    (hfirst : ∀ s, s ∈ first ↔ s ∈ w.order scope ∧ s ∈ forced)
    (hqueue : ∀ k, k ∈ queue ↔ k ∈ first.map w.out ∨ k ∈ roots) (s : StepId) :
    s ∈ all ↔ Reached g w scope roots forced s := by
  constructor
  · have hin : ∀ t ∈ first, Reached g w scope roots forced t := fun t ht =>
      .forced ((hfirst t).1 ht).2 ((hfirst t).1 ht).1
    refine hcl.sound _ hin (fun k hk t hit => ?_) (fun t u ht hit => .step ht hit) s
    rcases (hqueue k).1 hk with hk | hk
    · obtain ⟨u, hu, rfl⟩ := List.mem_map.1 hk
      exact .step (hin u hu) hit
    · exact .root hk hit
  · intro hs
    induction hs with
    | forced hf ho => exact hcl.kept _ ((hfirst _).2 ⟨ho, hf⟩)
    | root hk hit => exact hcl.spread _ ((hqueue _).2 (.inr hk)) _ hit
    | @step t s ht hit ih =>
      rcases hcl.out t ih with hf | hsp
      · exact hcl.spread _ ((hqueue _).2 (.inl (List.mem_map_of_mem hf))) _ hit
      · exact hsp _ hit

theorem close_closed (h : Wired g w) {expired : Bool} {todo : List StepId} {queue : List PathId} {reached : List StepId}
    {popped : Nat} {all : List StepId} (hperm : (reached ++ todo).Perm (w.order scope))
    (hq : ∀ k ∈ queue, k < g.table.size) (hc : close w expired todo queue reached popped = .closed all) :
    Closed g w scope queue reached all := by
  induction hn : todo.length + queue.length using Nat.strongRecOn generalizing todo queue reached popped with
  | _ n ih =>
  cases queue with
  | nil =>
    have hnd := hperm.nodup_iff.2 (h.nodup_order scope)
    rw [close] at hc
    cases hc
    exact ⟨fun _ hs => hs, fun _ hk => absurd hk List.not_mem_nil, fun _ ht => .inl ht, fun R hR _ _ => hR,
      fun s hs => hperm.mem_iff.1 (List.mem_append_left _ hs), (List.nodup_append.1 hnd).1⟩
  | cons p rest =>
    rw [close] at hc
    simp only at hc
    split at hc
    · cases hc
    rw [List.partition_eq_filter_filter] at hc
    simp only [Function.comp_def] at hc
    obtain ⟨path, hpath⟩ := PathTable.exists_path? (hq p List.mem_cons_self)
    have hhit : ∀ s, Hits g w scope p s ↔ s ∈ w.order scope ∧ s ∈ w.affected p := fun s => by
      rw [h.mem_affected hpath, Hits, hpath]
      simp
    have hsplit := List.filter_append_perm (w.affected p).contains todo
    have hperm' : ((reached ++ todo.filter (w.affected p).contains)
        ++ todo.filter fun t => !(w.affected p).contains t).Perm (w.order scope) := by
      rw [List.append_assoc]
      exact (List.Perm.append_left _ hsplit).trans hperm
    have hnew : ∀ t ∈ todo.filter (w.affected p).contains, t ∈ w.order scope ∧ Hits g w scope p t := fun t ht => by
      obtain ⟨ht, hat⟩ := List.mem_filter.1 ht
      have ho : t ∈ w.order scope := hperm.mem_iff.1 (List.mem_append_right _ ht)
      exact ⟨ho, (hhit t).2 ⟨ho, List.contains_iff_mem.1 hat⟩⟩
    have hq' : ∀ k ∈ (todo.filter (w.affected p).contains).map w.out ++ rest, k < g.table.size := fun k hk => by
      rcases List.mem_append.1 hk with hk | hk
      · obtain ⟨t, ht, rfl⟩ := List.mem_map.1 hk
        exact out_lt h (hnew t ht).1
      · exact hq k (List.mem_cons_of_mem p hk)
    have hlen := hsplit.length_eq
    have hless : (todo.filter fun t => !(w.affected p).contains t).length
        + ((todo.filter (w.affected p).contains).map w.out ++ rest).length < n := by
      rw [List.length_append] at hlen
      rw [← hn, List.length_append, List.length_map, List.length_cons]
      omega
    refine (ih _ hless hperm' hq' hc rfl).pop (fun t ht => (hnew t ht).2) fun s hit => ?_
    -- what the path hits was reached already or is reached now
    obtain ⟨ho, ha⟩ := (hhit s).1 hit
    rcases List.mem_append.1 (hperm.mem_iff.2 ho) with hs | hs
    · exact List.mem_append_left _ hs
    · exact List.mem_append_right _ (List.mem_filter.2 ⟨hs, List.contains_iff_mem.2 ha⟩)

/-! ## Orders -/

theorem idxOf?_getElem {l : List StepId} (hl : l.Nodup) {n : Nat} (hn : n < l.length) : l.idxOf? l[n] = some n :=
  List.idxOf?_eq_some_iff.2
    ⟨hn, rfl, fun _ hj e => absurd ((List.getElem_inj hl).1 e) (Nat.ne_of_lt hj)⟩

/-- Steps by their position stand as in the order of the scope. -/
theorem position_pairwise (h : Wired g w) (scope : Scope) :
    (w.order scope).Pairwise fun a b => ((w.position scope a).getD 0 < (w.position scope b).getD 0) := by
  refine List.pairwise_iff_getElem.2 fun i j hi hj hij => ?_
  rw [Wiring.position, Wiring.position, idxOf?_getElem (h.nodup_order scope), idxOf?_getElem (h.nodup_order scope)]
  exact hij

theorem position_inj (h : Wired g w) {a b : StepId} (ha : a ∈ w.order scope) (hb : b ∈ w.order scope)
    (he : (w.position scope a).getD 0 = (w.position scope b).getD 0) : a = b := by
  obtain ⟨i, hi, rfl⟩ := List.getElem_of_mem ha
  obtain ⟨j, hj, rfl⟩ := List.getElem_of_mem hb
  rw [Wiring.position, Wiring.position, idxOf?_getElem (h.nodup_order scope), idxOf?_getElem (h.nodup_order scope)] at he
  cases he
  rfl

/-- Sorting steps by position is picking them out of the order. -/
theorem byPosition_eq (h : Wired g w) {steps : List StepId} (hs : ∀ s ∈ steps, s ∈ w.order scope)
    (hnd : steps.Nodup) : byPosition w scope steps = (w.order scope).filter steps.contains := by
  have hperm : (byPosition w scope steps).Perm ((w.order scope).filter steps.contains) := by
    refine (List.mergeSort_perm _ _).trans ?_
    refine (List.perm_ext_iff_of_nodup hnd ((h.nodup_order scope).filter _)).2 fun s => ?_
    rw [List.mem_filter, List.contains_iff_mem]
    exact ⟨fun hm => ⟨hs s hm, hm⟩, And.right⟩
  refine @List.Perm.eq_of_pairwise _ (fun a b => (w.position scope a).getD 0 ≤ (w.position scope b).getD 0) _ _
    (fun a b ha hb hab hba => ?_) ?_ ?_ hperm
  · exact position_inj h (hs a (List.mem_mergeSort.1 ha)) (List.mem_filter.1 hb).1 (Nat.le_antisymm hab hba)
  · refine (List.pairwise_mergeSort (fun a b c => ?_) (fun a b => ?_) steps).imp fun hle => of_decide_eq_true hle
    · simp only [decide_eq_true_eq]
      exact Nat.le_trans
    · simp only [Bool.or_eq_true, decide_eq_true_eq]
      exact Nat.le_total _ _
  · exact ((position_pairwise h scope).filter _).imp Nat.le_of_lt

/-- Closing the queue of the roots and of the fields of the forced steps reaches, each
once, the steps that they reach. -/
theorem close_reached (h : Wired g w) (hr : ∀ k ∈ roots, k < g.table.size) {expired : Bool} {all : List StepId}
    (hc : close w expired ((w.order scope).filter fun s => !forced.contains s)
      (((w.order scope).filter forced.contains).map w.out ++ roots) ((w.order scope).filter forced.contains) 0
        = .closed all) :
    all.Nodup ∧ ∀ s, s ∈ all ↔ Reached g w scope roots forced s := by
  have hfirst : ∀ s, s ∈ (w.order scope).filter forced.contains ↔ s ∈ w.order scope ∧ s ∈ forced := fun s => by
    rw [List.mem_filter, List.contains_iff_mem]
  have hperm := List.filter_append_perm forced.contains (w.order scope)
  have hq : ∀ k ∈ ((w.order scope).filter forced.contains).map w.out ++ roots, k < g.table.size := fun k hk => by
    rcases List.mem_append.1 hk with hk | hk
    · obtain ⟨s, hs, rfl⟩ := List.mem_map.1 hk
      exact out_lt h ((hfirst s).1 hs).1
    · exact hr k hk
  have hcl := close_closed h hperm hq hc
  exact ⟨hcl.nodup, hcl.mem_iff hfirst fun _ => List.mem_append⟩

/-- The plan by the queue is what its roots and forced steps reach. -/
theorem queued_isPlan (h : Wired g w) (hr : ∀ k ∈ roots, k < g.table.size) {expired : Bool} {plan : List StepId}
    (hp : queued w scope roots forced expired = some plan) : IsPlan g w scope roots forced plan := by
  unfold queued at hp
  simp only at hp
  cases hc : close w expired ((w.order scope).filter fun s => !forced.contains s)
      (((w.order scope).filter forced.contains).map w.out ++ roots) ((w.order scope).filter forced.contains) 0 with
  | cutoff => rw [hc] at hp; cases hp
  | closed all =>
    obtain ⟨hnodup, hreached⟩ := close_reached h hr hc
    have horder : ∀ s ∈ all, s ∈ w.order scope := fun s hs => ((hreached s).1 hs).mem_order
    have hplan : plan = (w.order scope).filter all.contains := by
      rw [hc] at hp
      simp only at hp
      split at hp
      · rw [← Option.some.inj hp, byPosition_eq h horder hnodup]
      · exact (Option.some.inj hp).symm
    refine ⟨by rw [hplan, contains_filter], fun s => ?_⟩
    rw [← hreached, hplan, List.mem_filter, List.contains_iff_mem]
    exact ⟨And.right, fun hs => ⟨horder s hs, hs⟩⟩

/-- Every plan is what its roots and forced steps reach, in the order of the scope. -/
theorem compute_isPlan (h : Wired g w) (hr : ∀ k ∈ roots, k < g.table.size) {expired : Bool} {plan : List StepId}
    (hp : compute w scope roots forced expired = some plan) : IsPlan g w scope roots forced plan := by
  unfold compute at hp
  split at hp
  · exact Option.some.inj hp ▸ linear_isPlan h hr
  · exact queued_isPlan h hr hp

theorem close_of_unexpired (todo : List StepId) (queue : List PathId) (reached : List StepId) (popped : Nat) :
    ∃ all, close w false todo queue reached popped = .closed all := by
  fun_induction close w false todo queue reached popped with
  | case1 _ reached _ => exact ⟨reached, rfl⟩
  | case2 => simp_all
  | case3 => assumption

theorem queued_of_unexpired (w : Wiring) (scope : Scope) (roots : List PathId) (forced : List StepId) :
    ∃ plan, queued w scope roots forced false = some plan := by
  unfold queued
  obtain ⟨all, hc⟩ := close_of_unexpired (w := w) ((w.order scope).filter fun s => !forced.contains s)
    (((w.order scope).filter forced.contains).map w.out ++ roots) ((w.order scope).filter forced.contains) 0
  simp only [hc]
  split
  · exact ⟨_, rfl⟩
  · exact ⟨_, rfl⟩

/-- Only a deadline leaves a scope without a plan. -/
theorem compute_of_unexpired (w : Wiring) (scope : Scope) (roots : List PathId) (forced : List StepId) :
    ∃ plan, compute w scope roots forced false = some plan := by
  unfold compute
  split
  · exact ⟨_, rfl⟩
  · exact queued_of_unexpired w scope roots forced

/-! ## Plans compared -/

theorem IsPlan.sublist {forced' plan plan' : List StepId} (hp : IsPlan g w scope roots forced plan)
    (hp' : IsPlan g w scope roots forced' plan')
    (hsub : ∀ s, Reached g w scope roots forced s → Reached g w scope roots forced' s) : plan.Sublist plan' := by
  have hsame : plan = plan'.filter plan.contains := by
    calc plan = (w.order scope).filter plan.contains := hp.inOrder
      _ = ((w.order scope).filter plan'.contains).filter plan.contains := by
        rw [List.filter_filter]
        refine List.filter_congr fun s _ => ?_
        have hin : s ∈ plan → s ∈ plan' := fun hs => (hp'.mem_iff s).2 (hsub s ((hp.mem_iff s).1 hs))
        by_cases hs : s ∈ plan <;> simp [hs, hin]
      _ = plan'.filter plan.contains := by rw [← hp'.inOrder]
  have hsub : (plan'.filter plan.contains).Sublist plan' := List.filter_sublist
  rwa [← hsame] at hsub

theorem IsPlan.eq {plan plan' : List StepId} (hp : IsPlan g w scope roots forced plan)
    (hp' : IsPlan g w scope roots forced plan') : plan = plan' :=
  (hp.sublist hp' fun _ h => h).eq_of_length_le (hp'.sublist hp fun _ h => h).length_le

/-- What is reached from steps that are reached is reached. -/
theorem Reached.trans {forced' : List StepId} (hf : ∀ s ∈ forced', Reached g w scope roots forced s) {s : StepId}
    (h : Reached g w scope roots forced' s) : Reached g w scope roots forced s := by
  induction h with
  | forced hm _ => exact hf _ hm
  | root hk hit => exact .root hk hit
  | step _ hit ih => exact .step ih hit

theorem length_le_of_close {expired : Bool} {todo : List StepId} {queue : List PathId} {reached all : List StepId}
    {popped : Nat} (hc : close w expired todo queue reached popped = .closed all) : reached.length ≤ all.length := by
  fun_induction close w expired todo queue reached popped with
  | case1 => cases hc; exact Nat.le_refl _
  | case2 => cases hc
  | case3 _ _ _ _ _ _ _ _ ih =>
    have := ih hc
    rw [List.length_append] at this
    omega

/-- A queue comes to its deadline when as many paths as lie between two looks are taken
from it: those in it, and one for each step reached later. -/
theorem close_of_expired {todo : List StepId} {queue : List PathId} {reached : List StepId} {popped : Nat}
    {all : List StepId} (hc : close w false todo queue reached popped = .closed all) (hp : popped < deadlineInterval) :
    close w true todo queue reached popped =
      if popped + queue.length + (all.length - reached.length) < deadlineInterval then .closed all else .cutoff := by
  induction hn : todo.length + queue.length using Nat.strongRecOn generalizing todo queue reached popped with
  | _ n ih =>
  cases queue with
  | nil =>
    rw [close] at hc
    cases hc
    rw [close, if_pos (by simpa using hp)]
  | cons p rest =>
    rw [close] at hc
    rw [close]
    simp only [Bool.and_false, Bool.false_eq_true, if_false, Bool.and_true, decide_eq_true_eq] at hc ⊢
    have hlen := length_partition_add (w.affected p).contains todo
    have hle := length_le_of_close hc
    rw [List.length_append] at hle
    have hi : deadlineInterval = 32 := rfl
    by_cases hlast : (popped + 1) % deadlineInterval = 0
    · rw [if_pos hlast, if_neg]
      rw [hi] at hlast
      rw [List.length_cons]
      omega
    · rw [if_neg hlast]
      rw [hi] at hlast
      have hless : (todo.partition (w.affected p).contains).2.length
          + ((todo.partition (w.affected p).contains).1.map w.out ++ rest).length < n := by
        rw [← hn, List.length_append, List.length_map, List.length_cons]
        omega
      rw [ih _ hless hc (by omega) rfl]
      have hsum : popped + 1 + ((todo.partition (w.affected p).contains).1.map w.out ++ rest).length
            + (all.length - (reached ++ (todo.partition (w.affected p).contains).1).length)
          = popped + (p :: rest).length + (all.length - reached.length) := by
        simp only [List.length_append, List.length_map, List.length_cons]
        omega
      rw [hsum]

/-- A deadline that has passed leaves no time for a plan by the queue when the roots and
the steps reached are as many paths as lie between two looks. -/
theorem queued_of_expired (h : Wired g w) (hr : ∀ k ∈ roots, k < g.table.size) {plan : List StepId}
    (hp : IsPlan g w scope roots forced plan) :
    queued w scope roots forced true = none ↔ deadlineInterval ≤ roots.length + plan.length := by
  unfold queued
  obtain ⟨all, hc⟩ := close_of_unexpired (w := w) ((w.order scope).filter fun s => !forced.contains s)
    (((w.order scope).filter forced.contains).map w.out ++ roots) ((w.order scope).filter forced.contains) 0
  have hlen : all.length = plan.length := by
    obtain ⟨hnodup, hreached⟩ := close_reached h hr hc
    have hplan : plan.Nodup := hp.inOrder ▸ (h.nodup_order scope).filter _
    refine ((List.perm_ext_iff_of_nodup hnodup hplan).2 fun s => ?_).length_eq
    rw [hreached, hp.mem_iff]
  have hle := length_le_of_close hc
  have hsum : 0 + (((w.order scope).filter forced.contains).map w.out ++ roots).length
      + (all.length - ((w.order scope).filter forced.contains).length) = roots.length + plan.length := by
    simp only [List.length_append, List.length_map]
    omega
  simp only [close_of_expired hc (by decide), hsum]
  by_cases hmany : roots.length + plan.length < deadlineInterval
  · simp only [if_pos hmany]
    constructor
    · intro hnone
      split at hnone <;> cases hnone
    · intro hle
      omega
  · simp only [if_neg hmany, true_iff]
    exact Nat.le_of_not_lt hmany

/-- Whether a scope is scanned, and so never comes to a deadline. -/
def Scans (w : Wiring) (scope : Scope) : Prop := (w.scopeSize scope < smallScope && !w.backEdges.get scope) = true

/-- With forced steps alone, a deadline that has passed leaves no time for a plan of so
many steps, unless the scope is scanned. -/
theorem compute_of_expired (h : Wired g w) {plan : List StepId} (hp : IsPlan g w scope [] forced plan) :
    compute w scope [] forced true = none ↔ ¬ Scans w scope ∧ deadlineInterval ≤ plan.length := by
  unfold compute Scans
  split
  · rename_i hs
    simp [hs]
  · rename_i hs
    have hnone : ∀ k ∈ ([] : List PathId), k < g.table.size := nofun
    rw [queued_of_expired h hnone hp, List.length_nil, Nat.zero_add]
    exact ⟨fun hle => ⟨hs, hle⟩, And.right⟩

end Settle.Plan
