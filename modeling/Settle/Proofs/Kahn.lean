/-
  Settle.Proofs.Kahn — counting sorts as peeling does (see `Settle.Graph.Kahn`).

  Between rounds each step of the scope counts the steps it reads among those that are
  not taken (`counting`), so what peeling calls blocked is what counts something. A step
  is taken once and was counted by each of its readers, so no count is lowered that is
  nothing; a count comes to nothing just when the last step it stands for is taken, so
  the next round is the next level (`rounds_eq`). The sort therefore always has a result,
  and that is the levels and the rest that `Order.levels` finds (`sort_eq`).
-/

import Settle.Graph.Kahn
import Settle.Proofs.Levels

namespace Settle.Kahn

/-- Ids are positions. -/
def Numbered (steps : List Step) : Prop := ∀ (i : Nat) (s : Step), steps[i]? = some s → s.id = i

/-- The step with the id reads what the other one writes. -/
def waits (table : PathTable) (steps : List Step) (i : StepId) (w : Step) : Bool :=
  (steps[i]?).any fun s => s.reads table w

/-! ## Readers -/

theorem mem_insert {l : List StepId} {i j : StepId} : j ∈ insert l i ↔ j ∈ l ∨ j = i := by
  unfold insert
  by_cases h : i ∈ l
  · rw [if_pos h]
    exact ⟨.inl, fun hj => hj.elim id fun e => e ▸ h⟩
  · rw [if_neg h, List.mem_append, List.mem_singleton]

theorem nodup_insert {l : List StepId} (h : l.Nodup) (i : StepId) : (insert l i).Nodup := by
  unfold insert
  by_cases hi : i ∈ l
  · rwa [if_pos hi]
  · rw [if_neg hi]
    refine List.nodup_append.2 ⟨h, List.pairwise_singleton _ _, ?_⟩
    intro a ha b hb e
    exact hi (List.mem_singleton.1 hb ▸ e ▸ ha)

/-- A reader is put in once for all of its dependencies. -/
theorem foldl_insert (p : PathId → Bool) (i : StepId) (deps : List PathId) (l : List StepId) :
    deps.foldl (fun l d => if p d then insert l i else l) l = if deps.any p then insert l i else l := by
  induction deps generalizing l with
  | nil => rfl
  | cons d deps ih =>
    rw [List.foldl_cons, ih, List.any_cons]
    by_cases hd : p d
    · have hagain : insert (insert l i) i = insert l i := if_pos (mem_insert.2 (.inr rfl))
      simp [hd, hagain]
    · simp [hd]

section

variable {table : PathTable} {steps : List Step}

/-- What `readers` does with one step. -/
theorem readers_eq (w : Step) : readers table steps w =
    steps.foldl (fun l s => if s.reads table w then insert l s.id else l) [] := by
  have hstep : ∀ (l : List StepId) (s : Step),
      s.deps.foldl (fun l d => if table.overlap w.out d then if w.id != s.id then insert l s.id else l else l) l =
        if s.reads table w then insert l s.id else l := by
    intro l s
    by_cases hid : w.id != s.id
    · simp only [hid, if_true, Step.reads, Bool.true_and]
      exact foldl_insert (fun d => table.overlap w.out d) s.id s.deps l
    · simp only [hid, Step.reads, Bool.false_and, ite_self, Bool.false_eq_true, if_false]
      exact List.foldl_fixed' (fun _ => rfl) _
  exact congrArg (fun f => steps.foldl f []) (funext₂ hstep)

theorem mem_foldl_readers {w : Step} {j : StepId} (l : List StepId) :
    j ∈ steps.foldl (fun l s => if s.reads table w then insert l s.id else l) l ↔
      j ∈ l ∨ ∃ s ∈ steps, s.id = j ∧ s.reads table w := by
  induction steps generalizing l with
  | nil => simp
  | cons s steps ih =>
    rw [List.foldl_cons, ih]
    by_cases hr : s.reads table w
    · simp only [hr, if_true, mem_insert, List.exists_mem_cons_iff, and_true, or_assoc, eq_comm]
    · simp [hr]

theorem nodup_readers (w : Step) : (readers table steps w).Nodup := by
  rw [readers_eq]
  refine List.foldlRecOn steps _ .nil fun l hl s _ => ?_
  split
  · exact nodup_insert hl s.id
  · exact hl

theorem mem_readers (hn : Numbered steps) {w : Step} {j : StepId} :
    j ∈ readers table steps w ↔ waits table steps j w = true := by
  rw [readers_eq, mem_foldl_readers, waits, Option.any_eq_true]
  simp only [List.not_mem_nil, false_or]
  constructor
  · intro ⟨s, hs, hid, hr⟩
    obtain ⟨k, hk⟩ := List.mem_iff_getElem?.1 hs
    obtain rfl := hn k s hk
    exact ⟨s, hid ▸ hk, hr⟩
  · intro ⟨s, hs, hr⟩
    exact ⟨s, List.mem_of_getElem? hs, hn j s hs, hr⟩

theorem edges_getElem? (hn : Numbered steps) {w : Step} (hw : w ∈ steps) :
    (edges table steps)[w.id]? = some (readers table steps w) := by
  obtain ⟨k, hk⟩ := List.mem_iff_getElem?.1 hw
  rw [hn k w hk, edges, List.getElem?_map, hk, Option.map_some]

end

/-! ## Counts -/

/-- The counts that a function gives. -/
def tab (ids : List StepId) (n : StepId → Nat) : Counts := ids.map fun i => (i, n i)

theorem tab_congr {ids : List StepId} {m n : StepId → Nat} (h : ∀ i ∈ ids, m i = n i) : tab ids m = tab ids n :=
  List.map_congr_left fun i hi => by rw [h i hi]

theorem lookup_tab (ids : List StepId) (n : StepId → Nat) (i : StepId) :
    (tab ids n).lookup i = if i ∈ ids then some (n i) else none := by
  induction ids with
  | nil => rfl
  | cons j ids ih =>
    rw [tab, List.map_cons, List.lookup_cons, ← tab, ih]
    by_cases hij : i = j
    · subst hij
      simp
    · simp [beq_eq_false_iff_ne.2 hij, hij]

theorem raise_tab (ids : List StepId) (n : StepId → Nat) (i : StepId) :
    raise (tab ids n) i = tab ids fun j => if j = i then n j + 1 else n j := by
  rw [raise, tab, List.map_map]
  refine List.map_congr_left fun j _ => ?_
  simp only [Function.comp_apply]
  split <;> rfl

theorem lower_tab (ids : List StepId) (n : StepId → Nat) (i : StepId) :
    lower (tab ids n) i = tab ids fun j => if j = i then n j - 1 else n j := by
  rw [lower, tab, List.map_map]
  refine List.map_congr_left fun j _ => ?_
  simp only [Function.comp_apply]
  split <;> rfl

theorem foldl_raise (ids : List StepId) (n : StepId → Nat) {l : List StepId} (hl : l.Nodup) :
    l.foldl raise (tab ids n) = tab ids fun j => if j ∈ l then n j + 1 else n j := by
  induction l generalizing n with
  | nil => simp
  | cons i l ih =>
    obtain ⟨hi, hl⟩ := List.nodup_cons.1 hl
    rw [List.foldl_cons, raise_tab, ih _ hl]
    refine tab_congr fun j _ => ?_
    by_cases hj : j = i
    · subst hj
      simp [hi]
    · simp [hj]

/-- Readers with something to count are released, and those whose last count that was
come up for the next round. -/
theorem foldlM_release (ids : List StepId) (n : StepId → Nat) {l : List StepId} (hl : l.Nodup)
    (hpos : ∀ i ∈ l, i ∈ ids → 0 < n i) (next : List StepId) :
    l.foldlM release (tab ids n, next) =
      some (tab ids (fun j => if j ∈ l then n j - 1 else n j), next ++ l.filter fun i => i ∈ ids ∧ n i = 1) := by
  induction l generalizing n next with
  | nil => simp
  | cons i l ih =>
    obtain ⟨hi, hl⟩ := List.nodup_cons.1 hl
    rw [List.foldlM_cons, release, lookup_tab]
    have hpos' : ∀ j ∈ l, j ∈ ids → 0 < n j := fun j hj => hpos j (List.mem_cons_of_mem i hj)
    by_cases hid : i ∈ ids
    · obtain ⟨k, hk⟩ : ∃ k, n i = k + 1 := ⟨n i - 1, by have := hpos i List.mem_cons_self hid; omega⟩
      have hne : ∀ j ∈ l, j ≠ i := fun j hj e => hi (e ▸ hj)
      rw [if_pos hid, hk]
      dsimp only
      rw [Option.bind_eq_bind, Option.bind_some, lower_tab, ih _ hl fun j hj hjd => by
        rw [if_neg (hne j hj)]
        exact hpos' j hj hjd]
      refine congrArg some (Prod.ext ?_ ?_)
      · refine tab_congr fun j _ => ?_
        by_cases hj : j = i
        · subst hj
          simp [hi]
        · simp [hj]
      · have hfilter : (l.filter fun j => decide (j ∈ ids ∧ (if j = i then n j - 1 else n j) = 1)) =
            l.filter fun j => decide (j ∈ ids ∧ n j = 1) :=
          List.filter_congr fun j hj => by rw [if_neg (hne j hj)]
        dsimp only
        rw [hfilter, List.filter_cons]
        by_cases h0 : k = 0
        · simp [h0, hid, hk]
        · simp [h0, hid, hk]
    · rw [if_neg hid]
      dsimp only
      rw [Option.bind_eq_bind, Option.bind_some, ih n hl hpos']
      refine congrArg some (Prod.ext (tab_congr fun j hj => ?_) ?_)
      · have hji : j ≠ i := fun e => hid (e ▸ hj)
        simp [hji]
      · simp [hid]

/-! ## Taking steps -/

section

variable {table : PathTable} {steps : List Step}

theorem take_tab (hn : Numbered steps) {w : Step} (hw : w ∈ steps) (ids : List StepId) (n : StepId → Nat)
    (hpos : ∀ i ∈ ids, waits table steps i w = true → 0 < n i) (next : List StepId) :
    take (edges table steps) (tab ids n, next) w.id =
      some (tab ids (fun i => if waits table steps i w then n i - 1 else n i),
        next ++ (readers table steps w).filter fun i => i ∈ ids ∧ n i = 1) := by
  rw [take, edges_getElem? hn hw, Option.bind_some,
    foldlM_release ids n (nodup_readers w) fun i hi hid => hpos i hid ((mem_readers hn).1 hi)]
  simp only [mem_readers hn]

/-- What comes up when a step is taken comes up once, and counts nothing any more. -/
theorem comes_up (hn : Numbered steps) (w : Step) (ids : List StepId) (n : StepId → Nat) {next : List StepId}
    (hnext : next.Nodup) (hzero : ∀ i ∈ next, i ∈ ids ∧ n i = 0) :
    (next ++ (readers table steps w).filter fun i => i ∈ ids ∧ n i = 1).Nodup ∧
      ∀ i ∈ next ++ (readers table steps w).filter fun i => i ∈ ids ∧ n i = 1,
        i ∈ ids ∧ (if waits table steps i w then n i - 1 else n i) = 0 := by
  refine ⟨List.nodup_append.2 ⟨hnext, (nodup_readers w).filter _, ?_⟩, fun i hi => ?_⟩
  · intro a ha b hb e
    subst e
    have h0 := (hzero a ha).2
    have h1 := (of_decide_eq_true (List.mem_filter.1 hb).2).2
    omega
  · rcases List.mem_append.1 hi with hi | hi
    · obtain ⟨hid, h0⟩ := hzero i hi
      exact ⟨hid, by simp [h0]⟩
    · obtain ⟨hi, hone⟩ := List.mem_filter.1 hi
      obtain ⟨hid, h1⟩ := of_decide_eq_true hone
      exact ⟨hid, by simp [(mem_readers hn).1 hi, h1]⟩

/-- What a step taken ahead of others leaves them to count. -/
theorem countP_rest_le {w : Step} {ws : List Step} {n : StepId → Nat} {i : StepId}
    (hle : (w :: ws).countP (waits table steps i) ≤ n i) :
    ws.countP (waits table steps i) ≤ if waits table steps i w then n i - 1 else n i := by
  rw [List.countP_cons] at hle
  by_cases hw : waits table steps i w
  · simp only [hw, if_true] at hle ⊢
    omega
  · simp only [hw, Bool.false_eq_true, if_false] at hle ⊢
    omega

/-- A count is made up by the step that is taken first, or by those after it. -/
theorem comes_up_or_later {w : Step} {ws : List Step} {n : StepId → Nat} {i : StepId}
    (hle : (w :: ws).countP (waits table steps i) ≤ n i) :
    waits table steps i w = true ∧ n i = 1 ∨ (0 < (if waits table steps i w then n i - 1 else n i) ∧
        ws.countP (waits table steps i) = if waits table steps i w then n i - 1 else n i) ↔
      0 < n i ∧ (w :: ws).countP (waits table steps i) = n i := by
  rw [List.countP_cons] at hle ⊢
  by_cases hw : waits table steps i w
  · simp only [hw, if_true, true_and] at hle ⊢
    omega
  · simp only [hw, Bool.false_eq_true, if_false, false_and, false_or, Nat.add_zero]

/-- Steps are taken one after the other. Those that come up for the next round are the
ones whose counts they make up. -/
theorem foldlM_take (hn : Numbered steps) (ids : List StepId) {ws : List Step} (hws : ∀ w ∈ ws, w ∈ steps)
    (n : StepId → Nat) (hle : ∀ i ∈ ids, ws.countP (waits table steps i) ≤ n i) (next : List StepId)
    (hnext : next.Nodup) (hzero : ∀ i ∈ next, i ∈ ids ∧ n i = 0) :
    ∃ next', (ws.map (·.id)).foldlM (take (edges table steps)) (tab ids n, next) =
        some (tab ids fun i => n i - ws.countP (waits table steps i), next') ∧ next'.Nodup ∧
      ∀ i, i ∈ next' ↔ i ∈ next ∨ i ∈ ids ∧ 0 < n i ∧ ws.countP (waits table steps i) = n i := by
  induction ws generalizing n next with
  | nil =>
    refine ⟨next, rfl, hnext, fun i => ⟨.inl, fun hi => hi.elim id fun ⟨_, hpos, he⟩ => ?_⟩⟩
    rw [List.countP_nil] at he
    omega
  | cons w ws ih =>
    have hpos : ∀ i ∈ ids, waits table steps i w = true → 0 < n i := by
      intro i hi hw
      have := hle i hi
      rw [List.countP_cons, hw, if_pos rfl] at this
      omega
    obtain ⟨hnodup, hfresh⟩ := comes_up hn w ids n hnext hzero
    obtain ⟨next', heq, hnd, hmem⟩ := ih (fun v hv => hws v (List.mem_cons_of_mem w hv))
      (fun i => if waits table steps i w then n i - 1 else n i) (fun i hi => countP_rest_le (hle i hi)) _ hnodup hfresh
    refine ⟨next', ?_, hnd, fun i => ?_⟩
    · rw [List.map_cons, List.foldlM_cons, take_tab hn (hws w List.mem_cons_self) ids n hpos]
      rw [Option.bind_eq_bind, Option.bind_some, heq]
      refine congrArg (fun c => some (c, next')) (tab_congr fun i _ => ?_)
      rw [List.countP_cons]
      by_cases hw : waits table steps i w
      · simp only [hw, if_true]
        omega
      · simp [hw]
    · rw [hmem, List.mem_append, List.mem_filter, mem_readers hn, or_assoc]
      refine or_congr_right ?_
      by_cases hid : i ∈ ids
      · simpa only [hid, true_and, decide_eq_true_eq] using comes_up_or_later (hle i hid)
      · simp only [hid, false_and, decide_false, Bool.false_eq_true, and_false, or_false]

/-! ## Rounds -/

/-- The members count what they read of the steps that are left. -/
def counting (table : PathTable) (steps members l : List Step) : Counts :=
  tab (members.map (·.id)) fun i => l.countP (waits table steps i)

section

variable (hn : Numbered steps) {members l : List Step} (hm : members.Sublist steps)

include hn

theorem waits_eq {s : Step} (hs : s ∈ steps) (w : Step) : waits table steps s.id w = s.reads table w := by
  obtain ⟨k, hk⟩ := List.mem_iff_getElem?.1 hs
  rw [waits, hn k s hk, hk]
  rfl

/-- A step counts something just when it is blocked. -/
theorem countP_pos {s : Step} (hs : s ∈ steps) :
    0 < l.countP (waits table steps s.id) ↔ Order.blocked table l s = true := by
  rw [List.countP_pos_iff, Order.blocked_iff]
  simp only [waits_eq hn hs]

theorem increasing : steps.Pairwise fun s t => s.id < t.id := by
  refine List.pairwise_iff_getElem.2 fun i j hi hj hlt => ?_
  rw [hn i _ (List.getElem?_eq_getElem hi), hn j _ (List.getElem?_eq_getElem hj)]
  exact hlt

theorem nodup_ids (hl : l.Sublist steps) : (l.map (·.id)).Nodup :=
  List.pairwise_map.2 (((increasing hn).sublist hl).imp fun hlt => Nat.ne_of_lt hlt)

/-- Steps put in any order are sorted as they stand. -/
theorem mergeSort_ids (hl : l.Sublist steps) {ids : List StepId} (hp : ids.Perm (l.map (·.id))) :
    ids.mergeSort = l.map (·.id) :=
  mergeSort_nat hp (List.pairwise_map.2 (((increasing hn).sublist hl).imp fun hlt => Nat.le_of_lt hlt))

include hm

/-- Taking a level leaves the counts of what is then left, and the next level comes up. -/
theorem take_free (hl : l.Sublist members) (hgone : ∀ s ∈ members, s ∉ l → Order.blocked table l s = false) :
    ∃ next, ((Order.free table l).map (·.id)).foldlM (take (edges table steps)) (counting table steps members l, []) =
        some (counting table steps members (Order.waiting table l), next) ∧
      next.Perm ((Order.free table (Order.waiting table l)).map (·.id)) := by
  have hsplit : ∀ p : Step → Bool, l.countP p = (Order.waiting table l).countP p + (Order.free table l).countP p :=
    fun p => List.countP_eq_countP_filter_add l p (Order.blocked table l)
  have hfree : (Order.free table l).Sublist steps := List.filter_sublist.trans (hl.trans hm)
  have hwaiting : (Order.waiting table l).Sublist members := List.filter_sublist.trans hl
  obtain ⟨next, heq, hnd, hmem⟩ := @foldlM_take table steps hn (members.map (·.id)) _ (fun w hw => hfree.subset hw)
    (fun i => l.countP (waits table steps i)) (fun i _ => by rw [hsplit]; omega) [] .nil nofun
  refine ⟨next, heq.trans ?_, ?_⟩
  · refine congrArg (fun c => some (c, next)) (tab_congr fun i _ => ?_)
    rw [hsplit]
    omega
  · have hnd' := nodup_ids hn (List.filter_sublist.trans (hwaiting.trans hm) :
      (Order.free table (Order.waiting table l)).Sublist steps)
    refine (List.perm_ext_iff_of_nodup hnd hnd').2 fun i => ?_
    rw [hmem]
    constructor
    · rintro (hi | ⟨hi, hpos, he⟩)
      · cases hi
      · obtain ⟨s, hs, rfl⟩ := List.mem_map.1 hi
        have hss := hm.subset hs
        have hblocked := (countP_pos hn hss).1 hpos
        have hsl : s ∈ l := by
          by_contra hsl
          rw [hgone s hs hsl] at hblocked
          cases hblocked
        -- it was blocked, and all that it read has been taken
        refine List.mem_map_of_mem (List.mem_filter.2 ⟨List.mem_filter.2 ⟨hsl, hblocked⟩, ?_⟩)
        rw [Bool.not_eq_true', ← Bool.not_eq_true, ← countP_pos hn hss]
        have := hsplit (waits table steps s.id)
        omega
    · intro hi
      obtain ⟨s, hs, rfl⟩ := List.mem_map.1 hi
      obtain ⟨hsw, hno⟩ := List.mem_filter.1 hs
      have hsm := hwaiting.subset hsw
      have hss := hm.subset hsm
      rw [Bool.not_eq_true', ← Bool.not_eq_true, ← countP_pos hn hss] at hno
      have := hsplit (waits table steps s.id)
      exact .inr ⟨List.mem_map_of_mem hsm, (countP_pos hn hss).2 (List.mem_filter.1 hsw).2, by omega⟩

/-- The rounds are the levels. -/
theorem rounds_eq (hl : l.Sublist members) (hgone : ∀ s ∈ members, s ∉ l → Order.blocked table l s = false)
    {current : List StepId} (hcurrent : current.Perm ((Order.free table l).map (·.id))) (taken : Nat) :
    rounds (edges table steps) (counting table steps members l) current taken =
      some ((Order.levels table l).1.map fun level => level.map (·.id),
        counting table steps members (Order.levels table l).2, taken + (Order.levels table l).1.flatten.length) := by
  have hlen := Order.length_free_add table l
  have hcur : current.length = (Order.free table l).length := by rw [hcurrent.length_eq, List.length_map]
  fun_induction Order.levels table l generalizing current taken with
  | case1 l hlt more left heq ih =>
    have hne : current ≠ [] := by
      intro h0
      rw [h0, List.length_nil] at hcur
      omega
    obtain ⟨next, htake, hnext⟩ := take_free hn hm hl hgone
    have hgone' : ∀ s ∈ members, s ∉ Order.waiting table l → Order.blocked table (Order.waiting table l) s = false := by
      intro s hs hsw
      have hno : Order.blocked table l s = false := by
        by_cases hsl : s ∈ l
        · refine Bool.eq_false_iff.2 fun hb => hsw (List.mem_filter.2 ⟨hsl, hb⟩)
        · exact hgone s hs hsl
      refine Bool.eq_false_iff.2 fun hb => ?_
      obtain ⟨w, hw, hr⟩ := Order.blocked_iff.1 hb
      exact Bool.eq_false_iff.1 hno (Order.blocked_iff.2 ⟨w, (List.mem_filter.1 hw).1, hr⟩)
    have ih := ih (List.filter_sublist.trans hl) hgone' hnext (taken + current.length)
      (Order.length_free_add table _) (by rw [hnext.length_eq, List.length_map])
    rw [heq] at ih
    have hsorted := mergeSort_ids hn (List.filter_sublist.trans (hl.trans hm)) hcurrent
    rw [rounds_of_take hne (hsorted ▸ htake), ih, hsorted, Option.map_some, hcur]
    simp only [List.map_cons, List.flatten_cons, List.length_append, Nat.add_assoc]
    rfl
  | case2 l hge =>
    have hnil : current = [] := by
      refine List.eq_nil_of_length_eq_zero ?_
      omega
    rw [rounds, if_pos hnil]
    rfl

end

/-! ## The whole sort -/

/-- The steps of the scope whose counts pass a test. -/
theorem filter_counting (members l : List Step) (p : Nat → Bool) (q : Step → Bool)
    (hpq : ∀ s ∈ members, p (l.countP (waits table steps s.id)) = q s) :
    ((counting table steps members l).filter fun e => p e.2).map (·.1) = (members.filter q).map (·.id) := by
  rw [counting, tab, List.map_map, List.filter_map, List.map_map]
  have hfilter : members.filter ((fun e => p e.2) ∘ (fun i => (i, l.countP (waits table steps i))) ∘ (·.id)) =
      members.filter q := List.filter_congr fun s hs => hpq s hs
  rw [hfilter]
  rfl

section

variable (hn : Numbered steps) {members : List Step} (hm : members.Sublist steps)

include hn hm

/-- Each step of the scope is counted by all that read it. -/
theorem start_eq : start (edges table steps) members = some (counting table steps members members) := by
  have hraise : ∀ (ws : List Step) (n : StepId → Nat), (∀ w ∈ ws, w ∈ steps) →
      ws.foldlM (fun c w => ((edges table steps)[w.id]?).map fun l => l.foldl raise c) (tab (members.map (·.id)) n) =
        some (tab (members.map (·.id)) fun i => n i + ws.countP (waits table steps i)) := by
    intro ws
    induction ws with
    | nil => exact fun n _ => rfl
    | cons w ws ih =>
      intro n hws
      rw [List.foldlM_cons, edges_getElem? hn (hws w List.mem_cons_self), Option.map_some,
        foldl_raise _ n (nodup_readers w)]
      rw [Option.bind_eq_bind, Option.bind_some, ih _ fun v hv => hws v (List.mem_cons_of_mem w hv)]
      refine congrArg some (tab_congr fun i _ => ?_)
      simp only [mem_readers hn, List.countP_cons]
      split <;> omega
  have h := hraise members (fun _ => 0) fun w hw => hm.subset hw
  simp only [Nat.zero_add] at h
  rw [counting, ← h, tab, List.map_map]
  rfl

/-- What a cycle keeps is what counts something in the end. -/
theorem filter_blocked_left :
    members.filter (Order.blocked table (Order.levels table members).2) = (Order.levels table members).2 := by
  have hperm := Graph.levels_perm table members
  have htaken :
      (Order.levels table members).1.flatten.filter (Order.blocked table (Order.levels table members).2) = [] := by
    refine List.filter_eq_nil_iff.2 fun s hs hb => ?_
    obtain ⟨w, hw, hr⟩ := Order.blocked_iff.1 hb
    rw [Order.not_reads_left hs hw] at hr
    cases hr
  have hleft : (Order.levels table members).2.filter (Order.blocked table (Order.levels table members).2) =
      (Order.levels table members).2 :=
    List.filter_eq_self.2 fun s hs => Order.blocked_iff.2 (Order.exists_read_left hs)
  have hkept := hperm.filter (Order.blocked table (Order.levels table members).2)
  rw [List.filter_append, htaken, hleft, List.nil_append] at hkept
  have hsorted := (increasing hn).sublist hm
  refine hkept.symm.eq_of_pairwise (fun s t _ _ hst hts => absurd hst (Nat.lt_asymm hts))
    (hsorted.sublist List.filter_sublist) (hsorted.sublist (Order.left_sublist table members))

end

/-- Counting has a result for every scope, the one that peeling has. -/
theorem sort_eq (hn : Numbered steps) (scope : Scope) :
    sort table steps scope =
      some ((Graph.orderOf table steps scope).2, (Graph.orderOf table steps scope).1.cyclic) := by
  have hm : (steps.filter fun s => scope.includes s.scheduling).Sublist steps := List.filter_sublist
  unfold sort Graph.orderOf
  dsimp only
  generalize steps.filter (fun s => scope.includes s.scheduling) = members at hm
  by_cases h0 : members = []
  · subst h0
    rw [if_pos rfl, Order.levels]
    rfl
  have hfree := @filter_counting table steps members members (fun n => decide (n = 0))
    (fun s => !Order.blocked table members s) fun s hs => by
      rw [Bool.eq_iff_iff]
      simp only [decide_eq_true_eq, Bool.not_eq_true', ← Bool.not_eq_true, ← countP_pos hn (hm.subset hs)]
      omega
  have hleft := @filter_counting table steps members (Order.levels table members).2 (fun n => decide (0 < n))
    (Order.blocked table (Order.levels table members).2) fun s hs => by
      rw [Bool.eq_iff_iff]
      simp only [decide_eq_true_eq, countP_pos hn (hm.subset hs)]
  rw [filter_blocked_left hn hm] at hleft
  have hrounds := @rounds_eq table steps hn members members hm (List.Sublist.refl members)
    (fun s hs hns => absurd hs hns) _ (List.Perm.of_eq hfree) 0
  have hlen := (Graph.levels_perm table members).length_eq
  have hsub := (Order.left_sublist table members).trans hm
  rw [if_neg h0, start_eq hn hm, Option.bind_some, hrounds, Option.map_some]
  dsimp only
  rw [hleft, mergeSort_ids hn hsub (List.Perm.refl _)]
  rw [List.length_append] at hlen
  generalize Order.levels table members = out at hlen
  obtain ⟨levels, left⟩ := out
  by_cases hl : left = []
  · subst hl
    simp at hlen
    simp [hlen]
  · have hpos := List.length_pos_iff.2 hl
    rw [if_pos]
    dsimp only at hlen ⊢
    omega

end

end Settle.Kahn
