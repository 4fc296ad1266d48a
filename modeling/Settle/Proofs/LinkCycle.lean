/-
  Settle.Proofs.LinkCycle — the search by marks finds a cycle of links just when there is
  one (see `Settle.Graph.Search`).

  A walk along links ends (`Ends`) or comes back. Where it comes back, every field it has
  visited leads on to the one it is at (`Walking`), so that one lies on a cycle
  (`linkWalk_back`); where it ends, no field of it can lie on one.

  The marks tell the two kinds of walk apart (`Marked`): what is in progress is the path
  of the walk under way, and from what is done walks end. A walk that meets a field that is
  done may therefore stop: it would end, as the walk that starts afresh does
  (`walk_spec`). By induction over the fields to start from, the search finds what
  starting afresh from every link finds (`search_eq`), down to the field it names.
-/

import Settle.Graph.Search
import Settle.Proofs.Numbering

namespace Settle

namespace Search

open Relation (TransGen)

/-- A link writes `o` and copies `o'`. -/
def Follows (steps : List Step) (o o' : PathId) : Prop :=
  ∃ s ∈ steps, s.kind = .link ∧ s.out = o ∧ s.source = some o'

/-! ## Walks that end -/

section

variable {links rest : List (PathId × PathId)} {visited path : List PathId} {marks : Marks} {v n m : PathId}

/-- There is a link from `n` to `m`. -/
def Next (links : List (PathId × PathId)) (n m : PathId) : Prop := links.lookup n = some m

/-- Following links from a field, one comes to a field that no link writes. -/
def Ends (links : List (PathId × PathId)) (n : PathId) : Prop := Acc (fun m k => Next links k m) n

theorem Ends.of_none (h : links.lookup n = none) : Ends links n := .intro n fun m hm => by
  rw [Next, h] at hm
  cases hm

theorem Ends.of_next (h : Next links n m) (hm : Ends links m) : Ends links n := .intro n fun k hk => by
  obtain rfl := Option.some.inj (Eq.trans (Eq.symm hk) h)
  exact hm

theorem Ends.of_leads (h : TransGen (Next links) v n) (hn : Ends links n) : Ends links v := by
  induction h using TransGen.head_induction_on with
  | single h => exact hn.of_next h
  | head h _ ih => exact ih.of_next h

theorem Ends.not_cycle (h : Ends links n) : ¬ TransGen (Next links) n n := by
  induction h with
  | intro n _ ih =>
    intro hc
    obtain ⟨m, hm, hback⟩ := TransGen.head'_iff.1 hc
    exact ih m hm (.tail' hback hm)

/-! ## Walks from afresh -/

/-- A walk has come to `node`: all it has visited leads there, and only links from what it
has visited are left out of `rest`. -/
structure Walking (links rest : List (PathId × PathId)) (visited : List PathId) (node : PathId) : Prop where
  rest : ∀ n ∉ visited, rest.lookup n = links.lookup n
  leads : ∀ v ∈ visited, TransGen (Next links) v node

theorem walking_start (links : List (PathId × PathId)) (n : PathId) : Walking links links [] n := ⟨fun _ _ => rfl, nofun⟩

theorem lookup_dropLink (h : m ≠ n) : (Order.dropLink n links).lookup m = links.lookup m := by
  induction links with
  | nil => rfl
  | cons e links ih =>
    unfold Order.dropLink at ih ⊢
    rw [List.lookup_cons]
    by_cases he : e.1 = n
    · rw [List.filter_cons_of_neg (by simp [he]), ih, beq_false_of_ne (he ▸ h)]
    · rw [List.filter_cons_of_pos (by simp [he]), List.lookup_cons, ih]

theorem Walking.next (h : Walking links rest visited n) (hn : Next links n m) :
    Walking links (Order.dropLink n rest) (n :: visited) m where
  rest := fun k hk => by
    rw [List.mem_cons, not_or] at hk
    rw [lookup_dropLink hk.1, h.rest k hk.2]
  leads := fun v hv => by
    rcases List.mem_cons.1 hv with rfl | hv
    · exact .single hn
    · exact (h.leads v hv).tail hn

/-- A walk that comes back does so on a cycle. -/
theorem linkWalk_back {o : PathId} (h : Walking links rest visited n) (hw : Order.linkWalk rest visited n = some o) :
    TransGen (Next links) o o := by
  fun_induction Order.linkWalk rest visited n with
  | case1 rest visited n hv =>
    obtain rfl := Option.some.inj hw
    exact h.leads n hv
  | case2 => cases hw
  | case3 rest visited n hv m hm ih => exact ih (h.next ((h.rest n hv).symm.trans hm)) hw

/-- A walk that does not come back ends. -/
theorem linkWalk_ends (h : Walking links rest visited n) : Order.linkWalk rest visited n = none ↔ Ends links n := by
  fun_induction Order.linkWalk rest visited n with
  | case1 rest visited n hv => exact ⟨nofun, fun he => absurd (h.leads n hv) he.not_cycle⟩
  | case2 rest visited n hv hnone => exact ⟨fun _ => .of_none ((h.rest n hv).symm.trans hnone), fun _ => rfl⟩
  | case3 rest visited n hv m hm ih =>
    have hn : Next links n m := (h.rest n hv).symm.trans hm
    rw [ih (h.next hn)]
    exact ⟨fun he => he.of_next hn, fun he => he.inv hn⟩

theorem linkWalk_next (hv : n ∉ visited) (hn : rest.lookup n = some m) :
    Order.linkWalk rest visited n = Order.linkWalk (Order.dropLink n rest) (n :: visited) m := by
  rw [Order.linkWalk, if_neg hv]
  split
  · rename_i hnone
    rw [hn] at hnone
    cases hnone
  · rename_i hsome
    rw [hn] at hsome
    obtain rfl := Option.some.inj hsome
    rfl

/-! ## Walks by marks -/

/-- The marks when the walk under way has come along a path. -/
structure Marked (links : List (PathId × PathId)) (marks : Marks) (path : List PathId) : Prop where
  known : ∀ n, marks.lookup n = none ↔ links.lookup n = none
  path : ∀ n, marks.lookup n = some .inProgress ↔ n ∈ path
  done : ∀ n, marks.lookup n = some .done → Ends links n

theorem lookup_settle (marks : Marks) (path : List PathId) (n : PathId) :
    (settle marks path).lookup n = if n ∈ path then some .done else marks.lookup n := by
  induction path generalizing marks with
  | nil => rfl
  | cons k path ih =>
    rw [settle, List.foldl_cons, ← settle, ih, lookup_put]
    by_cases hp : n ∈ path
    · simp [hp]
    · by_cases hk : n = k <;> simp [hp, hk]

/-- The walk takes one more field. -/
theorem Marked.visit (h : Marked links marks path) (hn : marks.lookup n = some .unvisited) :
    Marked links (put n .inProgress marks) (path ++ [n]) where
  known := fun k => by
    rw [lookup_put, ← h.known]
    by_cases hk : k = n
    · simp [hk, hn]
    · simp [hk]
  path := fun k => by
    rw [lookup_put, List.mem_append, List.mem_singleton, ← h.path]
    by_cases hk : k = n <;> simp [hk]
  done := fun k hd => by
    rw [lookup_put] at hd
    by_cases hk : k = n
    · simp [hk] at hd
    · exact h.done k (by simpa [hk] using hd)

/-- The walk is over, and from all of its path walks end. -/
theorem Marked.settle (h : Marked links marks path) (hends : ∀ v ∈ path, Ends links v) :
    Marked links (settle marks path) [] where
  known := fun k => by
    rw [lookup_settle, ← h.known]
    by_cases hk : k ∈ path
    · simp [hk, (h.path k).2 hk]
    · simp [hk]
  path := fun k => by
    rw [lookup_settle]
    by_cases hk : k ∈ path
    · simp [hk]
    · simp [hk, h.path]
  done := fun k hd => by
    rw [lookup_settle] at hd
    by_cases hk : k ∈ path
    · exact hends k hk
    · exact h.done k (by simpa [hk] using hd)

/-- What a walk by marks comes to where the walk from afresh comes to `found`. -/
inductive Agrees (links : List (PathId × PathId)) : Option PathId → Except PathId (Marks × List PathId) → Prop
  | back (o : PathId) : Agrees links (some o) (.error o)
  | ended {marks : Marks} {path : List PathId} : Marked links marks path → (∀ v ∈ path, Ends links v) →
      Agrees links none (.ok (marks, path))

/-- A walk may stop where walks end. -/
theorem Marked.stop (h : Marked links marks path) (hw : Walking links rest path.reverse n) (he : Ends links n) :
    Agrees links (Order.linkWalk rest path.reverse n) (.ok (marks, path)) := by
  rw [(linkWalk_ends hw).2 he]
  exact .ended h fun v hv => he.of_leads (hw.leads v (List.mem_reverse.2 hv))

theorem walk_spec (h : Marked links marks path) (hw : Walking links rest path.reverse n) :
    Agrees links (Order.linkWalk rest path.reverse n) (walk links marks path (some n)) := by
  induction hk : unvisited marks using Nat.strongRecOn generalizing marks path rest n with
  | _ k ih =>
    subst hk
    rw [walk]
    split
    · rename_i hmark
      have hv : n ∈ path.reverse := List.mem_reverse.2 ((h.path n).1 hmark)
      rw [Order.linkWalk, if_pos hv]
      exact .back n
    · rename_i hmark
      have hv : n ∉ path.reverse := by
        rw [List.mem_reverse, ← h.path, hmark]
        simp
      -- a field with a mark is written by a link
      obtain ⟨m, hm⟩ : ∃ m, Next links n m := Option.ne_none_iff_exists'.1 fun hnone => by
        rw [(h.known n).2 hnone] at hmark
        cases hmark
      have hstep := hw.next hm
      rw [linkWalk_next hv ((hw.rest n hv).trans hm), hm]
      rw [← List.reverse_concat'] at hstep ⊢
      exact ih _ (unvisited_put_lt hmark) (h.visit hmark) hstep rfl
    · rename_i hmark
      exact h.stop hw (h.done n hmark)
    · rename_i hmark
      exact h.stop hw (.of_none ((h.known n).1 hmark))

/-- The search finds what walks from afresh find. -/
theorem search_eq (h : Marked links marks []) {starts : List PathId} (hs : ∀ n ∈ starts, links.lookup n ≠ none) :
    search links marks starts = starts.findSome? (Order.linkWalk links []) := by
  induction starts generalizing marks with
  | nil => rfl
  | cons n starts ih =>
    obtain ⟨hn, hs⟩ := List.forall_mem_cons.1 hs
    have hstart := walking_start links n
    rw [search, List.findSome?_cons]
    split
    · have hspec := walk_spec h hstart
      rw [List.reverse_nil] at hspec
      generalize Order.linkWalk links [] n = found, walk links marks [] (some n) = result at hspec
      cases hspec with
      | back => rfl
      | ended hm hends => exact ih (hm.settle hends) hs
    · rename_i hmark
      -- a field that is not unvisited is done, as no walk is under way
      have he : Ends links n := by
        refine h.done n ?_
        match hm : marks.lookup n with
        | some .unvisited => exact absurd hm hmark
        | some .inProgress => exact absurd ((h.path n).1 hm) List.not_mem_nil
        | some .done => rfl
        | none => exact absurd ((h.known n).1 hm) hn
      rw [(linkWalk_ends hstart).2 he]
      exact ih h hs

end

/-! ## The links of steps -/

section

variable {steps : List Step} {o o' : PathId}

/-- The links of the steps, in their order. -/
def raw (steps : List Step) : List (PathId × PathId) :=
  (steps.filter (·.kind = .link)).filterMap fun s => s.source.map fun f => (s.out, f)

theorem put_of_not_mem {α : Type} {k : PathId} (a : α) {l : List (PathId × α)} (h : k ∉ l.map (·.1)) :
    put k a l = l ++ [(k, a)] := by
  induction l with
  | nil => rfl
  | cons e l ih =>
    rw [List.map_cons, List.mem_cons, not_or] at h
    rw [put, if_neg (Ne.symm h.1), ih h.2, List.cons_append]

/-- Links from different fields are put one after the other. -/
theorem foldl_put {l acc : List (PathId × PathId)} (h : ((acc ++ l).map (·.1)).Nodup) :
    l.foldl (fun l e => put e.1 e.2 l) acc = acc ++ l := by
  induction l generalizing acc with
  | nil => exact (List.append_nil acc).symm
  | cons e l ih =>
    have hnew : e.1 ∉ acc.map (·.1) := by
      rw [List.map_append, List.map_cons] at h
      exact fun hmem => (List.nodup_append.1 h).2.2 _ hmem _ List.mem_cons_self rfl
    rw [List.foldl_cons, put_of_not_mem _ hnew, ih (by rwa [List.append_assoc]), List.append_assoc]
    rfl

theorem mem_raw : (o, o') ∈ raw steps ↔ Follows steps o o' := by
  simp only [raw, List.mem_filterMap, List.mem_filter, decide_eq_true_eq, Option.map_eq_some_iff, Prod.mk.injEq, Follows]
  constructor
  · rintro ⟨s, ⟨hs, hk⟩, f, hf, rfl, rfl⟩
    exact ⟨s, hs, hk, rfl, hf⟩
  · rintro ⟨s, hs, hk, rfl, hf⟩
    exact ⟨s, ⟨hs, hk⟩, o', hf, rfl, rfl⟩

theorem nodup_raw (h : (steps.map (·.out)).Nodup) : ((raw steps).map (·.1)).Nodup := by
  have hne : steps.Pairwise fun s t => s.out ≠ t.out := List.pairwise_map.1 h
  refine List.pairwise_map.2 ((hne.filter _).filterMap _ fun s t hst e he e' he' => ?_)
  obtain ⟨f, -, rfl⟩ := Option.map_eq_some_iff.1 he
  obtain ⟨f', -, rfl⟩ := Option.map_eq_some_iff.1 he'
  exact hst

theorem links_eq (h : (steps.map (·.out)).Nodup) : links steps = raw steps := foldl_put (nodup_raw h)

theorem lookup_raw (h : (steps.map (·.out)).Nodup) : Next (raw steps) o o' ↔ Follows steps o o' := by
  rw [← mem_raw, Next, List.lookup_eq_some_iff]
  constructor
  · rintro ⟨l₁, l₂, hl, -⟩
    exact hl ▸ List.mem_append_right _ List.mem_cons_self
  · intro hm
    obtain ⟨l₁, l₂, hl⟩ := List.append_of_mem hm
    refine ⟨l₁, l₂, hl, fun e he => ?_⟩
    have hnd := nodup_raw h
    rw [hl, List.map_append, List.map_cons] at hnd
    have hne := (List.nodup_append.1 hnd).2.2 e.1 (List.mem_map_of_mem he) o List.mem_cons_self
    exact bne_iff_ne.2 (Ne.symm hne)

/-- At first no field has been come by. -/
theorem marked_start (links : List (PathId × PathId)) : Marked links (links.map fun e => (e.1, .unvisited)) [] := by
  have hlookup : ∀ n, (links.map fun e => (e.1, Mark.unvisited)).lookup n = (links.lookup n).map fun _ => .unvisited := by
    intro n
    induction links with
    | nil => rfl
    | cons e links ih =>
      rw [List.map_cons, List.lookup_cons, List.lookup_cons, ih]
      cases n == e.1 <;> rfl
  refine ⟨fun n => ?_, fun n => ?_, fun n hd => ?_⟩
  · rw [hlookup, Option.map_eq_none_iff]
  · rw [hlookup]
    cases links.lookup n <;> simp
  · rw [hlookup] at hd
    cases hl : links.lookup n <;> simp [hl] at hd

/-- The search by marks names the field that walks from afresh name first. -/
theorem linkCycle_eq (h : (steps.map (·.out)).Nodup) : linkCycle steps = Order.linkCycle steps := by
  have hkeys : ∀ n ∈ (raw steps).map (·.1), (raw steps).lookup n ≠ none := by
    intro n hn hnone
    obtain ⟨e, he, rfl⟩ := List.mem_map.1 hn
    exact absurd rfl (bne_iff_ne.1 (List.lookup_eq_none_iff.1 hnone e he))
  rw [linkCycle, links_eq h, search_eq (marked_start _) hkeys, List.findSome?_map]
  rfl

theorem follows_eq (h : (steps.map (·.out)).Nodup) : Next (raw steps) = Follows steps := by
  funext o o'
  exact propext (lookup_raw h)

/-- A field that the search finds lies on a cycle. -/
theorem linkCycle_some (h : (steps.map (·.out)).Nodup) (ho : linkCycle steps = some o) :
    TransGen (Follows steps) o o := by
  rw [linkCycle_eq h] at ho
  obtain ⟨e, -, hw⟩ := List.exists_of_findSome?_eq_some ho
  exact follows_eq h ▸ linkWalk_back (walking_start (raw steps) e.1) hw

theorem linkCycle_none (h : (steps.map (·.out)).Nodup) :
    linkCycle steps = none ↔ ∀ o, ¬ TransGen (Follows steps) o o := by
  refine ⟨fun hnone o hc => ?_, fun hno => ?_⟩
  · rw [linkCycle_eq h] at hnone
    -- the cycle goes on from `o`, so a link writes `o`
    obtain ⟨o', hf, -⟩ := TransGen.head'_iff.1 hc
    have hw := List.findSome?_eq_none_iff.1 hnone (o, o') (mem_raw.2 hf)
    exact ((linkWalk_ends (walking_start (raw steps) o)).1 hw).not_cycle (follows_eq h ▸ hc)
  · exact Option.eq_none_iff_forall_ne_some.2 fun o ho => hno o (linkCycle_some h ho)

/-- A relation has no cycle just when its walks visit nothing twice. -/
theorem forall_nodup_iff {α : Type} {r : α → α → Prop} :
    (∀ walk : List α, walk.IsChain r → walk.Nodup) ↔ ∀ a, ¬ TransGen r a a := by
  constructor
  · intro h a hc
    obtain ⟨b, hab, hback⟩ := TransGen.head'_iff.1 hc
    obtain ⟨l, hl, hlast⟩ := List.exists_isChain_cons_of_relationReflTransGen hback
    have hnd := h (a :: b :: l) (.cons_cons hab hl)
    exact (List.nodup_cons.1 hnd).1 (hlast ▸ List.getLast_mem _)
  · intro h walk hw
    have hpw : walk.Pairwise (TransGen r) := List.isChain_iff_pairwise.1 (hw.imp fun _ _ => .single)
    refine hpw.imp ?_
    rintro a b hab rfl
    exact h a hab

/-- The search for a cycle of links finds none just when following links never returns to a
field visited before, and a field that it finds lies on a cycle. Starting afresh from each
link finds the same. -/
theorem finds_cycles_exactly (h : (steps.map (·.out)).Nodup) :
    (linkCycle steps = none ↔ ∀ walk : List PathId, walk.IsChain (Follows steps) → walk.Nodup) ∧
      (∀ o, linkCycle steps = some o → TransGen (Follows steps) o o) ∧ linkCycle steps = Order.linkCycle steps :=
  ⟨(linkCycle_none h).trans forall_nodup_iff.symm, fun _ => linkCycle_some h, linkCycle_eq h⟩

end

/-- A link step of either scheduling that copies one field to another. -/
def copy (out source : PathId) (scheduling : Scheduling) : Step :=
  ⟨out, .link, out, [source], some source, scheduling, "", ""⟩

/-- Links from 0 and 4 merge at 1 and go on into the cycle of 2 and 3. -/
def tailed : List Step :=
  [copy 0 1 .immediate, copy 1 2 .deferred, copy 2 3 .immediate, copy 3 2 .deferred, copy 4 1 .immediate]

/-- The walk from 0 comes to the cycle by way of 1; the field named is neither. -/
theorem tail_is_passed : (tailed.map (·.out)).Nodup ∧ linkCycle tailed = some 2 ∧ TransGen (Follows tailed) 2 2 := by
  have hnodup : (tailed.map (·.out)).Nodup := by decide
  have hfound : linkCycle tailed = some 2 := by cbv
  exact ⟨hnodup, hfound, (finds_cycles_exactly hnodup).2.1 2 hfound⟩

end Search

/-- A declaration whose entries pass their checks is turned down for a cycle of links just
when its links have one. -/
theorem Graph.compile_linkCycle {d : Declaration} {n : Nat} {o : Outline} (ho : Outline.ofDeclaration d = .ok o) :
    (∃ text, compile d n = .error (.linkCycle text)) ↔
      ∃ f, Relation.TransGen (Search.Follows (stepsFrom o.table 0 o.sorted)) f f := by
  have hnodup : ((stepsFrom o.table 0 o.sorted).map (·.out)).Nodup :=
    (outs_increasing (Outline.ofDeclaration_checked ho)).imp Nat.ne_of_lt
  have hcompile : (∃ text, compile d n = .error (.linkCycle text)) ↔
      Order.linkCycle (stepsFrom o.table 0 o.sorted) ≠ none := by
    unfold compile
    rw [ho]
    simp only [bind, Except.bind]
    cases Order.linkCycle (stepsFrom o.table 0 o.sorted) with
    | some out => exact ⟨fun _ => nofun, fun _ => ⟨_, rfl⟩⟩
    | none =>
      -- past the check no error speaks of links
      refine ⟨fun ⟨text, h⟩ => ?_, fun h => absurd rfl h⟩
      by_cases hb : (orderOf o.table (stepsFrom o.table 0 o.sorted) .immediate).1.hasBackEdges
      · simp [hb, throw, throwThe, MonadExceptOf.throw] at h
      · simp [hb, pure, Except.pure] at h
  rw [hcompile, ← Search.linkCycle_eq hnodup, Ne, Search.linkCycle_none hnodup, not_forall]
  exact exists_congr fun _ => not_not

end Settle
