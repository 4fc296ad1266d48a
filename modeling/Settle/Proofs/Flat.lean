/-
  Settle.Proofs.Flat — the flat tables of a graph tell overlap (see `Settle.Plan.Flat`).

  - Rows laid out one after another are read back as they were put (`row_ofLists`).
  - Going over the steps puts each down at its inputs and at their ancestors, so the
    sorted rows are the steps that `Graph.exact` and `Graph.under` pick out
    (`Triggers.ofGraph_exact`, `Triggers.ofGraph_under`).
  - A table of positions, filled from an order, holds the position of each step in it
    (`getElem?_positionsOf`).

  So the flat tables answer as `Wiring` does (`affected_eq`, `position_eq`), and a path
  affects exactly the steps that write or depend on a path overlapping it
  (`tells_affected`).
-/

import Settle.Plan.Flat
import Settle.Proofs.Registry
import Settle.Proofs.Wiring

namespace Settle

/-! ## Rows -/

namespace Rows

theorem ofLists_eq (rows : List (List Nat)) :
    (ofLists rows).offsets = (List.range (rows.length + 1)).map (fun k => (rows.take k).flatten.length) ∧
      (ofLists rows).items = rows.flatten := by
  induction rows using List.reverseRecOn with
  | nil => exact ⟨rfl, rfl⟩
  | append_singleton rows row ih =>
    obtain ⟨hoffsets, hitems⟩ := ih
    have hfold : ofLists (rows ++ [row]) = (ofLists rows).push row := List.foldl_append
    rw [hfold]
    refine ⟨?_, ?_⟩
    · -- the rows so far begin where they began
      have hbefore : ∀ k ∈ List.range (rows.length + 1), ((rows ++ [row]).take k).flatten.length =
          (rows.take k).flatten.length := by
        intro k hk
        rw [List.take_append_of_le_length (Nat.lt_succ_iff.1 (List.mem_range.1 hk))]
      rw [List.length_append, List.length_singleton, List.range_succ, List.map_append, List.map_congr_left hbefore,
        push, hoffsets, hitems, List.map_singleton, List.take_of_length_le (by simp), List.flatten_concat]
    · rw [push, hitems, List.flatten_concat]

/-- A row is read back as it was put. -/
theorem row_ofLists {rows : List (List Nat)} {i : Nat} {row : List Nat} (h : rows[i]? = some row) :
    (ofLists rows).row i = row := by
  obtain ⟨hoffsets, hitems⟩ := ofLists_eq rows
  obtain ⟨hi, rfl⟩ := List.getElem?_eq_some_iff.1 h
  have hoffset : ∀ k, k ≤ rows.length → (ofLists rows).offsets.getD k 0 = (rows.take k).flatten.length := by
    intro k hk
    rw [hoffsets, List.getD_eq_getElem?_getD, List.getElem?_map, List.getElem?_range (Nat.lt_succ_of_le hk)]
    rfl
  have hstop : (rows.take (i + 1)).flatten = (rows.take i).flatten ++ rows[i] := by
    rw [List.take_succ_eq_append_getElem hi, List.flatten_concat]
  have hitems' : rows.flatten = (rows.take (i + 1)).flatten ++ (rows.drop (i + 1)).flatten := by
    rw [← List.flatten_append, List.take_append_drop]
  rw [row, hoffset i (Nat.le_of_lt hi), hoffset (i + 1) hi, hitems, hitems', List.take_left, hstop, List.drop_left]

end Rows

/-! ## Triggers -/

namespace Triggers

variable {g : Graph} {d : Declaration} {n : Nat}

/-- What every step of a fold adds to a property of the accumulator, the whole fold adds. -/
theorem foldl_gathers {α β : Type} {f : β → α → β} {I P : β → Prop} {Q : α → Prop}
    (hf : ∀ b a, I b → I (f b a) ∧ (P (f b a) ↔ P b ∨ Q a)) (l : List α) {b : β} (hb : I b) :
    I (l.foldl f b) ∧ (P (l.foldl f b) ↔ P b ∨ ∃ a ∈ l, Q a) := by
  induction l generalizing b with
  | nil => exact ⟨hb, by simp⟩
  | cons a l ih =>
    obtain ⟨hI, hP⟩ := hf b a hb
    obtain ⟨hI', hP'⟩ := ih hI
    refine ⟨hI', ?_⟩
    rw [List.foldl_cons, hP', hP, or_assoc, List.exists_mem_cons_iff]

/-- There is a row for each path. -/
structure Sized (t : Triggers) (size : Nat) : Prop where
  exact : t.exact.length = size
  under : t.under.length = size

@[simp] theorem length_note (s : StepId) (rows : List (List StepId)) (p : PathId) :
    (note s rows p).length = rows.length := List.length_modify ..

section

variable (chains : List (List PathId)) {size : Nat} {t : Triggers}

theorem Sized.addInput (ht : t.Sized size) (s : StepId) (input : PathId) : (addInput chains s t input).Sized size where
  exact := (length_note s t.exact input).trans ht.exact
  under := List.foldlRecOn (motive := fun rows => rows.length = size) _ _ ht.under fun rows h p _ =>
    (length_note s rows p).trans h

theorem Sized.addStep (ht : t.Sized size) (s : Step) : (addStep chains t s).Sized size :=
  List.foldlRecOn (motive := fun t : Triggers => t.Sized size) _ _ ht fun _ h input _ => h.addInput chains s.id input

variable {k : Nat} (x : StepId)

theorem mem_note (s : StepId) {rows : List (List StepId)} (p : PathId) (hk : k < rows.length) :
    x ∈ (note s rows p).getD k [] ↔ x ∈ rows.getD k [] ∨ x = s ∧ k = p := by
  rw [note, List.getD_eq_getElem?_getD, List.getD_eq_getElem?_getD, List.getElem?_modify, List.getElem?_eq_getElem hk]
  by_cases hp : p = k
  · simp [hp]
  · simp [hp, Ne.symm hp]

/-- A step comes to a row when one of its inputs is the path of the row. -/
theorem mem_exact_addStep (hk : k < size) (ht : t.Sized size) (s : Step) :
    x ∈ (addStep chains t s).exact.getD k [] ↔ x ∈ t.exact.getD k [] ∨ x = s.id ∧ k ∈ s.inputs := by
  refine (foldl_gathers (f := addInput chains s.id) (I := fun t => t.Sized size)
    (P := fun t => x ∈ t.exact.getD k []) (Q := fun input => x = s.id ∧ k = input)
    (fun t input ht => ⟨ht.addInput chains s.id input, ?_⟩) s.inputs ht).2.trans (or_congr_right ?_)
  · exact mem_note x s.id input (ht.exact ▸ hk)
  · simp [and_comm]

/-- A step comes to a row when the path of the row is in the chain of one of its inputs. -/
theorem mem_under_addStep (hk : k < size) (ht : t.Sized size) (s : Step) :
    x ∈ (addStep chains t s).under.getD k [] ↔
      x ∈ t.under.getD k [] ∨ x = s.id ∧ ∃ input ∈ s.inputs, k ∈ chains.getD input [] := by
  refine (foldl_gathers (f := addInput chains s.id) (I := fun t => t.Sized size)
    (P := fun t => x ∈ t.under.getD k []) (Q := fun input => x = s.id ∧ k ∈ chains.getD input [])
    (fun t input ht => ⟨ht.addInput chains s.id input, ?_⟩) s.inputs ht).2.trans (or_congr_right ?_)
  · refine (foldl_gathers (I := fun rows => rows.length = size) (P := fun rows => x ∈ rows.getD k [])
      (Q := fun p => x = s.id ∧ k = p) (fun rows p hrows => ⟨(length_note _ rows p).trans hrows, ?_⟩)
      (chains.getD input []) ht.under).2.trans (or_congr_right ?_)
    · exact mem_note x s.id p (hrows ▸ hk)
    · simp [and_comm]
  · simp [and_left_comm]

end

/-- The steps picked out of a compiled graph come in increasing order. -/
theorem increasing_filter (hc : Graph.compile d n = .ok g) (f : Step → Bool) :
    ((g.steps.filter f).map (·.id)).Pairwise (· < ·) := by
  obtain ⟨o, -, -, hsteps, -⟩ := Graph.compile_eq_ok hc
  have hids : (g.steps.map (·.id)).Pairwise (· < ·) := by
    rw [hsteps, Graph.ids_stepsFrom]
    exact List.pairwise_lt_range'
  exact hids.sublist (List.filter_sublist.map _)

/-- Rows that gather for each path what a filter of the steps picks out are, once tidy,
what it picks out. -/
theorem tidy_eq (hc : Graph.compile d n = .ok g) {rows : List (List StepId)} {f : PathId → Step → Bool}
    (hlen : rows.length = g.table.size)
    (hmem : ∀ k < g.table.size, ∀ x, x ∈ rows.getD k [] ↔ ∃ s ∈ g.steps, x = s.id ∧ f k s = true) :
    tidy rows = (List.range g.table.size).map fun k => (g.steps.filter (f k)).map (·.id) := by
  refine List.ext_getElem (by simp [tidy, hlen]) fun k hk hk' => ?_
  have hlt : k < g.table.size := by simpa using hk'
  have hlt' : k < rows.length := hlen ▸ hlt
  have hrow : rows.getD k [] = rows[k] := by
    rw [List.getD_eq_getElem?_getD, List.getElem?_eq_getElem hlt', Option.getD_some]
  simp only [tidy, List.getElem_map, List.getElem_range, ← hrow]
  refine (increasing_tidy _).eq_of_mem_iff (increasing_filter hc _) fun x => ?_
  rw [mem_eraseReps, List.mem_mergeSort, hmem k hlt, List.mem_map]
  exact exists_congr fun s => by rw [List.mem_filter, and_assoc, and_comm (a := f k s = true), eq_comm]

theorem chains_getD (ht : g.table.WellFormed) (i : PathId) :
    (Registry.ofTable g.table).chains.getD i [] = g.table.chain i := by
  rw [Registry.ofTable_chains ht, List.getD_eq_getElem?_getD, List.getElem?_map]
  by_cases hi : i < g.table.size
  · rw [List.getElem?_range hi]
    rfl
  · have hnone : g.table.path? i = none := List.getElem?_eq_none (Nat.le_of_not_lt hi)
    rw [List.getElem?_eq_none (by simpa using hi), PathTable.chain, hnone]
    rfl

theorem getD_replicate_nil (n k : Nat) : (List.replicate n ([] : List StepId)).getD k [] = [] := by
  rw [List.getD_eq_getElem?_getD, List.getElem?_replicate]
  split <;> rfl

theorem sized_blank (size : Nat) : (blank size).Sized size := ⟨List.length_replicate, List.length_replicate⟩

theorem sized_noted (chains : List (List PathId)) (size : Nat) (steps : List Step) :
    (steps.foldl (addStep chains) (blank size)).Sized size :=
  List.foldlRecOn (motive := fun t : Triggers => t.Sized size) _ _ (sized_blank size) fun _ h s _ => h.addStep chains s

/-- The steps put down at a path are those with an input there. -/
theorem ofGraph_exact (hc : Graph.compile d n = .ok g) :
    (ofGraph g).exact = (List.range g.table.size).map g.exact := by
  refine tidy_eq hc (f := fun k s => s.inputs.contains k) (sized_noted _ _ g.steps).exact fun k hk x => ?_
  refine (foldl_gathers (I := fun t : Triggers => t.Sized g.table.size) (P := fun t => x ∈ t.exact.getD k [])
    (fun _ s ht => ⟨ht.addStep _ s, mem_exact_addStep _ x hk ht s⟩) g.steps (sized_blank g.table.size)).2.trans ?_
  rw [blank, getD_replicate_nil]
  simp

/-- The steps put down under a path are those with an input at or under it. -/
theorem ofGraph_under (hc : Graph.compile d n = .ok g) :
    (ofGraph g).under = (List.range g.table.size).map g.under := by
  have hchain := chains_getD (Graph.compile_wellFormed hc).table
  refine tidy_eq hc (f := fun k s => s.inputs.any fun i => (g.table.chain i).contains k)
    (sized_noted _ _ g.steps).under fun k hk x => ?_
  refine (foldl_gathers (I := fun t : Triggers => t.Sized g.table.size) (P := fun t => x ∈ t.under.getD k [])
    (fun _ s ht => ⟨ht.addStep _ s, mem_under_addStep _ x hk ht s⟩) g.steps (sized_blank g.table.size)).2.trans ?_
  simp only [blank, getD_replicate_nil, hchain]
  simp

end Triggers

/-! ## Flat tables -/

namespace Flat

variable {g : Graph} {d : Declaration} {n : Nat}

/-- A table filled from an order holds the position of each step in it. -/
theorem getElem?_positionsOf {order : List StepId} {stepCount : Nat} (hnd : order.Nodup)
    (hlt : ∀ s ∈ order, s < stepCount) (s : StepId) : ((positionsOf stepCount order)[s]?).join = order.idxOf? s := by
  have hfill : ∀ l : List StepId, l.Nodup → (∀ s ∈ l, s < stepCount) →
      (positionsOf stepCount l).length = stepCount ∧ ((positionsOf stepCount l)[s]?).join = l.idxOf? s := by
    intro l
    induction l using List.reverseRecOn with
    | nil =>
      intro _ _
      refine ⟨List.length_replicate, ?_⟩
      rw [positionsOf, List.zipIdx_nil, List.foldl_nil, List.getElem?_replicate]
      split <;> rfl
    | append_singleton l a ih =>
      intro hnd hlt
      have hout : a ∉ l := fun ha => (List.nodup_append.1 hnd).2.2 a ha a (List.mem_singleton.2 rfl) rfl
      obtain ⟨hlen, hat⟩ := ih (List.nodup_append.1 hnd).1 fun s hs => hlt s (List.mem_append_left _ hs)
      have hstep : positionsOf stepCount (l ++ [a]) = (positionsOf stepCount l).set a (some l.length) := by
        simp [positionsOf, List.zipIdx_append]
      rw [hstep]
      refine ⟨by rw [List.length_set, hlen], ?_⟩
      rw [idxOf?_append_singleton, List.getElem?_set, hlen]
      by_cases hs : s = a
      · subst hs
        have ha : s < stepCount := hlt s (by simp)
        simp [ha, List.idxOf?_eq_none_iff.2 hout]
      · rw [if_neg (Ne.symm hs), if_neg hs, Option.or_none, hat]
  exact (hfill order hnd hlt).2

theorem position_eq (hc : Graph.compile d n = .ok g) (scope : Scope) (s : StepId) :
    (ofGraph g).position scope s = (g.orders.get scope).order.idxOf? s := by
  have hg := Graph.compile_wellFormed hc
  rw [position, ofGraph, PerScope.get_map]
  refine getElem?_positionsOf (hg.nodup scope) (fun i hi => ?_) s
  obtain ⟨step, hstep, -⟩ := hg.mem_order.1 hi
  exact (List.getElem?_eq_some_iff.1 hstep).1

/-- Flat or not, the tables list the same steps for a path, in the same order. -/
theorem affected_eq (hc : Graph.compile d n = .ok g) {k : PathId} (hk : k < g.table.size) :
    (ofGraph g).affected k = (Wiring.ofGraph g).affected k := by
  have ht := (Graph.compile_wellFormed hc).table
  have hrow : ∀ {rows : List (List Nat)} {f : PathId → List Nat}, rows = (List.range g.table.size).map f →
      ∀ i < g.table.size, (Rows.ofLists rows).row i = f i := by
    intro rows f hrows i hi
    refine Rows.row_ofLists ?_
    rw [hrows, List.getElem?_map, List.getElem?_range hi]
    rfl
  have hchain : (ofGraph g).chains.row k = g.table.chain k := hrow (Registry.ofTable_chains ht) k hk
  have hunder : (ofGraph g).under.row k = g.under k := hrow (Triggers.ofGraph_under hc) k hk
  have hexact : ∀ i < g.table.size, (ofGraph g).exact.row i = g.exact i := hrow (Triggers.ofGraph_exact hc)
  obtain ⟨p, hp⟩ := PathTable.exists_path? hk
  have hlt : ∀ a ∈ g.table.chain k, a < g.table.size := fun a ha => by
    obtain ⟨q, hq, -⟩ := (ht.mem_chain hp).1 ha
    exact PathTable.lt_size hq
  rw [affected, Wiring.affected, hchain, hunder, Wiring.chain, Wiring.ofGraph]
  simp only [Wired.getD_map_range _ hk]
  congr 1
  refine List.flatMap_congr fun a ha => ?_
  rw [hexact a (hlt a ha), Wired.getD_map_range _ (hlt a ha)]

theorem affectsScope_eq (hc : Graph.compile d n = .ok g) {k : PathId} (hk : k < g.table.size) (scope : Scope) :
    (ofGraph g).affectsScope scope k = (Wiring.ofGraph g).affectsScope scope k := by
  have hin : ∀ s, ((ofGraph g).position scope s).isSome = (Wiring.ofGraph g).inScope scope s := by
    intro s
    rw [position_eq hc, Bool.eq_iff_iff, List.isSome_idxOf?, Wired.inScope_iff, Wiring.order, Wiring.ofGraph,
      PerScope.get_map]
  rw [affectsScope, Wiring.affectsScope, affected_eq hc hk]
  exact congrArg _ (funext hin)

theorem affectsEarlier_eq (hc : Graph.compile d n = .ok g) {k : PathId} (hk : k < g.table.size) (scope : Scope)
    (s : StepId) : (ofGraph g).affectsEarlier scope k s = (Wiring.ofGraph g).affectsEarlier scope k s := by
  have hpos : ∀ s, (ofGraph g).position scope s = (Wiring.ofGraph g).position scope s := by
    intro s
    rw [position_eq hc, Wiring.position, Wiring.order, Wiring.ofGraph, PerScope.get_map]
  rw [affectsEarlier, Wiring.affectsEarlier, affected_eq hc hk, hpos]
  cases (Wiring.ofGraph g).position scope s with
  | none => rfl
  | some here =>
    refine congrArg (List.any _) (funext fun j => ?_)
    cases hj : (Wiring.ofGraph g).position scope j <;> simp only [hpos, hj]

/-- What the tables of a graph tell of the path with an id. -/
structure Tells (g : Graph) (k : PathId) (p : Path) : Prop where
  /-- A step is visited when the field that it writes, or one that it depends on, overlaps
  the path. -/
  affected : ∀ i, i ∈ (ofGraph g).affected k ↔ ∃ s q, g.step? i = some s ∧
    (g.table.path? s.out = some q ∨ ∃ dep ∈ s.deps, g.table.path? dep = some q) ∧ q.overlaps p = true
  /-- A scope is affected when a step of it is. -/
  scope : ∀ scope, (ofGraph g).affectsScope scope k = true ↔ ∃ i ∈ (g.orders.get scope).order, g.Moves p i
  /-- An earlier step is affected when one other than the writer is that comes before the
  writer in the order of the scope. -/
  earlier : ∀ scope i, (ofGraph g).affectsEarlier scope k i = true ↔
    ∃ here, (g.orders.get scope).order.idxOf? i = some here ∧
      ∃ j pos, j ≠ i ∧ (g.orders.get scope).order.idxOf? j = some pos ∧ pos < here ∧ g.Moves p j
  /-- The tables that plans are made with tell the same. -/
  wiring : (ofGraph g).affected k = (Wiring.ofGraph g).affected k ∧
    (∀ scope, (ofGraph g).affectsScope scope k = (Wiring.ofGraph g).affectsScope scope k) ∧
    ∀ scope i, (ofGraph g).affectsEarlier scope k i = (Wiring.ofGraph g).affectsEarlier scope k i

/-- Chains, steps at a path and steps under a path together tell which steps a change of
a path affects: those that write or depend on a path overlapping it, and no others. -/
theorem tells_affected (hc : Graph.compile d n = .ok g) {k : PathId} {p : Path} (hk : g.table.path? k = some p) :
    Tells g k p := by
  have hg := Graph.compile_wellFormed hc
  have hlt := PathTable.lt_size hk
  have hmem : ∀ i, i ∈ (ofGraph g).affected k ↔ g.Moves p i := by
    intro i
    rw [affected_eq hc hlt]
    exact Wired.mem_affected ⟨hg, rfl⟩ hk
  constructor
  case affected => exact fun i => (hmem i).trans Graph.moves_iff
  case scope =>
    intro scope
    rw [affectsScope, List.any_eq_true]
    simp only [hmem, position_eq hc, List.isSome_idxOf?]
    exact exists_congr fun i => and_comm
  case earlier =>
    intro scope i
    rw [affectsEarlier, position_eq hc]
    cases hi : (g.orders.get scope).order.idxOf? i with
    | none => simp
    | some here =>
      simp only [List.any_eq_true, hmem, Bool.and_eq_true, bne_iff_ne, position_eq hc, Option.some.injEq,
        exists_eq_left']
      constructor
      · rintro ⟨j, hj, hne, hbefore⟩
        cases hpos : (g.orders.get scope).order.idxOf? j with
        | none =>
          rw [hpos] at hbefore
          cases hbefore
        | some pos =>
          rw [hpos] at hbefore
          exact ⟨j, pos, hne, hpos, of_decide_eq_true hbefore, hj⟩
      · rintro ⟨j, pos, hne, hpos, hbefore, hj⟩
        refine ⟨j, hj, hne, ?_⟩
        rw [hpos]
        exact decide_eq_true hbefore
  case wiring =>
    exact ⟨affected_eq hc hlt, fun scope => affectsScope_eq hc hlt scope,
      fun scope i => affectsEarlier_eq hc hlt scope i⟩

end Flat

/-! ## Fields above and below -/

namespace Profile

def first : Path := ⟨["f"], by decide⟩

def greeting : Path := ⟨["g"], by decide⟩

def list : Path := ⟨["l"], by decide⟩

def item : Path := ⟨["l", "*"], by decide⟩

def price : Path := ⟨["l", "*", "p"], by decide⟩

def total : Path := ⟨["t"], by decide⟩

def user : Path := ⟨["u"], by decide⟩

def name : Path := ⟨["u", "n"], by decide⟩

def nameFirst : Path := ⟨["u", "n", "f"], by decide⟩

def nothing : Derive := .ofRun none fun _ => ⟨.ok .null, []⟩

/-- A step that reads a whole object, one that copies a field deep in it, and one that
reads a field of all items of a list. -/
def declaration : Declaration :=
  (Declaration.named "profile").group
    ((((Group.named "profile").field "g" (.computed ⟨["u"], nothing, none, .immediate⟩)).field "f"
      (.link "u.n.f" .immediate)).field "t" (.computed ⟨["l[].p"], nothing, none, .deferred⟩))

def graph : Graph where
  moduleId := "profile"
  table := ⟨[first, greeting, list, item, price, total, user, name, nameFirst]⟩
  steps := [⟨0, .link, 0, [8], some 8, .immediate, "f", "profile"⟩,
    ⟨1, .computed, 1, [6], none, .immediate, "g", "profile"⟩, ⟨2, .computed, 5, [4], none, .deferred, "t", "profile"⟩]
  bodies := [.link, .computed nothing none, .computed nothing none]
  orders := ⟨⟨[0, 1, 2], []⟩, ⟨[0, 1], []⟩, ⟨[2], []⟩⟩
  levels := [[0, 1, 2]]
  reserved := []
  shapeWarnings := []
  generation := 1

theorem compile_eq : Graph.compile declaration 1 = .ok graph := by
  unfold graph
  cbv

/-- The name, which no step reads or writes, affects the step that reads the object
around it and the one that reads a field in it. -/
theorem name_affects : Graph.compile declaration 1 = .ok graph ∧ graph.table.path? 7 = some name ∧
    Flat.Tells graph 7 name ∧ (Flat.ofGraph graph).affected 7 = [1, 0] :=
  ⟨compile_eq, rfl, Flat.tells_affected compile_eq rfl, by cbv⟩

end Profile

end Settle
