/-
  Settle.Proofs.Places — what a write at a location leaves at every place (see
  `Settle.State`).

  One step of a write changes one child of a node, and makes a container of the right kind
  of any other node (`inChild`). It puts there what it makes of the child; its neighbours
  are what they were, but that a list which was too short has nulls before it
  (`childAt_inChild_beside`).

  Along a whole location a write is then a lawful one (`writeAt_lawful`): what was written
  is what is read back, a value written back where it was read changes nothing, the last of
  two writes is the only one, structure was made exactly where nothing was found, and a
  place whose way parts from it, at two keys or at two positions, keeps what it had.
-/

import Settle.Proofs.Overwrite

namespace Settle

/-- Of two keys or of two positions, one and the other. -/
def Segment.Beside : Segment → Segment → Prop
  | .key k, .key s => k ≠ s
  | .index i, .index j => i ≠ j
  | _, _ => False

/-- Both are positions, and this is the smaller one. -/
def Segment.precedes : Segment → Segment → Bool
  | .index j, .index i => decide (j < i)
  | _, _ => false

namespace State

variable {node c : Value} {s t : Segment} {f : Value → Value}

/-- Every object in it has its keys in order, each once. -/
inductive Ordered : Value → Prop
  | obj {fs : Fields} : fs.Ordered → (∀ p ∈ fs, Ordered p.2) → Ordered (.obj fs)
  | arr {items : List Value} : (∀ v ∈ items, Ordered v) → Ordered (.arr items)
  | leaf {v : Value} : v.asObject? = none → v.asArray? = none → Ordered v

theorem ordered_null : Ordered .null := .leaf rfl rfl

theorem Ordered.child (h : Ordered node) (hc : childAt node s = some c) : Ordered c := by
  cases h with
  | obj _ hbelow =>
    cases s with
    | key k => exact hbelow _ (Fields.mem_of_get? hc)
    | index i => cases hc
  | arr hbelow =>
    cases s with
    | key k => cases hc
    | index i => exact hbelow c (List.mem_of_getElem? hc)
  | leaf hobj harr =>
    cases node with
    | obj fs => cases hobj
    | arr items => cases harr
    | _ => cases s <;> cases hc

theorem Ordered.getD (h : Ordered node) (s : Segment) : Ordered ((childAt node s).getD .null) := by
  cases hc : childAt node s with
  | some child => exact h.child hc
  | none => exact ordered_null

theorem Ordered.fields {fs : Fields} (h : Ordered (.obj fs)) : fs.Ordered := by
  cases h with
  | obj hkeys _ => exact hkeys
  | leaf hobj _ => cases hobj

theorem lookupAtSegments_null {way : List Segment} (h : way ≠ []) : lookupAtSegments .null way = none := by
  cases way with
  | nil => exact absurd rfl h
  | cons s rest => cases s <;> rfl

/-! ## One child -/

/-- The items of a node, with nulls up to a position. -/
def filled (node : Value) (i : Nat) : List Value :=
  let items := node.asArray?.getD []
  items ++ List.replicate (i + 1 - items.length) .null

/-- Change one item of a node, and make an array of the node if it is none. -/
def inItem (node : Value) (i : Nat) (f : Value → Value) : Value :=
  .arr ((filled node i).set i (f ((node.item? i).getD .null)))

/-- Change one child of a node. -/
def inChild (node : Value) : Segment → (Value → Value) → Value
  | .key k, f => inField node k f
  | .index i, f => inItem node i f

theorem getElem?_filled (node : Value) (i j : Nat) :
    (filled node i)[j]? = (node.item? j).or (if j ≤ i then some .null else none) := by
  have hitem : node.item? j = (node.asArray?.getD [])[j]? := by cases node <;> rfl
  rw [hitem, filled]
  generalize node.asArray?.getD [] = items
  rcases Nat.lt_or_ge j items.length with hlt | hge
  · rw [List.getElem?_append_left hlt, List.getElem?_eq_getElem hlt, Option.some_or]
  · rw [List.getElem?_append_right hge, List.getElem?_eq_none hge, Option.none_or, List.getElem?_replicate]
    exact if_congr (by omega) rfl rfl

theorem lt_length_filled (node : Value) (i : Nat) : i < (filled node i).length := by
  rw [filled, List.length_append, List.length_replicate]
  omega

theorem filled_arr {items : List Value} {i : Nat} (h : i < items.length) : filled (.arr items) i = items := by
  have hnone : i + 1 - items.length = 0 := Nat.sub_eq_zero_of_le h
  simp [filled, Value.asArray?, hnone]

theorem item?_inItem_self (node : Value) (i : Nat) (f : Value → Value) :
    (inItem node i f).item? i = some (f ((node.item? i).getD .null)) :=
  List.getElem?_set_self (lt_length_filled node i)

theorem item?_inItem_ne {i j : Nat} (h : i ≠ j) (node : Value) (f : Value → Value) :
    (inItem node i f).item? j = (node.item? j).or (if j ≤ i then some .null else none) :=
  (List.getElem?_set_ne h).trans (getElem?_filled node i j)

theorem inItem_inItem (node : Value) (i : Nat) (f g : Value → Value) :
    inItem (inItem node i f) i g = inItem node i (g ∘ f) := by
  have hlt := lt_length_filled node i
  have hfilled : filled (inItem node i f) i = (filled node i).set i (f ((node.item? i).getD .null)) :=
    filled_arr (by rwa [List.length_set])
  rw [inItem, hfilled, item?_inItem_self, List.set_set]
  rfl

theorem inItem_item? {i : Nat} (h : node.item? i = some c) (hf : f c = c) : inItem node i f = node := by
  cases node with
  | arr items =>
    obtain ⟨hlt, hget⟩ := List.getElem?_eq_some_iff.1 h
    rw [inItem, filled_arr hlt, h, Option.getD_some, hf, ← hget, List.set_getElem_self]
  | _ => cases h

theorem Ordered.inField_field? (ho : Ordered node) {k : String} (h : node.field? k = some c) (hf : f c = c) :
    inField node k f = node := by
  cases node with
  | obj fs =>
    rw [inField, h, Option.getD_some, hf]
    exact congrArg Value.obj (ho.fields.set_get? h)
  | _ => cases h

@[simp] theorem childAt_inChild_self (node : Value) (s : Segment) (f : Value → Value) :
    childAt (inChild node s f) s = some (f ((childAt node s).getD .null)) := by
  cases s with
  | key k => exact field?_inField_self node k f
  | index i => exact item?_inItem_self node i f

/-- Its neighbours are what they were, but for nulls before a position. -/
theorem childAt_inChild_beside (h : s.Beside t) (node : Value) (f : Value → Value) :
    childAt (inChild node s f) t = (childAt node t).or (if t.precedes s then some .null else none) := by
  match s, t, h with
  | .key k, .key k', h =>
    have hprecedes : (Segment.key k').precedes (.key k) = false := rfl
    rw [hprecedes, if_neg Bool.false_ne_true, Option.or_none]
    exact field?_inField_ne (Ne.symm h) node f
  | .index i, .index j, h =>
    have hle : j ≤ i ↔ (Segment.index j).precedes (.index i) = true := by
      rw [Segment.precedes, decide_eq_true_eq]
      exact ⟨fun hji => Nat.lt_of_le_of_ne hji (Ne.symm h), Nat.le_of_lt⟩
    exact (item?_inItem_ne h node f).trans (congrArg _ (if_congr hle rfl rfl))

theorem inChild_inChild (node : Value) (s : Segment) (f g : Value → Value) :
    inChild (inChild node s f) s g = inChild node s (g ∘ f) := by
  cases s with
  | key k => exact inField_inField node k f g
  | index i => exact inItem_inItem node i f g

/-- A child that is left as it is leaves the node as it is. -/
theorem Ordered.inChild_childAt (ho : Ordered node) (h : childAt node s = some c) (hf : f c = c) :
    inChild node s f = node := by
  cases s with
  | key k => exact ho.inField_field? h hf
  | index i => exact inItem_item? h hf

/-- Where fields are in order, one more in its place leaves them so. -/
theorem ordered_set {fs : Fields} {v : Value} (hkeys : fs.Ordered) (hbelow : ∀ p ∈ fs, Ordered p.2) (k : String)
    (hv : Ordered v) : Ordered (.obj (Fields.set k v fs)) := by
  refine .obj (hkeys.set k v) fun p hp => ?_
  rcases Fields.mem_set hp with rfl | hp
  · exact hv
  · exact hbelow p hp

theorem Ordered.items (h : Ordered node) : ∀ v ∈ node.asArray?.getD [], Ordered v := by
  cases h with
  | arr hbelow => exact hbelow
  | obj => exact fun v hv => absurd hv List.not_mem_nil
  | leaf _ harr =>
    rw [harr]
    exact fun v hv => absurd hv List.not_mem_nil

theorem Ordered.inChild (ho : Ordered node) (hf : Ordered (f ((childAt node s).getD .null))) :
    Ordered (inChild node s f) := by
  cases s with
  | key k =>
    cases node with
    | obj fs =>
      cases ho with
      | obj hkeys hbelow => exact ordered_set hkeys hbelow k hf
      | leaf hobj _ => cases hobj
    | _ => exact ordered_set .nil (fun _ hp => absurd hp List.not_mem_nil) k hf
  | index i =>
    refine .arr fun v hv => ?_
    rcases List.mem_or_eq_of_mem_set hv with hv | rfl
    · rcases List.mem_append.1 hv with hv | hv
      · exact ho.items v hv
      · exact List.eq_of_mem_replicate hv ▸ ordered_null
    · exact hf

/-- A write changes one child of what it finds, and is the rest of it below. -/
theorem writeSegments_cons (node v : Value) (s : Segment) (rest : List Segment) :
    writeSegments node (s :: rest) v =
      ⟨inChild node s fun child => (writeSegments child rest v).state,
        (writeSegments ((childAt node s).getD .null) rest v).materialized || (childAt node s).isNone⟩ := by
  cases s with
  | key k => cases node <;> rfl
  | index i =>
    have hchild : (filled node i)[i]?.getD .null = (node.item? i).getD .null := by
      rw [getElem?_filled, if_pos (Nat.le_refl i)]
      cases node.item? i <;> rfl
    have hwrite : writeSegments node (.index i :: rest) v =
        let below := writeSegments ((filled node i)[i]?.getD .null) rest v
        ⟨.arr ((filled node i).set i below.state), below.materialized || (node.item? i).isNone⟩ := by
      cases node <;> rfl
    rw [hwrite, hchild]
    rfl

/-! ## A whole way -/

theorem lookupAtSegments_writeSegments (node v : Value) (way : List Segment) :
    lookupAtSegments (writeSegments node way v).state way = some v := by
  induction way generalizing node with
  | nil => rfl
  | cons s rest ih =>
    rw [writeSegments_cons, lookupAtSegments, childAt_inChild_self]
    exact ih _

theorem writeSegments_writeSegments (node v w : Value) (way : List Segment) :
    (writeSegments (writeSegments node way v).state way w).state = (writeSegments node way w).state := by
  induction way generalizing node with
  | nil => rfl
  | cons s rest ih =>
    simp only [writeSegments_cons, inChild_inChild]
    exact congrArg (inChild node s) (funext fun child => ih child)

theorem Ordered.writeSegments_lookupAtSegments {way : List Segment} {v : Value} (ho : Ordered node)
    (h : lookupAtSegments node way = some v) : (writeSegments node way v).state = node := by
  induction way generalizing node with
  | nil => exact (Option.some.inj h).symm
  | cons s rest ih =>
    obtain ⟨child, hc, hbelow⟩ := Option.bind_eq_some_iff.1 h
    rw [writeSegments_cons]
    exact ho.inChild_childAt hc (ih (ho.child hc) hbelow)

theorem Ordered.writeSegments {v : Value} (ho : Ordered node) (hv : Ordered v) (way : List Segment) :
    Ordered (writeSegments node way v).state := by
  induction way generalizing node with
  | nil => exact hv
  | cons s rest ih =>
    rw [writeSegments_cons]
    exact ho.inChild (ih (ho.getD s))

/-- Structure is made exactly where nothing is found. -/
theorem materialized_writeSegments (node v : Value) (way : List Segment) :
    (writeSegments node way v).materialized = (lookupAtSegments node way).isNone := by
  induction way generalizing node with
  | nil => rfl
  | cons s rest ih =>
    rw [writeSegments_cons, lookupAtSegments, ih]
    cases childAt node s <;> simp

/-- Where the ways part, everything stays, but that a position before the one of the write
may be filled. The induction is on what the ways share; below a node that the write makes
there is nothing, before and after. -/
theorem lookupAtSegments_writeSegments_beside (shared rest below : List Segment) (h : s.Beside t) (node v : Value) :
    lookupAtSegments (writeSegments node (shared ++ s :: rest) v).state (shared ++ t :: below) =
      (lookupAtSegments node (shared ++ t :: below)).or
        (if t.precedes s ∧ below = [] then some .null else none) := by
  induction shared generalizing node with
  | nil =>
    rw [List.nil_append, List.nil_append, writeSegments_cons, lookupAtSegments, childAt_inChild_beside h,
      lookupAtSegments]
    cases childAt node t with
    | some child =>
      cases below with
      | nil => rfl
      | cons u below => simp
    | none =>
      cases below with
      | nil => cases t.precedes s <;> rfl
      | cons u below => cases t.precedes s <;> simp [lookupAtSegments_null]
  | cons u shared ih =>
    rw [List.cons_append, List.cons_append, writeSegments_cons, lookupAtSegments, childAt_inChild_self,
      lookupAtSegments, Option.bind_some, ih]
    cases childAt node u with
    | some child => rfl
    | none => simp [lookupAtSegments_null]

/-- A key where the write needs a position, or a position where it needs a key, finds nothing. -/
theorem lookupAtSegments_writeSegments_across (shared rest below : List Segment) (hne : s ≠ t) (hb : ¬ s.Beside t)
    (node v : Value) :
    lookupAtSegments (writeSegments node (shared ++ s :: rest) v).state (shared ++ t :: below) = none := by
  induction shared generalizing node with
  | nil =>
    rw [List.nil_append, List.nil_append, writeSegments_cons, lookupAtSegments]
    match s, t with
    | .key k, .key k' => exact absurd (fun (e : k = k') => hne (congrArg Segment.key e)) hb
    | .index i, .index j => exact absurd (fun (e : i = j) => hne (congrArg Segment.index e)) hb
    | .key k, .index j => rfl
    | .index i, .key k => rfl
  | cons u shared ih =>
    rw [List.cons_append, List.cons_append, writeSegments_cons, lookupAtSegments, childAt_inChild_self,
      Option.bind_some, ih]

/-- For every state, location and value: what was written is what is found there, and the
state is one again. Writing what is found changes nothing, a second write makes the first
one irrelevant, and structure was made on the way exactly where nothing was found. A place
whose way parts from that of the write at two keys, or at two positions, has what it had;
if it had nothing and its way ends at the smaller position, it is filled with a null. Where
one has a key and the other a position, nothing is found any more. -/
theorem writeAt_lawful {root : Value} (hr : Ordered root) (l : Location) (v : Value) :
    lookupAt (writeAt root l v).state l = some v ∧
    (Ordered v → Ordered (writeAt root l v).state) ∧
    (lookupAt root l = some v → (writeAt root l v).state = root) ∧
    (∀ w, (writeAt (writeAt root l v).state l w).state = (writeAt root l w).state) ∧
    ((writeAt root l v).materialized = true ↔ lookupAt root l = none) ∧
    ∀ (q : Location) (shared rest below : List Segment) (s t : Segment),
      l.segments = shared ++ s :: rest → q.segments = shared ++ t :: below →
        (s.Beside t → lookupAt (writeAt root l v).state q =
          (lookupAt root q).or (if t.precedes s ∧ below = [] then some .null else none)) ∧
        (s ≠ t → ¬ s.Beside t → lookupAt (writeAt root l v).state q = none) := by
  refine ⟨lookupAtSegments_writeSegments root v l.segments, fun hv => hr.writeSegments hv l.segments,
    hr.writeSegments_lookupAtSegments, fun w => writeSegments_writeSegments root v w l.segments, ?_,
    fun q shared rest below s t hl hq => ⟨fun hb => ?_, fun hne hb => ?_⟩⟩
  · rw [writeAt, materialized_writeSegments, Option.isNone_iff_eq_none]
    rfl
  · rw [writeAt, lookupAt, lookupAt, hl, hq]
    exact lookupAtSegments_writeSegments_beside shared rest below hb root v
  · rw [writeAt, lookupAt, hl, hq]
    exact lookupAtSegments_writeSegments_across shared rest below hne hb root v

end State

namespace Sheet

open State

/-- One row, and a title. -/
def sheet : Value := .obj [("rows", .arr [.int 1]), ("title", .str "sums")]

theorem sheet_ordered : Ordered sheet := by
  have hleaf : ∀ v ∈ [Value.int 1], Ordered v := fun v hv => by
    cases List.mem_singleton.1 hv
    exact .leaf rfl rfl
  refine .obj (Fields.ordered_of_keys (by decide)) fun p hp => ?_
  rcases List.mem_cons.1 hp with rfl | hp
  · exact .arr hleaf
  · cases List.mem_singleton.1 hp
    exact .leaf rfl rfl

def total : Location := ⟨[.key "rows", .index 2, .key "total"], by decide⟩

def row (i : Nat) : Location := ⟨[.key "rows", .index i], by simp⟩

/-- A total in the third row leaves the first as it is, makes the second null, and is
written over and read back. -/
theorem total_written :
    Ordered (writeAt sheet total (.int 7)).state ∧
    lookupAt (writeAt sheet total (.int 7)).state total = some (.int 7) ∧
    (writeAt sheet total (.int 7)).materialized = true ∧
    (writeAt (writeAt sheet total (.int 7)).state total (.int 8)).state = (writeAt sheet total (.int 8)).state ∧
    lookupAt (writeAt sheet total (.int 7)).state (row 0) = some (.int 1) ∧
    lookupAt (writeAt sheet total (.int 7)).state (row 1) = some .null ∧
    (writeAt sheet (row 0) (.int 1)).state = sheet := by
  obtain ⟨hfound, hordered, -, hagain, hmade, hframe⟩ := writeAt_lawful sheet_ordered total (.int 7)
  have hbeside (j : Nat) (hj : 2 ≠ j) :=
    (hframe (row j) [.key "rows"] [.key "total"] [] (.index 2) (.index j) rfl rfl).1 hj
  exact ⟨hordered (.leaf rfl rfl), hfound, hmade.2 rfl, hagain (.int 8), hbeside 0 (by decide), hbeside 1 (by decide),
    (writeAt_lawful sheet_ordered (row 0) (.int 1)).2.2.1 rfl⟩

end Sheet

end Settle
