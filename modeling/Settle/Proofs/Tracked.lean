/-
  Settle.Proofs.Tracked — what a transaction's dirty set says of its draft (see
  `Settle.Transaction`).

  A tracked write records the path of its place as a dirty root.
  - `Transaction.reads_tracked`: a read of the draft that changes is touched by the dirty
    set, or lies below a container that a write gave another shape. After one write the
    set touches all of them exactly when it gave none another shape.
  - `Cart.reads_untracked`: an item added, an object that becomes an array and an array
    that becomes an object, each with a read that changes and is not touched.
-/

import Settle.Proofs.Dirty
import Settle.Proofs.Graph
import Settle.Proofs.LocationText
import Settle.Transaction

namespace Settle

/-! ## Places -/

namespace Location

/-- Keys are read from text that is not empty. -/
theorem parse_keys {input : String} {l : Location} (h : parse input = .ok l) : Segment.key "" ∉ l.segments :=
  fun hm => ((readable_of_parse h).legible hm).nonempty rfl

/-- The path that a write records, if there is one. -/
theorem normalized_eq {l : Location} (hk : Segment.key "" ∉ l.segments) :
    l.normalized = Path.made (State.touched l.segments) := by
  have hnone : ∀ s ∈ State.spelled l.segments, s ≠ "" := by
    rintro s hs rfl
    obtain ⟨seg, hseg, he⟩ := List.mem_map.1 hs
    cases seg with
    | key k =>
      obtain rfl : k = "" := he
      exact hk hseg
    | index i => exact absurd (show wildcard = "" from he) (by decide)
  show Path.made (Path.kept (State.spelled l.segments)) = _
  rw [Path.kept, List.filter_eq_self.2 fun s hs => decide_eq_true (hnone s hs), State.touched]

theorem segments_of_normalized {l : Location} {p : Path} (hk : Segment.key "" ∉ l.segments) (h : l.normalized = .ok p) :
    p.segments = State.touched l.segments :=
  (Path.made_eq_ok.1 ((normalized_eq hk).symm.trans h)).1.symm

end Location

/-! ## Transactions -/

namespace Transaction

variable {t : Transaction} {k : Key} {base : Value}

theorem place_eq_ok {path : String} {l : Location} {p : Path} (h : t.place path = .ok (l, p)) :
    Location.parse path = .ok l ∧ l.normalized = .ok p := by
  unfold place at h
  split at h
  · cases h
  · rename_i hl
    split at h
    · cases h
    · rename_i hp
      cases h
      exact ⟨hl, hp⟩

/-- What a write does to a transaction, if it records anything. -/
theorem set_cases {t' : Transaction} {path : String} {v : Value} (h : t.set path v = .ok t') :
    t' = t ∨ ∃ l p, t.place path = .ok (l, p) ∧ t'.key = t.key ∧ t'.draft = (State.writeAt t.draft l v).state ∧
      t'.writes = t.writes ++ [(l, v)] ∧ t'.dirty = t.dirty.insert p ∧ t'.replaced = t.replaced := by
  obtain ⟨⟨l, p⟩, hplace, h⟩ := Except.bind_eq_ok.1 h
  dsimp only at h
  split at h
  · cases h
    exact .inl rfl
  · cases h
    exact .inr ⟨l, p, hplace, rfl, rfl, rfl, rfl, rfl⟩

/-- Transactions on a draft, after any tracked writes. -/
inductive Tracked (k : Key) (base : Value) : Transaction → Prop
  | start : Tracked k base (.start k base)
  | set {t t' : Transaction} (path : String) (v : Value) : Tracked k base t → t.set path v = .ok t' → Tracked k base t'

namespace Tracked

/-- The draft is what the writes make of the state it was copied from. -/
theorem draft (h : t.Tracked k base) : t.draft = t.writes.foldl (fun s w => (State.writeAt s w.1 w.2).state) base := by
  induction h with
  | start => rfl
  | set path v _ hset ih =>
    rcases set_cases hset with rfl | ⟨l, p, -, -, hdraft, hwrites, -⟩
    · exact ih
    · rw [hdraft, hwrites, List.foldl_append, ← ih]
      rfl

/-- The dirty set touches what its writes record. -/
theorem touches (h : t.Tracked k base) (q : Path) : t.dirty.touches q = true ↔ ∃ w ∈ t.writes, State.Records w.1 q := by
  induction h with
  | start => exact ⟨nofun, nofun⟩
  | set path v _ hset ih =>
    rcases set_cases hset with rfl | ⟨l, p, hplace, -, -, hwrites, hdirty, -⟩
    · exact ih
    · obtain ⟨hl, hp⟩ := place_eq_ok hplace
      have hover : p.overlaps q = true ↔ State.Records l q := by
        rw [Path.overlaps_iff, Path.covers_iff, Path.covers_iff,
          Location.segments_of_normalized (Location.parse_keys hl) hp]
        rfl
      rw [hdirty, hwrites, DirtySet.touches_insert, ih, hover]
      simp only [List.mem_append, List.mem_singleton, or_and_right, exists_or, exists_eq_left]

end Tracked

/-- A read that tracked writes change is touched by the dirty set, or lies below a container
that a write gave another shape. After one write the dirty set touches all such reads exactly
when it gave none another shape. -/
theorem reads_tracked (h : t.Tracked k base) :
    (∀ q : Path, q.Normal → State.read base q ≠ State.read t.draft q →
      t.dirty.touches q = true ∨ ∃ place ∈ State.reshapedAll base t.writes, place <+: q.segments) ∧
    (t.writes.length ≤ 1 →
      ((∀ q : Path, q.Normal → State.read base q ≠ State.read t.draft q → t.dirty.touches q = true) ↔
        State.reshapedAll base t.writes = [])) := by
  have hall : ∀ q : Path, q.Normal → State.read base q ≠ State.read t.draft q →
      t.dirty.touches q = true ∨ ∃ place ∈ State.reshapedAll base t.writes, place <+: q.segments := by
    intro q hq hne
    refine Classical.byContradiction fun hn => hne ?_
    rw [not_or, h.touches] at hn
    rw [h.draft]
    exact (State.read_writes hq (fun w hw hr => hn.1 ⟨w, hw, hr⟩) fun place hp hpq => hn.2 ⟨place, hp, hpq⟩).symm
  refine ⟨hall, fun hone => ⟨fun hsound => ?_, fun hnone q hq hne => ?_⟩⟩
  · match hw : t.writes, hone with
    | [], _ => rfl
    | [(l, v)], _ =>
      have hdraft := h.draft
      rw [hw] at hdraft
      have hl := (State.read_write_iff base v l).1 fun q hq hne => by
        have hto := (h.touches q).1 (hsound q hq (by rw [hdraft]; exact hne))
        rw [hw] at hto
        obtain ⟨w, hmem, hr⟩ := hto
        obtain rfl := List.mem_singleton.1 hmem
        exact hr
      rw [State.reshapedAll, hl]
      rfl
  · refine (hall q hq hne).resolve_right fun hbelow => ?_
    obtain ⟨place, hp, -⟩ := hbelow
    rw [hnone] at hp
    cases hp

end Transaction

/-! ## A cart -/

namespace Cart

def key : Key := ⟨"cart", "1"⟩

/-- A cart of one item. -/
def one : Value := .obj [("items", .arr [.obj [("price", .int 3), ("tax", .int 1)]]), ("note", .obj [("text", .int 5)])]

def prices : Path := ⟨["items", wildcard, "price"], by decide⟩

def taxes : Path := ⟨["items", wildcard, "tax"], by decide⟩

def note : Path := ⟨["note", "text"], by decide⟩

/-- What a write on the cart leaves to read at a path, and whether it touches the path. -/
def after (path : String) (v : Value) (q : Path) : Except Error (Option Value × Bool) :=
  ((Transaction.start key one).set path v).map fun t => (State.read t.draft q, t.dirty.touches q)

/-- A price that is set where it is changes the prices, and touches them. -/
theorem price_tracked : ∃ t, (Transaction.start key one).set "items[0].price" (.int 4) = .ok t ∧
    State.reshapedAll one t.writes = [] ∧ State.read one prices ≠ State.read t.draft prices ∧
      t.dirty.touches prices = true := by
  have hset : (Transaction.start key one).set "items[0].price" (.int 4) = .ok ⟨key,
      .obj [("items", .arr [.obj [("price", .int 4), ("tax", .int 1)]]), ("note", .obj [("text", .int 5)])],
      [(⟨[.key "items", .index 0, .key "price"], by decide⟩, .int 4)], .roots [prices],
      [⟨"items[0].price", .reducer, some (.int 3), some (.int 4), none⟩], false, false⟩ := rfl
  have hshape : State.reshapedAll one [(⟨[.key "items", .index 0, .key "price"], by decide⟩, .int 4)] = [] := rfl
  have hne : State.read one prices ≠ State.read (.obj [("items", .arr [.obj [("price", .int 4), ("tax", .int 1)]]),
      ("note", .obj [("text", .int 5)])]) prices := by
    have hbefore : State.read one prices = some (.arr [.int 3]) := rfl
    have hafter : State.read (.obj [("items", .arr [.obj [("price", .int 4), ("tax", .int 1)]]),
      ("note", .obj [("text", .int 5)])]) prices = some (.arr [.int 4]) := rfl
    rw [hbefore, hafter]
    exact nofun
  have htracked := Transaction.reads_tracked (.set "items[0].price" (.int 4) .start hset)
  exact ⟨_, hset, hshape, hne, (htracked.2 (Nat.le_refl 1)).2 hshape prices rfl hne⟩

/-- A price that is set past the last item adds a tax. A position in a note takes its text
away, and a key among the items takes their prices away. None of the three is touched. -/
theorem reads_untracked :
    (State.read one taxes = some (.arr [.int 1]) ∧
      after "items[1].price" (.int 4) taxes = .ok (some (.arr [.int 1, .null]), false)) ∧
    (State.read one note = some (.int 5) ∧ after "note[0]" (.int 4) note = .ok (none, false)) ∧
    (State.read one prices = some (.arr [.int 3]) ∧ after "items.count" (.int 4) prices = .ok (none, false)) :=
  ⟨⟨rfl, rfl⟩, ⟨rfl, rfl⟩, rfl, rfl⟩

end Cart

end Settle
