/-
  Settle.Proofs.State — what a write at a path leaves readable (see `Settle.State`).

  A write at a path of keys makes an object of whatever stands on its way. Where that is
  an array, a read below the array is lost with it; anything else on the way had nothing
  readable below. So a write that meets no array (`fits`) changes no read that its path
  does not overlap (`read_write`), and what it wrote is what stands there
  (`lookup_write`). A read of keys alone sees nothing below an array, so what it sees is
  kept even where an array was lost (`read_write_plain`).

  A write at a location may go through items of an array as well. It makes nothing on its
  way when the items are there and objects stand around its keys (`fitsAt`), and then
  changes no read that it does not meet (`read_writeAt`). What keys alone read stays when
  the two ways part, unless the write makes an array of an object on the way of the read
  (`spares`).
-/

import Settle.Proofs.Path
import Settle.State

namespace Settle.State

/-- No array stands where a write at these keys needs an object. -/
def fits : Value → List String → Bool
  | _, [] => true
  | node, key :: rest =>
    node.asArray?.isNone && match node.field? key with
      | some child => fits child rest
      | none => true

/-- No array stands where a write at these segments needs an object, and the items it goes
through are there. -/
def fitsAt : Value → List Segment → Bool
  | _, [] => true
  | node, .key k :: rest => node.asArray?.isNone && fitsAt ((node.field? k).getD .null) rest
  | node, .index i :: rest =>
    match node.item? i with
    | some child => fitsAt child rest
    | none => false

/-- A write at these segments goes past the keys: the ways part at two keys, or at a position
where the next key finds nothing. -/
def spares : Value → List Segment → List String → Bool
  | node, .key k :: rest, s :: q => decide (k ≠ s) || spares ((node.field? k).getD .null) rest q
  | node, .index _ :: _, s :: _ => (node.field? s).isNone
  | _, _, _ => false

/-- Segments as reads spell them: any item is the wildcard. -/
def spelled (segments : List Segment) : List String :=
  segments.map fun
    | .key k => k
    | .index _ => wildcard

/-- The writes, made in order from a state on, each meet no array on their way. -/
def fitsAll : Value → List (Path × Value) → Bool
  | _, [] => true
  | state, (p, v) :: rest => fits state p.segments && fitsAll (write state p v).state rest

/-- The state after the writes. -/
def writeAll (state : Value) (ws : List (Path × Value)) : Value :=
  ws.foldl (fun s w => (write s w.1 w.2).state) state

theorem fitsAll_append {ws us : List (Path × Value)} {state : Value} :
    fitsAll state (ws ++ us) = true ↔ fitsAll state ws = true ∧ fitsAll (writeAll state ws) us = true := by
  induction ws generalizing state with
  | nil => simp [fitsAll, writeAll]
  | cons w ws ih => simp only [List.cons_append, fitsAll, Bool.and_eq_true, ih, writeAll, List.foldl_cons, and_assoc]

theorem writeAll_append (state : Value) (ws us : List (Path × Value)) :
    writeAll state (ws ++ us) = writeAll (writeAll state ws) us := List.foldl_append

/-! ## Single nodes -/

@[simp] theorem field?_null (k : String) : Value.null.field? k = none := rfl

@[simp] theorem asArray?_null : Value.null.asArray? = none := rfl

@[simp] theorem asArray?_obj (fs : Fields) : (Value.obj fs).asArray? = none := rfl

theorem fits_null (keys : List String) : fits .null keys = true := by
  cases keys <;> simp [fits]

theorem readSegments_null {q : List String} (h : q ≠ []) : readSegments .null q = none := by
  cases q with
  | nil => exact absurd rfl h
  | cons seg rest => by_cases hw : seg = wildcard <;> simp [readSegments, hw]

/-- What a write looks at below a node: its fields, if it is an object. -/
theorem field?_eq_get? (node : Value) (k : String) :
    node.field? k = Fields.get? k (match node with | .obj fs => fs | _ => []) := by
  cases node <;> rfl

/-! ## A write and what it leaves -/

/-- A key where a write went down: the rest of the write below it. -/
theorem field?_writeSegments_self (node v : Value) (k : String) (rest : List Segment) :
    (writeSegments node (.key k :: rest) v).state.field? k
      = some (writeSegments ((node.field? k).getD .null) rest v).state := by
  rw [field?_eq_get? node k]
  exact Fields.get?_set_self k _ _

/-- Any other key: what was there. -/
theorem field?_writeSegments_ne {k s : String} (h : s ≠ k) (node v : Value) (rest : List Segment) :
    (writeSegments node (.key k :: rest) v).state.field? s = node.field? s := by
  rw [field?_eq_get? node s]
  exact Fields.get?_set_ne h _ _

/-- What stands at the keys after a write there. -/
theorem lookupSegments_writeSegments (keys : List String) (hw : wildcard ∉ keys) (node v : Value) :
    lookupSegments (writeSegments node (keys.map .key) v).state keys = some v := by
  induction keys generalizing node with
  | nil => rfl
  | cons k rest ih =>
    have hk : k ≠ wildcard := fun e => hw (e ▸ List.mem_cons_self)
    rw [List.map_cons, lookupSegments, if_neg hk, field?_writeSegments_self]
    exact ih (fun h => hw (List.mem_cons_of_mem k h)) _

/-- An item where a write went down: the rest of the write below it, and the other items. -/
theorem writeSegments_index {node child : Value} {i : Nat} (hi : node.item? i = some child) (rest : List Segment)
    (v : Value) :
    ∃ items, node = .arr items ∧ items[i]? = some child ∧
      (writeSegments node (.index i :: rest) v).state = .arr (items.set i (writeSegments child rest v).state) := by
  cases node with
  | arr items =>
    have hlt : i < items.length := (List.getElem?_eq_some_iff.1 hi).1
    have hpad : items ++ List.replicate (i + 1 - items.length) Value.null = items := by
      rw [Nat.sub_eq_zero_of_le hlt, List.replicate_zero, List.append_nil]
    refine ⟨items, rfl, hi, ?_⟩
    simp only [writeSegments, hpad]
    rw [show items[i]? = some child from hi, Option.getD_some]
  | _ => cases hi

/-- A read of all items is the same if it is the same of the item that is replaced. -/
theorem readSegments_set_wildcard {items : List Value} {child x : Value} {i : Nat} {q : List String}
    (hi : items[i]? = some child) (hx : (readSegments x q).getD .null = (readSegments child q).getD .null) :
    readSegments (.arr (items.set i x)) (wildcard :: q) = readSegments (.arr items) (wildcard :: q) := by
  obtain ⟨hlt, rfl⟩ := List.getElem?_eq_some_iff.1 hi
  have hself := @List.set_getElem_self _ (items.map fun item => (readSegments item q).getD .null) i
    (by rwa [List.length_map])
  rw [List.getElem_map] at hself
  simp only [readSegments, if_true, Value.asArray?, Option.map_some, List.map_set, hx, hself]

/-- A read that the segments of a write do not meet sees what it saw before. -/
theorem readSegments_writeSegments_at (segs : List Segment) (node v : Value) (q : List String)
    (hf : fitsAt node segs) (hsq : ¬ spelled segs <+: q) (hqs : ¬ q <+: spelled segs) :
    readSegments (writeSegments node segs v).state q = readSegments node q := by
  induction segs generalizing node q with
  | nil => exact absurd List.nil_prefix hsq
  | cons seg rest ih =>
    cases q with
    | nil => exact absurd List.nil_prefix hqs
    | cons s q =>
      cases seg with
      | key k =>
        rw [readSegments, readSegments]
        obtain ⟨harr, hchild⟩ : node.asArray? = none ∧ fitsAt ((node.field? k).getD .null) rest = true := by
          simpa [fitsAt, Bool.and_eq_true] using hf
        by_cases hs : s = wildcard
        · rw [if_pos hs, if_pos hs, harr]
          rfl
        rw [if_neg hs, if_neg hs]
        by_cases hk : s = k
        · subst hk
          simp only [spelled, List.map_cons, List.cons_prefix_cons, true_and] at hsq hqs
          rw [field?_writeSegments_self]
          cases hc : node.field? s with
          | some c =>
            rw [hc] at hchild
            exact ih c q hchild hsq hqs
          | none =>
            -- nothing was there, and what was made has nothing off the path of the write
            rw [hc] at hchild
            have hq : q ≠ [] := fun e => hqs (e ▸ List.nil_prefix)
            exact (ih .null q hchild hsq hqs).trans (readSegments_null hq)
        · rw [field?_writeSegments_ne hk]
      | index i =>
        cases hi : node.item? i with
        | none => simp [fitsAt, hi] at hf
        | some child =>
          have hchild : fitsAt child rest = true := by simpa [fitsAt, hi] using hf
          obtain ⟨items, rfl, hitem, hstate⟩ := writeSegments_index hi rest v
          rw [hstate]
          by_cases hs : s = wildcard
          · subst hs
            simp only [spelled, List.map_cons, List.cons_prefix_cons, true_and] at hsq hqs
            exact readSegments_set_wildcard hitem (congrArg (·.getD .null) (ih child q hchild hsq hqs))
          · rw [readSegments, readSegments, if_neg hs, if_neg hs]
            rfl

theorem fitsAt_keys (keys : List String) (node : Value) : fitsAt node (keys.map .key) = fits node keys := by
  induction keys generalizing node with
  | nil => rfl
  | cons k rest ih =>
    rw [List.map_cons, fitsAt, fits, ih]
    cases node.field? k with
    | some c => rfl
    | none => rw [Option.getD_none, fits_null]

theorem spelled_keys (keys : List String) : spelled (keys.map .key) = keys := by
  simp [spelled, Function.comp_def]

/-- A read that the keys of a write do not overlap sees what it saw before. -/
theorem readSegments_writeSegments (keys : List String) (node v : Value) (q : List String)
    (hf : fits node keys) (hkq : ¬ keys <+: q) (hqk : ¬ q <+: keys) :
    readSegments (writeSegments node (keys.map .key) v).state q = readSegments node q := by
  refine readSegments_writeSegments_at (keys.map .key) node v q ?_ ?_ ?_
  · rwa [fitsAt_keys]
  · rwa [spelled_keys]
  · rwa [spelled_keys]

theorem lookupSegments_null {q : List String} (h : q ≠ []) : lookupSegments .null q = none := by
  cases q with
  | nil => exact absurd rfl h
  | cons seg rest => by_cases hw : seg = wildcard <;> simp [lookupSegments, hw]

/-- What stands at keys that a write goes past stays, arrays on the way or not. -/
theorem lookupSegments_writeSegments_spared (segs : List Segment) (node v : Value) (q : List String)
    (h : spares node segs q) : lookupSegments (writeSegments node segs v).state q = lookupSegments node q := by
  induction segs generalizing node q with
  | nil => simp [spares] at h
  | cons seg rest ih =>
    cases q with
    | nil => cases seg <;> simp [spares] at h
    | cons s q =>
      rw [lookupSegments, lookupSegments]
      by_cases hs : s = wildcard
      · rw [if_pos hs, if_pos hs]
      rw [if_neg hs, if_neg hs]
      cases seg with
      | key k =>
        by_cases hk : s = k
        · subst hk
          have hbelow : spares ((node.field? s).getD .null) rest q = true := by simpa [spares] using h
          rw [field?_writeSegments_self]
          cases hc : node.field? s with
          | some c =>
            rw [hc] at hbelow
            exact ih c q hbelow
          | none =>
            rw [hc] at hbelow
            have hq : q ≠ [] := fun e => by
              rw [e] at hbelow
              cases rest with
              | nil => cases hbelow
              | cons seg rest => cases seg <;> cases hbelow
            exact (ih .null q hbelow).trans (lookupSegments_null hq)
        · rw [field?_writeSegments_ne hk]
      | index i =>
        -- a position makes an array of the node, where the next key finds nothing
        have hnone : node.field? s = none := by simpa [spares] using h
        rw [hnone]
        rfl

theorem spares_keys (keys : List String) (node : Value) (q : List String) (hkq : ¬ keys <+: q) (hqk : ¬ q <+: keys) :
    spares node (keys.map .key) q = true := by
  induction keys generalizing node q with
  | nil => exact absurd List.nil_prefix hkq
  | cons k rest ih =>
    cases q with
    | nil => exact absurd List.nil_prefix hqk
    | cons s q =>
      rw [List.map_cons, spares, Bool.or_eq_true, decide_eq_true_eq]
      refine or_iff_not_imp_left.2 fun hk => ?_
      obtain rfl := Decidable.not_not.1 hk
      rw [List.prefix_cons_inj] at hkq hqk
      exact ih _ q hkq hqk

/-- Without a wildcard, reading and looking up are one. -/
theorem readSegments_eq_lookupSegments (q : List String) (hw : wildcard ∉ q) (node : Value) :
    readSegments node q = lookupSegments node q := by
  induction q generalizing node with
  | nil => rfl
  | cons s q ih =>
    have hs : s ≠ wildcard := fun e => hw (e ▸ List.mem_cons_self)
    rw [readSegments, lookupSegments, if_neg hs, if_neg hs]
    exact congrArg _ (funext fun c => ih (fun h => hw (List.mem_cons_of_mem s h)) c)

/-! ## At paths -/

theorem wildcard_notMem {p : Path} (h : p.hasWildcard = false) : wildcard ∉ p.segments := by
  simpa [Path.hasWildcard] using h

theorem write_eq {p : Path} (h : p.hasWildcard = false) (root v : Value) :
    (write root p v).state = (writeSegments root (p.segments.map .key) v).state := by
  simp only [write, Location.ofPath?, h, Bool.false_eq_true, if_false]
  rfl

theorem read_eq_lookup {p : Path} (h : p.hasWildcard = false) (root : Value) : read root p = lookup root p :=
  readSegments_eq_lookupSegments p.segments (wildcard_notMem h) root

@[simp] theorem lookup_write {p : Path} (h : p.hasWildcard = false) (root v : Value) :
    lookup (write root p v).state p = some v := by
  rw [write_eq h]
  exact lookupSegments_writeSegments p.segments (wildcard_notMem h) root v

/-- A write that fits leaves every read it does not overlap. -/
theorem read_write {p q : Path} (h : p.hasWildcard = false) {root : Value} (hf : fits root p.segments)
    (ho : ¬ q.overlaps p) (v : Value) : read (write root p v).state q = read root q := by
  rw [Path.overlaps_iff, not_or, Path.covers_iff, Path.covers_iff] at ho
  rw [write_eq h]
  exact readSegments_writeSegments p.segments root v q.segments hf ho.2 ho.1

/-- Where neither path goes through a list, the write need not fit. -/
theorem read_write_plain {p q : Path} (h : p.hasWildcard = false) (hq : q.hasWildcard = false) (ho : ¬ q.overlaps p)
    (root v : Value) : read (write root p v).state q = read root q := by
  rw [Path.overlaps_iff, not_or, Path.covers_iff, Path.covers_iff] at ho
  rw [read_eq_lookup hq, read_eq_lookup hq, write_eq h]
  exact lookupSegments_writeSegments_spared _ root v q.segments (spares_keys p.segments root q.segments ho.2 ho.1)

/-- Writes leave every read that they do not overlap, if they fit or the read goes through
no list. -/
theorem read_writeAll {q : Path} {ws : List (Path × Value)} (hw : ∀ w ∈ ws, w.1.hasWildcard = false)
    (ho : ∀ w ∈ ws, ¬ q.overlaps w.1) {root : Value} (hf : q.hasWildcard = true → fitsAll root ws = true) :
    read (writeAll root ws) q = read root q := by
  induction ws generalizing root with
  | nil => rfl
  | cons w ws ih =>
    obtain ⟨hw, hws⟩ := List.forall_mem_cons.1 hw
    obtain ⟨ho, hos⟩ := List.forall_mem_cons.1 ho
    have hone : read (write root w.1 w.2).state q = read root q := by
      cases hq : q.hasWildcard with
      | false => exact read_write_plain hw hq ho root w.2
      | true => exact read_write hw (Bool.and_eq_true_iff.1 (hf hq)).1 ho w.2
    rw [← hone]
    exact ih hws hos fun hq => (Bool.and_eq_true_iff.1 (hf hq)).2

/-! ## At locations -/

/-- A read and a write at the location go different ways. -/
def Misses (q : Path) (l : Location) : Prop := ¬ spelled l.segments <+: q.segments ∧ ¬ q.segments <+: spelled l.segments

/-- The writes, made in order from a state on, each make nothing on their way. -/
def fitsAtAll : Value → List (Location × Value) → Bool
  | _, [] => true
  | state, (l, v) :: rest => fitsAt state l.segments && fitsAtAll (writeAt state l v).state rest

/-- The writes, made in order from a state on, each go past the path. -/
def sparesAll (q : Path) : Value → List (Location × Value) → Bool
  | _, [] => true
  | state, (l, v) :: rest => spares state l.segments q.segments && sparesAll q (writeAt state l v).state rest

theorem read_writeAt {q : Path} {l : Location} {root : Value} (hf : fitsAt root l.segments) (hm : Misses q l)
    (v : Value) : read (writeAt root l v).state q = read root q :=
  readSegments_writeSegments_at l.segments root v q.segments hf hm.1 hm.2

theorem read_writeAtAll {q : Path} {ws : List (Location × Value)} {root : Value} (hf : fitsAtAll root ws)
    (hm : ∀ w ∈ ws, Misses q w.1) : read (ws.foldl (fun s w => (writeAt s w.1 w.2).state) root) q = read root q := by
  induction ws generalizing root with
  | nil => rfl
  | cons w ws ih =>
    obtain ⟨hf, hfs⟩ := Bool.and_eq_true_iff.1 hf
    obtain ⟨hm, hms⟩ := List.forall_mem_cons.1 hm
    rw [List.foldl_cons, ih hfs hms, read_writeAt hf hm]

/-- What stands at a path that writes go past stays. -/
theorem read_writeAtAll_spared {q : Path} (hq : q.hasWildcard = false) {ws : List (Location × Value)} {root : Value}
    (h : sparesAll q root ws) : read (ws.foldl (fun s w => (writeAt s w.1 w.2).state) root) q = read root q := by
  induction ws generalizing root with
  | nil => rfl
  | cons w ws ih =>
    obtain ⟨hw, hws⟩ := Bool.and_eq_true_iff.1 h
    rw [List.foldl_cons, ih hws, read_eq_lookup hq, read_eq_lookup hq]
    exact lookupSegments_writeSegments_spared w.1.segments root w.2 q.segments hw

end Settle.State
