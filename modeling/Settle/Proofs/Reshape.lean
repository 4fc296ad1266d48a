/-
  Settle.Proofs.Reshape — which reads a write at a location changes (see `Settle.State`).

  A write records its segments as paths spell them, positions as wildcards (`touched`).
  That covers what it puts there and everything above. It does not cover what the write
  does to a container on its way: a key makes an object of an array, a position makes an
  array of an object, and a position past the end adds items. Every read through the
  container sees that (`reshaped`).
  - A read that no recorded segments overlap changes only below such a container
    (`seen_writeSegments`, and `read_writes` for several writes).
  - Where a write has one, some such read does change (`exists_missed`), so one write
    records every read that it changes exactly when it has none (`read_write_iff`).

  Below an item of a list, what is not there reads as null, and two reads there count as
  one when they are the same after that (`seen`).
-/

import Settle.Proofs.State

namespace Settle

/-! ## Names -/

/-- A key that paths can name; numbers and the wildcard stand for items there. -/
def Path.legible (k : String) : Bool := k ≠ wildcard && !isDigits k.toList

/-- A segment as paths spell it. -/
def Path.spell (k : String) : String := if isDigits k.toList then wildcard else k

/-- A path that is as reading and building paths leave it. -/
def Path.Normal (q : Path) : Prop := ofSegments q.segments = .ok q

theorem Fields.mem_keys_iff {k : String} {fs : Fields} : k ∈ keys fs ↔ (get? k fs).isSome := by
  induction fs with
  | nil => simp [keys, get?]
  | cons p rest ih =>
    obtain ⟨k', v⟩ := p
    rw [keys, List.map_cons, List.mem_cons, get?]
    split
    · rename_i h
      exact ⟨fun _ => rfl, fun _ => .inl h.symm⟩
    · rename_i h
      exact ⟨fun hm => ih.1 (hm.resolve_left (Ne.symm h)), fun hs => .inr (ih.2 hs)⟩

namespace Path

theorem spell_of_legible {k : String} (h : legible k = true) : spell k = k := by
  simp only [legible, Bool.and_eq_true, Bool.not_eq_true'] at h
  rw [spell, h.2, if_neg Bool.false_ne_true]

theorem spell_of_not_legible {k : String} (h : legible k = false) : spell k = wildcard := by
  unfold spell
  split
  · rfl
  · rename_i hd
    simpa [legible, hd] using h

theorem ne_wildcard_of_legible {k : String} (h : legible k = true) : k ≠ wildcard := by
  rintro rfl
  cases h

theorem isDigits_wildcard : isDigits wildcard.toList = false := by decide

/-- A segment is spelled as it is, or as the wildcard. -/
theorem spell_cases (k : String) : spell k = wildcard ∨ legible (spell k) = true := by
  cases hk : legible k with
  | true => exact .inr ((spell_of_legible hk).symm ▸ hk)
  | false => exact .inl (spell_of_not_legible hk)

theorem ofSegments_eq_ok {l : List String} {q : Path} :
    ofSegments l = .ok q ↔ q.segments = (l.filter (· ≠ "")).map spell ∧ q.segments ≠ [wildcard] := by
  unfold ofSegments
  dsimp only
  split
  · rename_i hnil
    exact iff_of_false (by simp) fun h => q.nonempty (h.1.trans hnil)
  split
  · rename_i hw
    exact iff_of_false (by simp) fun h => h.2 (h.1.trans hw)
  · rename_i hw
    refine ⟨fun he => ?_, fun h => congrArg Except.ok (ext_segments h.1.symm)⟩
    cases he
    exact ⟨rfl, hw⟩

theorem normal_iff {q : Path} :
    q.Normal ↔ (∀ s ∈ q.segments, s = wildcard ∨ legible s = true) ∧ q.segments ≠ [wildcard] := by
  rw [Normal, ofSegments_eq_ok]
  refine and_congr_left fun _ => ⟨fun he s hs => ?_, fun h => ?_⟩
  · rw [he] at hs
    obtain ⟨k, -, rfl⟩ := List.mem_map.1 hs
    exact spell_cases k
  · have hfix : ∀ s ∈ q.segments, s ≠ "" ∧ spell s = s := by
      intro s hs
      rcases h s hs with rfl | hl
      · decide
      · refine ⟨?_, spell_of_legible hl⟩
        rintro rfl
        cases hl
    rw [List.filter_eq_self.2 fun s hs => decide_eq_true (hfix s hs).1]
    exact ((List.map_congr_left fun s hs => (hfix s hs).2).trans (List.map_id _)).symm

/-- Every path that is built from segments is normal. -/
theorem normal_of_ofSegments {l : List String} {q : Path} (h : ofSegments l = .ok q) : q.Normal := by
  obtain ⟨he, hn⟩ := ofSegments_eq_ok.1 h
  refine normal_iff.2 ⟨fun s hs => ?_, hn⟩
  rw [he] at hs
  obtain ⟨k, -, rfl⟩ := List.mem_map.1 hs
  exact spell_cases k

end Path

namespace State

/-- The segments that a write at a place records. -/
def touched (segs : List Segment) : List String := (spelled segs).map Path.spell

/-- What is left of a read below an item of a list: nothing there reads as null. -/
def seen (listed : Bool) (r : Option Value) : Option Value := if listed then some (r.getD .null) else r

/-- Whether a field of an object can be told from no field. -/
def shows (listed : Bool) : Value → Bool
  | .obj fs => (Fields.keys fs).any fun k => Path.legible k && !(listed && ((Fields.get? k fs).getD .null).isNull)
  | _ => false

/-- The first container that a write gives another shape than reads around its place can
miss, by the segments on the way there. The write is below an item of a list or not. -/
def reshaped (listed : Bool) : Value → List Segment → Option (List String)
  | _, [] => none
  | node, .key k :: rest =>
    if node.asArray?.isSome then
      -- the items go
      if Path.legible k || !rest.isEmpty then some [] else none
    else if Path.legible k then (reshaped listed ((node.field? k).getD .null) rest).map (k :: ·)
    else none
  | node, .index i :: rest =>
    match node.item? i with
    | some child => (reshaped true child rest).map (wildcard :: ·)
    -- items come, and fields go
    | none => if !rest.isEmpty || shows listed node then some [] else none

variable {listed : Bool} {node v : Value} {segs rest : List Segment} {q : List String} {i : Nat}

theorem shows_iff {fs : Fields} : shows listed (.obj fs) = true ↔
    ∃ k x, Path.legible k = true ∧ Fields.get? k fs = some x ∧ (listed = true → x.isNull = false) := by
  simp only [shows, List.any_eq_true, Fields.mem_keys_iff, Option.isSome_iff_exists, Bool.and_eq_true,
    Bool.not_eq_true', Bool.and_eq_false_iff]
  constructor
  · intro ⟨k, ⟨x, hx⟩, hk, hn⟩
    rw [hx, Option.getD_some] at hn
    refine ⟨k, x, hk, hx, fun hl => hn.resolve_left fun h => ?_⟩
    rw [hl] at h
    cases h
  · intro ⟨k, x, hk, hx, hn⟩
    refine ⟨k, ⟨x, hx⟩, hk, ?_⟩
    rw [hx, Option.getD_some]
    cases listed with
    | false => exact .inl rfl
    | true => exact .inr (hn rfl)

/-- A node that shows no field reads as one without fields. -/
theorem seen_of_not_shows (hn : shows listed node = false) {s : String} (hs : Path.legible s = true) (q : List String) :
    seen listed ((node.field? s).bind fun child => readSegments child q) = seen listed none := by
  cases hf : node.field? s with
  | none => rfl
  | some x =>
    cases node with
    | obj fs =>
      have hnull : listed = true ∧ x.isNull = true := by
        refine Classical.byContradiction fun hc => Bool.eq_false_iff.1 hn (shows_iff.2 ⟨s, x, hs, hf, fun hl => ?_⟩)
        exact Bool.eq_false_iff.2 fun hx => hc ⟨hl, hx⟩
      obtain ⟨rfl, hx⟩ := hnull
      cases x with
      | null => cases q with
        | nil => rfl
        | cons t q => rw [Option.bind_some, readSegments_null (List.cons_ne_nil t q)]
      | _ => cases hx
    | _ => cases hf

/-! ## What roots cover -/

@[simp] theorem touched_key (k : String) (rest : List Segment) : touched (.key k :: rest) = Path.spell k :: touched rest :=
  rfl

@[simp] theorem touched_index (i : Nat) (rest : List Segment) : touched (.index i :: rest) = wildcard :: touched rest := by
  rw [touched, spelled, List.map_cons, List.map_cons, Path.spell, Path.isDigits_wildcard, if_neg Bool.false_ne_true]
  rfl

/-- A write makes an object of a node that it goes through by a key. -/
theorem readSegments_key_wildcard (node v : Value) (k : String) (rest : List Segment) (q : List String) :
    readSegments (writeSegments node (.key k :: rest) v).state (wildcard :: q) = none := by
  rw [readSegments, if_pos rfl]
  rfl

theorem readSegments_key {s : String} (hs : s ≠ wildcard) (node : Value) (q : List String) :
    readSegments node (s :: q) = (node.field? s).bind fun child => readSegments child q := by
  rw [readSegments, if_neg hs]

/-- Reading past a field that is not there is reading past nothing. -/
theorem bind_field? {q : List String} (hq : q ≠ []) (node : Value) (k : String) :
    (node.field? k).bind (fun child => readSegments child q) = readSegments ((node.field? k).getD .null) q := by
  cases node.field? k with
  | some child => rfl
  | none => rw [Option.getD_none, readSegments_null hq, Option.bind_none]

theorem seen_eq (listed : Bool) {a b : Option Value} (h : a = b) : seen listed a = seen listed b := h ▸ rfl

/-- Below a field, a read goes on past the rest of the write. -/
theorem readSegments_key_self {k : String} (hk : k ≠ wildcard) (node v : Value) (rest : List Segment) (q : List String) :
    readSegments (writeSegments node (.key k :: rest) v).state (k :: q)
      = readSegments (writeSegments ((node.field? k).getD .null) rest v).state q := by
  rw [readSegments_key hk, field?_writeSegments_self, Option.bind_some]

/-- A read of all items past a key, which is not one of all items that there were. -/
theorem seen_key_wildcard {listed : Bool} {node : Value} {k : String} {rest : List Segment} {q : List String} (v : Value)
    (hhere : reshaped listed node (.key k :: rest) ≠ some []) (hsq : ¬ touched (.key k :: rest) <+: wildcard :: q) :
    seen listed (readSegments (writeSegments node (.key k :: rest) v).state (wildcard :: q))
      = seen listed (readSegments node (wildcard :: q)) := by
  refine seen_eq listed ((readSegments_key_wildcard node v k rest q).trans ?_)
  rw [readSegments, if_pos rfl]
  cases hitems : node.asArray? with
  | none => rfl
  | some items =>
    -- the key would have taken the items away
    have hno : (Path.legible k || !rest.isEmpty) = false :=
      Bool.eq_false_iff.2 fun h => hhere (by simp [reshaped, hitems, h])
    obtain ⟨hk, hrest⟩ := Bool.or_eq_false_iff.1 hno
    obtain rfl : rest = [] := by simpa using hrest
    rw [touched_key, Path.spell_of_not_legible hk] at hsq
    exact absurd (List.cons_prefix_cons.2 ⟨rfl, List.nil_prefix⟩) hsq

/-- A read of all items is the same if it is the same of the item that is written. -/
theorem seen_index_wildcard {node child : Value} {i : Nat} {rest : List Segment} {v : Value} {q : List String}
    (listed : Bool) (hi : node.item? i = some child)
    (hsame : seen true (readSegments (writeSegments child rest v).state q) = seen true (readSegments child q)) :
    seen listed (readSegments (writeSegments node (.index i :: rest) v).state (wildcard :: q))
      = seen listed (readSegments node (wildcard :: q)) := by
  obtain ⟨items, rfl, hitem, hstate⟩ := writeSegments_index hi rest v
  rw [hstate]
  exact seen_eq listed (readSegments_set_wildcard hitem (Option.some.inj hsame))

/-- A read past a node that a write makes a list of, which showed no field before. -/
theorem seen_index_made {node : Value} {i : Nat} {rest : List Segment} {s : String} {q : List String} (v : Value)
    (hi : node.item? i = none) (hhere : reshaped listed node (.index i :: rest) ≠ some [])
    (hsq : ¬ touched (.index i :: rest) <+: s :: q) (hs : s = wildcard ∨ Path.legible s = true) :
    seen listed (readSegments (writeSegments node (.index i :: rest) v).state (s :: q))
      = seen listed (readSegments node (s :: q)) := by
  have hno : (!rest.isEmpty || shows listed node) = false :=
    Bool.eq_false_iff.2 fun h => hhere (by simp only [reshaped, hi, h, if_true])
  obtain ⟨hrest, hshows⟩ := Bool.or_eq_false_iff.1 hno
  obtain rfl : rest = [] := by simpa using hrest
  have hne : s ≠ wildcard := by
    rintro rfl
    refine hsq ?_
    rw [touched_index]
    exact List.cons_prefix_cons.2 ⟨rfl, List.nil_prefix⟩
  rw [readSegments_key hne, readSegments_key hne, seen_of_not_shows hshows (hs.resolve_left hne)]
  rfl

/-- A read that no recorded segments overlap changes only below a container that the write
gives another shape. -/
theorem seen_writeSegments (segs : List Segment) (listed : Bool) (node v : Value) (q : List String)
    (hq : ∀ s ∈ q, s = wildcard ∨ Path.legible s = true) (hsq : ¬ touched segs <+: q) (hqs : ¬ q <+: touched segs)
    (hplace : ∀ place, reshaped listed node segs = some place → ¬ place <+: q) :
    seen listed (readSegments (writeSegments node segs v).state q) = seen listed (readSegments node q) := by
  induction segs generalizing node q listed with
  | nil => exact absurd List.nil_prefix hsq
  | cons seg rest ih =>
    cases q with
    | nil => exact absurd List.nil_prefix hqs
    | cons s q =>
      have hq' : ∀ s ∈ q, s = wildcard ∨ Path.legible s = true := fun s hs => hq s (List.mem_cons_of_mem _ hs)
      have hhere : reshaped listed node (seg :: rest) ≠ some [] := fun h => hplace [] h List.nil_prefix
      cases seg with
      | key k =>
        by_cases hs : s = wildcard
        · subst hs
          exact seen_key_wildcard v hhere hsq
        have hlegible := (hq s List.mem_cons_self).resolve_left hs
        by_cases hk : s = k
        · subst hk
          have hqne : q ≠ [] := by
            rintro rfl
            refine hqs ?_
            rw [touched_key, Path.spell_of_legible hlegible]
            exact List.cons_prefix_cons.2 ⟨rfl, List.nil_prefix⟩
          have harr : node.asArray?.isSome = false :=
            Bool.eq_false_iff.2 fun h => hhere (by simp [reshaped, h, hlegible])
          rw [touched_key, Path.spell_of_legible hlegible, List.prefix_cons_inj] at hsq hqs
          rw [readSegments_key_self hs, readSegments_key hs, bind_field? hqne]
          refine ih listed _ q hq' hsq hqs fun place hp hpq => ?_
          refine hplace (s :: place) ?_ (List.cons_prefix_cons.2 ⟨rfl, hpq⟩)
          simp [reshaped, harr, hlegible, hp]
        · rw [readSegments_key hs, readSegments_key hs, field?_writeSegments_ne hk]
      | index i =>
        cases hi : node.item? i with
        | some child =>
          by_cases hs : s = wildcard
          · subst hs
            rw [touched_index, List.prefix_cons_inj] at hsq hqs
            refine seen_index_wildcard listed hi (ih true child q hq' hsq hqs fun place hp hpq => ?_)
            refine hplace (wildcard :: place) ?_ (List.cons_prefix_cons.2 ⟨rfl, hpq⟩)
            simp [reshaped, hi, hp]
          · obtain ⟨items, rfl, hitem, hstate⟩ := writeSegments_index hi rest v
            rw [hstate, readSegments_key hs, readSegments_key hs]
            rfl
        | none => exact seen_index_made v hi hhere hsq (hq s List.mem_cons_self)

/-! ## What they miss -/

/-- A path that a write at these segments does not record, and whose read it changes. -/
structure Missed (listed : Bool) (node v : Value) (segs : List Segment) (q : List String) : Prop where
  normal : ∀ s ∈ q, s = wildcard ∨ Path.legible s = true
  named : q ≠ [wildcard]
  below : ¬ touched segs <+: q
  above : ¬ q <+: touched segs
  changed : seen listed (readSegments (writeSegments node segs v).state q) ≠ seen listed (readSegments node q)

theorem Missed.ne_nil (h : Missed listed node v segs q) : q ≠ [] := fun e => h.above (e ▸ List.nil_prefix)

/-- Some key other than this one. -/
theorem exists_other (t : String) : ∃ y, Path.legible y = true ∧ y ≠ t := by
  by_cases ht : t = "a"
  · exact ⟨"b", by decide, fun e => absurd (e.trans ht) (by decide)⟩
  · exact ⟨"a", by decide, Ne.symm ht⟩

/-- Two ways part at their second segments. -/
theorem parted {s t y : String} (hy : y ≠ t) (l : List String) :
    ¬ s :: t :: l <+: [s, y] ∧ ¬ [s, y] <+: s :: t :: l := by
  simp only [List.prefix_cons_inj, List.cons_prefix_cons, hy, Ne.symm hy, false_and, not_false_eq_true, and_self]

/-- A list that comes, goes or gets longer is seen below its items. -/
theorem missed_items {seg : Segment} (hseg : touched (seg :: rest) = wildcard :: touched rest) (hrest : rest ≠ [])
    (hchanged : ∀ y, seen listed (readSegments (writeSegments node (seg :: rest) v).state [wildcard, y])
      ≠ seen listed (readSegments node [wildcard, y])) :
    ∃ q, Missed listed node v (seg :: rest) q := by
  obtain ⟨next, rest, rfl⟩ := List.exists_cons_of_ne_nil hrest
  obtain ⟨t, l, ht⟩ : ∃ t l, touched (next :: rest) = t :: l := by
    cases next with
    | key k => exact ⟨_, _, touched_key k rest⟩
    | index i => exact ⟨_, _, touched_index i rest⟩
  obtain ⟨y, hlegible, hy⟩ := exists_other t
  obtain ⟨hbelow, habove⟩ := parted (s := wildcard) hy l
  rw [← ht, ← hseg] at hbelow habove
  refine ⟨[wildcard, y], ?_, nofun, hbelow, habove, hchanged y⟩
  intro s hs
  rcases List.mem_cons.1 hs with rfl | hs
  · exact .inl rfl
  · exact .inr (List.mem_singleton.1 hs ▸ hlegible)

/-- An array is not seen as nothing is. -/
theorem seen_arr_ne_none (listed : Bool) (items : List Value) : seen listed (some (.arr items)) ≠ seen listed none := by
  cases listed <;> exact nofun

theorem seen_arr_inj {items items' : List Value} (h : seen listed (some (.arr items)) = seen listed (some (.arr items'))) :
    items = items' := by
  cases listed <;> (cases h; rfl)

/-- Where a position makes an array, or a longer one, reads through its items see it. -/
theorem items_come (hi : node.item? i = none) (y : String) :
    seen listed (readSegments (writeSegments node (.index i :: rest) v).state [wildcard, y])
      ≠ seen listed (readSegments node [wildcard, y]) := by
  intro he
  cases node with
  | arr items =>
    have hle : items.length ≤ i := List.getElem?_eq_none_iff.1 hi
    have hlength := congrArg List.length (seen_arr_inj he)
    simp only [List.length_map, List.length_set, List.length_append, List.length_replicate] at hlength
    omega
  | _ => exact seen_arr_ne_none listed _ he

/-- A key takes the items of an array away, and reads through them see it. -/
theorem missed_of_array {k : String} {items : List Value} (hitems : node.asArray? = some items)
    (h : Path.legible k = true ∨ rest ≠ []) : ∃ q, Missed listed node v (.key k :: rest) q := by
  have hgone : ∀ q, seen listed (readSegments (writeSegments node (.key k :: rest) v).state (wildcard :: q))
      ≠ seen listed (readSegments node (wildcard :: q)) := fun q he => by
    rw [readSegments_key_wildcard, readSegments, if_pos rfl, hitems] at he
    exact seen_arr_ne_none listed _ he.symm
  cases hk : Path.legible k with
  | true =>
    have hkw := Path.ne_wildcard_of_legible hk
    refine ⟨[wildcard, "a"], by decide, by simp, ?_, ?_, hgone _⟩
    · rw [touched_key, Path.spell_of_legible hk]
      exact fun hp => hkw (List.cons_prefix_cons.1 hp).1
    · rw [touched_key, Path.spell_of_legible hk]
      exact fun hp => hkw (List.cons_prefix_cons.1 hp).1.symm
  | false =>
    have hseg : touched (.key k :: rest) = wildcard :: touched rest := by
      rw [touched_key, Path.spell_of_not_legible hk]
    rw [hk] at h
    exact missed_items hseg (h.resolve_left Bool.false_ne_true) fun y => hgone [y]

/-- A position takes the fields of an object away. -/
theorem missed_of_object (hi : node.item? i = none) (hs : shows listed node = true) :
    ∃ q, Missed listed node v [.index i] q := by
  cases node with
  | obj fs =>
    obtain ⟨k, x, hk, hx, hnull⟩ := shows_iff.1 hs
    have hkw := Path.ne_wildcard_of_legible hk
    refine ⟨[k], fun s hs => .inr (List.mem_singleton.1 hs ▸ hk), fun e => hkw (List.cons.inj e).1, ?_, ?_, ?_⟩
    · rw [touched_index]
      exact fun hp => hkw (List.cons_prefix_cons.1 hp).1.symm
    · rw [touched_index]
      exact fun hp => hkw (List.cons_prefix_cons.1 hp).1
    · rw [readSegments_key hkw, readSegments_key hkw, show (Value.obj fs).field? k = some x from hx]
      show seen listed none ≠ seen listed (some x)
      cases listed with
      | false => exact nofun
      | true =>
        intro he
        obtain rfl : Value.null = x := Option.some.inj he
        cases hnull rfl
  | _ => cases hs

/-- What is missed below a field is missed from above. -/
theorem Missed.field {k : String} (hk : Path.legible k = true)
    (hq : Missed listed ((node.field? k).getD .null) v rest q) : Missed listed node v (.key k :: rest) (k :: q) := by
  have hkw := Path.ne_wildcard_of_legible hk
  refine ⟨?_, fun e => hkw (List.cons.inj e).1, ?_, ?_, ?_⟩
  · intro s hs
    rcases List.mem_cons.1 hs with rfl | hs
    · exact .inr hk
    · exact hq.normal s hs
  · rw [touched_key, Path.spell_of_legible hk, List.prefix_cons_inj]
    exact hq.below
  · rw [touched_key, Path.spell_of_legible hk, List.prefix_cons_inj]
    exact hq.above
  · rw [readSegments_key_self hkw, readSegments_key hkw, bind_field? hq.ne_nil]
    exact hq.changed

/-- What is missed below an item is missed through the list. -/
theorem Missed.item {child : Value} (hi : node.item? i = some child) (hq : Missed true child v rest q) :
    Missed listed node v (.index i :: rest) (wildcard :: q) := by
  refine ⟨?_, fun e => hq.ne_nil (List.cons.inj e).2, ?_, ?_, fun he => hq.changed ?_⟩
  · intro s hs
    exact (List.mem_cons.1 hs).elim .inl (hq.normal s)
  · rw [touched_index, List.prefix_cons_inj]
    exact hq.below
  · rw [touched_index, List.prefix_cons_inj]
    exact hq.above
  · obtain ⟨items, rfl, hitem, hstate⟩ := writeSegments_index hi rest v
    rw [hstate] at he
    simp only [readSegments, if_true, Value.asArray?, Option.map_some] at he
    -- the lists that are read differ at the item
    have hat := congrArg (·[i]?) (seen_arr_inj he)
    have hlt := (List.getElem?_eq_some_iff.1 hitem).1
    simp only [List.getElem?_map, List.getElem?_set_self hlt, hitem, Option.map_some] at hat
    exact hat

/-- A write that gives a container another shape changes a read there that it does not
record. -/
theorem exists_missed (segs : List Segment) (listed : Bool) (node v : Value) (place : List String)
    (h : reshaped listed node segs = some place) : ∃ q, place <+: q ∧ Missed listed node v segs q := by
  induction segs generalizing node listed place with
  | nil => cases h
  | cons seg rest ih =>
    cases seg with
    | key k =>
      rw [reshaped] at h
      split at h
      · rename_i harr
        obtain ⟨items, hitems⟩ := Option.isSome_iff_exists.1 harr
        split at h
        · rename_i hcase
          cases h
          obtain ⟨q, hq⟩ := missed_of_array (v := v) hitems (by simpa using hcase)
          exact ⟨q, List.nil_prefix, hq⟩
        · cases h
      · split at h
        · rename_i hk
          obtain ⟨place, hp, rfl⟩ := Option.map_eq_some_iff.1 h
          obtain ⟨q, hpq, hq⟩ := ih listed ((node.field? k).getD .null) place hp
          exact ⟨k :: q, List.cons_prefix_cons.2 ⟨rfl, hpq⟩, hq.field hk⟩
        · cases h
    | index i =>
      rw [reshaped] at h
      split at h
      · rename_i child hi
        obtain ⟨place, hp, rfl⟩ := Option.map_eq_some_iff.1 h
        obtain ⟨q, hpq, hq⟩ := ih true child place hp
        exact ⟨wildcard :: q, List.cons_prefix_cons.2 ⟨rfl, hpq⟩, hq.item hi⟩
      · rename_i hi
        split at h
        · rename_i hcase
          cases h
          by_cases hrest : rest = []
          · subst hrest
            obtain ⟨q, hq⟩ := missed_of_object (v := v) hi (by simpa using hcase)
            exact ⟨q, List.nil_prefix, hq⟩
          · obtain ⟨q, hq⟩ := missed_items (touched_index i rest) hrest fun y => items_come hi y
            exact ⟨q, List.nil_prefix, hq⟩
        · cases h

/-! ## Several writes -/

/-- The containers that writes, made in order from a state on, give another shape. -/
def reshapedAll : Value → List (Location × Value) → List (List String)
  | _, [] => []
  | state, (l, v) :: rest => (reshaped false state l.segments).toList ++ reshapedAll (writeAt state l v).state rest

/-- The path that a write at a location records overlaps this one. -/
def Records (l : Location) (q : Path) : Prop := touched l.segments <+: q.segments ∨ q.segments <+: touched l.segments

/-- Writes change no read that they do not record, below containers that they give another
shape apart. -/
theorem read_writes {q : Path} (hq : q.Normal) {ws : List (Location × Value)} {root : Value}
    (hrecords : ∀ w ∈ ws, ¬ Records w.1 q) (hplace : ∀ place ∈ reshapedAll root ws, ¬ place <+: q.segments) :
    read (ws.foldl (fun s w => (writeAt s w.1 w.2).state) root) q = read root q := by
  induction ws generalizing root with
  | nil => rfl
  | cons w ws ih =>
    obtain ⟨l, v⟩ := w
    obtain ⟨hrecord, hrecords⟩ := List.forall_mem_cons.1 hrecords
    rw [reshapedAll] at hplace
    have hone : read (writeAt root l v).state q = read root q :=
      seen_writeSegments l.segments false root v q.segments (Path.normal_iff.1 hq).1 (fun h => hrecord (.inl h))
        (fun h => hrecord (.inr h)) fun place hp => hplace place (List.mem_append_left _ (Option.mem_toList.2 hp))
    rw [List.foldl_cons, ih hrecords fun place hp => hplace place (List.mem_append_right _ hp), hone]

/-- One write changes a read that it does not record exactly when it gives a container
another shape. -/
theorem read_write_iff (root v : Value) (l : Location) :
    (∀ q : Path, q.Normal → read root q ≠ read (writeAt root l v).state q → Records l q) ↔
      reshaped false root l.segments = none := by
  constructor
  · intro h
    cases hp : reshaped false root l.segments with
    | none => rfl
    | some place =>
      obtain ⟨q, -, hq⟩ := exists_missed l.segments false root v place hp
      have hr := h ⟨q, hq.ne_nil⟩ (Path.normal_iff.2 ⟨hq.normal, hq.named⟩) fun e => hq.changed e.symm
      exact (hr.elim hq.below hq.above).elim
  · intro h q hq hne
    refine Classical.byContradiction fun hn => hne (Eq.symm ?_)
    exact seen_writeSegments l.segments false root v q.segments (Path.normal_iff.1 hq).1 (fun h => hn (.inl h))
      (fun h => hn (.inr h)) fun place hp => by rw [h] at hp; cases hp

end State

end Settle
