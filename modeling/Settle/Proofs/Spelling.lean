/-
  Settle.Proofs.Spelling — one text read as a path and as a location (see `Settle.Path`,
  `Settle.Path.Location`).

  A declaration names a path by a text, and a write names a location by one. Where a text
  reads both ways, the location has the segments of the path, part by part, with positions
  at wildcards (`Location.touched_of_formed`). Only a number with a plus sign is a position
  and yet a name of the path (`Location.Signed`).
  - `Transaction.writes_alike_iff`: a write at a text records the path of that text just
    when no name of the path is such a number.

  As built, a write at such a number is lost on the steps that read it:
  - `Votes.signs_apart`: it records the wildcard next to the name, or is refused.
-/

import Settle.Proofs.LocationText
import Settle.Proofs.Tracked

namespace Settle

namespace Location

/-- A name that counts as a position for its plus sign: digits of a number in the range
stand behind it. -/
def Signed (s : String) : Prop :=
  ∃ digits, s.toList = '+' :: digits ∧ digits ≠ [] ∧ digits.all Char.isDigit ∧
    Nat.ofDigitChars 10 digits 0 ≤ maxIndex

/-- The segment that a write records where a path has this one. -/
def placed (s : String) : String := if (index? s.toList).isSome then wildcard else s

theorem placed_wildcard : placed wildcard = wildcard := by decide

theorem placed_eq_self {s : String} : placed s = s ↔ index? s.toList = none := by
  unfold placed
  cases h : index? s.toList with
  | none => simp
  | some i =>
    refine iff_of_false (fun he => ?_) nofun
    rw [Option.isSome_some, if_pos rfl] at he
    rw [← he] at h
    cases h

/-! ## One part read both ways -/

theorem touched_append (a b : List Segment) : State.touched (a ++ b) = State.touched a ++ State.touched b := by
  simp [State.touched, State.spelled]

theorem touched_front (base : List Char) : State.touched (front base) = (Path.front base).map placed := by
  unfold front Path.front
  by_cases hbase : base = []
  · rw [if_pos hbase, if_pos hbase]
    rfl
  rw [if_neg hbase, if_neg hbase, List.map_singleton, Path.spell, String.toList_ofList]
  cases hi : index? base with
  | some i =>
    have htouched : State.touched [.index i] = [wildcard] := congrArg (· :: []) Path.spell_wildcard
    rw [htouched]
    by_cases hd : Path.isDigits base
    · rw [if_pos hd, placed_wildcard]
    · rw [if_neg hd, placed, String.toList_ofList, hi, Option.isSome_some, if_pos rfl]
  | none =>
    have htouched : State.touched [.key (String.ofList base)] = [Path.spell (String.ofList base)] := rfl
    rw [htouched, Path.spell, String.toList_ofList]
    by_cases hd : Path.isDigits base
    · rw [if_pos hd, placed_wildcard]
    · rw [if_neg hd, placed_eq_self.2 (by rw [String.toList_ofList, hi])]

theorem Bracketed.single {index : List Char} {is : List Nat} (h : Bracketed ('[' :: (index ++ [']'])) is)
    (hclose : ']' ∉ index) : ∃ i, is = [i] := by
  generalize hcs : '[' :: (index ++ [']']) = cs at h
  cases h with
  | nil => cases hcs
  | @cons index' cs i is hi his =>
    have hdrop := congrArg (List.dropWhile (· ≠ ']')) (List.cons.inj hcs).2
    rw [Path.dropWhile_ne hclose, Path.dropWhile_ne (bare_of_index? hi).2] at hdrop
    rw [← (List.cons.inj hdrop).2] at his
    exact ⟨i, congrArg _ (bracketed_nil_iff.1 his)⟩

theorem touched_of_formed {part : List Char} {names : List String} {segs : List Segment} (hp : Path.Formed part names)
    (hl : Formed part segs) : State.touched segs = names.map placed := by
  cases hl with
  | @of base cs is hbare his hne =>
  obtain ⟨htake, hdrop⟩ := his.takeWhile hbare.1
  rw [touched_append, touched_front]
  generalize hpart : base ++ cs = part at hp
  cases hp with
  | name hnil hname =>
    cases his with
    | nil =>
      rw [List.append_nil] at hpart
      subst hpart
      rw [Path.front, if_neg hnil]
      exact List.append_nil _
    | cons =>
      rw [← hpart] at hname
      exact absurd (by simp) hname.1
  | items => exact absurd hpart (his.ne_items hbare.ne_items _)
  | @item base' digits hbase' hnil hdigits =>
    have hitem : base' ++ '[' :: digits ++ [']'] = base' ++ '[' :: (digits ++ [']']) := by simp
    rw [hpart, hitem] at htake hdrop
    rw [Path.takeWhile_ne hbase'.1] at htake
    rw [Path.dropWhile_ne hbase'.1] at hdrop
    subst htake hdrop
    have hclose : ']' ∉ digits := Path.notMem_digits (by decide) hdigits
    obtain ⟨i, rfl⟩ := his.single hclose
    rw [List.map_append]
    exact congrArg _ (congrArg (· :: []) (Path.spell_wildcard.trans placed_wildcard.symm))

theorem touched_of_joined {ps : List (List Char)} {names : List String} {segs : List Segment}
    (hp : Joined Path.Formed ps names) (hl : Joined Formed ps segs) : State.touched segs = names.map placed := by
  induction hp generalizing segs with
  | nil =>
    cases hl
    rfl
  | cons hpart _ ih =>
    cases hl with
    | cons hfirst hrest => rw [touched_append, List.map_append, touched_of_formed hpart hfirst, ih hrest]

/-! ## One text read both ways -/

variable {raw : String} {l : Location} {p : Path}

/-- A write at a text records the segments of the path that the text gives, but for names
that count as positions. -/
theorem normalized_of_parse (hl : parse raw = .ok l) (hp : Path.parse raw = .ok p) :
    l.normalized = Path.made (p.segments.map placed) := by
  rw [normalized_eq (parse_keys hl), touched_of_joined (Path.parse_eq_ok_iff.1 hp).1 (parse_eq_ok_iff.1 hl)]

theorem isDigits_of_parse (hp : Path.parse raw = .ok p) {s : String} (hs : s ∈ p.segments) :
    Path.isDigits s.toList = false := by
  rcases (Path.normal_iff.1 (Path.normal_of_parse hp)).1 s hs with rfl | hl
  · exact Path.isDigits_wildcard
  · simp only [Path.legible, Bool.and_eq_true, Bool.not_eq_true'] at hl
    exact hl.2

/-- Of the names that a path keeps, those with a plus sign count as positions. -/
theorem index?_eq_none_iff {s : String} (hs : Path.isDigits s.toList = false) : index? s.toList = none ↔ ¬ Signed s := by
  have hsigned : (∃ i, index? s.toList = some i) ↔ Signed s := by
    constructor
    · rintro ⟨i, h⟩
      obtain ⟨digits, he | he, hne, hall, rfl, hle⟩ := index?_eq_some.1 h
      · rw [he] at hs
        exact absurd hall (Bool.eq_false_iff.1 hs)
      · exact ⟨digits, he, hne, hall, hle⟩
    · rintro ⟨digits, he, hne, hall, hle⟩
      exact ⟨_, index?_eq_some.2 ⟨digits, .inr he, hne, hall, rfl, hle⟩⟩
  rw [← hsigned, Option.eq_none_iff_forall_ne_some, not_exists]

theorem normalized_eq_ok_iff (hl : parse raw = .ok l) (hp : Path.parse raw = .ok p) :
    l.normalized = .ok p ↔ ∀ s ∈ p.segments, ¬ Signed s := by
  have hsame : p.segments.map placed = p.segments ↔ ∀ s ∈ p.segments, placed s = s := by
    conv_lhs => rhs; rw [← List.map_id p.segments]
    exact List.map_inj_left
  rw [normalized_of_parse hl hp, Path.made_eq_ok, hsame, and_iff_left (Path.parse_eq_ok_iff.1 hp).2]
  exact forall₂_congr fun s hs => placed_eq_self.trans (index?_eq_none_iff (isDigits_of_parse hp hs))

end Location

theorem DirtySet.insert_empty (p : Path) : empty.insert p = .roots [p] := rfl

namespace Transaction

theorem lookupAt_null (l : Location) : State.lookupAt .null l = none := by
  obtain ⟨segments, hne⟩ := l
  cases segments with
  | nil => exact absurd rfl hne
  | cons seg rest => cases seg <;> rfl

theorem place_eq {path : String} {l : Location} {p : Path} (t : Transaction) (hl : Location.parse path = .ok l)
    (hp : l.normalized = .ok p) : t.place path = .ok (l, p) := by
  rw [place, hl]
  dsimp only
  rw [hp]

/-- A write that changes the draft records its path. -/
theorem dirty_set {t : Transaction} {path : String} {l : Location} {p : Path} {v : Value} (h : t.place path = .ok (l, p))
    (hv : (State.lookupAt t.draft l).any (·.same v) = false) :
    ∃ t', t.set path v = .ok t' ∧ t'.dirty = t.dirty.insert p := by
  rw [set, h]
  exact ⟨_, if_neg (Bool.eq_false_iff.1 hv), rfl⟩

/-- Where a text reads both as a location and as a path, a write at the text records that
path exactly when none of its names counts as a position for its plus sign. -/
theorem writes_alike_iff {raw : String} {l : Location} {p : Path} (hl : Location.parse raw = .ok l)
    (hp : Path.parse raw = .ok p) :
    (l.normalized = .ok p ↔ ∀ s ∈ p.segments, ¬ Location.Signed s) ∧
    ((∀ (t : Transaction) (v : Value), (State.lookupAt t.draft l).any (·.same v) = false →
        ∃ t', t.set raw v = .ok t' ∧ t'.dirty = t.dirty.insert p) ↔
      ∀ s ∈ p.segments, ¬ Location.Signed s) := by
  have hiff := Location.normalized_eq_ok_iff hl hp
  refine ⟨hiff, fun hwrites => hiff.1 ?_, fun hsigned t v hv => dirty_set (place_eq t hl (hiff.2 hsigned)) hv⟩
  -- the first write into nothing always changes it, and then the dirty set is its path
  have hnew : (State.lookupAt .null l).any (·.same (.bool true)) = false := by
    rw [lookupAt_null]
    rfl
  obtain ⟨t', hset, hdirty⟩ := hwrites (.start default .null) (.bool true) hnew
  rcases set_cases hset with rfl | ⟨l', q, hplace, -, -, -, hq, -⟩
  · rw [start, DirtySet.insert_empty] at hdirty
    cases hdirty
  · obtain ⟨hl', hnormal⟩ := place_eq_ok hplace
    obtain rfl := Except.ok.inj (hl.symm.trans hl')
    have he := hq.symm.trans hdirty
    rw [start, DirtySet.insert_empty, DirtySet.insert_empty] at he
    cases he
    exact hnormal

end Transaction

/-! ## Votes -/

namespace Votes

def key : Key := ⟨"votes", "1"⟩

def counted : Value := .obj [("counts", .obj [("+1", .int 3)])]

/-- Positions in both spellings, and names of a plus sign alone and before a number out of the range. -/
def raw : String := "7[08].+.+18446744073709551616"

def place : Location := ⟨[.index 7, .index 8, .key "+", .key "+18446744073709551616"], by decide⟩

def path : Path := ⟨["*", "*", "+", "+18446744073709551616"], by decide⟩

theorem writes_alike : Location.parse raw = .ok place ∧ Path.parse raw = .ok path ∧
    (∀ s ∈ path.segments, ¬ Location.Signed s) ∧
    ∃ t', (Transaction.start key counted).set raw (.int 4) = .ok t' ∧ t'.dirty = .roots [path] := by
  have hl : Location.parse raw = .ok place := by decide +kernel
  have hp : Path.parse raw = .ok path := by decide +kernel
  have hsigned := (Transaction.writes_alike_iff hl hp).1.1 (by decide +kernel)
  exact ⟨hl, hp, hsigned, (Transaction.writes_alike_iff hl hp).2.2 hsigned (.start key counted) (.int 4) rfl⟩

/-- A number with a plus sign is a name in a path and a position in a location. A write there
leaves the path of its own text untouched, or is refused. -/
theorem signs_apart :
    (Path.parse "counts.+1" = .ok ⟨["counts", "+1"], by decide⟩ ∧
      (Location.parse "counts.+1").bind Location.normalized = .ok ⟨["counts", "*"], by decide⟩ ∧
      ((Transaction.start key counted).set "counts.+1" (.int 4)).map (fun t => t.dirty.touches ⟨["counts", "+1"], by decide⟩) =
        .ok false) ∧
    Path.parse "+1" = .ok ⟨["+1"], by decide⟩ ∧
      (Location.parse "+1").bind Location.normalized = .error .bareWildcard ∧
      ((Transaction.start key counted).set "+1" (.int 4)).map (·.dirty) =
        .error (.invalidPath "+1" "transaction write on votes::1" .bareWildcard) := by
  refine ⟨⟨?_, ?_, ?_⟩, ?_, ?_, ?_⟩ <;> rfl

end Votes

end Settle
