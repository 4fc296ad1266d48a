/-
  Settle.Proofs.LocationText — which texts read as locations, and what their texts read as
  (see `Settle.Path.Location`).

  A part between dots is a position, a key or nothing, with positions in brackets behind it
  (`Location.Formed`). So keys that are read hold no dot and no bracket and are no
  position, and the wildcard is one only in front of a bracket (`Location.Readable`).
  Segments like that are read again from their text, though it spells every position one
  way and joins it to the part before:
  - `Location.exists_parse_iff`: they are the segments that some text gives.
  - `Location.text_reads_back`: a location that was read is read again from its text.
-/

import Settle.Path.Location
import Settle.Proofs.Grammar

namespace Settle

theorem Except.map_eq_ok {ε α β : Type} {f : α → β} {x : Except ε α} {b : β} :
    x.map f = .ok b ↔ ∃ a, x = .ok a ∧ f a = b := by
  cases x with
  | error e => exact ⟨nofun, fun ⟨_, h, _⟩ => nomatch h⟩
  | ok a => exact ⟨fun h => ⟨a, rfl, Except.ok.inj h⟩, fun ⟨_, h, hf⟩ => by cases h; exact congrArg _ hf⟩

namespace Location

/-! ## Positions -/

/-- A position is read from digits, behind a plus sign or not. -/
theorem index?_eq_some {cs : List Char} {i : Nat} :
    index? cs = some i ↔ ∃ digits, (cs = digits ∨ cs = '+' :: digits) ∧ digits ≠ [] ∧ digits.all Char.isDigit ∧
      Nat.ofDigitChars 10 digits 0 = i ∧ i ≤ maxIndex := by
  have hread : ∀ digits : List Char,
      (if digits = [] || !Path.isDigits digits then none
        else
          let n := digits.foldl (fun n c => 10 * n + (c.toNat - '0'.toNat)) 0
          if n ≤ maxIndex then some n else none) = some i ↔
      digits ≠ [] ∧ digits.all Char.isDigit ∧ Nat.ofDigitChars 10 digits 0 = i ∧ i ≤ maxIndex := by
    intro digits
    rw [Nat.ofDigitChars_eq_foldl, show digits.all Char.isDigit = Path.isDigits digits from rfl]
    by_cases hne : digits = []
    · simp [hne]
    by_cases hd : Path.isDigits digits = true
    · simp only [hne, hd, decide_false, Bool.not_true, Bool.or_false, Bool.false_eq_true, if_false, ne_eq,
        not_false_iff, true_and]
      by_cases hle : digits.foldl (fun n c => 10 * n + (c.toNat - '0'.toNat)) 0 ≤ maxIndex
      · rw [if_pos hle, Option.some.injEq]
        exact ⟨fun h => ⟨h, h ▸ hle⟩, And.left⟩
      · rw [if_neg hle]
        exact iff_of_false nofun fun h => hle (h.1 ▸ h.2)
    · simp [hne, hd]
  unfold index?
  split
  · rename_i rest
    rw [hread]
    constructor
    · exact fun h => ⟨rest, .inr rfl, h⟩
    · rintro ⟨digits, rfl | h, hdigits⟩
      · exact absurd hdigits.2.1 (by simp [Char.isDigit])
      · cases h
        exact hdigits
  · rename_i hplus
    rw [hread]
    constructor
    · exact fun h => ⟨cs, .inl rfl, h⟩
    · rintro ⟨digits, rfl | h, hdigits⟩
      · exact hdigits
      · exact absurd h (hplus digits)

theorem ne_nil_of_index? {cs : List Char} {i : Nat} (h : index? cs = some i) : cs ≠ [] := by
  rintro rfl
  cases h

theorem not_mem_of_index? {cs : List Char} {i : Nat} (h : index? cs = some i) {c : Char} (hplus : c ≠ '+')
    (hdigit : c.isDigit = false) : c ∉ cs := by
  obtain ⟨digits, hcs, -, hall, -, -⟩ := index?_eq_some.1 h
  have hd : c ∉ digits := Path.notMem_digits hdigit hall
  rcases hcs with rfl | rfl
  · exact hd
  · exact List.not_mem_cons_of_ne_of_not_mem hplus hd

theorem bare_of_index? {cs : List Char} {i : Nat} (h : index? cs = some i) : Path.Bare cs :=
  ⟨not_mem_of_index? h (by decide) (by decide), not_mem_of_index? h (by decide) (by decide)⟩

theorem le_of_index? {cs : List Char} {i : Nat} (h : index? cs = some i) : i ≤ maxIndex := by
  obtain ⟨_, -, -, -, -, hle⟩ := index?_eq_some.1 h
  exact hle

theorem index?_toDigits {i : Nat} (h : i ≤ maxIndex) : index? (Nat.toDigits 10 i) = some i :=
  index?_eq_some.2 ⟨_, .inl rfl, Nat.toDigits_ne_nil,
    List.all_eq_true.2 fun _ => Nat.isDigit_of_mem_toDigits (by decide) (by decide), Nat.ofDigitChars_ten_toDigits, h⟩

/-! ## The forms of a part -/

/-- Positions in brackets. -/
inductive Bracketed : List Char → List Nat → Prop
  | nil : Bracketed [] []
  | cons {index cs : List Char} {i : Nat} {is : List Nat} : index? index = some i → Bracketed cs is →
      Bracketed ('[' :: (index ++ ']' :: cs)) (i :: is)

theorem brackets?_nil (fuel : Nat) : brackets? fuel [] = some [] := by cases fuel <;> rfl

theorem bracketed_nil_iff {is : List Nat} : Bracketed [] is ↔ is = [] := by
  refine ⟨fun h => ?_, fun h => h ▸ .nil⟩
  cases h
  rfl

theorem brackets?_eq_some {fuel : Nat} {cs : List Char} (hfuel : cs.length ≤ fuel) {segs : List Segment} :
    brackets? fuel cs = some segs ↔ ∃ is, Bracketed cs is ∧ is.map .index = segs := by
  induction fuel generalizing cs segs with
  | zero =>
    obtain rfl := List.length_eq_zero_iff.1 (Nat.le_zero.1 hfuel)
    simp [brackets?_nil, bracketed_nil_iff]
  | succ fuel ih =>
    cases cs with
    | nil => simp [brackets?_nil, bracketed_nil_iff]
    | cons c rest =>
      rw [brackets?]
      constructor
      · intro h
        split at h
        · cases h
        rename_i hc
        simp only [Bool.or_eq_true, decide_eq_true_eq, Bool.not_eq_true', not_or, not_not, Bool.not_eq_false] at hc
        obtain ⟨rfl, hclose⟩ := hc
        split at h
        · cases h
        · rename_i i hi
          obtain ⟨more, hmore, rfl⟩ := Option.map_eq_some_iff.1 h
          have hlen : ((rest.dropWhile (· ≠ ']')).drop 1).length ≤ fuel := by
            have := (List.dropWhile_suffix (· ≠ ']') : rest.dropWhile (· ≠ ']') <:+ rest).length_le
            rw [List.length_cons] at hfuel
            rw [List.length_drop]
            omega
          obtain ⟨is, his, rfl⟩ := (ih hlen).1 hmore
          refine ⟨i :: is, ?_, rfl⟩
          rw [Path.eq_cut (List.contains_iff_mem.1 hclose)]
          exact .cons hi his
      · rintro ⟨_, his, rfl⟩
        cases his with
        | @cons index cs i is hi his =>
          have hclose := (bare_of_index? hi).2
          have hlen : cs.length ≤ fuel := by
            simp only [List.length_cons, List.length_append] at hfuel
            omega
          rw [Path.takeWhile_ne hclose, Path.dropWhile_ne hclose, hi]
          simp [(ih hlen).2 ⟨is, his, rfl⟩]

/-- The segment in front of the brackets, if there is one: a position or a key. -/
def front (base : List Char) : List Segment :=
  if base = [] then []
  else
    match index? base with
    | some i => [.index i]
    | none => [.key (String.ofList base)]

/-- The form of a part: a position, a key or nothing, then positions in brackets. The
wildcard is no key of its own. -/
inductive Formed : List Char → List Segment → Prop
  | of {base cs : List Char} {is : List Nat} : Path.Bare base → Bracketed cs is → base ++ cs ≠ wildcard.toList →
      Formed (base ++ cs) (front base ++ is.map .index)

theorem Bracketed.takeWhile {base cs : List Char} {is : List Nat} (h : Bracketed cs is) (hbase : '[' ∉ base) :
    (base ++ cs).takeWhile (· ≠ '[') = base ∧ (base ++ cs).dropWhile (· ≠ '[') = cs := by
  cases h with
  | nil =>
    rw [List.append_nil]
    exact ⟨List.takeWhile_eq_self_iff.2 (Path.all_ne hbase), List.dropWhile_eq_nil_iff.2 (Path.all_ne hbase)⟩
  | cons => exact ⟨Path.takeWhile_ne hbase, Path.dropWhile_ne hbase⟩

/-- No bracket is empty. -/
theorem Bracketed.ne_items {cs : List Char} {is : List Nat} (h : Bracketed cs is) {pre : List Char}
    (hpre : ∀ base, pre ≠ base ++ ['[', ']']) (base : List Char) : pre ++ cs ≠ base ++ ['[', ']'] := by
  induction h generalizing pre with
  | nil =>
    rw [List.append_nil]
    exact hpre base
  | @cons index cs i is hi _ ih =>
    have hindex : ∀ base, pre ++ ['['] ++ index ++ [']'] ≠ base ++ ['[', ']'] :=
      Path.ne_items (ne_nil_of_index? hi) (bare_of_index? hi).1
    have hshift : pre ++ '[' :: (index ++ ']' :: cs) = (pre ++ ['['] ++ index ++ [']']) ++ cs := by simp
    rw [hshift]
    exact ih hindex

/-- A part reads exactly when it is of the form, and as what the form gives. -/
theorem partSegments_eq_some {part : List Char} {segs : List Segment} :
    partSegments part = some segs ↔ Formed part segs := by
  constructor
  · intro h
    unfold partSegments at h
    split at h
    · cases h
    rename_i hguard
    dsimp only at h
    split at h
    · cases h
    rename_i hclose
    obtain ⟨_, hindices, rfl⟩ := Option.map_eq_some_iff.1 h
    obtain ⟨is, his, rfl⟩ := (brackets?_eq_some (Nat.le_refl _)).1 hindices
    have hbare : Path.Bare (part.takeWhile (· ≠ '[')) :=
      ⟨fun hm => by simpa using List.mem_takeWhile_imp hm, fun hm => hclose (List.contains_iff_mem.2 hm)⟩
    have hpart : part.takeWhile (· ≠ '[') ++ part.dropWhile (· ≠ '[') = part := List.takeWhile_append_dropWhile
    have hne : part ≠ wildcard.toList := by
      rintro rfl
      exact hguard rfl
    have hformed := Formed.of hbare his (hpart.symm ▸ hne)
    rwa [hpart] at hformed
  · intro h
    cases h with
    | @of base cs is hbare his hne =>
    have hitems : (Path.dropLast? ']' (base ++ cs)).bind (Path.dropLast? '[') = none := by
      refine Option.eq_none_iff_forall_ne_some.2 fun b he => ?_
      exact his.ne_items hbare.ne_items b (Path.dropLast?_items.1 he)
    obtain ⟨htake, hdrop⟩ := his.takeWhile hbare.1
    rw [partSegments, hitems, htake, hdrop]
    simp [hne, hbare.2, (brackets?_eq_some (Nat.le_refl _)).2 ⟨is, his, rfl⟩]
    rfl

theorem Formed.eq_nil {segs : List Segment} (h : Formed [] segs) : segs = [] := by
  have hread := partSegments_eq_some.2 h
  cases hread
  rfl

/-! ## All parts -/

theorem partsSegments_eq_ok {input : String} {ps : List (List Char)} {segs : List Segment} :
    partsSegments input ps = .ok segs ↔ Joined Formed ps segs := by
  constructor
  · intro h
    induction ps generalizing segs with
    | nil =>
      cases h
      exact .nil
    | cons part ps ih =>
      rw [partsSegments] at h
      split at h
      · cases h
      · rename_i first hfirst
        obtain ⟨rest, hrest, rfl⟩ := Except.map_eq_ok.1 h
        exact .cons (partSegments_eq_some.1 hfirst) (ih hrest)
  · intro h
    induction h with
    | nil => rfl
    | cons hpart _ ih =>
      rw [partsSegments, partSegments_eq_some.2 hpart, ih]
      rfl

theorem parse_eq_ok_iff {input : String} {l : Location} :
    parse input = .ok l ↔ Joined Formed (Path.parts input.toList) l.segments := by
  rw [← partsSegments_eq_ok, Path.parts, ← Path.splitAt_eq_splitOn, parse]
  constructor
  · intro h
    split at h
    · cases h
    · rename_i segs hsegs
      split at h
      · cases h
      · cases h
        exact hsegs
  · intro h
    rw [h]
    exact dif_neg l.nonempty

/-! ## What can be read -/

/-- A key that no reader takes apart or takes for a position. -/
structure Legible (k : String) : Prop where
  nonempty : k ≠ ""
  dotless : '.' ∉ k.toList
  bare : Path.Bare k.toList
  named : index? k.toList = none

/-- Segments that a text can give: legible keys, of which the wildcard has a position behind it, and
positions in the range. -/
def Readable : List Segment → Prop
  | [] => True
  | .index i :: rest => i ≤ maxIndex ∧ Readable rest
  | .key k :: rest => Legible k ∧ (k = wildcard → ∃ i more, rest = .index i :: more) ∧ Readable rest

theorem Readable.legible {segs : List Segment} (h : Readable segs) {k : String} (hk : .key k ∈ segs) : Legible k := by
  induction segs with
  | nil => cases hk
  | cons seg rest ih =>
    cases seg with
    | index i => exact ih h.2 ((List.mem_cons.1 hk).resolve_left nofun)
    | key k' =>
      rcases List.mem_cons.1 hk with he | hk
      · cases he
        exact h.1
      · exact ih h.2.2 hk

theorem Bracketed.readable {cs : List Char} {is : List Nat} (h : Bracketed cs is) {rest : List Segment}
    (hrest : Readable rest) : Readable (is.map .index ++ rest) := by
  induction h with
  | nil => exact hrest
  | cons hi _ ih => exact ⟨le_of_index? hi, ih⟩

theorem Formed.readable {part : List Char} {segs rest : List Segment} (h : Formed part segs) (hdot : '.' ∉ part)
    (hrest : Readable rest) : Readable (segs ++ rest) := by
  cases h with
  | @of base cs is hbare his hne =>
  have hindices := his.readable hrest
  rw [List.append_assoc, front]
  split
  · exact hindices
  rename_i hbase
  split
  · rename_i i hi
    exact ⟨le_of_index? hi, hindices⟩
  · rename_i hi
    have hlegible : Legible (String.ofList base) := by
      refine ⟨by simpa using hbase, ?_, ?_, ?_⟩ <;> rw [String.toList_ofList]
      · exact fun hm => hdot (List.mem_append_left _ hm)
      · exact hbare
      · exact hi
    refine ⟨hlegible, fun hw => ?_, hindices⟩
    cases his with
    | nil =>
      rw [← hw, String.toList_ofList, List.append_nil] at hne
      exact absurd rfl hne
    | cons => exact ⟨_, _, rfl⟩

theorem readable_of_joined {ps : List (List Char)} {segs : List Segment} (h : Joined Formed ps segs)
    (hdot : ∀ part ∈ ps, '.' ∉ part) : Readable segs := by
  induction h with
  | nil => trivial
  | cons hpart _ ih =>
    rw [List.forall_mem_cons] at hdot
    exact hpart.readable hdot.1 (ih hdot.2)

theorem readable_of_parse {input : String} {l : Location} (h : parse input = .ok l) : Readable l.segments :=
  readable_of_joined (parse_eq_ok_iff.1 h) fun _ => Path.dot_notMem_parts

/-! ## What is written, read again -/

/-- The characters of written segments. -/
def chars (atStart : Bool) (segs : List Segment) : List Char := (segmentTexts atStart segs).flatMap String.toList

theorem toList_text (l : Location) : l.text.toList = chars true l.segments := String.toList_join

theorem chars_key (atStart : Bool) (k : String) (rest : List Segment) :
    chars atStart (.key k :: rest) = (if atStart then [] else ['.']) ++ k.toList ++ chars false rest := by
  rw [chars, segmentTexts, List.flatMap_cons, String.toList_append]
  cases atStart <;> rfl

theorem chars_index (atStart : Bool) (i : Nat) (rest : List Segment) :
    chars atStart (.index i :: rest) = '[' :: (Nat.toDigits 10 i ++ ']' :: chars false rest) := by
  have hi : (s!"[{i}]").toList = '[' :: (Nat.toDigits 10 i ++ [']']) := by
    show ("[" ++ toString i ++ "]").toList = _
    rw [Nat.toString_eq_ofList_toDigits]
    simp
  rw [chars, segmentTexts, List.flatMap_cons, hi]
  simp [chars]

theorem Formed.joined_parts {part : List Char} {segs : List Segment} (h : Formed part segs) (hdot : '.' ∉ part) :
    Joined Formed (Path.parts part) segs := by
  rw [Path.parts_of_dotless hdot]
  split
  · rename_i he
    subst he
    rw [h.eq_nil]
    exact .nil
  · rw [← List.append_nil segs]
    exact .cons h .nil

theorem Formed.joined_parts_dot {part rest : List Char} {segs more : List Segment} (h : Formed part segs) (hdot : '.' ∉ part)
    (hrest : Joined Formed (Path.parts rest) more) : Joined Formed (Path.parts (part ++ '.' :: rest)) (segs ++ more) := by
  rw [Path.parts_append_dot hdot]
  split
  · rename_i he
    subst he
    rw [h.eq_nil]
    exact hrest
  · exact .cons h hrest

/-- A part that is still open: with positions in brackets behind it, it gives its segments and
then those. -/
def Open (part : List Char) (segs : List Segment) : Prop :=
  '.' ∉ part ∧ ∀ cs is, Bracketed cs is → (is = [] → part ≠ wildcard.toList) →
    Formed (part ++ cs) (segs ++ is.map .index)

theorem ne_wildcard_of_mem {part : List Char} (h : '[' ∈ part) : part ≠ wildcard.toList :=
  fun he => absurd (he ▸ h : '[' ∈ wildcard.toList) (by decide)

theorem open_front {base : List Char} (hbare : Path.Bare base) (hdot : '.' ∉ base) : Open base (front base) := by
  refine ⟨hdot, fun cs is his hne => .of hbare his ?_⟩
  cases his with
  | nil =>
    rw [List.append_nil]
    exact hne rfl
  | cons => exact ne_wildcard_of_mem (by simp)

theorem Open.index {part : List Char} {segs : List Segment} (h : Open part segs) {i : Nat} (hi : i ≤ maxIndex) :
    Open (part ++ '[' :: (Nat.toDigits 10 i ++ [']'])) (segs ++ [.index i]) := by
  have hread := index?_toDigits hi
  refine ⟨?_, fun cs is his _ => ?_⟩
  · have hdigits : '.' ∉ Nat.toDigits 10 i := not_mem_of_index? hread (by decide) (by decide)
    simp [h.1, hdigits]
  · have hformed := h.2 _ _ (.cons hread his) nofun
    simpa using hformed

/-- A part that nothing follows gives its segments. -/
theorem Open.formed {part : List Char} {segs : List Segment} (h : Open part segs) (hw : part ≠ wildcard.toList) :
    Formed part segs := by
  have hformed := h.2 [] [] .nil fun _ => hw
  rwa [List.map_nil, List.append_nil, List.append_nil] at hformed

theorem Legible.open {k : String} (h : Legible k) : Open k.toList [.key k] := by
  have hfront : front k.toList = [.key k] := by
    rw [front, if_neg fun he => h.nonempty (String.toList_eq_nil_iff.1 he), h.named, String.ofList_toList]
  exact hfront ▸ open_front h.bare h.dotless

/-- Written segments read as themselves, behind a part that is still open. -/
theorem joined_chars {segs : List Segment} (hsegs : Readable segs) {part : List Char} {before : List Segment}
    (hopen : Open part before) (hw : part = wildcard.toList → ∃ i more, segs = .index i :: more) :
    Joined Formed (Path.parts (part ++ chars false segs)) (before ++ segs) := by
  induction segs generalizing part before with
  | nil =>
    have hformed := hopen.formed fun he => nomatch hw he
    rw [show chars false [] = [] from rfl, List.append_nil, List.append_nil]
    exact hformed.joined_parts hopen.1
  | cons seg rest ih =>
    cases seg with
    | index i =>
      obtain ⟨hi, hrest⟩ := hsegs
      have hnext := ih hrest (hopen.index hi) fun he => absurd he (ne_wildcard_of_mem (by simp))
      rw [chars_index]
      simpa using hnext
    | key k =>
      -- the dot in front of a key closes the part, and the key opens the next one
      obtain ⟨hk, hwild, hrest⟩ := hsegs
      have hne : part ≠ wildcard.toList := by
        intro he
        obtain ⟨i, more, h⟩ := hw he
        cases h
      have hformed := hopen.formed hne
      have hnext := ih hrest (hk.open) fun he => hwild (String.toList_inj.1 he)
      have hjoined := hformed.joined_parts_dot hopen.1 hnext
      rw [chars_key]
      simpa using hjoined

/-- A location of segments that can be read is read from its text. -/
theorem parse_text {l : Location} (h : Readable l.segments) : parse l.text = .ok l := by
  rw [parse_eq_ok_iff, toList_text]
  cases hsegs : l.segments with
  | nil => exact absurd hsegs l.nonempty
  | cons seg rest =>
    rw [hsegs] at h
    cases seg with
    | index i =>
      have hnil : Open [] [] := open_front ⟨List.not_mem_nil, List.not_mem_nil⟩ List.not_mem_nil
      rw [chars_index, ← chars_index false]
      exact joined_chars h hnil nofun
    | key k =>
      obtain ⟨hk, hwild, hrest⟩ := h
      rw [chars_key]
      exact joined_chars hrest hk.open fun he => hwild (String.toList_inj.1 he)

/-- The locations that some text gives. -/
theorem exists_parse_iff {l : Location} : (∃ input, parse input = .ok l) ↔ Readable l.segments :=
  ⟨fun ⟨_, h⟩ => readable_of_parse h, fun h => ⟨l.text, parse_text h⟩⟩

/-- A location that was read is read again from its text: keys stay keys, and positions keep
their value. -/
theorem text_reads_back {input : String} {l : Location} (h : parse input = .ok l) : parse l.text = .ok l :=
  parse_text (readable_of_parse h)

/-- Positions, a wildcard in front of two, and keys of a sign and of a number out of the range. -/
def mixed : Location :=
  ⟨[.index 7, .key "*", .index 0, .index 1, .key "+", .key "18446744073709551616", .index 18446744073709551615],
    by decide⟩

theorem text_reads_back_mixed :
    parse "07.*[0][+1].+.18446744073709551616..18446744073709551615" = .ok mixed ∧
      mixed.text = "[7].*[0][1].+.18446744073709551616[18446744073709551615]" ∧ parse mixed.text = .ok mixed := by
  have h : parse "07.*[0][+1].+.18446744073709551616..18446744073709551615" = .ok mixed := by decide +kernel
  exact ⟨h, by decide +kernel, text_reads_back h⟩

end Location

end Settle
