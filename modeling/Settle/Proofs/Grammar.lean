/-
  Settle.Proofs.Grammar — which texts read as paths, and as which (see `Path.parse`).

  A text is cut at its dots, and empty parts are dropped. Each part is a name without
  brackets, or `[]` or `[digits]` behind a base that is such a name or is missing
  (`Path.Formed`). A name that is a number and brackets of either kind give the wildcard.
  - `Path.parse_grammar`: reading fails on the first part that has none of these forms,
    then on no segments at all and on the wildcard as the only one, and else gives the
    segments of the parts, one after the other (`Joined`). What was read is read again
    from its text and from a record.
-/

import Settle.Path.Record
import Settle.Proofs.PathText
import Settle.Proofs.Reshape

namespace Settle

/-- The items that parts give, one part after the other. -/
inductive Joined {α : Type} (gives : List Char → List α → Prop) : List (List Char) → List α → Prop
  | nil : Joined gives [] []
  | cons {part : List Char} {parts : List (List Char)} {first rest : List α} :
      gives part first → Joined gives parts rest → Joined gives (part :: parts) (first ++ rest)

namespace Path

/-! ## The forms of a part -/

/-- The parts of a text between its dots, without the empty ones. -/
def parts (cs : List Char) : List (List Char) := (cs.splitOn '.').filter (· ≠ [])

/-- A text without brackets. -/
def Bare (cs : List Char) : Prop := '[' ∉ cs ∧ ']' ∉ cs

/-- The segment of the name in front of a bracket, if there is one. -/
def front (base : List Char) : List String := if base = [] then [] else [spell (String.ofList base)]

/-- The forms of a part, and the segments that each gives. -/
inductive Formed : List Char → List String → Prop
  /-- `name` -/
  | name {cs : List Char} : cs ≠ [] → Bare cs → Formed cs [spell (String.ofList cs)]
  /-- `base[]` -/
  | items {base : List Char} : Bare base → Formed (base ++ ['[', ']']) (front base ++ [wildcard])
  /-- `base[digits]` -/
  | item {base digits : List Char} : Bare base → digits ≠ [] → digits.all Char.isDigit →
      Formed (base ++ '[' :: digits ++ [']']) (front base ++ [wildcard])

theorem spell_wildcard : spell wildcard = wildcard := by decide

/-- What is left of segments when a path is made of them. -/
def kept (segments : List String) : List String := (segments.filter (· ≠ "")).map spell

theorem kept_append (a b : List String) : kept (a ++ b) = kept a ++ kept b := by
  simp [kept]

theorem kept_ofList {cs : List Char} (h : cs ≠ []) : kept [String.ofList cs] = [spell (String.ofList cs)] := by
  simp [kept, h]

theorem kept_name {cs : List Char} (h : cs ≠ []) :
    kept [if isDigits cs then wildcard else String.ofList cs] = [spell (String.ofList cs)] := by
  by_cases hd : isDigits cs
  · rw [if_pos hd, spell, String.toList_ofList, if_pos hd]
    rfl
  · rw [if_neg hd, kept_ofList h]

theorem dropLast?_eq_some {c : Char} {cs base : List Char} : dropLast? c cs = some base ↔ cs = base ++ [c] := by
  rw [dropLast?]
  split
  · rename_i h
    obtain ⟨init, rfl⟩ := List.getLast?_eq_some_iff.1 h
    simp
  · rename_i h
    refine iff_of_false nofun fun he => h ?_
    rw [he, List.getLast?_concat]

theorem dropLast?_items {part base : List Char} :
    (dropLast? ']' part).bind (dropLast? '[') = some base ↔ part = base ++ ['[', ']'] := by
  simp [Option.bind_eq_some_iff, dropLast?_eq_some]

theorem bracketBase_of_bare {base : List Char} (h : Bare base) :
    ∃ names, bracketBase base = some names ∧ kept names = front base := by
  refine ⟨if base = [] then [] else [String.ofList base], ?_, ?_⟩
  · simp [bracketBase, h.1, h.2]
  · unfold front
    split
    · rfl
    · rename_i hne
      exact kept_ofList hne

theorem bare_of_bracketBase {base : List Char} {names : List String} (h : bracketBase base = some names) : Bare base := by
  simp only [bracketBase, Bool.or_eq_true, List.contains_iff_mem] at h
  split at h
  · cases h
  · rename_i hn
    exact not_or.1 hn

/-! A text cut where a character comes first. -/

theorem all_ne {c : Char} {a : List Char} (h : c ∉ a) : ∀ x ∈ a, decide (x ≠ c) = true :=
  fun _ hx => decide_eq_true fun he => h (he ▸ hx)

theorem takeWhile_ne {c : Char} {a b : List Char} (h : c ∉ a) : (a ++ c :: b).takeWhile (· ≠ c) = a := by
  rw [List.takeWhile_append_of_pos (all_ne h), List.takeWhile_cons_of_neg (by simp), List.append_nil]

theorem dropWhile_ne {c : Char} {a b : List Char} (h : c ∉ a) : (a ++ c :: b).dropWhile (· ≠ c) = c :: b := by
  rw [List.dropWhile_append_of_pos (all_ne h), List.dropWhile_cons_of_neg (by simp)]

theorem eq_cut {c : Char} {cs : List Char} (h : c ∈ cs) :
    cs = cs.takeWhile (· ≠ c) ++ c :: (cs.dropWhile (· ≠ c)).drop 1 := by
  obtain ⟨a, b, rfl, ha⟩ := List.eq_append_cons_of_mem h
  rw [takeWhile_ne ha, dropWhile_ne ha]
  rfl

theorem notMem_digits {c : Char} (hc : c.isDigit = false) {digits : List Char} (h : digits.all Char.isDigit) :
    c ∉ digits :=
  fun hm => Bool.eq_false_iff.1 hc (List.all_eq_true.1 h c hm)

theorem Bare.ne_items {cs : List Char} (h : Bare cs) (base : List Char) : cs ≠ base ++ ['[', ']'] := by
  rintro rfl
  exact h.2 (by simp)

/-- A bracket with something in it is no `[]`. -/
theorem ne_items {pre index : List Char} (hne : index ≠ []) (h : '[' ∉ index) (base : List Char) :
    pre ++ index ++ [']'] ≠ base ++ ['[', ']'] := by
  intro he
  rw [List.append_cons base, List.append_left_inj] at he
  have hlast : index.getLast? = some '[' := by
    rw [← List.getLast?_append_of_ne_nil pre hne, he, List.getLast?_concat]
  exact h (List.mem_of_getLast? hlast)

/-- A part that reads is of a form. -/
theorem formed_of_partSegments {part : List Char} {segments : List String} (hne : part ≠ [])
    (h : partSegments part = some segments) : Formed part (kept segments) := by
  have hbase : ∀ {base : List Char}, (bracketBase base).map (· ++ [wildcard]) = some segments →
      Bare base ∧ kept segments = front base ++ [wildcard] := by
    intro base h
    obtain ⟨names, hnames, rfl⟩ := Option.map_eq_some_iff.1 h
    have hbare := bare_of_bracketBase hnames
    obtain ⟨names', hnames', hkept⟩ := bracketBase_of_bare hbare
    obtain rfl := Option.some.inj (hnames.symm.trans hnames')
    exact ⟨hbare, by rw [kept_append, hkept]; rfl⟩
  unfold partSegments at h
  split at h
  · rename_i base hitems
    obtain ⟨hbare, he⟩ := hbase h
    rw [he, dropLast?_items.1 hitems]
    exact .items hbare
  split at h
  · rename_i hopen
    split at h
    · rename_i index hindex
      split at h
      · rename_i hdigits
        obtain ⟨hbare, he⟩ := hbase h
        rw [Bool.and_eq_true, decide_eq_true_eq] at hdigits
        have hcut := eq_cut (List.contains_iff_mem.1 hopen)
        rw [dropLast?_eq_some.1 hindex, ← List.cons_append, ← List.append_assoc] at hcut
        have hitem := Formed.item hbare hdigits.1 hdigits.2
        rwa [← hcut, ← he] at hitem
      · cases h
    · cases h
  · rename_i hopen
    split at h
    · cases h
    · rename_i hclose
      cases h
      rw [kept_name hne]
      exact .name hne ⟨by simpa using hopen, by simpa using hclose⟩

theorem dropLast?_of_not_mem {c : Char} {cs : List Char} (h : c ∉ cs) : dropLast? c cs = none :=
  Option.eq_none_iff_forall_ne_some.2 fun base he => h (by rw [dropLast?_eq_some.1 he]; simp)

/-- A part of a form reads. -/
theorem partSegments_of_formed {part : List Char} {segments : List String} (h : Formed part segments) :
    ∃ names, partSegments part = some names ∧ kept names = segments := by
  cases h with
  | name hne hbare =>
    refine ⟨[if isDigits part then wildcard else String.ofList part], ?_, kept_name hne⟩
    simp [partSegments, dropLast?_of_not_mem hbare.2, hbare.1, hbare.2]
  | @items base hbare =>
    obtain ⟨names, hnames, hkept⟩ := bracketBase_of_bare hbare
    refine ⟨names ++ [wildcard], ?_, by rw [kept_append, hkept]; rfl⟩
    rw [partSegments, dropLast?_items.2 rfl]
    simp [hnames]
  | @item base digits hbare hne hdigits =>
    obtain ⟨names, hnames, hkept⟩ := bracketBase_of_bare hbare
    refine ⟨names ++ [wildcard], ?_, by rw [kept_append, hkept]; rfl⟩
    have hopen : '[' ∉ digits := notMem_digits (by decide) hdigits
    have hitem : base ++ '[' :: digits ++ [']'] = base ++ '[' :: (digits ++ [']']) := by simp
    have hnone : (dropLast? ']' (base ++ '[' :: digits ++ [']'])).bind (dropLast? '[') = none := by
      refine Option.eq_none_iff_forall_ne_some.2 fun b he => ?_
      rw [List.append_cons base] at he
      exact ne_items hne hopen b (dropLast?_items.1 he)
    have hd : isDigits digits = true := hdigits
    rw [partSegments, hnone, hitem, takeWhile_ne hbare.1, dropWhile_ne hbare.1]
    simp [dropLast?_eq_some.2 rfl, hne, hd, hnames]

theorem Formed.ne_nil {part : List Char} {segments : List String} (h : Formed part segments) : part ≠ [] := by
  cases h <;> simp_all

/-! ## All parts -/

/-- A part of one of the forms. -/
def WellFormed (part : List Char) : Prop := ∃ segments, Formed part segments

theorem partsSegments_of_joined (input : String) {ps : List (List Char)} {segments : List String}
    (h : Joined Formed ps segments) : ∃ names, partsSegments input ps = .ok names ∧ kept names = segments := by
  induction h with
  | nil => exact ⟨[], rfl, rfl⟩
  | cons hpart _ ih =>
    obtain ⟨first, hfirst, rfl⟩ := partSegments_of_formed hpart
    obtain ⟨rest, hrest, rfl⟩ := ih
    refine ⟨first ++ rest, ?_, kept_append first rest⟩
    rw [partsSegments, hfirst, hrest]
    rfl

/-- A text either gives the segments of its parts, or has a first part of no form. -/
theorem joined_or_first (ps : List (List Char)) :
    (∃ segments, Joined Formed ps segments) ∨
      ∃ before part after, ps = before ++ part :: after ∧ (∀ q ∈ before, WellFormed q) ∧ ¬ WellFormed part := by
  induction ps with
  | nil => exact .inl ⟨[], .nil⟩
  | cons part ps ih =>
    by_cases hpart : WellFormed part
    · obtain ⟨first, hfirst⟩ := hpart
      rcases ih with ⟨rest, hrest⟩ | ⟨before, bad, after, rfl, hbefore, hbad⟩
      · exact .inl ⟨first ++ rest, .cons hfirst hrest⟩
      · exact .inr ⟨part :: before, bad, after, rfl, List.forall_mem_cons.2 ⟨⟨first, hfirst⟩, hbefore⟩, hbad⟩
    · exact .inr ⟨[], part, ps, rfl, nofun, hpart⟩

theorem wellFormed_of_joined {ps : List (List Char)} {segments : List String} (h : Joined Formed ps segments) :
    ∀ part ∈ ps, WellFormed part := by
  induction h with
  | nil => exact nofun
  | cons hpart _ ih => exact List.forall_mem_cons.2 ⟨⟨_, hpart⟩, ih⟩

theorem partsSegments_of_first (input : String) {before : List (List Char)} {part : List Char} (after : List (List Char))
    (hbefore : ∀ q ∈ before, WellFormed q) (hpart : ¬ WellFormed part) (hne : part ≠ []) :
    partsSegments input (before ++ part :: after) = .error (.malformed input (String.ofList part)) := by
  induction before with
  | nil =>
    have hnone : partSegments part = none :=
      Option.eq_none_iff_forall_ne_some.2 fun names h => hpart ⟨_, formed_of_partSegments hne h⟩
    rw [List.nil_append, partsSegments, hnone]
  | cons q before ih =>
    rw [List.forall_mem_cons] at hbefore
    obtain ⟨⟨_, hq⟩, hbefore⟩ := hbefore
    obtain ⟨names, hnames, -⟩ := partSegments_of_formed hq
    rw [List.cons_append, partsSegments, hnames, ih hbefore]
    rfl

/-! ## Texts -/

theorem not_mem_splitAt {sep : Char} {cs part : List Char} (h : part ∈ splitAt sep cs) : sep ∉ part := by
  induction cs generalizing part with
  | nil =>
    rw [splitAt, List.mem_singleton] at h
    exact h ▸ List.not_mem_nil
  | cons c cs ih =>
    rw [splitAt] at h
    split at h
    · rcases List.mem_cons.1 h with rfl | h
      · exact List.not_mem_nil
      · exact ih h
    · rename_i hc
      split at h
      · rw [List.mem_singleton] at h
        rw [h, List.mem_singleton]
        exact fun e => hc e.symm
      · rename_i first more heq
        rw [heq] at ih
        rcases List.mem_cons.1 h with rfl | h
        · rw [List.mem_cons, not_or]
          exact ⟨fun e => hc e.symm, ih List.mem_cons_self⟩
        · exact ih (List.mem_cons_of_mem _ h)

theorem splitAt_eq_splitOn (sep : Char) (cs : List Char) : splitAt sep cs = cs.splitOn sep := by
  induction cs with
  | nil => rfl
  | cons c cs ih =>
    rw [splitAt, List.splitOn_cons_eq_if_modifyHead, ih]
    by_cases hc : c = sep
    · rw [if_pos hc, if_pos (beq_iff_eq.2 hc)]
    · rw [if_neg hc, if_neg (mt beq_iff_eq.1 hc)]
      cases hsplit : cs.splitOn sep with
      | nil => exact absurd hsplit (List.splitOn_ne_nil sep cs)
      | cons first more => rfl

/-- The wildcard alone reads as any other text does. -/
theorem parse_eq (input : String) : parse input = (partsSegments input (parts input.toList)).bind ofSegments := by
  rw [parse]
  split
  · rename_i h
    rw [h]
    decide
  · rw [splitAt_eq_splitOn]
    rfl

theorem nil_notMem_parts (cs : List Char) : [] ∉ parts cs := fun h => of_decide_eq_true (List.mem_filter.1 h).2 rfl

theorem dot_notMem_parts {cs part : List Char} (h : part ∈ parts cs) : '.' ∉ part := by
  have hsplit : part ∈ splitAt '.' cs := by
    rw [splitAt_eq_splitOn]
    exact (List.mem_filter.1 h).1
  exact not_mem_splitAt hsplit

theorem parts_append_dot {a b : List Char} (h : '.' ∉ a) :
    parts (a ++ '.' :: b) = if a = [] then parts b else a :: parts b := by
  rw [parts, List.splitOn_append_cons_self_of_not_mem h]
  by_cases ha : a = [] <;> simp [ha, parts]

theorem parts_of_dotless {a : List Char} (h : '.' ∉ a) : parts a = if a = [] then [] else [a] := by
  rw [parts, List.splitOn_eq_singleton h]
  by_cases ha : a = [] <;> simp [ha]

/-- The path of these segments; there is none without segments, and none of the wildcard alone. -/
def made (segments : List String) : Except PathError Path :=
  if h : segments = [] then .error .empty
  else if segments = [wildcard] then .error .bareWildcard
  else .ok ⟨segments, h⟩

theorem made_eq_empty {segments : List String} : made segments = .error .empty ↔ segments = [] := by
  unfold made
  split
  · simpa
  split <;> simpa

theorem made_eq_bareWildcard {segments : List String} : made segments = .error .bareWildcard ↔ segments = [wildcard] := by
  unfold made
  split
  · simp_all
  split <;> simpa

theorem made_eq_ok {segments : List String} {p : Path} :
    made segments = .ok p ↔ segments = p.segments ∧ p.segments ≠ [wildcard] := by
  unfold made
  split
  · rename_i h
    exact iff_of_false (by simp) fun he => p.nonempty (he.1 ▸ h)
  split
  · rename_i h
    exact iff_of_false (by simp) fun he => he.2 (he.1 ▸ h)
  · rename_i h
    refine ⟨fun he => ?_, fun he => congrArg _ (ext_segments he.1)⟩
    cases he
    exact ⟨rfl, h⟩

theorem made_ne_malformed {segments : List String} {i part : String} : made segments ≠ .error (.malformed i part) := by
  unfold made
  split
  · simp
  split <;> simp

theorem parse_of_joined {input : String} {segments : List String} (h : Joined Formed (parts input.toList) segments) :
    parse input = made segments := by
  obtain ⟨names, hnames, rfl⟩ := partsSegments_of_joined input h
  rw [parse_eq, hnames]
  rfl

/-- A text in which a part has none of the forms tells the first such part. -/
theorem parse_of_first {input : String} {before after : List (List Char)} {part : List Char}
    (hparts : parts input.toList = before ++ part :: after) (hbefore : ∀ q ∈ before, WellFormed q)
    (hpart : ¬ WellFormed part) : parse input = .error (.malformed input (String.ofList part)) := by
  have hne : part ≠ [] := by
    rintro rfl
    exact nil_notMem_parts input.toList (by rw [hparts]; simp)
  rw [parse_eq, hparts, partsSegments_of_first input after hbefore hpart hne]
  rfl

theorem parse_eq_iff {input : String} {r : Except PathError Path} (hr : ∀ i part, r ≠ .error (.malformed i part)) :
    parse input = r ↔ ∃ segments, Joined Formed (parts input.toList) segments ∧ made segments = r := by
  constructor
  · rintro rfl
    rcases joined_or_first (parts input.toList) with ⟨segments, hsegments⟩ | ⟨before, part, after, hparts, hbefore, hpart⟩
    · exact ⟨segments, hsegments, (parse_of_joined hsegments).symm⟩
    · exact absurd (parse_of_first hparts hbefore hpart) (hr _ _)
  · rintro ⟨segments, hsegments, rfl⟩
    exact parse_of_joined hsegments

theorem parse_eq_empty_iff {input : String} : parse input = .error .empty ↔ Joined Formed (parts input.toList) [] := by
  rw [parse_eq_iff (by simp)]
  simp only [made_eq_empty, exists_eq_right]

theorem parse_eq_bareWildcard_iff {input : String} :
    parse input = .error .bareWildcard ↔ Joined Formed (parts input.toList) [wildcard] := by
  rw [parse_eq_iff (by simp)]
  simp only [made_eq_bareWildcard, exists_eq_right]

theorem parse_eq_ok_iff {input : String} {p : Path} :
    parse input = .ok p ↔ Joined Formed (parts input.toList) p.segments ∧ p.segments ≠ [wildcard] := by
  rw [parse_eq_iff (by simp)]
  simp only [made_eq_ok]
  exact ⟨fun ⟨_, hj, he, hw⟩ => ⟨he ▸ hj, hw⟩, fun ⟨hj, hw⟩ => ⟨_, hj, rfl, hw⟩⟩

theorem parse_eq_malformed_iff {input i part : String} :
    parse input = .error (.malformed i part) ↔
      i = input ∧ ∃ before after, parts input.toList = before ++ part.toList :: after ∧ (∀ q ∈ before, WellFormed q) ∧
        ¬ WellFormed part.toList := by
  constructor
  · intro h
    rcases joined_or_first (parts input.toList) with ⟨segments, hsegments⟩ | ⟨before, bad, after, hparts, hbefore, hbad⟩
    · exact absurd ((parse_of_joined hsegments).symm.trans h) made_ne_malformed
    · rw [parse_of_first hparts hbefore hbad] at h
      cases h
      rw [String.toList_ofList]
      exact ⟨rfl, before, after, hparts, hbefore, hbad⟩
  · rintro ⟨rfl, before, after, hparts, hbefore, hpart⟩
    rw [parse_of_first hparts hbefore hpart, String.ofList_toList]

theorem normal_of_parse {input : String} {p : Path} (h : parse input = .ok p) : p.Normal := by
  rw [parse_eq] at h
  cases hnames : partsSegments input (parts input.toList) with
  | error e =>
    rw [hnames] at h
    cases h
  | ok names =>
    rw [hnames] at h
    exact normal_of_ofSegments h

/-! ## What is read, read again -/

/-- A segment that reads as itself. -/
def ReadsBack (s : String) : Prop := Formed s.toList [s] ∧ '.' ∉ s.toList

theorem readsBack_wildcard : ReadsBack wildcard := ⟨.name (by decide) ⟨by decide, by decide⟩, by decide⟩

theorem readsBack_spell {cs : List Char} (hne : cs ≠ []) (hbare : Bare cs) (hdot : '.' ∉ cs) :
    ReadsBack (spell (String.ofList cs)) := by
  rw [spell, String.toList_ofList]
  split
  · exact readsBack_wildcard
  · rename_i hd
    have hname := Formed.name hne hbare
    rw [spell, String.toList_ofList, if_neg hd] at hname
    exact ⟨by rwa [String.toList_ofList], by rwa [String.toList_ofList]⟩

theorem Formed.readsBack {part : List Char} {segments : List String} (h : Formed part segments) (hdot : '.' ∉ part) :
    ∀ s ∈ segments, ReadsBack s := by
  have hfront : ∀ {base : List Char}, Bare base → '.' ∉ base → ∀ s ∈ front base ++ [wildcard], ReadsBack s := by
    intro base hbare hdot s hs
    rcases List.mem_append.1 hs with hs | hs
    · rw [front] at hs
      split at hs
      · cases hs
      · rename_i hne
        exact List.mem_singleton.1 hs ▸ readsBack_spell hne hbare hdot
    · exact List.mem_singleton.1 hs ▸ readsBack_wildcard
  cases h with
  | name hne hbare => exact fun s hs => List.mem_singleton.1 hs ▸ readsBack_spell hne hbare hdot
  | items hbare => exact hfront hbare fun hm => hdot (List.mem_append_left _ hm)
  | item hbare _ _ => exact hfront hbare fun hm => hdot (List.mem_append_left _ (List.mem_append_left _ hm))

theorem readsBack_of_joined {ps : List (List Char)} {segments : List String} (h : Joined Formed ps segments)
    (hdot : ∀ part ∈ ps, '.' ∉ part) : ∀ s ∈ segments, ReadsBack s := by
  induction h with
  | nil => exact nofun
  | cons hpart _ ih =>
    rw [List.forall_mem_cons] at hdot
    exact List.forall_mem_append.2 ⟨hpart.readsBack hdot.1, ih hdot.2⟩

theorem readsBack_of_parse {input : String} {p : Path} (h : parse input = .ok p) : ∀ s ∈ p.segments, ReadsBack s :=
  readsBack_of_joined (parse_eq_ok_iff.1 h).1 fun _ => dot_notMem_parts

theorem joined_of_readsBack {segments : List String} (h : ∀ s ∈ segments, ReadsBack s) :
    Joined Formed (segments.map String.toList) segments := by
  induction segments with
  | nil => exact .nil
  | cons s segments ih =>
    rw [List.forall_mem_cons] at h
    exact .cons h.1.1 (ih h.2)

/-- What is read from a text has no empty segment and no dot in a segment. -/
theorem parse_plain {raw : String} {p : Path} (h : parse raw = .ok p) : p.Plain := by
  intro s hs
  obtain ⟨hformed, hdot⟩ := readsBack_of_parse h s hs
  refine ⟨?_, hdot⟩
  rintro rfl
  exact hformed.ne_nil rfl

theorem parts_text {p : Path} (h : p.Plain) : parts p.text.toList = p.segments.map String.toList := by
  rw [parts, h.splitOn_text]
  refine List.filter_eq_self.2 fun part hpart => decide_eq_true ?_
  obtain ⟨s, hs, rfl⟩ := List.mem_map.1 hpart
  exact fun he => (h s hs).1 (String.toList_eq_nil_iff.1 he)

/-- A path that was read is read again from its text. -/
theorem parse_text {input : String} {p : Path} (h : parse input = .ok p) : parse p.text = .ok p := by
  refine parse_eq_ok_iff.2 ⟨?_, (parse_eq_ok_iff.1 h).2⟩
  rw [parts_text (parse_plain h)]
  exact joined_of_readsBack (readsBack_of_parse h)

/-- Reading fails on the first part that has none of the forms, unless the text is the
wildcard. Else it fails without segments and on the wildcard as the only one, and otherwise
it gives the segments of the parts in order. What was read is read again from its text and
from a record. -/
theorem parse_grammar (input : String) :
    ((∃ i part, parse input = .error (.malformed i part)) ↔
      input ≠ wildcard ∧ ∃ part ∈ parts input.toList, ¬ WellFormed part) ∧
    (∀ i part, parse input = .error (.malformed i part) →
      i = input ∧ ∃ before after, parts input.toList = before ++ part.toList :: after ∧ (∀ q ∈ before, WellFormed q) ∧
        ¬ WellFormed part.toList) ∧
    (parse input = .error .empty ↔ Joined Formed (parts input.toList) []) ∧
    (parse input = .error .bareWildcard ↔ Joined Formed (parts input.toList) [wildcard]) ∧
    (∀ p : Path, parse input = .ok p ↔ Joined Formed (parts input.toList) p.segments ∧ p.segments ≠ [wildcard]) ∧
    ∀ p : Path, parse input = .ok p → parse p.text = .ok p ∧ ofValue? p.toValue = some p := by
  refine ⟨⟨?_, ?_⟩, fun i part => parse_eq_malformed_iff.1, parse_eq_empty_iff, parse_eq_bareWildcard_iff,
    fun p => parse_eq_ok_iff, fun p h => ⟨parse_text h, ?_⟩⟩
  · rintro ⟨i, part, h⟩
    obtain ⟨-, before, after, hparts, -, hpart⟩ := parse_eq_malformed_iff.1 h
    refine ⟨?_, part.toList, by rw [hparts]; simp, hpart⟩
    rintro rfl
    cases h
  · rintro ⟨-, part, hmem, hpart⟩
    rcases joined_or_first (parts input.toList) with ⟨segments, hsegments⟩ | ⟨before, bad, after, hparts, hbefore, hbad⟩
    · exact absurd (wellFormed_of_joined hsegments part hmem) hpart
    · exact ⟨input, String.ofList bad, parse_of_first hparts hbefore hbad⟩
  · rw [toValue, ofValue?, parse_text h]
    rfl

/-- Positions in every spelling; the text of what they read as reads as the same path. -/
theorem parse_grammar_positions :
    parse "..7[].grid[03]" = .ok ⟨["*", "*", "grid", "*"], by decide⟩ ∧
      parse "*.*.grid.*" = .ok ⟨["*", "*", "grid", "*"], by decide⟩ := by
  have h : parse "..7[].grid[03]" = .ok ⟨["*", "*", "grid", "*"], by decide⟩ := by decide
  exact ⟨h, ((parse_grammar _).2.2.2.2.2 _ h).1⟩

end Path

end Settle
