/-
  Settle.Proofs.Overwrite — writes that forget each other (see `Settle.State`).

  Two writes at one field leave what the second leaves, and writes at fields that do not
  overlap may change places. What stood at a field makes no difference to a write at any
  location, above the field, below it or beside it, once the field is written again
  (`write_writeAt`). So a state with some fields blanked tells what was written around
  them, however often they were written in between (`blank_write`, `blank_writeAt`), and
  with what stands there it is the state (`restore_blank`).
-/

import Settle.Commit
import Settle.Proofs.Unsigned

namespace Settle

/-! ## Fields of an object -/

namespace Fields

theorem set_set (k : String) (v w : Value) (fs : Fields) : set k w (set k v fs) = set k w fs := by
  induction fs with
  | nil => simp [set]
  | cons p rest ih =>
    obtain ⟨l, u⟩ := p
    by_cases h : l = k
    · simp [set, h]
    · by_cases hlt : k < l <;> simp [set, h, hlt, ih]

theorem set_comm {k l : String} (h : k < l) (v w : Value) (fs : Fields) :
    set l w (set k v fs) = set k v (set l w fs) := by
  have hne : k ≠ l := fun e => String.lt_irrefl k (e ▸ h)
  have hnot : ¬ l < k := String.lt_asymm h
  induction fs with
  | nil => simp [set, h, hne, hne.symm, hnot]
  | cons p rest ih =>
    obtain ⟨m, u⟩ := p
    rcases Decidable.em (m = k) with rfl | hk
    · simp [set, hne, hnot]
    rcases Decidable.em (m = l) with rfl | hl
    · simp [set, hne, hne.symm, h, hnot]
    by_cases hkm : k < m
    · by_cases hlm : l < m <;> simp [set, hk, hl, hkm, hlm, hne, hne.symm, h, hnot]
    · have hlm : ¬ l < m := fun hlm => hkm (String.lt_trans h hlm)
      simp [set, hk, hl, hkm, hlm, ih]

/-- Sets of different keys may change places. -/
theorem set_comm_of_ne {k l : String} (h : k ≠ l) (v w : Value) (fs : Fields) :
    set l w (set k v fs) = set k v (set l w fs) := by
  by_cases hlt : k < l
  · exact set_comm hlt v w fs
  · have hlt : l < k := Decidable.byContradiction fun hlt' =>
      h (String.le_antisymm (String.not_lt.1 hlt') (String.not_lt.1 hlt))
    exact (set_comm hlt w v fs).symm

theorem mem_set {k : String} {v : Value} {fs : Fields} {p : String × Value} (h : p ∈ set k v fs) :
    p = (k, v) ∨ p ∈ fs := by
  induction fs with
  | nil => exact .inl (List.mem_singleton.1 h)
  | cons q rest ih =>
    obtain ⟨l, u⟩ := q
    unfold set at h
    split at h
    · exact (List.mem_cons.1 h).imp id (List.mem_cons_of_mem _)
    · split at h
      · exact List.mem_cons.1 h
      · rcases List.mem_cons.1 h with rfl | h
        · exact .inr List.mem_cons_self
        · exact (ih h).imp id (List.mem_cons_of_mem _)

theorem ordered_of_keys {fs : Fields} (h : fs.keys.Pairwise (· < ·)) : Ordered fs := List.pairwise_map.1 h

theorem Ordered.set {fs : Fields} (h : Ordered fs) (k : String) (v : Value) : Ordered (Fields.set k v fs) := by
  induction fs with
  | nil => exact List.pairwise_singleton _ _
  | cons p rest ih =>
    obtain ⟨l, u⟩ := p
    obtain ⟨hfirst, hrest⟩ := List.pairwise_cons.1 h
    unfold Fields.set
    split
    · rename_i hl
      exact List.pairwise_cons.2 ⟨hl ▸ hfirst, hrest⟩
    · rename_i hl
      split
      · rename_i hlt
        refine List.pairwise_cons.2 ⟨fun q hq => ?_, h⟩
        rcases List.mem_cons.1 hq with rfl | hq
        · exact hlt
        · exact String.lt_trans hlt (hfirst q hq)
      · rename_i hlt
        have hlk : l < k := Decidable.byContradiction fun hlk =>
          hl (String.le_antisymm (String.not_lt.1 hlt) (String.not_lt.1 hlk))
        refine List.pairwise_cons.2 ⟨fun q hq => ?_, ih hrest⟩
        rcases mem_set hq with rfl | hq
        · exact hlk
        · exact hfirst q hq

theorem mem_of_get? {k : String} {v : Value} {fs : Fields} (h : get? k fs = some v) : (k, v) ∈ fs := by
  induction fs with
  | nil => cases h
  | cons p rest ih =>
    obtain ⟨l, u⟩ := p
    unfold get? at h
    split at h
    · cases h
      exact ‹l = k› ▸ List.mem_cons_self
    · exact List.mem_cons_of_mem _ (ih h)

/-- Setting a field to what it is changes nothing. -/
theorem Ordered.set_get? {fs : Fields} (ho : Ordered fs) {k : String} {v : Value} (h : get? k fs = some v) :
    Fields.set k v fs = fs := by
  induction fs with
  | nil => cases h
  | cons p rest ih =>
    obtain ⟨l, u⟩ := p
    obtain ⟨hfirst, hrest⟩ := List.pairwise_cons.1 ho
    unfold get? at h
    unfold Fields.set
    split at h
    · cases h
      rw [if_pos ‹l = k›, ‹l = k›]
    · have hlk : l < k := hfirst _ (mem_of_get? h)
      rw [if_neg ‹¬ l = k›, if_neg (String.lt_asymm hlk), ih hrest h]

end Fields

namespace State

/-! ## One field -/

/-- Change one field of a node, and make an object of the node if it is none. -/
def inField (node : Value) (k : String) (f : Value → Value) : Value :=
  let fs : Fields := match node with
    | .obj fs => fs
    | _ => []
  .obj (Fields.set k (f ((node.field? k).getD .null)) fs)

theorem field?_inField_self (node : Value) (k : String) (f : Value → Value) :
    (inField node k f).field? k = some (f ((node.field? k).getD .null)) := Fields.get?_set_self _ _ _

theorem field?_inField_ne {k s : String} (h : s ≠ k) (node : Value) (f : Value → Value) :
    (inField node k f).field? s = node.field? s := by
  rw [field?_eq_get? node s]
  exact Fields.get?_set_ne h _ _

theorem inField_inField (node : Value) (k : String) (f f' : Value → Value) :
    inField (inField node k f) k f' = inField node k (f' ∘ f) := by
  simp only [inField, Value.field?, Fields.get?_set_self, Option.getD_some, Fields.set_set, Function.comp_apply]

/-- Changes of different fields may change places. -/
theorem inField_comm {k k' : String} (h : k ≠ k') (node : Value) (f f' : Value → Value) :
    inField (inField node k f) k' f' = inField (inField node k' f') k f := by
  cases node with
  | obj fs =>
    simp only [inField, Value.field?, Fields.get?_set_ne h, Fields.get?_set_ne (Ne.symm h)]
    rw [Fields.set_comm_of_ne h]
  | _ =>
    simp only [inField, Value.field?, Fields.get?_set_ne h, Fields.get?_set_ne (Ne.symm h), Fields.get?]
    rw [Fields.set_comm_of_ne h]

theorem inField_unsigned (node : Value) (k : String) {f f' : Value → Value}
    (h : ∀ child, f' child.unsigned = (f child).unsigned) :
    inField node.unsigned k f' = (inField node k f).unsigned := by
  have hchild : ((node.unsigned.field? k).getD .null) = ((node.field? k).getD .null).unsigned := by
    rw [Value.field?_unsigned]
    cases node.field? k <;> simp [Value.unsigned]
  unfold inField
  rw [hchild, h]
  cases node <;> simp [Value.unsigned, Value.unsignedFields_set, Value.unsignedFields]

theorem writeSegments_key (node v : Value) (k : String) (rest : List Segment) :
    (writeSegments node (.key k :: rest) v).state = inField node k fun child => (writeSegments child rest v).state := by
  cases node <;> rfl

/-! ## Writes at keys -/

/-- The state after a write at keys. -/
def put (node : Value) (keys : List String) (v : Value) : Value := (writeSegments node (keys.map .key) v).state

theorem put_cons (node v : Value) (k : String) (rest : List String) :
    put node (k :: rest) v = inField node k (put · rest v) :=
  writeSegments_key node v k (rest.map .key)

theorem put_put (keys : List String) (node v w : Value) : put (put node keys v) keys w = put node keys w := by
  induction keys generalizing node with
  | nil => rfl
  | cons k rest ih =>
    rw [put_cons, put_cons, put_cons, inField_inField]
    exact congrArg (inField node k) (funext fun child => ih child)

/-- Writes at keys that go apart may change places. -/
theorem put_comm {keys keys' : List String} (h : ¬ keys <+: keys') (h' : ¬ keys' <+: keys) (node v w : Value) :
    put (put node keys v) keys' w = put (put node keys' w) keys v := by
  induction keys generalizing node keys' with
  | nil => exact absurd List.nil_prefix h
  | cons k rest ih =>
    cases keys' with
    | nil => exact absurd List.nil_prefix h'
    | cons k' rest' =>
      rw [put_cons, put_cons, put_cons, put_cons]
      by_cases hk : k = k'
      · subst hk
        simp only [List.cons_prefix_cons, true_and] at h h'
        rw [inField_inField, inField_inField]
        exact congrArg (inField node k) (funext fun child => ih h h' child)
      · exact inField_comm hk node _ _

/-- What stood at the keys makes no difference to a write at a location, once the keys are
written again. -/
theorem put_writeSegments (keys : List String) (l : List Segment) (node u v w : Value) :
    put (writeSegments (put node keys u) l v).state keys w = put (writeSegments node l v).state keys w := by
  induction keys generalizing node l with
  | nil => rfl
  | cons k rest ih =>
    match l with
    | [] => rfl
    -- an array stands there now, of nothing that the object held, and the keys make an object of it
    | .index n :: l => rfl
    | .key k' :: l =>
      rw [writeSegments_key, writeSegments_key, put_cons, put_cons, put_cons]
      by_cases hk : k = k'
      · subst hk
        rw [inField_inField, inField_inField, inField_inField]
        exact congrArg (inField node k) (funext fun child => ih l child)
      · rw [inField_comm hk, inField_inField]
        exact congrArg (inField _ k) (funext fun child => put_put rest child u w)

theorem put_unsigned (keys : List String) (node v : Value) :
    put node.unsigned keys v.unsigned = (put node keys v).unsigned := by
  induction keys generalizing node with
  | nil => rfl
  | cons k rest ih =>
    rw [put_cons, put_cons]
    exact inField_unsigned node k fun child => ih child

/-! ## Open fields -/

/-- A write at the keys leaves everything else where it is: no array stands on the way,
and objects there have their keys in order. -/
def Open : Value → List String → Prop
  | _, [] => True
  | node, k :: rest =>
    node.asArray? = none ∧ (∀ fs, node.asObject? = some fs → Fields.Ordered fs) ∧
      ∀ child, node.field? k = some child → Open child rest

theorem open_null (keys : List String) : Open .null keys := by
  cases keys with
  | nil => trivial
  | cons k rest => exact ⟨rfl, nofun, nofun⟩

theorem Open.fits {keys : List String} {node : Value} (h : Open node keys) : fits node keys = true := by
  induction keys generalizing node with
  | nil => rfl
  | cons k rest ih =>
    obtain ⟨harr, -, hchild⟩ := h
    unfold State.fits
    rw [harr]
    cases hc : node.field? k with
    | none => rfl
    | some child => exact ih (hchild child hc)

/-- A write at these keys, or at ones that do not lead to them, leaves them open. -/
theorem Open.put {keys : List String} {node : Value} (h : Open node keys) {keys' : List String}
    (hk : keys' <+: keys → keys' = keys) (v : Value) : Open (put node keys' v) keys := by
  induction keys generalizing node keys' with
  | nil => trivial
  | cons k rest ih =>
    cases keys' with
    | nil => cases hk List.nil_prefix
    | cons k' rest' =>
      obtain ⟨-, hordered, hchild⟩ := h
      rw [put_cons]
      refine ⟨rfl, fun fs hfs => ?_, fun child hc => ?_⟩
      · cases hfs
        refine Fields.Ordered.set ?_ _ _
        cases node with
        | obj fs => exact hordered fs rfl
        | _ => exact List.Pairwise.nil
      · by_cases he : k' = k
        · subst he
          rw [field?_inField_self] at hc
          cases hc
          have hrest : rest' <+: rest → rest' = rest := fun hp =>
            (List.cons.inj (hk (List.cons_prefix_cons.2 ⟨rfl, hp⟩))).2
          cases hf : node.field? k' with
          | none => exact ih (open_null rest) hrest
          | some below => exact ih (hchild below hf) hrest
        · rw [field?_inField_ne (Ne.symm he)] at hc
          exact hchild child hc

/-- Writing what stands there changes nothing. -/
theorem Open.put_lookup {keys : List String} {node v : Value} (h : Open node keys)
    (hv : lookupSegments node keys = some v) : State.put node keys v = node := by
  induction keys generalizing node with
  | nil => exact (Option.some.inj hv).symm
  | cons k rest ih =>
    obtain ⟨-, hordered, hchild⟩ := h
    unfold lookupSegments at hv
    split at hv
    · cases hv
    · cases node with
      | obj fs =>
        obtain ⟨child, hc, hv⟩ := Option.bind_eq_some_iff.1 hv
        rw [put_cons, inField, hc, Option.getD_some, ih (hchild child hc) hv]
        exact congrArg Value.obj ((hordered fs rfl).set_get? hc)
      | _ => cases hv

/-- A field at the top of an object. -/
theorem open_of_length_eq_one {fs : Fields} (h : Fields.Ordered fs) {keys : List String} (hk : keys.length = 1) :
    Open (.obj fs) keys := by
  obtain ⟨k, rfl⟩ := List.length_eq_one_iff.1 hk
  exact ⟨rfl, fun _ he => by cases he; exact h, fun _ _ => trivial⟩

/-! ## Writes at paths -/

section

variable {o p : Path} (ho : o.hasWildcard = false)

include ho

theorem write_eq_put (root v : Value) : (write root o v).state = put root o.segments v := write_eq ho root v

theorem write_write (root v w : Value) : (write (write root o v).state o w).state = (write root o w).state := by
  rw [write_eq_put ho, write_eq_put ho, write_eq_put ho, put_put]

theorem write_comm (hp : p.hasWildcard = false) (h : ¬ o.overlaps p) (root v w : Value) :
    (write (write root o v).state p w).state = (write (write root p w).state o v).state := by
  rw [Path.overlaps_iff, not_or, Path.covers_iff, Path.covers_iff] at h
  rw [write_eq_put ho, write_eq_put ho, write_eq_put hp, write_eq_put hp]
  exact put_comm h.1 h.2 root v w

/-- What stood at a field makes no difference to a write at a location, once the field is
written again. -/
theorem write_writeAt (l : Location) (root u v w : Value) :
    (write (writeAt (write root o u).state l v).state o w).state = (write (writeAt root l v).state o w).state := by
  rw [write_eq_put ho, write_eq_put ho, write_eq_put ho]
  exact put_writeSegments o.segments l.segments root u v w

theorem write_lookup {root v : Value} (h : Open root o.segments) (hv : lookup root o = some v) :
    (write root o v).state = root := by
  rw [write_eq_put ho]
  exact h.put_lookup hv

theorem write_unsigned (root v : Value) : (write root.unsigned o v.unsigned).state = (write root o v).state.unsigned := by
  rw [write_eq_put ho, write_eq_put ho, put_unsigned]

end

/-! ## Fields that are written one by one -/

/-- The paths name no list items, and no two of them overlap. -/
structure Apart (outs : List Path) : Prop where
  keys : ∀ o ∈ outs, o.hasWildcard = false
  eq : ∀ o ∈ outs, ∀ p ∈ outs, o.overlaps p = true → o = p

/-- Write each of the fields. -/
def fill (outs : List Path) (f : Path → Value) (root : Value) : Value := writeAll root (outs.map fun o => (o, f o))

theorem fill_cons (o : Path) (outs : List Path) (f : Path → Value) (root : Value) :
    fill (o :: outs) f root = fill outs f (write root o (f o)).state := rfl

section

variable {outs : List Path} {o : Path} {root : Value} {f : Path → Value}

theorem Apart.tail (h : Apart (o :: outs)) : Apart outs :=
  ⟨fun p hp => h.keys p (List.mem_cons_of_mem _ hp),
    fun p hp q hq => h.eq p (List.mem_cons_of_mem _ hp) q (List.mem_cons_of_mem _ hq)⟩

theorem Apart.not_overlaps {p : Path} (h : Apart outs) (ho : o ∈ outs) (hp : p ∈ outs) (hne : o ≠ p) : ¬ o.overlaps p :=
  fun hov => hne (h.eq o ho p hp hov)

/-- Fields that are all written again forget what one of them was. -/
theorem fill_write (h : Apart outs) (ho : o ∈ outs) (root v : Value) :
    fill outs f (write root o v).state = fill outs f root := by
  induction outs generalizing root with
  | nil => cases ho
  | cons p outs ih =>
    rw [fill_cons, fill_cons]
    by_cases hop : o = p
    · rw [hop, write_write (h.keys p List.mem_cons_self)]
    · rw [write_comm (h.keys o ho) (h.keys p List.mem_cons_self) (h.not_overlaps ho List.mem_cons_self hop)]
      exact ih h.tail ((List.mem_cons.1 ho).resolve_left hop) _

theorem fill_writeAll (h : Apart outs) {ws : List (Path × Value)} (hws : ∀ w ∈ ws, w.1 ∈ outs) (root : Value) :
    fill outs f (writeAll root ws) = fill outs f root := by
  induction ws generalizing root with
  | nil => rfl
  | cons w ws ih =>
    have htail := ih (fun u hu => hws u (List.mem_cons_of_mem _ hu)) (write root w.1 w.2).state
    exact htail.trans (fill_write h (hws w List.mem_cons_self) root w.2)

theorem mem_of_mem_map {w : Path × Value} (hw : w ∈ outs.map fun o => (o, f o)) : w.1 ∈ outs := by
  obtain ⟨o, ho, rfl⟩ := List.mem_map.1 hw
  exact ho

theorem fill_fill (h : Apart outs) (g : Path → Value) (root : Value) : fill outs f (fill outs g root) = fill outs f root :=
  fill_writeAll h (fun _ hw => mem_of_mem_map hw) root

/-- So they do if something else is written in between. -/
theorem fill_writeAt_write (h : Apart outs) (ho : o ∈ outs) (l : Location) (root u v : Value) :
    fill outs f (writeAt (write root o u).state l v).state = fill outs f (writeAt root l v).state := by
  rw [← fill_write h ho _ u, write_writeAt (h.keys o ho), fill_write h ho]

theorem fill_writeAt_fill (h : Apart outs) {ps : List Path} (hps : ∀ p ∈ ps, p ∈ outs) (l : Location) (g : Path → Value)
    (root v : Value) : fill outs f (writeAt (fill ps g root) l v).state = fill outs f (writeAt root l v).state := by
  induction ps generalizing root with
  | nil => rfl
  | cons p ps ih =>
    rw [fill_cons, ih fun q hq => hps q (List.mem_cons_of_mem _ hq)]
    exact fill_writeAt_write h (hps p List.mem_cons_self) l root _ v

/-- Fields that have these values already. -/
theorem fill_lookup (h : Apart outs) (hopen : ∀ o ∈ outs, Open root o.segments)
    (hv : ∀ o ∈ outs, lookup root o = some (f o)) : fill outs f root = root := by
  induction outs with
  | nil => rfl
  | cons o outs ih =>
    rw [fill_cons, write_lookup (h.keys o List.mem_cons_self) (hopen o List.mem_cons_self) (hv o List.mem_cons_self)]
    exact ih h.tail (fun p hp => hopen p (List.mem_cons_of_mem _ hp)) fun p hp => hv p (List.mem_cons_of_mem _ hp)

/-- Writing one of the fields leaves all of them open. -/
theorem Apart.open_write (h : Apart outs) (hopen : ∀ p ∈ outs, Open root p.segments) (ho : o ∈ outs) (v : Value) :
    ∀ p ∈ outs, Open (write root o v).state p.segments := by
  intro p hp
  rw [write_eq_put (h.keys o ho)]
  refine (hopen p hp).put (fun hpre => ?_) v
  rw [h.eq o ho p hp (Path.overlaps_iff.2 (.inl (Path.covers_iff.2 hpre)))]

theorem Apart.open_writeAll (h : Apart outs) {ws : List (Path × Value)} (hws : ∀ w ∈ ws, w.1 ∈ outs)
    (hopen : ∀ p ∈ outs, Open root p.segments) : ∀ p ∈ outs, Open (writeAll root ws) p.segments := by
  induction ws generalizing root with
  | nil => exact hopen
  | cons w ws ih =>
    exact ih (fun u hu => hws u (List.mem_cons_of_mem _ hu)) (h.open_write hopen (hws w List.mem_cons_self) w.2)

theorem Apart.open_fill (h : Apart outs) (hopen : ∀ p ∈ outs, Open root p.segments) (f : Path → Value) :
    ∀ p ∈ outs, Open (fill outs f root) p.segments := h.open_writeAll (fun _ hw => mem_of_mem_map hw) hopen

/-- Writes at open fields meet no array. -/
theorem Apart.fitsAll (h : Apart outs) {ws : List (Path × Value)} (hws : ∀ w ∈ ws, w.1 ∈ outs)
    (hopen : ∀ p ∈ outs, Open root p.segments) : fitsAll root ws = true := by
  induction ws generalizing root with
  | nil => rfl
  | cons w ws ih =>
    have hw := hws w List.mem_cons_self
    refine Bool.and_eq_true_iff.2 ⟨(hopen w.1 hw).fits, ?_⟩
    exact ih (fun u hu => hws u (List.mem_cons_of_mem _ hu)) (h.open_write hopen hw w.2)

/-- A read that none of the fields overlaps sees what it saw before they were written. -/
theorem Apart.read_fill (h : Apart outs) (hopen : ∀ p ∈ outs, Open root p.segments) {ps : List Path}
    (hps : ∀ p ∈ ps, p ∈ outs) {q : Path} (hq : ∀ p ∈ ps, ¬ q.overlaps p) : read (fill ps f root) q = read root q := by
  induction ps generalizing root with
  | nil => rfl
  | cons p ps ih =>
    have hp := hps p List.mem_cons_self
    rw [fill_cons, ih (h.open_write hopen hp (f p)) (fun p hp => hps p (List.mem_cons_of_mem _ hp))
      fun p hp => hq p (List.mem_cons_of_mem _ hp)]
    exact read_write (h.keys p hp) (hopen p hp).fits (hq p List.mem_cons_self) _

end

end State

/-- A change does the same around the fields whatever stands in them. -/
theorem Change.fill_applyTo {outs : List Path} (h : State.Apart outs) (c : Change) {f : Path → Value} {a b : Value}
    (hab : State.fill outs f a = State.fill outs f b) :
    State.fill outs f (c.applyTo a) = State.fill outs f (c.applyTo b) := by
  have hstart : State.fill outs f (c.replace.getD a) = State.fill outs f (c.replace.getD b) := by
    cases c.replace with
    | none => exact hab
    | some v => rfl
  have hwrite : ∀ (l : Location) (v : Value) {a b : Value}, State.fill outs f a = State.fill outs f b →
      State.fill outs f (State.writeAt a l v).state = State.fill outs f (State.writeAt b l v).state := by
    intro l v a b hab
    rw [← State.fill_writeAt_fill h (fun _ hp => hp) l f a v, hab, State.fill_writeAt_fill h (fun _ hp => hp)]
  unfold applyTo
  generalize c.replace.getD a = a at hstart
  generalize c.replace.getD b = b at hstart
  generalize c.writes = ws
  induction ws generalizing a b with
  | nil => exact hstart
  | cons w ws ih => exact ih _ _ (hwrite w.1 w.2 hstart)

end Settle
