/-
  Settle.Proofs.Encoding — what the bytes under a digest tell (see `Graph.digestBytes`).

  The paths come first, each closed by a zero, then the steps as words, and then the
  reserved paths, each closed by a one. Nothing tells how many there are of each. Where
  no path has one of the closing bytes in its text (`Graph.Unmarked`), that need not be
  told: a text ends at the first closing byte (`text_append_inj`), a step begins with
  one and no text does, and the words of a step follow their number. So the bytes tell
  the whole content (`bytes_iff_content`), and graphs of different content share a digest
  only where the hash collides.

  A segment holds any character but the dot, though, and so a path may have the closing
  bytes in its text. Then a byte that closes a path of one graph may be part of a path of
  another, and the two have the same bytes (`Blurred.same_bytes`).
-/

import Settle.Proofs.Arrangement
import Settle.Proofs.Grammar

namespace Settle

/-! ## Words and texts -/

namespace Digest

theorem bytes_inj {s t : String} (h : bytes s = bytes t) : s = t :=
  String.toByteArray_inj.1 (ByteArray.ext (Array.toList_inj.1 h))

/-- A word is told by its four bytes. -/
theorem word_inj {a b : UInt32} (h : word a = word b) : a = b := by
  have hnat : ∀ {x y : UInt32}, x.toUInt8 = y.toUInt8 → x.toNat % 256 = y.toNat % 256 := by
    intro x y h
    simpa using congrArg UInt8.toNat h
  simp only [word, List.cons.injEq, and_true] at h
  obtain ⟨h₀, h₁, h₂, h₃⟩ := h
  have h₀ := hnat h₀
  have h₁ := hnat h₁
  have h₂ := hnat h₂
  have h₃ := hnat h₃
  simp only [UInt32.toNat_shiftRight, Nat.shiftRight_eq_div_pow, UInt32.reduceToNat, Nat.reduceMod,
    Nat.reducePow] at h₁ h₂ h₃
  have ha := a.toNat_lt
  have hb := b.toNat_lt
  refine UInt32.toNat_inj.1 ?_
  omega

theorem word_append_inj {a b : UInt32} {x y : List UInt8} (h : word a ++ x = word b ++ y) : a = b ∧ x = y := by
  obtain ⟨hword, hrest⟩ := List.append_inj h rfl
  exact ⟨word_inj hword, hrest⟩

/-- As many words on both sides are told by their bytes. -/
theorem words_append_inj {l l' : List UInt32} {x y : List UInt8} (hlen : l.length = l'.length)
    (h : l.flatMap word ++ x = l'.flatMap word ++ y) : l = l' ∧ x = y := by
  induction l generalizing l' with
  | nil =>
    obtain rfl := List.length_eq_zero_iff.1 hlen.symm
    exact ⟨rfl, h⟩
  | cons a l ih =>
    cases l' with
    | nil => cases hlen
    | cons b l' =>
      rw [List.flatMap_cons, List.flatMap_cons, List.append_assoc, List.append_assoc] at h
      obtain ⟨rfl, hrest⟩ := word_append_inj h
      obtain ⟨rfl, hxy⟩ := ih (Nat.succ.inj hlen) hrest
      exact ⟨rfl, hxy⟩

/-- A byte that closes a text. -/
def Closes (b : UInt8) : Prop := b = 0 ∨ b = 1

instance : DecidablePred Closes := fun b => inferInstanceAs (Decidable (b = 0 ∨ b = 1))

/-- What a text ends at is the first byte that closes one. -/
theorem append_closed_inj {t t' r r' : List UInt8} {m m' : UInt8} (ht : ∀ b ∈ t, ¬ Closes b)
    (ht' : ∀ b ∈ t', ¬ Closes b) (hm : Closes m) (hm' : Closes m') (h : t ++ m :: r = t' ++ m' :: r') : t = t' ∧ m = m' ∧ r = r' := by
  induction t generalizing t' with
  | nil =>
    cases t' with
    | nil =>
      obtain ⟨hmm, hrr⟩ := List.cons.inj h
      exact ⟨rfl, hmm, hrr⟩
    | cons b t' =>
      obtain rfl := (List.cons.inj h).1
      exact absurd hm (ht' m List.mem_cons_self)
  | cons a t ih =>
    cases t' with
    | nil =>
      obtain rfl := (List.cons.inj h).1
      exact absurd hm' (ht a List.mem_cons_self)
    | cons b t' =>
      obtain ⟨rfl, hrest⟩ := List.cons.inj h
      obtain ⟨rfl, hmm, hrr⟩ := ih (fun c hc => ht c (List.mem_cons_of_mem a hc))
        (fun c hc => ht' c (List.mem_cons_of_mem a hc)) hrest
      exact ⟨rfl, hmm, hrr⟩

end Digest

open Digest (Closes)

/-! ## Paths -/

/-- A path read from a text, with no closing byte in its own. -/
structure Path.Clear (p : Path) : Prop where
  plain : p.Plain
  unmarked : ∀ b ∈ Digest.bytes p.text, ¬ Closes b

/-- The bytes of paths, each closed by a mark. -/
def Digest.closed (m : UInt8) (ps : List Path) : List UInt8 := ps.flatMap fun p => Digest.bytes p.text ++ [m]

/-- The bytes are at their end or go on with one that closes a text. -/
def Digest.Done (bs : List UInt8) : Prop := ∀ b ∈ bs.head?, Closes b

theorem Digest.done_nil : Done [] := fun _ h => nomatch h

namespace Path.Clear

variable {p p' : Path} {m m' : UInt8} {r r' : List UInt8}

theorem text_append_inj (hp : p.Clear) (hp' : p'.Clear) (hm : Closes m) (hm' : Closes m')
    (h : Digest.bytes p.text ++ m :: r = Digest.bytes p'.text ++ m' :: r') : p = p' ∧ m = m' ∧ r = r' := by
  obtain ⟨htext, hmm, hrr⟩ := Digest.append_closed_inj hp.unmarked hp'.unmarked hm hm' h
  exact ⟨text_inj hp.plain hp'.plain (Digest.bytes_inj htext), hmm, hrr⟩

/-- No text begins with a closing byte, and none is empty. -/
theorem not_done (hp : p.Clear) (r : List UInt8) : ¬ Digest.Done (Digest.bytes p.text ++ r) := by
  cases hbytes : Digest.bytes p.text with
  | nil => exact absurd (Digest.bytes_inj hbytes) (text_ne_empty hp.plain)
  | cons b bs =>
    intro hdone
    exact hp.unmarked b (hbytes ▸ List.mem_cons_self) (hdone b rfl)

end Path.Clear

/-- Closed paths are told by the bytes, as far as no other text follows. -/
theorem Digest.closed_append_inj {ps ps' : List Path} {m : UInt8} {r r' : List UInt8} (hm : Closes m)
    (hps : ∀ p ∈ ps, p.Clear) (hps' : ∀ p ∈ ps', p.Clear) (hr : Done r) (hr' : Done r')
    (h : closed m ps ++ r = closed m ps' ++ r') : ps = ps' ∧ r = r' := by
  have hcons : ∀ p ps r, closed m (p :: ps) ++ r = bytes p.text ++ m :: (closed m ps ++ r) := by
    intro p ps r
    simp [closed]
  induction ps generalizing ps' with
  | nil =>
    cases ps' with
    | nil => exact ⟨rfl, h⟩
    | cons p' ps' =>
      have hr₀ : r = closed m (p' :: ps') ++ r' := h
      rw [hr₀, hcons] at hr
      exact absurd hr ((hps' p' List.mem_cons_self).not_done _)
  | cons p ps ih =>
    cases ps' with
    | nil =>
      have hr₀ : closed m (p :: ps) ++ r = r' := h
      rw [← hr₀, hcons] at hr'
      exact absurd hr' ((hps p List.mem_cons_self).not_done _)
    | cons p' ps' =>
      rw [hcons, hcons] at h
      obtain ⟨rfl, -, hrest⟩ := (hps p List.mem_cons_self).text_append_inj (hps' p' List.mem_cons_self) hm hm h
      obtain ⟨rfl, hrr⟩ := ih (fun q hq => hps q (List.mem_cons_of_mem p hq))
        (fun q hq => hps' q (List.mem_cons_of_mem p hq)) hrest
      exact ⟨rfl, hrr⟩

/-! ## Steps -/

/-- The ids of the step are told by words. -/
structure Step.Fits (s : Step) : Prop where
  out : s.out < 2 ^ 32
  deps : ∀ i ∈ s.deps, i < 2 ^ 32
  count : s.deps.length < 2 ^ 32

theorem toUInt32_inj {n m : Nat} (hn : n < 2 ^ 32) (hm : m < 2 ^ 32) (h : n.toUInt32 = m.toUInt32) : n = m := by
  have hnat : n % 2 ^ 32 = m % 2 ^ 32 := by simpa using congrArg UInt32.toNat h
  rwa [Nat.mod_eq_of_lt hn, Nat.mod_eq_of_lt hm] at hnat

theorem map_toUInt32_inj {l l' : List Nat} (hl : ∀ n ∈ l, n < 2 ^ 32) (hl' : ∀ n ∈ l', n < 2 ^ 32)
    (h : l.map Nat.toUInt32 = l'.map Nat.toUInt32) : l = l' := by
  have hback : ∀ {l : List Nat}, (∀ n ∈ l, n < 2 ^ 32) → (l.map Nat.toUInt32).map UInt32.toNat = l := by
    intro l hl
    rw [List.map_map]
    refine (List.map_congr_left fun n hn => ?_).trans l.map_id
    simpa using Nat.mod_eq_of_lt (hl n hn)
  rw [← hback hl, ← hback hl', h]

namespace Graph

theorem stepBytes_append (s : Step) (x : List UInt8) : stepBytes s ++ x =
    Digest.word (kindCode s.kind) ++ (Digest.word (schedulingCode s.scheduling) ++ (Digest.word s.out.toUInt32 ++
      (Digest.word s.deps.length.toUInt32 ++ ((s.deps.map Nat.toUInt32).flatMap Digest.word ++ x)))) := by
  simp [stepBytes]

theorem stepBytes_append_inj {s s' : Step} {x y : List UInt8} (hs : s.Fits) (hs' : s'.Fits)
    (h : stepBytes s ++ x = stepBytes s' ++ y) : s.hashed = s'.hashed ∧ x = y := by
  rw [stepBytes_append, stepBytes_append] at h
  obtain ⟨hkind, h⟩ := Digest.word_append_inj h
  obtain ⟨hscheduling, h⟩ := Digest.word_append_inj h
  obtain ⟨hout, h⟩ := Digest.word_append_inj h
  obtain ⟨hcount, h⟩ := Digest.word_append_inj h
  have hlen : (s.deps.map Nat.toUInt32).length = (s'.deps.map Nat.toUInt32).length := by
    rw [List.length_map, List.length_map, toUInt32_inj hs.count hs'.count hcount]
  obtain ⟨hdeps, hxy⟩ := Digest.words_append_inj hlen h
  have hkind : s.kind = s'.kind := by
    cases hk : s.kind <;> cases hk' : s'.kind <;> simp [hk, hk', kindCode] at hkind ⊢
  have hscheduling : s.scheduling = s'.scheduling := by
    cases hk : s.scheduling <;> cases hk' : s'.scheduling <;> simp [hk, hk', schedulingCode] at hscheduling ⊢
  refine ⟨?_, hxy⟩
  rw [Step.hashed, Step.hashed, hkind, hscheduling, toUInt32_inj hs.out hs'.out hout,
    map_toUInt32_inj hs.deps hs'.deps hdeps]

/-- A step begins with a byte that closes a text. -/
theorem done_stepBytes (s : Step) (x : List UInt8) : Digest.Done (stepBytes s ++ x) := by
  intro b hb
  rw [stepBytes_append] at hb
  cases hk : s.kind with
  | computed =>
    rw [hk] at hb
    exact .inl (Option.some.inj hb).symm
  | link =>
    rw [hk] at hb
    exact .inr (Option.some.inj hb).symm

/-- Steps are told by the bytes, as far as texts follow. -/
theorem steps_append_inj {l l' : List Step} {ps ps' : List Path} (hl : ∀ s ∈ l, s.Fits) (hl' : ∀ s ∈ l', s.Fits)
    (hps : ∀ p ∈ ps, p.Clear) (hps' : ∀ p ∈ ps', p.Clear)
    (h : l.flatMap stepBytes ++ Digest.closed 1 ps = l'.flatMap stepBytes ++ Digest.closed 1 ps') :
    l.map Step.hashed = l'.map Step.hashed ∧ ps = ps' := by
  -- a step is no beginning of closed texts
  have hstep : ∀ (s : Step) (l : List Step) (r : List UInt8) {ps : List Path}, (∀ p ∈ ps, p.Clear) →
      (s :: l).flatMap stepBytes ++ r ≠ Digest.closed 1 ps := by
    intro s l r ps hps heq
    rw [List.flatMap_cons, List.append_assoc] at heq
    have hdone := done_stepBytes s (l.flatMap stepBytes ++ r)
    rw [heq] at hdone
    cases ps with
    | nil =>
      rw [stepBytes_append] at heq
      cases heq
    | cons p ps =>
      rw [Digest.closed, List.flatMap_cons, List.append_assoc] at hdone
      exact (hps p List.mem_cons_self).not_done _ hdone
  induction l generalizing l' with
  | nil =>
    cases l' with
    | nil =>
      have hclosed : Digest.closed 1 ps ++ [] = Digest.closed 1 ps' ++ [] := by simpa using h
      exact ⟨rfl, (Digest.closed_append_inj (.inr rfl) hps hps' Digest.done_nil Digest.done_nil hclosed).1⟩
    | cons s' l' => exact absurd h.symm (hstep s' l' _ hps)
  | cons s l ih =>
    cases l' with
    | nil => exact absurd h (hstep s l _ hps')
    | cons s' l' =>
      rw [List.flatMap_cons, List.flatMap_cons, List.append_assoc, List.append_assoc] at h
      obtain ⟨hs, hrest⟩ := stepBytes_append_inj (hl s List.mem_cons_self) (hl' s' List.mem_cons_self) h
      obtain ⟨hsteps, hpaths⟩ := ih (fun t ht => hl t (List.mem_cons_of_mem s ht))
        (fun t ht => hl' t (List.mem_cons_of_mem s' ht)) hrest
      exact ⟨by rw [List.map_cons, List.map_cons, hs, hsteps], hpaths⟩

end Graph

/-! ## Compiled graphs -/

/-- All paths of the outline were read from texts. -/
structure Outline.Plain (o : Outline) : Prop where
  drafts : ∀ x ∈ o.drafts, ∀ p ∈ x.out :: x.deps, p.Plain
  reserved : ∀ p ∈ o.reserved, p.Plain

theorem plain_of_mapM {l : List String} {ps : List Path} (h : l.mapM Path.parse = .ok ps) : ∀ p ∈ ps, p.Plain := by
  induction l generalizing ps with
  | nil =>
    cases h
    exact nofun
  | cons t l ih =>
    rw [List.mapM_cons] at h
    obtain ⟨p, hp, h⟩ := Except.bind_eq_ok.1 h
    obtain ⟨qs, hqs, h⟩ := Except.bind_eq_ok.1 h
    cases h
    intro q hq
    rcases List.mem_cons.1 hq with rfl | hq
    · exact Path.parse_plain hp
    · exact ih hqs q hq

theorem Outline.Plain.addEntry {group raw : String} {e : Entry} {o o' : Outline} (h : o.Plain)
    (ho : o.addEntry group raw e = .ok o') : o'.Plain := by
  have hadd : ∀ x : Draft, (∀ p ∈ x.out :: x.deps, p.Plain) →
      ∀ y ∈ o.drafts ++ [x], ∀ p ∈ y.out :: y.deps, p.Plain := by
    intro x hx y hy
    rcases List.mem_append.1 hy with hy | hy
    · exact h.drafts y hy
    · exact List.mem_singleton.1 hy ▸ hx
  cases added ho with
  | computed hout _ _ _ hdeps =>
    exact ⟨hadd _ (List.forall_mem_cons.2 ⟨Path.parse_plain hout, plain_of_mapM hdeps⟩), h.reserved⟩
  | link hout _ _ hsource _ =>
    refine ⟨hadd _ (List.forall_mem_cons.2 ⟨Path.parse_plain hout, fun p hp => ?_⟩), h.reserved⟩
    exact List.mem_singleton.1 hp ▸ Path.parse_plain hsource
  | reserved _ _ hout _ =>
    refine ⟨h.drafts, fun p hp => ?_⟩
    rcases List.mem_append.1 hp with hp | hp
    · exact h.reserved p hp
    · exact List.mem_singleton.1 hp ▸ Path.parse_plain hout

theorem Outline.ofDeclaration_plain {d : Declaration} {o : Outline} (h : ofDeclaration d = .ok o) : o.Plain := by
  have hempty : empty.Plain := ⟨nofun, nofun⟩
  exact ofDeclaration_keeps hempty (fun hb he => Plain.addEntry hb he) h

namespace Graph

variable {d d' : Declaration} {n n' : Nat} {g g' : Graph}

/-- The paths that the digest goes over. -/
def told (g : Graph) : List Path := g.table.paths ++ g.reserved

/-- No path has a closing byte in its text. -/
def Unmarked (g : Graph) : Prop := ∀ p ∈ g.told, ∀ b ∈ Digest.bytes p.text, ¬ Closes b

theorem compile_plain (h : compile d n = .ok g) : ∀ p ∈ g.told, p.Plain := by
  obtain ⟨o, ho, hreserved, htable, -⟩ := compile_outline h
  have hplain := Outline.ofDeclaration_plain ho
  intro p hp
  rcases List.mem_append.1 hp with hp | hp
  · rw [htable] at hp
    obtain ⟨q, hq, hcovers⟩ := PathTable.mem_ofPaths.1 hp
    obtain ⟨x, hx, hq⟩ := List.mem_flatMap.1 hq
    exact (hplain.drafts x (List.mem_mergeSort.1 hx) q hq).of_covers hcovers
  · exact hplain.reserved p (hreserved ▸ hp)

/-- A graph without steps has no paths. -/
theorem paths_eq_nil (h : compile d n = .ok g) : g.table.paths = [] ↔ g.steps = [] := by
  obtain ⟨o, -, htable, hsteps, -⟩ := compile_eq_ok h
  rw [htable, hsteps]
  cases hsorted : o.sorted with
  | nil =>
    refine ⟨fun _ => rfl, fun _ => List.eq_nil_iff_forall_not_mem.2 fun p hp => ?_⟩
    obtain ⟨q, hq, -⟩ := PathTable.mem_ofPaths.1 hp
    rw [hsorted] at hq
    cases hq
  | cons x l =>
    have hx : x.out ∈ o.table.paths :=
      PathTable.mem_ofPaths.2 ⟨x.out, List.mem_flatMap.2 ⟨x, hsorted ▸ List.mem_cons_self, List.mem_cons_self⟩,
        Path.covers_refl x.out⟩
    exact ⟨fun hnil => absurd (hnil ▸ hx) List.not_mem_nil, nofun⟩

theorem compile_fits (h : compile d n = .ok g) (hsize : g.table.size < 2 ^ 32) : ∀ s ∈ g.steps, s.Fits := by
  have hwf := compile_wellFormed h
  obtain ⟨o, -, -, hsteps, -⟩ := compile_eq_ok h
  intro s hs
  obtain ⟨i, hi⟩ := List.mem_iff_getElem?.1 hs
  have hdeps : ∀ k ∈ s.deps, k < g.table.size := fun k hk => hwf.dep hi hk
  have hnodup : s.deps.Nodup := by
    rw [hsteps, getElem?_stepsFrom] at hi
    obtain ⟨x, -, rfl⟩ := Option.map_eq_some_iff.1 hi
    exact (increasing_tidy _).imp Nat.ne_of_lt
  have hcount : s.deps.length ≤ g.table.size := by
    have hsub : s.deps.Subperm (List.range g.table.size) :=
      List.subperm_of_subset hnodup fun k hk => List.mem_range.2 (hdeps k hk)
    simpa using hsub.length_le
  obtain ⟨p, hp, -⟩ := hwf.out hi
  exact ⟨Nat.lt_trans (PathTable.lt_size hp) hsize, fun k hk => Nat.lt_trans (hdeps k hk) hsize,
    Nat.lt_of_le_of_lt hcount hsize⟩

/-- The bytes that the digest is taken of. -/
def bytes (g : Graph) : List UInt8 := digestBytes g.table g.steps g.reserved

theorem bytes_eq (g : Graph) : g.bytes = Digest.bytes "converge-ir" ++
    (Digest.closed 0 g.table.paths ++ (g.steps.flatMap stepBytes ++ Digest.closed 1 g.reserved)) := by
  simp only [bytes, digestBytes, Digest.closed, List.append_assoc]

/-- A graph without steps has only its reserved paths in the bytes, which no path of a
table begins. -/
theorem steps_eq_nil_of_bytes (hg : compile d n = .ok g) (hg' : compile d' n' = .ok g') (hm : ∀ p ∈ g.told, p.Clear)
    (hm' : ∀ p ∈ g'.told, p.Clear) (h : g.bytes = g'.bytes) (hnil : g.steps = []) : g'.steps = [] := by
  rw [bytes_eq, bytes_eq, List.append_cancel_left_eq, hnil, (paths_eq_nil hg).2 hnil] at h
  by_contra hne
  cases hpaths : g'.table.paths with
  | nil => exact hne ((paths_eq_nil hg').1 hpaths)
  | cons p' ps' =>
    have hp' : p'.Clear := hm' p' (List.mem_append_left _ (hpaths ▸ List.mem_cons_self))
    cases hreserved : g.reserved with
    | nil => simp [hpaths, hreserved, Digest.closed] at h
    | cons p ps =>
      have hp : p.Clear := hm p (List.mem_append_right _ (hreserved ▸ List.mem_cons_self))
      simp only [hpaths, hreserved, Digest.closed, List.flatMap_cons, List.flatMap_nil, List.nil_append,
        List.append_assoc, List.cons_append] at h
      cases (hp.text_append_inj hp' (.inr rfl) (.inl rfl) h).2.1

/-- The bytes of steps, if there are any, do not begin as a text does. -/
theorem done_steps {l : List Step} (hl : l ≠ []) (x : List UInt8) : Digest.Done (l.flatMap stepBytes ++ x) := by
  cases l with
  | nil => exact absurd rfl hl
  | cons s l =>
    rw [List.flatMap_cons, List.append_assoc]
    exact done_stepBytes s _

variable (hg : compile d n = .ok g) (hg' : compile d' n' = .ok g')

include hg hg'

theorem content_of_bytes (hm : g.Unmarked) (hm' : g'.Unmarked) (hsize : g.table.size < 2 ^ 32)
    (h : g.bytes = g'.bytes) : g.content = g'.content := by
  have hclear : ∀ p ∈ g.told, p.Clear := fun p hp => ⟨compile_plain hg p hp, hm p hp⟩
  have hclear' : ∀ p ∈ g'.told, p.Clear := fun p hp => ⟨compile_plain hg' p hp, hm' p hp⟩
  have hnil : g.steps = [] ↔ g'.steps = [] :=
    ⟨steps_eq_nil_of_bytes hg hg' hclear hclear' h, steps_eq_nil_of_bytes hg' hg hclear' hclear h.symm⟩
  rw [bytes_eq, bytes_eq, List.append_cancel_left_eq] at h
  have htables : g.table.paths = g'.table.paths ∧ g.steps.flatMap stepBytes ++ Digest.closed 1 g.reserved =
      g'.steps.flatMap stepBytes ++ Digest.closed 1 g'.reserved := by
    by_cases hsteps : g.steps = []
    · have hpaths := (paths_eq_nil hg).2 hsteps
      have hpaths' := (paths_eq_nil hg').2 (hnil.1 hsteps)
      rw [hpaths, hpaths'] at h ⊢
      exact ⟨rfl, h⟩
    · exact Digest.closed_append_inj (.inl rfl) (fun p hp => hclear p (List.mem_append_left _ hp))
        (fun p hp => hclear' p (List.mem_append_left _ hp)) (done_steps hsteps _) (done_steps (mt hnil.2 hsteps) _) h
  obtain ⟨hpaths, hrest⟩ := htables
  have htable : g.table = g'.table := congrArg PathTable.mk hpaths
  obtain ⟨hsteps, hreserved⟩ := steps_append_inj (compile_fits hg hsize) (compile_fits hg' (htable ▸ hsize))
    (fun p hp => hclear p (List.mem_append_right _ hp)) (fun p hp => hclear' p (List.mem_append_right _ hp)) hrest
  rw [content, content, htable, hsteps, hreserved]

omit hg hg' in
theorem bytes_of_content (h : g.content = g'.content) : g.bytes = g'.bytes := by
  have hbytes : ∀ l : List Step, l.flatMap stepBytes = (l.map Step.hashed).flatMap fun s =>
      stepBytes ⟨0, s.1, s.2.2.1, s.2.2.2, none, s.2.1, "", ""⟩ := by
    intro l
    rw [List.flatMap_map]
    rfl
  have htable : g.table = g'.table := congrArg Content.table h
  have hsteps : g.steps.map Step.hashed = g'.steps.map Step.hashed := congrArg Content.steps h
  have hreserved : g.reserved = g'.reserved := congrArg Content.reserved h
  rw [bytes, bytes, digestBytes, digestBytes, hbytes, hbytes g'.steps, hsteps, htable, hreserved]

/-- Where no path has a closing byte in its text, the bytes tell the content. -/
theorem bytes_iff_content (hm : g.Unmarked) (hm' : g'.Unmarked) (hsize : g.table.size < 2 ^ 32) :
    g.bytes = g'.bytes ↔ g.content = g'.content :=
  ⟨content_of_bytes hg hg' hm hm' hsize, bytes_of_content⟩

/-- Of arrangements of one declaration, those with the reserved paths in one order have
the same bytes, and no others. -/
theorem Alike.bytes_iff_reserved (h : g.Alike g') (hm : g.Unmarked) (hm' : g'.Unmarked)
    (hsize : g.table.size < 2 ^ 32) : g.bytes = g'.bytes ↔ g.reserved = g'.reserved := by
  have hsteps : g.steps.map Step.hashed = g'.steps.map Step.hashed := by
    have hungrouped := congrArg (List.map Step.hashed) h.steps
    rw [List.map_map, List.map_map] at hungrouped
    exact hungrouped
  refine ⟨fun hbytes => congrArg Content.reserved (content_of_bytes hg hg' hm hm' hsize hbytes), fun hr => ?_⟩
  exact bytes_of_content (by rw [content, content, h.table, hsteps, hr])

end Graph

namespace Shelf

/-- The places the other way round are other bytes. -/
theorem swapped_bytes : Graph.compile declaration 1 = .ok (graph "shelf" [x, y]) ∧
    Graph.compile swapped 1 = .ok (graph "shelf" [y, x]) ∧
    ((graph "shelf" [x, y]).bytes = (graph "shelf" [y, x]).bytes ↔
      (graph "shelf" [x, y]).content = (graph "shelf" [y, x]).content) ∧
    (graph "shelf" [x, y]).content ≠ (graph "shelf" [y, x]).content := by
  have hunmarked : ∀ ps, ps = [x, y] ∨ ps = [y, x] → (graph "shelf" ps).Unmarked := by
    rintro ps (rfl | rfl) <;> unfold Graph.Unmarked <;> decide +kernel
  exact ⟨compile_eq, compile_swapped, Graph.bytes_iff_content compile_eq compile_swapped (hunmarked _ (.inl rfl))
    (hunmarked _ (.inr rfl)) (by decide), by decide⟩

end Shelf

/-! ## Closing bytes in texts -/

namespace Blurred

def derive : Derive := .ofRun none fun _ => ⟨.ok .null, []⟩

def step (deps : List String) : Entry := .computed ⟨deps, derive, none, .immediate⟩

/-- One field reads another; the first has a zero in its text. -/
def one : Declaration := (Declaration.named "m").group ⟨"g", [("a\x00b", step ["k"])]⟩

/-- Here the second has it. -/
def other : Declaration := (Declaration.named "m").group ⟨"g", [("a", step ["b\x00k"])]⟩

def graph (paths : List Path) (out : String) : Graph where
  moduleId := "m"
  table := ⟨paths⟩
  steps := [⟨0, .computed, 0, [1], none, .immediate, out, "g"⟩]
  bodies := [.computed derive none]
  orders := ⟨⟨[0], []⟩, ⟨[0], []⟩, ⟨[], []⟩⟩
  levels := [[0]]
  reserved := []
  shapeWarnings := []
  generation := 1

def oneGraph : Graph := graph [⟨["a\x00b"], by decide⟩, ⟨["k"], by decide⟩] "a\x00b"

def otherGraph : Graph := graph [Relay.a, ⟨["b\x00k"], by decide⟩] "a"

/-- Places alone. -/
def places (texts : List String) : Declaration :=
  (Declaration.named "m").group ⟨"g", texts.map fun t => (t, .node)⟩

def placesGraph (reserved : List Path) : Graph :=
  ⟨"m", ⟨[]⟩, [], [], ⟨⟨[], []⟩, ⟨[], []⟩, ⟨[], []⟩⟩, [], reserved, [], 1⟩

def onePlace : Graph := placesGraph [⟨["a\x01b"], by decide⟩]

def twoPlaces : Graph := placesGraph [Relay.a, Relay.b]

theorem compile_one : Graph.compile one 1 = .ok oneGraph := by
  unfold oneGraph graph
  cbv

theorem compile_other : Graph.compile other 1 = .ok otherGraph := by
  unfold otherGraph graph
  cbv

theorem compile_places : Graph.compile (places ["a\x01b"]) 1 = .ok onePlace ∧
    Graph.compile (places ["a", "b"]) 1 = .ok twoPlaces := by
  unfold onePlace twoPlaces placesGraph
  refine ⟨?_, ?_⟩ <;> cbv

/-- Graphs over different paths, and graphs of one place and of two, that are the same to
the digest. -/
theorem same_bytes : (Graph.compile one 1 = .ok oneGraph ∧ Graph.compile other 1 = .ok otherGraph ∧
      oneGraph.bytes = otherGraph.bytes ∧ oneGraph.table ≠ otherGraph.table) ∧
    Graph.compile (places ["a\x01b"]) 1 = .ok onePlace ∧ Graph.compile (places ["a", "b"]) 1 = .ok twoPlaces ∧
      onePlace.bytes = twoPlaces.bytes ∧ onePlace.reserved ≠ twoPlaces.reserved :=
  ⟨⟨compile_one, compile_other, by decide +kernel, by decide⟩, compile_places.1, compile_places.2, by decide +kernel,
    by decide⟩

end Blurred

end Settle
