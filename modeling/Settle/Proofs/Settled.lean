/-
  Settle.Proofs.Settled — settled steps, and what unsettles them (see `Settle.Pass.Sweep`).

  A step is settled in a state when evaluating it there changes nothing. What a step
  comes to depends on its inputs alone (`effect_congr`), given that derive functions read
  no more than their dependencies (`Graph.Local`). So a write unsettles only steps that
  its path may move (`effect_write`), and a step that has written its own field is
  settled (`effect_of_write`), given that it does not read that field itself and that its
  equality takes every value for itself.
-/

import Settle.Pass.Sweep
import Settle.Proofs.State
import Settle.Proofs.Wiring

namespace Settle

/-! ## Values -/

mutual
theorem Value.same_refl : (v : Value) → v.same v = true
  | .null => rfl
  | .bool b => by simp [Value.same]
  | .int n => by simp [Value.same]
  | .double d => by simp [Value.same, Double.same]
  | .str s => by simp [Value.same]
  | .arr items => by rw [Value.same]; exact sameItems_refl items
  | .obj fields => by rw [Value.same]; exact sameFields_refl fields
theorem Value.sameItems_refl : (l : List Value) → Value.sameItems l l = true
  | [] => rfl
  | v :: rest => by rw [Value.sameItems, Value.same_refl v, Value.sameItems_refl rest]; rfl
theorem Value.sameFields_refl : (l : List (String × Value)) → Value.sameFields l l = true
  | [] => rfl
  | (k, v) :: rest => by
    rw [Value.sameFields, Value.same_refl v, Value.sameFields_refl rest, beq_self_eq_true]
    rfl
end

/-- A value at a field as a change of it: what was there and the value, if they differ. -/
def changeTo (equality : Option Equality) (prev : Option Value) (next : Value) : Option (Option Value × Value) :=
  if Pass.unchanged equality prev next then none else some (prev, next)

theorem changeTo_eq_some {equality : Option Equality} {prev prev' : Option Value} {next next' : Value}
    (h : changeTo equality prev next = some (prev', next')) : prev = prev' ∧ next = next' := by
  unfold changeTo at h
  split at h
  · cases h
  · cases h
    exact ⟨rfl, rfl⟩

/-- A field that has the value does not change. -/
theorem changeTo_self {equality : Option Equality} (h : ∀ eq, equality = some eq → ∀ v, eq v v = true) (v : Value) :
    changeTo equality (some v) v = none := by
  refine if_pos ?_
  cases equality with
  | none => exact Value.same_refl v
  | some eq => exact h eq rfl v

namespace Graph

/-- What evaluating a step of the graph would write, if anything: the value there and the
next one. -/
def effect (g : Graph) (i : StepId) (v : Value) : Except Fault (Option (Option Value × Value)) :=
  match g.step? i, g.body? i with
  | some s, some body => (Pass.evaluate g s body v true).map (·.change)
  | _, _ => .ok none

/-- Evaluating the step changes nothing. -/
def Settled (g : Graph) (v : Value) (i : StepId) : Prop := g.effect i v = .ok none

/-- Two states read alike at a path. -/
def SameAt (g : Graph) (a b : Value) (d : PathId) : Prop :=
  ∀ p, g.table.path? d = some p → State.read a p = State.read b p

/-! ## What derive functions are taken to do -/

/-- What a derive function gives depends on its dependencies alone. -/
def Local (g : Graph) : Prop :=
  ∀ i s derive equality, g.step? i = some s → g.body? i = some (.computed derive equality) →
    ∀ a b, (∀ d ∈ s.deps, g.SameAt a b d) → (derive.run a).outcome = (derive.run b).outcome

/-- Equalities take every value for itself. -/
def Reflexive (g : Graph) : Prop :=
  ∀ i derive equality, g.body? i = some (.computed derive (some equality)) → ∀ v, equality v v = true

/-- No step depends on what it writes. -/
def SelfFree (g : Graph) : Prop :=
  ∀ i s, g.step? i = some s → ∀ d ∈ s.deps, g.table.overlap d s.out = false

/-- Derive functions never fail. -/
def Total (g : Graph) : Prop :=
  ∀ i derive equality, g.body? i = some (.computed derive equality) → ∀ v, ∃ next, (derive.run v).outcome = .ok next

variable {g : Graph} {i : StepId} {s : Step} {a b v : Value}

/-- Tracing has no part in it. -/
theorem effect_eq {body : Body} (hs : g.step? i = some s) (hb : g.body? i = some body) (v : Value) (traced : Bool) :
    g.effect i v = (Pass.evaluate g s body v traced).map (·.change) := by
  simp only [effect, hs, hb]
  cases body with
  | link => rfl
  | computed derive equality =>
    dsimp only [Pass.evaluate]
    rw [derive.call_outcome, derive.call_outcome]
    cases (derive.run v).outcome <;> rfl

theorem WellFormed.exists_body (h : g.WellFormed) (hs : g.step? i = some s) : ∃ body, g.body? i = some body := by
  have hlt : i < g.bodies.length := h.length_bodies ▸ (List.getElem?_eq_some_iff.1 hs).1
  exact ⟨_, List.getElem?_eq_getElem hlt⟩

/-! ## Effects depend on inputs -/

/-- What a computed step comes to, by what its derive function gives. -/
theorem effect_computed {derive : Derive} {equality : Option Equality} (hs : g.step? i = some s)
    (hb : g.body? i = some (.computed derive equality)) (v : Value) :
    g.effect i v = (derive.run v).outcome.map (changeTo equality ((g.table.path? s.out).bind (State.lookup v))) := by
  rw [effect_eq hs hb v true, Pass.evaluate]
  dsimp only
  rw [derive.call_outcome]
  cases (derive.run v).outcome <;> rfl

/-- What a link comes to, by what is at its source. -/
theorem effect_link (hs : g.step? i = some s) (hb : g.body? i = some .link) (v : Value) :
    g.effect i v = .ok (((s.source.bind g.table.path?).bind (State.read v)).bind
      (changeTo none ((g.table.path? s.out).bind (State.lookup v)))) := by
  rw [effect_eq hs hb v true, Pass.evaluate]
  rfl

/-- The source of a link is a dependency of its step. -/
theorem WellFormed.exists_source (hg : g.WellFormed) (hs : g.step? i = some s) (hb : g.body? i = some .link) :
    ∃ d ∈ s.deps, ∃ q, g.table.path? d = some q ∧ s.source.bind g.table.path? = some q := by
  obtain ⟨d, hd, hsrc⟩ := hg.link hs hb
  obtain ⟨q, hq⟩ := PathTable.exists_path? (hg.dep hs hd)
  exact ⟨d, hd, q, hq, by rw [hsrc, Option.bind_some, hq]⟩

/-- States that read alike at the inputs of a step let it come to the same. -/
theorem effect_congr (hg : g.WellFormed) (hl : g.Local) (hs : g.step? i = some s)
    (hin : ∀ d ∈ s.inputs, g.SameAt a b d) : g.effect i a = g.effect i b := by
  obtain ⟨body, hb⟩ := hg.exists_body hs
  obtain ⟨p, hp, hw⟩ := hg.out hs
  have hprev : State.lookup a p = State.lookup b p := by
    rw [← State.read_eq_lookup hw, ← State.read_eq_lookup hw]
    exact hin s.out (Step.mem_inputs.2 (.inr rfl)) p hp
  have hdeps : ∀ d ∈ s.deps, g.SameAt a b d := fun d hd => hin d (Step.mem_inputs.2 (.inl hd))
  cases body with
  | computed derive equality =>
    rw [effect_computed hs hb, effect_computed hs hb, hl i s derive equality hs hb a b hdeps]
    simp only [hp, Option.bind_some, hprev]
  | link =>
    obtain ⟨d, hd, q, hq, hsrc⟩ := hg.exists_source hs hb
    rw [effect_link hs hb, effect_link hs hb]
    simp only [hsrc, hp, Option.bind_some, hdeps d hd q hq, hprev]

/-- A write that fits changes nothing for the steps it may not move. -/
theorem effect_write (hg : g.WellFormed) (hl : g.Local) {p : Path} (hw : p.hasWildcard = false)
    (hf : State.fits v p.segments) (hm : ¬ g.Moves p i) (next : Value) :
    g.effect i (State.write v p next).state = g.effect i v := by
  cases hs : g.step? i with
  | none => simp [effect, hs]
  | some s =>
    refine effect_congr hg hl hs fun d hd q hq => ?_
    exact State.read_write hw hf (fun ho => hm ⟨s, d, q, hs, hd, hq, ho⟩) next

theorem Settled.write (hg : g.WellFormed) (hl : g.Local) {p : Path} (hw : p.hasWildcard = false)
    (hf : State.fits v p.segments) (hm : ¬ g.Moves p i) {next : Value} :
    g.Settled (State.write v p next).state i ↔ g.Settled v i := by
  rw [Settled, effect_write hg hl hw hf hm]
  exact Iff.rfl

/-! ## A step that has written -/

/-- What it writes settles a step. -/
theorem effect_of_write (hg : g.WellFormed) (hl : g.Local) (hr : g.Reflexive) (hself : g.SelfFree)
    (hs : g.step? i = some s) {p : Path} (hp : g.table.path? s.out = some p) (hf : State.fits v p.segments)
    {prev : Option Value} {next : Value} (he : g.effect i v = .ok (some (prev, next))) :
    g.Settled (State.write v p next).state i := by
  obtain ⟨body, hb⟩ := hg.exists_body hs
  obtain ⟨p', hp', hw⟩ := hg.out hs
  obtain rfl : p = p' := Option.some.inj (hp.symm.trans hp')
  have hdeps : ∀ d ∈ s.deps, g.SameAt (State.write v p next).state v d := fun d hd q hq => by
    have hno := hself i s hs d hd
    rw [PathTable.overlap_iff hq hp] at hno
    exact State.read_write hw hf (by rw [hno]; exact Bool.false_ne_true) next
  unfold Settled
  cases body with
  | computed derive equality =>
    rw [effect_computed hs hb] at he ⊢
    rw [hl i s derive equality hs hb _ _ hdeps]
    cases ho : (derive.run v).outcome with
    | error fault => rw [ho] at he; cases he
    | ok value =>
      rw [ho] at he
      obtain ⟨-, rfl⟩ := changeTo_eq_some (Except.ok.inj he)
      rw [hp, Option.bind_some, State.lookup_write hw]
      exact congrArg Except.ok (changeTo_self (fun eq e => hr i derive eq (e ▸ hb)) value)
  | link =>
    obtain ⟨d, hd, q, hq, hsrc⟩ := hg.exists_source hs hb
    rw [effect_link hs hb, hsrc, Option.bind_some] at he ⊢
    rw [hdeps d hd q hq]
    cases hread : State.read v q with
    | none => rfl
    | some value =>
      rw [hread] at he
      obtain ⟨-, rfl⟩ := changeTo_eq_some (Except.ok.inj he)
      rw [hp, Option.bind_some, Option.bind_some, State.lookup_write hw]
      exact congrArg Except.ok (@changeTo_self none nofun value)

/-- Derive functions that never fail leave no step without an effect. -/
theorem exists_effect (ht : g.Total) (i : StepId) (v : Value) : ∃ change, g.effect i v = .ok change := by
  cases hs : g.step? i with
  | none => exact ⟨none, by simp [effect, hs]⟩
  | some s =>
    cases hb : g.body? i with
    | none => exact ⟨none, by simp [effect, hs, hb]⟩
    | some body =>
      cases body with
      | computed derive equality =>
        obtain ⟨next, hn⟩ := ht i derive equality hb v
        rw [effect_computed hs hb, hn]
        exact ⟨_, rfl⟩
      | link =>
        rw [effect_link hs hb]
        exact ⟨_, rfl⟩

/-! ## Graphs that are spelled out -/

/-- It is enough to look at each step beside its body. -/
theorem local_of_zip (h : ∀ s derive equality, (s, Body.computed derive equality) ∈ g.steps.zip g.bodies →
    ∀ a b, (∀ d ∈ s.deps, g.SameAt a b d) → (derive.run a).outcome = (derive.run b).outcome) : g.Local := by
  intro i s derive equality hs hb
  exact h s derive equality (List.mem_of_getElem? (List.getElem?_zip_eq_some.2 ⟨hs, hb⟩))

theorem reflexive_of_mem (h : ∀ derive equality, Body.computed derive (some equality) ∈ g.bodies →
    ∀ v, equality v v = true) : g.Reflexive :=
  fun _ derive equality hb => h derive equality (List.mem_of_getElem? hb)

theorem total_of_mem (h : ∀ derive equality, Body.computed derive equality ∈ g.bodies →
    ∀ v, ∃ next, (derive.run v).outcome = .ok next) : g.Total :=
  fun _ derive equality hb => h derive equality (List.mem_of_getElem? hb)

theorem selfFree_iff : g.SelfFree ↔ ∀ s ∈ g.steps, ∀ d ∈ s.deps, g.table.overlap d s.out = false := by
  constructor
  · intro h s hs
    obtain ⟨i, hi⟩ := List.mem_iff_getElem?.1 hs
    exact h i s hi
  · exact fun h i s hs => h s (List.mem_of_getElem? hs)

instance (g : Graph) : Decidable g.SelfFree := decidable_of_iff _ selfFree_iff.symm

end Graph

end Settle
