/-
  Settle.Proofs.Tried — passes that were run, and what the failed ones gave up (see
  `Settle.Executor`).

  A pass in which a derive function fails leaves the state as it was and hands nothing
  back. The steps that it had due are not due after it, and they stay as they are until a
  pass that does not fail takes them up: one that has them due, or that runs every step of
  its scope. Until then they are abandoned (`Abandoned`).
-/

import Settle.Proofs.Carry

namespace Settle

/-- A pass that was run: what it was to work on, whether it ran every step of its scope,
and whether a derive function failed. -/
structure Tried where
  scope : Scope
  dirty : DirtySet
  carried : Option Carried
  full : Bool
  failed : Bool

/-- The pass had the step due. -/
def Tried.Asks (g : Graph) (w : Wiring) (t : Tried) (j : StepId) : Prop :=
  j ∈ w.order t.scope ∧ g.Due t.dirty t.carried j

/-- The pass did not fail, and had the step due or ran every step of its scope. -/
def Tried.TakesUp (g : Graph) (w : Wiring) (t : Tried) (j : StepId) : Prop :=
  t.failed = false ∧ j ∈ w.order t.scope ∧ (g.Due t.dirty t.carried j ∨ t.full = true)

/-- A pass that failed had the step due, and none of these has taken it up since. -/
def Abandoned (g : Graph) (w : Wiring) (ts : List Tried) (j : StepId) : Prop :=
  ∃ before t after, ts = before ++ t :: after ∧ t.failed = true ∧ t.Asks g w j ∧ ∀ t' ∈ after, ¬ t'.TakesUp g w j

/-- The step was abandoned in these passes, or given up before them and not taken up. -/
def GivenUp (g : Graph) (w : Wiring) (X : StepId → Prop) (ts : List Tried) (j : StepId) : Prop :=
  Abandoned g w ts j ∨ X j ∧ ∀ t ∈ ts, ¬ t.TakesUp g w j

variable {g : Graph} {w : Wiring} {X Y : StepId → Prop} {t : Tried} {ts ts' : List Tried} {j : StepId}

theorem not_abandoned_of_ran (hran : ∀ t ∈ ts, t.failed = false) : ¬ Abandoned g w ts j := by
  rintro ⟨before, t, after, rfl, hfailed, -⟩
  rw [hran t (List.mem_append_right _ List.mem_cons_self)] at hfailed
  cases hfailed

namespace GivenUp

@[simp] theorem nil : GivenUp g w X [] j ↔ X j := by
  constructor
  · rintro (⟨before, t, after, he, -⟩ | ⟨hx, -⟩)
    · cases before <;> cases he
    · exact hx
  · exact fun hx => .inr ⟨hx, fun _ ht => absurd ht List.not_mem_nil⟩

/-- A failed pass abandons what it had due, and takes nothing up. -/
theorem of_failed (hf : t.failed = true) (h : X j ∨ t.Asks g w j) : GivenUp g w X [t] j := by
  rcases h with hx | ha
  · refine .inr ⟨hx, fun t' ht hup => ?_⟩
    rw [List.mem_singleton.1 ht] at hup
    exact Bool.false_ne_true (hup.1.symm.trans hf)
  · exact .inl ⟨[], t, [], rfl, hf, ha, fun _ ht => absurd ht List.not_mem_nil⟩

theorem of_not_takesUp (hx : X j) (hn : ∀ t ∈ ts, ¬ t.TakesUp g w j) : GivenUp g w X ts j := .inr ⟨hx, hn⟩

/-- Passes over a scope leave given up what is not in it. -/
theorem of_scope {scope : Scope} (hx : X j) (hscope : ∀ t ∈ ts, t.scope = scope) (hj : j ∉ w.order scope) :
    GivenUp g w X ts j := of_not_takesUp hx fun t ht hup => hj (hscope t ht ▸ hup.2.1)

theorem append (h : GivenUp g w (GivenUp g w X ts) ts' j) : GivenUp g w X (ts ++ ts') j := by
  rcases h with ⟨before, t, after, rfl, hlast⟩ | ⟨h, hn'⟩
  · exact .inl ⟨ts ++ before, t, after, (List.append_assoc _ _ _).symm, hlast⟩
  · rcases h with ⟨before, t, after, rfl, hf, ha, hn⟩ | ⟨hx, hn⟩
    · refine .inl ⟨before, t, after ++ ts', by rw [List.append_assoc, List.cons_append], hf, ha, fun t' ht => ?_⟩
      exact (List.mem_append.1 ht).elim (hn t') (hn' t')
    · exact .inr ⟨hx, fun t ht => (List.mem_append.1 ht).elim (hn t) (hn' t)⟩

theorem or (h : GivenUp g w (fun j => X j ∨ Y j) ts j) : GivenUp g w X ts j ∨ Y j := by
  rcases h with h | ⟨hx | hy, hn⟩
  · exact .inl (.inl h)
  · exact .inl (.inr ⟨hx, hn⟩)
  · exact .inr hy

/-- Passes that did not fail give nothing up. -/
theorem of_ran (h : GivenUp g w X ts j) (hran : ∀ t ∈ ts, t.failed = false) : X j :=
  (h.resolve_left (not_abandoned_of_ran hran)).1

end GivenUp

end Settle
