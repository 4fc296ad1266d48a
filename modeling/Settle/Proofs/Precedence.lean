/-
  Settle.Proofs.Precedence — which layer a setting in force comes from (see
  `Settle.Policy.Layer`).

  Patches laid over a record one after the other leave each field as the highest of them
  sets it (`Layers.foldl_highest`). So does the resolution of every policy
  (`Policies.resolve_layered`), with three exceptions that are made after the layers: an
  override mode turns lanes off, an unbounded limit has to be allowed, and a channel has
  room for one payload at least.

  A layer counts as one that sets something when there is a record that it changes
  (`ConvergencePatch.sets_eq_false_iff` and its neighbours).
-/

import Settle.Policy

namespace Settle.Policy

/-! ## The highest layer -/

namespace Layers

variable {P T α : Type} {layers : Layers P} {options : P}

/-- What the highest of the override layers has to say. -/
def highest (layers : Layers P) (f : Layer → P → Option α) : Option α :=
  (layers.provider.bind (f .provider)).or
    ((layers.engineModule.bind (f .engineModule)).or (layers.engineDefault.bind (f .engineDefault)))

/-- What the highest of all layers has to say; a module's own options are the lowest. -/
def setting (layers : Layers P) (options : P) (f : Layer → P → Option α) : Option α :=
  (layers.highest f).or (f .builtin options)

/-- Where each layer in turn puts in what it has to say and keeps the rest, the highest one
is heard. -/
theorem foldl_highest (step : T → Layer → P → T) (get : T → α) {f : Layer → P → Option α}
    (hstep : ∀ t l p, get (step t l p) = (f l p).getD (get t)) (t : T) (layers : Layers P) :
    get (layers.toList.foldl (fun t x => step t x.1 x.2) t) = (layers.highest f).getD (get t) := by
  obtain ⟨d, m, p⟩ := layers
  cases d <;> cases m <;> cases p <;> simp [toList, highest, hstep, Option.getD_or]

/-- The same from the module's own options on, which are laid over the builtin record. -/
theorem foldl_setting (step : T → Layer → P → T) (get : T → α) {f : Layer → P → Option α}
    (hstep : ∀ t l p, get (step t l p) = (f l p).getD (get t)) (builtin : T) (options : P) (layers : Layers P) :
    get (layers.toList.foldl (fun t x => step t x.1 x.2) (step builtin .builtin options)) =
      (layers.setting options f).getD (get builtin) := by
  rw [foldl_highest step get hstep, hstep, setting, Option.getD_or]

/-- What is heard of a setting that may be unset, as a setting of its own. -/
theorem getD_setting_map_some (layers : Layers P) (options : P) (f : Layer → P → Option α) :
    (layers.setting options fun l p => (f l p).map some).getD none = layers.setting options f := by
  have hgetD (a b : Option α) : (a.map some).getD b = a.or b := by cases a <;> rfl
  obtain ⟨d, m, p⟩ := layers
  cases d <;> cases m <;> cases p <;> simp [setting, highest, hgetD, Option.or_assoc]

/-- What is left of an option that is heard when only some of its values are: nothing of
nothing, and a value that passes the test as it is. -/
def Passes (q : α → Bool) (x x' : Option α) : Prop :=
  (x = none → x' = none) ∧ ∀ a, q a = true → x = some a → x' = some a

theorem Passes.or {q : α → Bool} {x x' y y' : Option α} (hx : Passes q x x') (hy : Passes q y y') :
    Passes q (x.or y) (x'.or y') := by
  constructor
  · intro h
    obtain ⟨hxn, hyn⟩ := Option.or_eq_none_iff.mp h
    rw [hx.1 hxn, hy.1 hyn, Option.none_or]
  · intro a hq h
    rcases Option.or_eq_some_iff.mp h with h | ⟨hxn, h⟩
    · rw [hx.2 a hq h, Option.some_or]
    · rw [hx.1 hxn, hy.2 a hq h, Option.none_or]

theorem Passes.filter (q : α → Bool) (x : Option α) : Passes q x (x.filter q) :=
  ⟨fun h => by rw [h, Option.filter_none], fun _ hq h => by rw [h, Option.filter_some_pos hq]⟩

theorem Passes.bind (q : α → Bool) (o : Option P) (f : P → Option α) :
    Passes q (o.bind f) (o.bind fun p => (f p).filter q) := by
  cases o with
  | none => exact ⟨fun _ => rfl, fun _ _ h => nomatch h⟩
  | some p => exact Passes.filter q (f p)

/-- Where what the highest layer says passes a test, it is also what the highest of those
that pass says. -/
theorem getD_setting_filter {f : Layer → P → Option α} {q : α → Bool} {b : α}
    (hq : q ((layers.setting options f).getD b) = true) :
    (layers.setting options fun l p => (f l p).filter q).getD b = (layers.setting options f).getD b := by
  have hpasses : Passes q (layers.setting options f) (layers.setting options fun l p => (f l p).filter q) :=
    .or (.or (.bind q _ _) (.or (.bind q _ _) (.bind q _ _))) (.filter q _)
  cases h : layers.setting options f with
  | none => rw [hpasses.1 h]
  | some a =>
    rw [h, Option.getD_some] at hq
    rw [hpasses.2 a hq h]

end Layers

section

variable {P T α : Type} {builtin : T} {apply : P → T → T} {sets : P → Bool}

/-- A field of a resolved record. -/
theorem resolve_setting (get : T → α) {f : P → Option α} (hget : ∀ p t, get (apply p t) = (f p).getD (get t))
    (options : P) (layers : Layers P) :
    get (resolve builtin apply sets options layers).value =
      (layers.setting options fun _ => f).getD (get builtin) := by
  have hfold := Layers.foldl_highest (T := Resolved T) (f := fun _ => f)
    (fun r l p => ⟨apply p r.value, if sets p then l else r.layer⟩) (fun r => get r.value)
    (fun r _ p => hget p r.value) ⟨apply options builtin, .builtin⟩ layers
  rw [Layers.setting, Option.getD_or, ← hget]
  exact hfold

/-- A field of a resolved record that no patch can unset. -/
theorem resolve_setting_or (get : T → Option α) {f : P → Option α}
    (hget : ∀ p t, get (apply p t) = (f p).or (get t)) (hbuiltin : get builtin = none) (options : P)
    (layers : Layers P) :
    get (resolve builtin apply sets options layers).value = layers.setting options fun _ => f := by
  have hgetD (p : P) (t : T) : get (apply p t) = ((f p).map some).getD (get t) := by
    rw [hget]
    cases f p <;> rfl
  rw [resolve_setting get hgetD, hbuiltin, Layers.getD_setting_map_some]

theorem resolve_layer (options : P) (layers : Layers P) :
    (resolve builtin apply sets options layers).layer =
      (layers.highest fun l p => if sets p then some l else none).getD .builtin := by
  refine Layers.foldl_highest (T := Resolved T) (fun r l p => ⟨apply p r.value, if sets p then l else r.layer⟩)
    Resolved.layer (fun r l p => ?_) ⟨apply options builtin, .builtin⟩ layers
  dsimp only
  split <;> rfl

end

/-! ## Patches -/

/-- Two values between them tell whether a field is set. -/
theorem eq_none_of_getD {α : Type} {o : Option α} {a b : α} (ha : o.getD a = a) (hb : o.getD b = b) (hab : a ≠ b) :
    o = none := by
  cases o with
  | none => rfl
  | some x => exact absurd (ha.symm.trans hb) hab

/-- A patch sets nothing exactly if there are no settings that it changes. -/
theorem ConvergencePatch.sets_eq_false_iff (p : ConvergencePatch) : p.sets = false ↔ ∀ c, p.apply c = c := by
  obtain ⟨mode, budget, decision, cap, slicing⟩ := p
  constructor
  · intro h c
    simp only [sets, TimeSlicingPatch.sets, Bool.or_eq_false_iff, Option.isSome_eq_false_iff,
      Option.isNone_iff_eq_none] at h
    obtain ⟨⟨⟨⟨rfl, rfl⟩, rfl⟩, rfl⟩, ⟨henabled, hdebounce⟩, hlag⟩ := h
    simp [apply, TimeSlicingPatch.apply, henabled, hdebounce, hlag]
  · intro h
    have h₁ := h .builtin
    have h₂ := h ⟨.full, 0, .zero, none, ⟨true, 0, 0⟩⟩
    simp only [apply, TimeSlicingPatch.apply, Convergence.builtin, TimeSlicing.builtin, Convergence.mk.injEq,
      TimeSlicing.mk.injEq] at h₁ h₂
    obtain ⟨hmode, hbudget, hdecision, -, henabled, hdebounce, hlag⟩ := h₁
    obtain ⟨hmode', hbudget', hdecision', hcap, henabled', hdebounce', hlag'⟩ := h₂
    have hcap : cap = none := by simpa using hcap
    simp [sets, TimeSlicingPatch.sets, eq_none_of_getD hmode hmode' (by decide),
      eq_none_of_getD hbudget hbudget' (by decide), eq_none_of_getD hdecision hdecision' (by decide), hcap,
      eq_none_of_getD henabled henabled' (by decide), eq_none_of_getD hdebounce hdebounce' (by decide),
      eq_none_of_getD hlag hlag' (by decide)]

theorem LanePatch.sets_eq_false_iff (p : LanePatch) : p.sets = false ↔ ∀ s, p.apply s = s := by
  obtain ⟨enabled, mode, budget, debounce, lag, coalesce, yielding⟩ := p
  constructor
  · intro h s
    simp only [sets, Bool.or_eq_false_iff, Option.isSome_eq_false_iff, Option.isNone_iff_eq_none] at h
    obtain ⟨⟨⟨⟨⟨⟨rfl, rfl⟩, rfl⟩, rfl⟩, rfl⟩, rfl⟩, rfl⟩ := h
    simp [apply]
  · intro h
    have h₁ := h .builtin
    have h₂ := h ⟨false, none, 0, 1, 0, false, .inputPending⟩
    simp only [apply, LaneSettings.builtin, LaneSettings.mk.injEq] at h₁ h₂
    obtain ⟨henabled, -, hbudget, hdebounce, hlag, hcoalesce, hyielding⟩ := h₁
    obtain ⟨henabled', hmode, hbudget', hdebounce', hlag', hcoalesce', hyielding'⟩ := h₂
    have hmode : mode = none := by simpa using hmode
    simp [sets, eq_none_of_getD henabled henabled' (by decide), hmode, eq_none_of_getD hbudget hbudget' (by decide),
      eq_none_of_getD hdebounce hdebounce' (by decide), eq_none_of_getD hlag hlag' (by decide),
      eq_none_of_getD hcoalesce hcoalesce' (by decide), eq_none_of_getD hyielding hyielding' (by decide)]

theorem ConcurrencyPatch.sets_eq_false_iff (p : ConcurrencyPatch) :
    p.sets = false ↔ ∀ c : Concurrency, c.overlay c.layer p = c := by
  obtain ⟨limit, capacity, unbounded, pressure, cooldown⟩ := p
  constructor
  · intro h c
    simp only [sets, Bool.or_eq_false_iff, Option.isSome_eq_false_iff, Option.isNone_iff_eq_none] at h
    obtain ⟨⟨⟨⟨rfl, rfl⟩, rfl⟩, rfl⟩, rfl⟩ := h
    simp [Concurrency.overlay, sets]
  · intro h
    have h₁ := h .builtin
    have h₂ := h ⟨.unbounded, .unbounded, .builtin, 0, true, ⟨0, 0⟩, 0, .builtin⟩
    simp only [Concurrency.overlay, Concurrency.builtin, Concurrency.mk.injEq] at h₁ h₂
    obtain ⟨-, hlimit, -, hcapacity, hunbounded, hpressure, hcooldown, -⟩ := h₁
    obtain ⟨-, hlimit', -, hcapacity', hunbounded', hpressure', hcooldown', -⟩ := h₂
    simp [sets, eq_none_of_getD hlimit hlimit' (by decide), eq_none_of_getD hcapacity hcapacity' (by decide),
      eq_none_of_getD hunbounded hunbounded' (by decide), eq_none_of_getD hpressure hpressure' (by decide),
      eq_none_of_getD hcooldown hcooldown' (by decide)]

/-! ## Policies -/

/-- The settings of passes and their layer, by precedence. -/
structure Convergence.Layered (r : Resolved Convergence) (options : ConvergencePatch)
    (layers : Layers ConvergencePatch) : Prop where
  mode : r.value.mode = (layers.setting options fun _ p => p.mode).getD builtin.mode
  budgetMs : r.value.budgetMs = (layers.setting options fun _ p => p.budgetMs).getD builtin.budgetMs
  decisionBudgetMs : r.value.decisionBudgetMs =
    (layers.setting options fun _ p => p.decisionBudgetMs).getD builtin.decisionBudgetMs
  stepCap : r.value.stepCap = layers.setting options fun _ p => p.stepCap
  enabled : r.value.timeSlicing.enabled =
    (layers.setting options fun _ p => p.timeSlicing.bind (·.enabled)).getD TimeSlicing.builtin.enabled
  debounceMs : r.value.timeSlicing.debounceMs =
    (layers.setting options fun _ p => p.timeSlicing.bind (·.debounceMs)).getD TimeSlicing.builtin.debounceMs
  maxLagMs : r.value.timeSlicing.maxLagMs =
    (layers.setting options fun _ p => p.timeSlicing.bind (·.maxLagMs)).getD TimeSlicing.builtin.maxLagMs
  layer : r.layer = (layers.highest fun l p => if p.sets then some l else none).getD .builtin

/-- The lane policy by precedence. An override mode of any layer turns lanes off. -/
structure Lanes.Layered (r : Lanes) (options : LanePatch) (layers : Layers LanePatch) : Prop where
  overrideMode : r.settings.overrideMode = layers.setting options fun _ p => p.overrideMode
  enabled : r.settings.enabled = if r.settings.overrideMode.isSome then false
    else (layers.setting options fun _ p => p.enabled).getD LaneSettings.builtin.enabled
  queueMode : r.queueMode = if r.settings.overrideMode.isSome then .fifo else .lanes
  budgetMs : r.settings.budgetMs = (layers.setting options fun _ p => p.budgetMs).getD LaneSettings.builtin.budgetMs
  debounceMs : r.settings.debounceMs =
    (layers.setting options fun _ p => p.debounceMs).getD LaneSettings.builtin.debounceMs
  maxLagMs : r.settings.maxLagMs = (layers.setting options fun _ p => p.maxLagMs).getD LaneSettings.builtin.maxLagMs
  allowCoalesce : r.settings.allowCoalesce =
    (layers.setting options fun _ p => p.allowCoalesce).getD LaneSettings.builtin.allowCoalesce
  yielding : r.settings.yielding = (layers.setting options fun _ p => p.yielding).getD LaneSettings.builtin.yielding
  layer : r.layer = (layers.highest fun l p => if p.sets then some l else none).getD .builtin

/-- The concurrency policy by precedence. An unbounded limit that is asked for and not
allowed leaves the highest bounded one in force. -/
structure Concurrency.Layered (r : Concurrency) (options : ConcurrencyPatch) (layers : Layers ConcurrencyPatch) :
    Prop where
  requested : r.requested = (layers.setting options fun _ p => p.limit).getD builtin.limit
  requestedLayer : r.requestedLayer = (layers.setting options fun l p => p.limit.map fun _ => l).getD .builtin
  limit : r.limit = if r.requested ≠ .unbounded ∨ r.allowUnbounded then r.requested
    else (layers.setting options fun _ p => p.limit.filter (· ≠ .unbounded)).getD builtin.limit
  capacity : r.capacity = max 1 ((layers.setting options fun _ p => p.capacity).getD builtin.capacity)
  allowUnbounded : r.allowUnbounded =
    (layers.setting options fun _ p => p.allowUnbounded).getD builtin.allowUnbounded
  pressure : r.pressure = (layers.setting options fun _ p => p.pressure).getD builtin.pressure
  warningCooldownMs : r.warningCooldownMs =
    (layers.setting options fun _ p => p.warningCooldownMs).getD builtin.warningCooldownMs
  layer : r.layer = (layers.highest fun l p => if p.sets then some l else none).getD .builtin

/-- A field of the time slicing, which a patch may leave out as a whole. -/
theorem TimeSlicingPatch.getD_bind {α : Type} (o : Option TimeSlicingPatch) {f : TimeSlicingPatch → Option α}
    (hempty : f .empty = none) : f (o.getD .empty) = o.bind f := by
  cases o with
  | none => exact hempty
  | some _ => rfl

theorem Convergence.layered (options : ConvergencePatch) (layers : Layers ConvergencePatch) :
    Layered (Policy.resolve builtin ConvergencePatch.apply ConvergencePatch.sets options layers) options layers where
  mode := resolve_setting Convergence.mode (fun _ _ => rfl) options layers
  budgetMs := resolve_setting Convergence.budgetMs (fun _ _ => rfl) options layers
  decisionBudgetMs := resolve_setting Convergence.decisionBudgetMs (fun _ _ => rfl) options layers
  stepCap := resolve_setting_or Convergence.stepCap (fun _ _ => Option.or_eq_orElse.symm) rfl options layers
  enabled := resolve_setting (fun c : Convergence => c.timeSlicing.enabled)
    (fun p _ => congrArg (Option.getD · _) (TimeSlicingPatch.getD_bind p.timeSlicing rfl)) options layers
  debounceMs := resolve_setting (fun c : Convergence => c.timeSlicing.debounceMs)
    (fun p _ => congrArg (Option.getD · _) (TimeSlicingPatch.getD_bind p.timeSlicing rfl)) options layers
  maxLagMs := resolve_setting (fun c : Convergence => c.timeSlicing.maxLagMs)
    (fun p _ => congrArg (Option.getD · _) (TimeSlicingPatch.getD_bind p.timeSlicing rfl)) options layers
  layer := resolve_layer options layers

theorem Lanes.layered (options : LanePatch) (layers : Layers LanePatch) :
    (Lanes.resolve options layers).Layered options layers := by
  generalize hr : Policy.resolve LaneSettings.builtin LanePatch.apply LanePatch.sets options layers = r
  have hoverride : r.value.overrideMode = layers.setting options fun _ p => p.overrideMode :=
    hr ▸ resolve_setting_or LaneSettings.overrideMode (fun _ _ => Option.or_eq_orElse.symm) rfl options layers
  have hresolve : Lanes.resolve options layers =
      ⟨{ r.value with enabled := if r.value.overrideMode.isSome then false else r.value.enabled },
        if r.value.overrideMode.isSome then .fifo else .lanes, r.layer⟩ := by
    rw [Lanes.resolve, hr]
    split <;> rfl
  subst hr
  rw [hresolve]
  exact {
    overrideMode := hoverride
    enabled := by
      dsimp only
      rw [resolve_setting LaneSettings.enabled (fun _ _ => rfl)]
    queueMode := rfl
    budgetMs := resolve_setting LaneSettings.budgetMs (fun _ _ => rfl) options layers
    debounceMs := resolve_setting LaneSettings.debounceMs (fun _ _ => rfl) options layers
    maxLagMs := resolve_setting LaneSettings.maxLagMs (fun _ _ => rfl) options layers
    allowCoalesce := resolve_setting LaneSettings.allowCoalesce (fun _ _ => rfl) options layers
    yielding := resolve_setting LaneSettings.yielding (fun _ _ => rfl) options layers
    layer := resolve_layer options layers }

/-- A bounded limit of a patch takes effect, an unbounded one only asks. -/
theorem Concurrency.overlay_limit (c : Concurrency) (layer : Layer) (p : ConcurrencyPatch) :
    (c.overlay layer p).limit = (p.limit.filter (· ≠ .unbounded)).getD c.limit := by
  unfold overlay
  rcases p.limit with _ | _ | _ <;> rfl

theorem Concurrency.layered (options : ConcurrencyPatch) (layers : Layers ConcurrencyPatch) :
    (Concurrency.resolve options layers).Layered options layers := by
  generalize hfold : layers.toList.foldl (fun c x => c.overlay x.1 x.2) (builtin.overlay .builtin options) = c
  have hrequested : c.requested = (layers.setting options fun _ p => p.limit).getD builtin.limit :=
    hfold ▸ Layers.foldl_setting overlay requested (fun _ _ _ => rfl) builtin options layers
  have hlimit : c.limit = (layers.setting options fun _ p => p.limit.filter (· ≠ .unbounded)).getD builtin.limit :=
    hfold ▸ Layers.foldl_setting overlay limit overlay_limit builtin options layers
  have hlayer : c.layer = (layers.highest fun l p => if p.sets then some l else none).getD .builtin := by
    have hbuiltin : (builtin.overlay .builtin options).layer = .builtin := ite_self Layer.builtin
    have hhighest := Layers.foldl_highest overlay Concurrency.layer (f := fun l p => if p.sets then some l else none)
      (fun _ _ p => by dsimp only [overlay]; cases p.sets <;> rfl) (builtin.overlay .builtin options) layers
    rwa [hbuiltin, hfold] at hhighest
  have hresolve : Concurrency.resolve options layers = { c with
      capacity := max 1 c.capacity
      limit := if c.requested = .unbounded ∧ c.allowUnbounded then .unbounded else c.limit } := by
    rw [← hfold]
    rfl
  rw [hresolve]
  exact {
    requested := hrequested
    requestedLayer := hfold ▸ Layers.foldl_setting overlay requestedLayer
      (fun _ _ p => by dsimp only [overlay]; cases p.limit <;> rfl) builtin options layers
    limit := by
      dsimp only
      by_cases hbounded : c.requested = .unbounded
      · -- asked for: in force where it is allowed
        rw [← hlimit]
        simp [hbounded]
      · -- the highest limit is bounded, so it is the highest bounded one
        rw [if_neg (fun h => hbounded h.1), if_pos (.inl hbounded), hlimit, hrequested]
        exact Layers.getD_setting_filter (decide_eq_true (hrequested ▸ hbounded))
    capacity := by
      rw [← hfold]
      exact congrArg (max 1) (Layers.foldl_setting overlay capacity (fun _ _ _ => rfl) builtin options layers)
    allowUnbounded := hfold ▸ Layers.foldl_setting overlay allowUnbounded (fun _ _ _ => rfl) builtin options layers
    pressure := hfold ▸ Layers.foldl_setting overlay pressure (fun _ _ _ => rfl) builtin options layers
    warningCooldownMs :=
      hfold ▸ Layers.foldl_setting overlay warningCooldownMs (fun _ _ _ => rfl) builtin options layers
    layer := hlayer }

/-- The timing of the deferred lane is at least what the time slicing asks for, and its
bound is not below its window. -/
theorem Policies.laneTiming_bounds (p : Policies) :
    p.convergence.value.timeSlicing.debounceMs ≤ p.laneTiming.1 ∧
    p.convergence.value.timeSlicing.maxLagMs ≤ p.laneTiming.2 ∧ p.laneTiming.1 ≤ p.laneTiming.2 := by
  unfold laneTiming
  dsimp only
  split <;> omega

/-- Policies resolve field by field to the highest of the provider's settings, those for the
module, those for every module and the module's own that sets the field. The layer that a
policy names is the highest of the first three with a patch that can change a record. -/
theorem Policies.resolve_layered (config : Config) (moduleId : String) (options : Overrides)
    (provider : Option Overrides) :
    let p := resolve config moduleId options provider
    let layers : Layers Overrides := ⟨some config.defaults, config.modules.lookup moduleId, provider⟩
    (Convergence.Layered p.convergence options.convergence (layers.map (·.convergence)) ∧
      p.lanes.Layered options.lanes (layers.map (·.lanes)) ∧
      p.concurrency.Layered options.concurrency (layers.map (·.concurrency))) ∧
    ((∀ q : ConvergencePatch, q.sets = false ↔ ∀ c, q.apply c = c) ∧
      (∀ q : LanePatch, q.sets = false ↔ ∀ s, q.apply s = s) ∧
      ∀ q : ConcurrencyPatch, q.sets = false ↔ ∀ c : Concurrency, c.overlay c.layer q = c) ∧
    p.convergence.value.timeSlicing.debounceMs ≤ p.laneTiming.1 ∧
    p.convergence.value.timeSlicing.maxLagMs ≤ p.laneTiming.2 ∧ p.laneTiming.1 ≤ p.laneTiming.2 :=
  ⟨⟨Convergence.layered _ _, Lanes.layered _ _, Concurrency.layered _ _⟩,
    ⟨ConvergencePatch.sets_eq_false_iff, LanePatch.sets_eq_false_iff, ConcurrencyPatch.sets_eq_false_iff⟩,
    laneTiming_bounds _⟩

/-- A provider asks for no limit where none may be given: the module's limit stays in force. -/
example :
    let unlimited := { Overrides.empty with concurrency := { ConcurrencyPatch.empty with limit := some .unbounded } }
    let three := { Overrides.empty with concurrency := { ConcurrencyPatch.empty with limit := some (.bounded 3) } }
    let c := (Policies.resolve { Config.builtin with modules := [("m", three)] } "m" .empty (some unlimited)).concurrency
    (c.limit, c.requested, c.requestedLayer, c.layer) = (.bounded 3, .unbounded, .provider, .provider) := by rfl

end Settle.Policy
