import ReservoirWells.Convergence.Check
import ReservoirWells.Proofs.Binary64.Rounding

/-! # Verdict — what a convergence check says about every residual

    A check looks at one number per equation, the largest residual, and a chain of branches decides
    how badly the equation has failed.  What a report should say is a statement about all residuals:
    an equation (`Criterion`) fails when one of its residuals is not a number, is excessive or
    exceeds a tolerance.  The two agree because the largest residual is within a bound exactly when
    all of them are, and is not a number as soon as one of them is not.

    * `Criterion.severity_eq` — the severity of the largest residual is that of the criterion;
    * `SegmentedWell.failures_checkConvergence` — a report holds one failure for each criterion that
      fails, in order;
    * `SegmentedWell.checkConvergence_verdict` — a check always returns a report, and the report says
      that everything has converged exactly when every residual is within its tolerances. -/

namespace ReservoirWells

variable {α : Type} [Scalar α]

/-! ## What is judged -/

namespace Tolerances

/-- All tolerances of a check. -/
def toList (t : Tolerances α) : List α :=
  [t.largest, t.flow, t.relaxedFlow, t.pressure, t.relaxedPressure]

/-- Tolerances that a check can be made with: none is negative and none infinite. -/
def Usable (t : Tolerances α) : Prop := ∀ x ∈ t.toList, 0 ≤ x ∧ Scalar.isFinite x = true

instance (t : Tolerances α) : Decidable t.Usable :=
  inferInstanceAs (Decidable (∀ x ∈ t.toList, 0 ≤ x ∧ Scalar.isFinite x = true))

/-- The tolerances of a mass balance. -/
def ofFlow (t : Tolerances α) (relax : Bool) : List α :=
  if relax then [t.relaxedFlow] else [t.flow, t.relaxedFlow]

/-- The tolerances of the pressure equations. -/
def ofPressure (t : Tolerances α) (relax : Bool) : List α :=
  if relax then [t.relaxedPressure] else [t.pressure, t.relaxedPressure]

/-- The tolerance of the control equation: that of pressures for an open well that is controlled on a
    pressure. -/
def ofControl (t : Tolerances α) (s : WellRecord α) : α :=
  if s.stopped = false ∧
      s.mode ∈ [.injection .bhp, .injection .thp, .production .bhp, .production .thp] then t.pressure
  else t.flow

end Tolerances

/-- A residual is a number, and at most each of some bounds. -/
def Scalar.Within (residual : α) (bounds : List α) : Prop :=
  isNumber residual = true ∧ ∀ b ∈ bounds, residual ≤ b

/-- One equation as a report should judge it. -/
structure Criterion (α : Type) where
  /-- The equation. -/
  equation : Equation
  /-- Which mass balance. -/
  component : Option Nat
  /-- The residuals that count for it. -/
  residuals : List α
  /-- Which residuals are above everything allowed. -/
  excessive : α → Bool
  /-- The tolerances that every residual has to keep. -/
  tolerances : List α

namespace Criterion

/-- How badly an equation has failed: the worst that any of its residuals does. -/
def severity (c : Criterion α) : Severity :=
  if c.residuals.any fun r => !Scalar.isNumber r then .notANumber
  else if c.residuals.any c.excessive then .tooLarge
  else if c.residuals.any fun r => c.tolerances.any fun t => decide (t < r) then .normal
  else .none

/-- What a report says of an equation that has failed. -/
def failure (well : String) (c : Criterion α) : Failure :=
  ⟨c.equation, c.severity, c.component, well⟩

/-- Whether an equation has failed. -/
def fails (c : Criterion α) : Bool := !(c.severity == .none)

end Criterion

namespace SegmentedWell

/-- The weighted residuals of a mass balance, segment by segment. -/
def massResiduals (w : SegmentedWell α) (eq : Nat) (factor : α) : List α :=
  (List.range w.tree.size).map fun seg => factor * Scalar.abs (w.system.residual seg eq)

/-- The residuals of the pressure equations below the top. -/
def pressureResiduals (w : SegmentedWell α) : List α :=
  (List.range' 1 (w.tree.size - 1)).map fun seg =>
    Scalar.abs (w.system.residual seg w.layout.pressureSlot)

theorem massResidual_eq (w : SegmentedWell α) (eq : Nat) (factor : α) :
    w.massResidual eq factor = Scalar.largest (w.massResiduals eq factor) := List.foldl_map.symm

theorem pressureResidual_eq (w : SegmentedWell α) :
    w.pressureResidual = Scalar.largest w.pressureResiduals := List.foldl_map.symm

/-- A mass balance. -/
def massCriterion (w : SegmentedWell α) (t : Tolerances α) (relax : Bool) (eq : Nat) (factor : α) :
    Criterion α :=
  ⟨.massBalance, some eq, w.massResiduals eq factor, fun r => decide (t.largest < r),
    t.ofFlow relax⟩

/-- The pressure equations. Only an infinite residual is excessive. -/
def pressureCriterion (w : SegmentedWell α) (t : Tolerances α) (relax : Bool) : Criterion α :=
  ⟨.pressure, none, w.pressureResiduals, fun r => !Scalar.isFinite r, t.ofPressure relax⟩

/-- The control equation. -/
def controlCriterion (w : SegmentedWell α) (t : Tolerances α) (control : Equation) : Criterion α :=
  ⟨control, none, [w.controlResidual], fun r => decide (10.0 * t.largest < r),
    [if control == .controlRate then t.flow else t.pressure]⟩

/-- The equations that a check judges: the mass balances in order, the pressure equations, and the
    control equation. -/
def criteria (w : SegmentedWell α) (control : Equation) (factors : List α) (t : Tolerances α)
    (relax : Bool) : List (Criterion α) :=
  factors.zipIdx.map (fun entry => w.massCriterion t relax entry.2 entry.1)
    ++ [w.pressureCriterion t relax, w.controlCriterion t control]

end SegmentedWell

/-! ## The largest residual stands for all -/

namespace Criterion

/-- The chain of branches that judges one residual judges a criterion, if that residual is a number,
    excessive or above a tolerance exactly when one of the criterion's residuals is. -/
theorem severityOf_eq (c : Criterion α) {residual tolerance relaxed : α} {relax tooLarge : Bool}
    (hnumber : Scalar.isNumber residual = c.residuals.all Scalar.isNumber)
    (hlarge : Scalar.isNumber residual = true → tooLarge = c.residuals.any c.excessive)
    (htolerances : c.tolerances = if relax then [relaxed] else [tolerance, relaxed])
    (habove : Scalar.isNumber residual = true →
      (c.tolerances.any fun t => decide (t < residual))
        = c.residuals.any fun r => c.tolerances.any fun t => decide (t < r)) :
    SegmentedWell.severityOf residual tooLarge relax tolerance relaxed = c.severity := by
  have hnot : (c.residuals.any fun r => !Scalar.isNumber r) = !Scalar.isNumber residual := by
    rw [hnumber, List.not_all_eq_any_not]
  have hany : (c.tolerances.any fun t => decide (t < residual))
      = (!relax && decide (tolerance < residual) || decide (relaxed < residual)) := by
    rw [htolerances]
    cases relax <;> simp
  rw [SegmentedWell.severityOf, severity, hnot]
  cases hn : Scalar.isNumber residual with
  | false => rfl
  | true => rw [← hlarge hn, ← habove hn, hany]

/-- A single residual is judged by itself. -/
theorem severityOf_single {c : Criterion α} {residual tolerance : α}
    (hresiduals : c.residuals = [residual]) (htolerances : c.tolerances = [tolerance]) :
    SegmentedWell.severityOf residual (c.excessive residual) true tolerance tolerance
      = c.severity := by
  apply severityOf_eq
  · rw [hresiduals]
    exact (Bool.and_true _).symm
  · intro _
    rw [hresiduals]
    exact (Bool.or_false _).symm
  · exact htolerances
  · intro _
    rw [hresiduals]
    exact (Bool.or_false _).symm

variable [OrderedScalar α]

/-- Many residuals are judged by the largest. -/
theorem severityOf_largest {c : Criterion α} {relax : Bool} {tolerance relaxed : α}
    (htolerances : c.tolerances = if relax then [relaxed] else [tolerance, relaxed])
    (hnonneg : ∀ t ∈ c.tolerances, 0 ≤ t) (hzero : c.excessive 0 = false)
    (hmono : ∀ r ∈ c.residuals, ∀ y, r ≤ y → c.excessive r = true → c.excessive y = true) :
    SegmentedWell.severityOf (Scalar.largest c.residuals)
      (c.excessive (Scalar.largest c.residuals)) relax tolerance relaxed = c.severity := by
  have hnumber := Scalar.isNumber_largest c.residuals
  apply severityOf_eq
  · rw [Bool.eq_iff_iff, hnumber, List.all_eq_true]
  · intro h
    exact Scalar.any_largest (hnumber.mp h) hzero hmono
  · exact htolerances
  · intro h
    refine Scalar.any_largest (p := fun r => c.tolerances.any fun t => decide (t < r))
      (hnumber.mp h) ?_ ?_
    · rw [List.any_eq_false]
      intro t ht hlt
      exact OrderedScalar.not_lt_of_le (hnonneg t ht) (of_decide_eq_true hlt)
    · intro r _ y hry
      rw [List.any_eq_true, List.any_eq_true]
      rintro ⟨t, ht, hlt⟩
      exact ⟨t, ht, decide_eq_true (OrderedScalar.lt_of_lt_of_le (of_decide_eq_true hlt) hry)⟩

omit [OrderedScalar α] in
theorem fails_iff (c : Criterion α) :
    c.fails = false ↔ (c.residuals.any fun r => !Scalar.isNumber r) = false ∧
      c.residuals.any c.excessive = false ∧
      (c.residuals.any fun r => c.tolerances.any fun t => decide (t < r)) = false := by
  rw [fails, severity]
  cases c.residuals.any fun r => !Scalar.isNumber r <;> cases c.residuals.any c.excessive <;>
    cases c.residuals.any fun r => c.tolerances.any fun t => decide (t < r) <;> decide

/-- A criterion holds when all of its residuals are numbers, none is excessive and none exceeds a
    tolerance. -/
theorem holds_iff {c : Criterion α} (hnonneg : ∀ t ∈ c.tolerances, 0 ≤ t) :
    c.fails = false ↔ ∀ r ∈ c.residuals,
      Scalar.isNumber r = true ∧ c.excessive r = false ∧ ∀ t ∈ c.tolerances, r ≤ t := by
  rw [fails_iff, List.any_eq_false, List.any_eq_false, List.any_eq_false]
  constructor
  · rintro ⟨hnumber, hexcessive, habove⟩ r hr
    have hr' : Scalar.isNumber r = true := by simpa using hnumber r hr
    refine ⟨hr', Bool.eq_false_of_not_eq_true (hexcessive r hr), ?_⟩
    intro t ht
    refine OrderedScalar.le_of_not_lt (Scalar.isNumber_iff.mp hr')
      (OrderedScalar.le_self (hnonneg t ht)).2 ?_
    intro hlt
    exact habove r hr (List.any_eq_true.mpr ⟨t, ht, decide_eq_true hlt⟩)
  · intro h
    refine ⟨?_, ?_, ?_⟩
    · intro r hr
      simp [(h r hr).1]
    · intro r hr
      simp [(h r hr).2.1]
    · intro r hr habove
      obtain ⟨t, ht, hlt⟩ := List.any_eq_true.mp habove
      exact OrderedScalar.not_lt_of_le ((h r hr).2.2 t ht) (of_decide_eq_true hlt)

end Criterion

/-! ## The report -/

namespace Report

@[simp] theorem failures_append (r s : Report) : (r ++ s).failures = r.failures ++ s.failures := rfl

/-- A report that is put together piece by piece holds the failures of the pieces in order. -/
theorem failures_foldl {γ : Type} (piece : γ → Report) (l : List γ) (start : Report) :
    (l.foldl (fun report c => report ++ piece c) start).failures
      = start.failures ++ l.flatMap fun c => (piece c).failures := by
  induction l generalizing start with
  | nil => exact (List.append_nil _).symm
  | cons c rest ih =>
      rw [List.foldl_cons, ih, failures_append, List.flatMap_cons, List.append_assoc]

theorem converged_iff (r : Report) : r.converged = true ↔ r.failures = [] := List.isEmpty_iff

end Report

namespace SegmentedWell

omit [Scalar α] in
theorem checkFactors_eq_ok {w : SegmentedWell α} {factors : List α} :
    w.checkFactors factors = .ok () ↔ factors.length = w.layout.components := by
  rw [checkFactors]
  by_cases h : factors.length = w.layout.components
  · rw [if_pos (beq_iff_eq.mpr h)]
    exact ⟨fun _ => h, fun _ => rfl⟩
  · rw [if_neg (by rwa [beq_iff_eq])]
    constructor
    · intro hok
      cases hok
    · intro heq
      exact absurd heq h

/-- The report of one criterion. -/
theorem failures_reportOf (w : SegmentedWell α) (c : Criterion α) :
    (w.reportOf c.equation c.component c.severity).failures
      = ([c].filter Criterion.fails).map (Criterion.failure w.name) := by
  rw [reportOf, List.filter_cons, List.filter_nil, Criterion.fails]
  cases hc : c.severity == Severity.none with
  | true => rfl
  | false => rfl

theorem flatMap_failures (w : SegmentedWell α) (l : List (Criterion α)) :
    (l.flatMap fun c => (w.reportOf c.equation c.component c.severity).failures)
      = (l.filter Criterion.fails).map (Criterion.failure w.name) := by
  induction l with
  | nil => rfl
  | cons c rest ih =>
      rw [List.flatMap_cons, ih, failures_reportOf, ← List.map_append, ← List.filter_append]
      rfl

end SegmentedWell

/-! ## The criteria of a well -/

namespace Tolerances

omit [Scalar α] in
theorem ofFlow_subset (t : Tolerances α) (relax : Bool) : t.ofFlow relax ⊆ t.toList := by
  cases relax <;> simp [ofFlow, toList]

omit [Scalar α] in
theorem ofPressure_subset (t : Tolerances α) (relax : Bool) : t.ofPressure relax ⊆ t.toList := by
  cases relax <;> simp [ofPressure, toList]

end Tolerances

namespace SegmentedWell

variable [RoundedScalar α] {w : SegmentedWell α} {t : Tolerances α}

theorem massSeverity_eq (ht : t.Usable) (relax : Bool) (eq : Nat) (factor : α) :
    w.massSeverity t relax eq factor = (w.massCriterion t relax eq factor).severity := by
  have hresidual : w.massResidual eq factor
      = Scalar.largest (w.massCriterion t relax eq factor).residuals := w.massResidual_eq eq factor
  rw [massSeverity, hresidual]
  apply Criterion.severityOf_largest
  · rfl
  · intro x hx
    exact (ht x (t.ofFlow_subset relax hx)).1
  · exact decide_eq_false (OrderedScalar.not_lt_of_le (ht _ (List.mem_cons_self ..)).1)
  · intro r _ y hry hlt
    exact decide_eq_true (OrderedScalar.lt_of_lt_of_le (of_decide_eq_true hlt) hry)

theorem pressureSeverity_eq (ht : t.Usable) (relax : Bool) :
    w.pressureSeverity t relax = (w.pressureCriterion t relax).severity := by
  have hresidual : w.pressureResidual
      = Scalar.largest (w.pressureCriterion t relax).residuals := w.pressureResidual_eq
  rw [pressureSeverity, hresidual]
  apply Criterion.severityOf_largest
  · rfl
  · intro x hx
    exact (ht x (t.ofPressure_subset relax hx)).1
  · show (!Scalar.isFinite (0 : α)) = false
    rw [OrderedScalar.isFinite_zero]
    rfl
  · -- magnitudes are not below zero, so what is above an infinite one is infinite
    intro r hr y hry
    show (!Scalar.isFinite r) = true → (!Scalar.isFinite y) = true
    obtain ⟨seg, _, rfl⟩ := List.mem_map.mp hr
    have hnonneg := Scalar.abs_nonneg (OrderedScalar.le_self hry).1
    cases hy : Scalar.isFinite y with
    | false => exact fun _ => rfl
    | true =>
        rw [OrderedScalar.isFinite_of_le hnonneg hry hy]
        exact id

omit [RoundedScalar α] in
theorem controlSeverity_eq (control : Equation) :
    w.controlSeverity t control = (w.controlCriterion t control).severity :=
  Criterion.severityOf_single (c := w.controlCriterion t control) rfl rfl

/-- A check returns one failure for each criterion that fails, in order. -/
theorem failures_checkConvergence (ht : t.Usable) {s : WellRecord α} {factors : List α}
    (hfactors : factors.length = w.layout.components) {control : Equation}
    (hcontrol : w.controlInForce s = .ok control) (relax : Bool) :
    ∃ report, w.checkConvergence s factors t relax = .ok report ∧
      report.failures = ((w.criteria control factors t relax).filter Criterion.fails).map
        (Criterion.failure w.name) := by
  rw [checkConvergence, checkFactors_eq_ok.mpr hfactors, hcontrol]
  refine ⟨_, rfl, ?_⟩
  rw [Report.failures_append, Report.failures_append, Report.failures_foldl, pressureSeverity_eq ht,
    controlSeverity_eq, ← flatMap_failures, criteria, List.flatMap_append, List.flatMap_map]
  simp only [massSeverity_eq ht]
  rw [List.append_assoc, List.flatMap_cons, List.flatMap_cons, List.flatMap_nil, List.append_nil]
  rfl

theorem massCriterion_holds (ht : t.Usable) (relax : Bool) (eq : Nat) (factor : α) :
    (w.massCriterion t relax eq factor).fails = false ↔ ∀ seg < w.tree.size,
      Scalar.Within (factor * Scalar.abs (w.system.residual seg eq))
        (t.largest :: t.ofFlow relax) := by
  have hlargest : 0 ≤ t.largest := (ht _ (List.mem_cons_self ..)).1
  rw [Criterion.holds_iff fun x hx => (ht x (t.ofFlow_subset relax hx)).1]
  show (∀ r ∈ w.massResiduals eq factor, _) ↔ _
  rw [massResiduals, List.forall_mem_map]
  constructor
  · intro h seg hseg
    obtain ⟨hnumber, hle, hflow⟩ := h seg (List.mem_range.mpr hseg)
    refine ⟨hnumber, List.forall_mem_cons.mpr ⟨?_, hflow⟩⟩
    exact OrderedScalar.le_of_not_lt (Scalar.isNumber_iff.mp hnumber)
      (OrderedScalar.le_self hlargest).2 (of_decide_eq_false hle)
  · intro h seg hseg
    obtain ⟨hnumber, hbounds⟩ := h seg (List.mem_range.mp hseg)
    obtain ⟨hle, hflow⟩ := List.forall_mem_cons.mp hbounds
    exact ⟨hnumber, decide_eq_false (OrderedScalar.not_lt_of_le hle), hflow⟩

theorem pressureCriterion_holds (ht : t.Usable) (relax : Bool) :
    (w.pressureCriterion t relax).fails = false ↔ ∀ seg, 0 < seg → seg < w.tree.size →
      Scalar.Within (Scalar.abs (w.system.residual seg w.layout.pressureSlot))
        (t.ofPressure relax) := by
  have hmem : ∀ seg, seg ∈ List.range' 1 (w.tree.size - 1) ↔ 0 < seg ∧ seg < w.tree.size := by
    intro seg
    rw [List.mem_range'_1]
    omega
  have hrelaxed : t.relaxedPressure ∈ t.ofPressure relax := by
    cases relax <;> simp [Tolerances.ofPressure]
  rw [Criterion.holds_iff fun x hx => (ht x (t.ofPressure_subset relax hx)).1]
  show (∀ r ∈ w.pressureResiduals, _) ↔ _
  rw [pressureResiduals, List.forall_mem_map]
  constructor
  · intro h seg hpos hlt
    obtain ⟨hnumber, _, hle⟩ := h seg ((hmem seg).mpr ⟨hpos, hlt⟩)
    exact ⟨hnumber, hle⟩
  · intro h seg hseg
    obtain ⟨hpos, hlt⟩ := (hmem seg).mp hseg
    obtain ⟨hnumber, hle⟩ := h seg hpos hlt
    refine ⟨hnumber, ?_, hle⟩
    -- what is within a finite tolerance is finite itself
    have hfinite := (ht _ (t.ofPressure_subset relax hrelaxed)).2
    have hnonneg := Scalar.abs_nonneg (Scalar.isNumber_iff.mp hnumber)
    show (!Scalar.isFinite _) = false
    rw [OrderedScalar.isFinite_of_le hnonneg (hle _ hrelaxed) hfinite]
    rfl

omit [Scalar α] [RoundedScalar α] in
/-- The tolerance that a check applies to the control equation in force. -/
theorem ofControl_eq {s : WellRecord α} {control : Equation}
    (hcontrol : w.controlInForce s = .ok control) (t : Tolerances α) :
    (if control == .controlRate then t.flow else t.pressure) = t.ofControl s := by
  rw [controlInForce] at hcontrol
  rw [Tolerances.ofControl]
  cases hs : s.stopped with
  | true =>
      rw [hs] at hcontrol
      cases hcontrol
      rfl
  | false =>
      rw [hs] at hcontrol
      replace hcontrol : w.controlOf s.mode = .ok control := hcontrol
      rw [controlOf] at hcontrol
      generalize s.mode = mode at *
      cases he : mode.equation? with
      | none =>
          rw [he] at hcontrol
          cases hcontrol
      | some e =>
          rw [he] at hcontrol
          cases hcontrol
          cases mode with
          | injection m => cases m <;> cases he <;> rfl
          | production m => cases m <;> cases he <;> rfl

omit [Scalar α] [RoundedScalar α] in
theorem controlInForce_ok (w : SegmentedWell α) {s : WellRecord α}
    (hmode : s.stopped = true ∨ s.mode.equation?.isSome = true) :
    ∃ control, w.controlInForce s = .ok control := by
  rw [controlInForce]
  cases hs : s.stopped with
  | true => exact ⟨.controlRate, rfl⟩
  | false =>
      rw [hs, or_iff_right Bool.false_ne_true] at hmode
      obtain ⟨control, hcontrol⟩ := Option.isSome_iff_exists.mp hmode
      refine ⟨control, ?_⟩
      show w.controlOf s.mode = .ok control
      rw [controlOf, hcontrol]

theorem controlCriterion_holds (ht : t.Usable) {s : WellRecord α} {control : Equation}
    (hcontrol : w.controlInForce s = .ok control) :
    (w.controlCriterion t control).fails = false ↔
      Scalar.Within w.controlResidual [10.0 * t.largest, t.ofControl s] := by
  have hten : 10.0 * t.largest ≤ 10.0 * t.largest :=
    (OrderedScalar.le_self (RoundedScalar.le_mul (ht _ (List.mem_cons_self ..)).1
      RoundedScalar.one_le_ten RoundedScalar.isFinite_ten)).2
  have hnonneg : ∀ x ∈ (w.controlCriterion t control).tolerances, 0 ≤ x := by
    intro x hx
    rw [List.mem_singleton.mp hx]
    cases control == .controlRate
    · exact (ht _ (by simp [Tolerances.toList])).1
    · exact (ht _ (by simp [Tolerances.toList])).1
  rw [Criterion.holds_iff hnonneg]
  show (∀ r ∈ [w.controlResidual], _ ∧ decide (10.0 * t.largest < r) = false ∧
    ∀ x ∈ [if control == .controlRate then t.flow else t.pressure], r ≤ x) ↔ _
  rw [ofControl_eq hcontrol, List.forall_mem_singleton]
  constructor
  · rintro ⟨hnumber, hle, htolerance⟩
    refine ⟨hnumber, List.forall_mem_cons.mpr ⟨?_, htolerance⟩⟩
    exact OrderedScalar.le_of_not_lt (Scalar.isNumber_iff.mp hnumber) hten (of_decide_eq_false hle)
  · rintro ⟨hnumber, hbounds⟩
    obtain ⟨hle, htolerance⟩ := List.forall_mem_cons.mp hbounds
    exact ⟨hnumber, decide_eq_false (OrderedScalar.not_lt_of_le hle), htolerance⟩

/-- A check of a well that is stopped or has a supported mode returns a report. It says that
    everything has converged exactly when every residual is a number and within its tolerances, and
    otherwise it holds one failure for each equation with a residual that is not: the mass balances
    in order, the pressure equations, the control equation. -/
theorem checkConvergence_verdict (w : SegmentedWell α) (s : WellRecord α) (factors : List α)
    (t : Tolerances α) (relax : Bool) (hfactors : factors.length = w.layout.components)
    (ht : t.Usable) (hmode : s.stopped = true ∨ s.mode.equation?.isSome = true) :
    ∃ control report, w.controlInForce s = .ok control ∧
      w.checkConvergence s factors t relax = .ok report ∧
      (report.converged = true ↔
        (∀ eq factor seg, factors[eq]? = some factor → seg < w.tree.size →
          Scalar.Within (factor * Scalar.abs (w.system.residual seg eq))
            (t.largest :: t.ofFlow relax)) ∧
        (∀ seg, 0 < seg → seg < w.tree.size →
          Scalar.Within (Scalar.abs (w.system.residual seg w.layout.pressureSlot))
            (t.ofPressure relax)) ∧
        Scalar.Within (Scalar.abs (w.system.residual 0 w.layout.pressureSlot))
          [10.0 * t.largest, t.ofControl s]) ∧
      report.failures = ((w.criteria control factors t relax).filter Criterion.fails).map
        (Criterion.failure w.name) ∧
      ∀ f ∈ report.failures, f.severity ≠ .none := by
  obtain ⟨control, hcontrol⟩ := controlInForce_ok w hmode
  obtain ⟨report, hreport, hfailures⟩ := failures_checkConvergence ht hfactors hcontrol relax
  refine ⟨control, report, hcontrol, hreport, ?_, hfailures, ?_⟩
  · rw [Report.converged_iff, hfailures, List.map_eq_nil_iff, List.filter_eq_nil_iff, criteria]
    simp only [Bool.not_eq_true]
    rw [List.forall_mem_append, List.forall_mem_map, List.forall_mem_cons, List.forall_mem_singleton,
      pressureCriterion_holds ht, controlCriterion_holds ht hcontrol]
    refine and_congr_left' ?_
    simp only [massCriterion_holds ht]
    constructor
    · intro h eq factor seg hfactor hseg
      exact h (factor, eq) (List.mk_mem_zipIdx_iff_getElem?.mpr hfactor) seg hseg
    · rintro h ⟨factor, eq⟩ hmem seg hseg
      exact h eq factor seg (List.mk_mem_zipIdx_iff_getElem?.mp hmem) hseg
  · intro f hf
    rw [hfailures] at hf
    obtain ⟨c, hc, rfl⟩ := List.mem_map.mp hf
    have hfails := (List.mem_filter.mp hc).2
    intro hnone
    replace hnone : c.severity = .none := hnone
    rw [Criterion.fails, hnone] at hfails
    cases hfails

/-- A well of two segments in water and oil, and the residuals of its six equations. -/
def twoSegments (residuals : Array Float) : SegmentedWell Float :=
  let top : Segment Float := ⟨1, none, 2000, 2000, 0.01, 0.1, 1e-4, .pipe⟩
  let lower : Segment Float := ⟨2, some 1, 2100, 2100, 0.01, 0.1, 1e-4, .pipe⟩
  let tree : SegmentTree Float := ⟨top, [⟨lower, 0, 100, 100⟩]⟩
  { make "P1" tree ⟨true, true, false⟩ .default with system := ⟨2, 3, residuals, #[]⟩ }

/-- A water balance that is not a number in the top segment is not masked by the lower segment, and
    the pressure equation fails beside it. -/
theorem checkConvergence_verdict_twoSegments :
    ∃ report, (twoSegments #[0 / 0, 0, 0, 1e9, 0, -2e3]).checkConvergence (.producer 2 .orat) [1, 1]
        .default false = .ok report ∧ report.converged = false ∧
      report.failures = [⟨.massBalance, .notANumber, some 0, "P1"⟩, ⟨.pressure, .normal, none, "P1"⟩] := by
  obtain ⟨control, report, hcontrol, hreport, _, hfailures, _⟩ :=
    checkConvergence_verdict (twoSegments #[0 / 0, 0, 0, 1e9, 0, -2e3]) (.producer 2 .orat) [1, 1]
      .default false rfl (by decide +kernel) (Or.inr rfl)
  cases hcontrol
  refine ⟨report, hreport, ?_, ?_⟩
  · rw [Report.converged, hfailures]
    decide +kernel
  · rw [hfailures]
    decide +kernel

end SegmentedWell

end ReservoirWells
