import ReservoirWells.Proofs.Convergence.Verdict
import ReservoirWells.Proofs.Fallible

/-! # Measure — when one number says that a well has converged

    The measure of a well adds up by how much the largest residuals exceed their tolerances, and a
    check judges the residuals themselves.  Both are computed apart from each other, and both choose
    the tolerance of the control equation on their own: the measure by the mode of the well alone,
    the check by its status first.

    * `SegmentedWell.finiteResiduals_cases` — what the listed residuals are the largest of;
    * `SegmentedWell.within_of_measure` — a measure of zero bounds every listed residual;
    * `SegmentedWell.checkConvergence_of_measure` — a measure of zero means that a check finds nothing,
      except in a stopped well whose mode is tubing-head pressure: there the rate that remains may be
      anything up to the tolerance of pressures, and a check reports it. -/

namespace ReservoirWells

variable {α : Type} [Scalar α]

/-- Tolerances that grow from rates over pressures to what is too large, the relaxed ones behind the
    strict ones. -/
structure Tolerances.Graded (t : Tolerances α) : Prop where
  /-- The strictest tolerance is not zero. -/
  flow_pos : 0 < t.flow
  /-- Relaxing does not tighten mass balances. -/
  flow_le_relaxed : t.flow ≤ t.relaxedFlow
  /-- No tolerance of mass balances is too large. -/
  relaxedFlow_le : t.relaxedFlow ≤ t.largest
  /-- Pressures are not held more strictly than rates. -/
  flow_le_pressure : t.flow ≤ t.pressure
  /-- Relaxing does not tighten pressure equations. -/
  pressure_le_relaxed : t.pressure ≤ t.relaxedPressure
  /-- No tolerance of pressures is too large. -/
  relaxedPressure_le : t.relaxedPressure ≤ t.largest
  /-- All tolerances are finite. -/
  isFinite_largest : Scalar.isFinite t.largest = true

namespace Tolerances.Graded

variable [OrderedScalar α] {t : Tolerances α}

theorem pressure_pos (ht : t.Graded) : 0 < t.pressure :=
  OrderedScalar.lt_of_lt_of_le ht.flow_pos ht.flow_le_pressure

theorem flow_le_largest (ht : t.Graded) : t.flow ≤ t.largest :=
  OrderedScalar.le_trans ht.flow_le_relaxed ht.relaxedFlow_le

theorem pressure_le_largest (ht : t.Graded) : t.pressure ≤ t.largest :=
  OrderedScalar.le_trans ht.pressure_le_relaxed ht.relaxedPressure_le

theorem usable (ht : t.Graded) : t.Usable := by
  have hflow : (0 : α) ≤ t.flow := (OrderedScalar.lt_iff.mp ht.flow_pos).1
  have hpressure : (0 : α) ≤ t.pressure := (OrderedScalar.lt_iff.mp ht.pressure_pos).1
  have hbelow : ∀ x, 0 ≤ x → x ≤ t.largest → 0 ≤ x ∧ Scalar.isFinite x = true := by
    intro x h0 hle
    exact ⟨h0, OrderedScalar.isFinite_of_le h0 hle ht.isFinite_largest⟩
  have hlargest := OrderedScalar.le_trans hflow ht.flow_le_largest
  intro x hx
  simp only [toList, List.mem_cons, List.not_mem_nil, or_false] at hx
  rcases hx with rfl | rfl | rfl | rfl | rfl
  · exact ⟨hlargest, ht.isFinite_largest⟩
  · exact hbelow _ hflow ht.flow_le_largest
  · exact hbelow _ (OrderedScalar.le_trans hflow ht.flow_le_relaxed) ht.relaxedFlow_le
  · exact hbelow _ hpressure ht.pressure_le_largest
  · exact hbelow _ (OrderedScalar.le_trans hpressure ht.pressure_le_relaxed) ht.relaxedPressure_le

end Tolerances.Graded

namespace SegmentedWell

/-! ## Overshoot -/

section Overshoot

variable [RoundedScalar α] {residual tolerance : α}

theorem overshoot_nonneg (residual : α) (h : 0 < tolerance) : 0 ≤ overshoot residual tolerance := by
  rw [overshoot]
  by_cases hlt : tolerance < residual
  · rw [if_pos hlt]
    have hone : (0 : α) ≤ 1 := (OrderedScalar.lt_iff.mp RoundedScalar.zero_lt_one).1
    exact OrderedScalar.le_trans hone (RoundedScalar.one_le_div h hlt)
  · rw [if_neg hlt]
    exact Amount.zero_le_zero

/-- A quotient is not rounded down to zero, so a residual without overshoot is within its tolerance. -/
theorem le_of_overshoot (h : 0 < tolerance) (hr : residual ≤ residual)
    (hzero : overshoot residual tolerance ≤ 0) : residual ≤ tolerance := by
  have ht := (OrderedScalar.le_self (OrderedScalar.lt_iff.mp h).1).2
  refine OrderedScalar.le_of_not_lt hr ht ?_
  intro hlt
  rw [overshoot, if_pos hlt] at hzero
  have hone := OrderedScalar.le_trans (RoundedScalar.one_le_div h hlt) hzero
  exact OrderedScalar.not_lt_of_le hone RoundedScalar.zero_lt_one

end Overshoot

/-! ## Listed residuals -/

/-- The residuals of an equation that count, segment by segment. -/
def countedResiduals (w : SegmentedWell α) (factors : List α) (eq : Nat) : List α :=
  (List.range w.tree.size).map fun seg => w.countedResidual factors seg eq

/-- Residuals are listed when all of them are finite: the largest one of each equation, and the one of
    the control equation. -/
theorem finiteResiduals_cases [OrderedScalar α] {w : SegmentedWell α} {factors v : List α}
    (h : w.finiteResiduals factors = .ok v) :
    factors.length = w.layout.components ∧ Scalar.isFinite w.controlResidual = true ∧
      (∀ eq < w.layout.size, ∀ r ∈ w.countedResiduals factors eq, Scalar.isFinite r = true) ∧
      v = ((List.range w.layout.size).map fun eq => Scalar.largest (w.countedResiduals factors eq))
        ++ [w.controlResidual] := by
  rw [finiteResiduals] at h
  obtain ⟨_, hfactors, h⟩ := bind_eq_ok.mp h
  cases hfirst : w.firstNotFinite factors with
  | some place =>
      rw [hfirst] at h
      cases h
  | none =>
      rw [hfirst] at h
      cases hcontrol : Scalar.isFinite w.controlResidual with
      | false =>
          rw [hcontrol] at h
          cases h
      | true =>
          rw [hcontrol] at h
          have hfinite : ∀ eq < w.layout.size, ∀ r ∈ w.countedResiduals factors eq,
              Scalar.isFinite r = true := by
            rintro eq heq r hr
            obtain ⟨seg, hseg, rfl⟩ := List.mem_map.mp hr
            rw [firstNotFinite, List.find?_eq_none] at hfirst
            have hplace := hfirst (seg, eq) (List.mem_flatMap.mpr
              ⟨seg, hseg, List.mem_map.mpr ⟨eq, List.mem_range.mpr heq, rfl⟩⟩)
            simpa using hplace
          refine ⟨checkFactors_eq_ok.mp hfactors, rfl, hfinite, ?_⟩
          rw [← Except.ok.inj h]
          refine congrArg (· ++ [w.controlResidual]) (List.map_congr_left ?_)
          intro eq heq
          rw [← Scalar.foldl_max_eq_largest fun r hr => OrderedScalar.le_self_of_isFinite
            (hfinite eq (List.mem_range.mp heq) r hr), countedResiduals, List.foldl_map]

/-! ## A measure of zero -/

omit [Scalar α] in
/-- The tolerance of the control equation that goes into the measure is that of pressures for
    tubing-head pressure only. -/
theorem toleranceOfControl_cases {w : SegmentedWell α} {s : WellRecord α}
    {flow pressure tolerance : α} (h : w.toleranceOfControl s flow pressure = .ok tolerance) :
    ∃ e, s.mode.equation? = some e ∧ tolerance = if e == .controlThp then pressure else flow := by
  rw [toleranceOfControl, controlOf] at h
  cases he : s.mode.equation? with
  | none =>
      rw [he] at h
      cases h
  | some e =>
      rw [he] at h
      exact ⟨e, rfl, (Except.ok.inj h).symm⟩

/-- The measure of listed residuals adds up their overshoots. -/
theorem measure_eq (w : SegmentedWell α) (s : WellRecord α) (residual : Nat → α)
    (control flow pressure : α) :
    w.measure s ((List.range w.layout.size).map residual ++ [control]) flow pressure
      = (w.toleranceOfControl s flow pressure).map fun tolerance =>
        Scalar.total ((List.range w.layout.pressureSlot).map fun eq => overshoot (residual eq) flow)
          + overshoot (residual w.layout.pressureSlot) pressure + overshoot control tolerance := by
  have hsize : w.layout.size = w.layout.pressureSlot + 1 := rfl
  rw [measure, hsize]
  generalize w.layout.pressureSlot = slot
  have hlength : ((List.range (slot + 1)).map residual).length = slot + 1 := by
    rw [List.length_map, List.length_range]
  have hlast : ((List.range (slot + 1)).map residual ++ [control])[slot + 1]? = some control := by
    rw [List.getElem?_append_right hlength.le, hlength, Nat.sub_self]
    rfl
  have hpressure : ((List.range (slot + 1)).map residual ++ [control])[slot]?
      = some (residual slot) := by
    rw [List.getElem?_append_left (by omega), List.getElem?_map, List.getElem?_range (by omega)]
    rfl
  have hmass : ((List.range (slot + 1)).map residual ++ [control]).take slot
      = (List.range slot).map residual := by
    rw [List.take_append_of_le_length (by omega), ← List.map_take, List.take_range]
    rw [Nat.min_eq_left (Nat.le_succ slot)]
  dsimp only
  rw [if_neg (by simp), Nat.add_sub_cancel, hmass, hlast, hpressure, List.map_map]
  cases w.toleranceOfControl s flow pressure with
  | error e => rfl
  | ok tolerance => rfl

variable [RoundedScalar α] {w : SegmentedWell α} {s : WellRecord α} {t : Tolerances α}

/-- A measure of zero leaves no residual above its tolerance. -/
theorem within_of_measure (ht : t.Graded) {factors v : List α} {m : α}
    (hv : w.finiteResiduals factors = .ok v)
    (hm : w.measure s v t.flow t.pressure = .ok m) (hzero : Scalar.isZero m = true) :
    (∀ eq < w.layout.pressureSlot, ∀ r ∈ w.countedResiduals factors eq, r ≤ t.flow) ∧
      (∀ r ∈ w.countedResiduals factors w.layout.pressureSlot, r ≤ t.pressure) ∧
      ∃ e, s.mode.equation? = some e ∧
        w.controlResidual ≤ if e == .controlThp then t.pressure else t.flow := by
  obtain ⟨_, hcontrol, hfinite, rfl⟩ := finiteResiduals_cases hv
  rw [measure_eq] at hm
  cases htolerance : w.toleranceOfControl s t.flow t.pressure with
  | error e =>
      rw [htolerance] at hm
      cases hm
  | ok tolerance =>
      rw [htolerance] at hm
      obtain rfl := Except.ok.inj hm
      obtain ⟨e, he, rfl⟩ := toleranceOfControl_cases htolerance
      have hflow := ht.flow_pos
      have hpressure := ht.pressure_pos
      have htol : 0 < if e == .controlThp then t.pressure else t.flow := by
        cases e == .controlThp
        · exact hflow
        · exact hpressure
      have hnumber : ∀ eq < w.layout.size, Scalar.largest (w.countedResiduals factors eq)
          ≤ Scalar.largest (w.countedResiduals factors eq) := by
        intro eq heq
        rw [← Scalar.isNumber_iff, Scalar.isNumber_largest]
        intro r hr
        exact Scalar.isNumber_iff.mpr (OrderedScalar.le_self_of_isFinite (hfinite eq heq r hr))
      -- no part of the sum is below zero, so none is above
      obtain ⟨hmass, hparts⟩ := Scalar.le_total
        ((List.range w.layout.pressureSlot).map fun eq =>
          overshoot (Scalar.largest (w.countedResiduals factors eq)) t.flow)
        (List.forall_mem_map.mpr fun _ _ => overshoot_nonneg _ hflow)
      have hrest := overshoot_nonneg
        (Scalar.largest (w.countedResiduals factors w.layout.pressureSlot)) hpressure
      have hlast := overshoot_nonneg w.controlResidual htol
      have hsum := Scalar.add_nonneg hmass hrest
      have hzero := (Scalar.isZero_iff_le.mp hzero).1
      have hsum0 := OrderedScalar.le_trans (RoundedScalar.le_add hsum hlast) hzero
      have hmass0 := OrderedScalar.le_trans (RoundedScalar.le_add hmass hrest) hsum0
      refine ⟨?_, ?_, e, he, ?_⟩
      · intro eq heq
        rw [← Scalar.largest_le (OrderedScalar.lt_iff.mp hflow).1]
        refine le_of_overshoot hflow (hnumber eq (Nat.lt_succ_of_lt heq)) ?_
        refine OrderedScalar.le_trans (hparts _ ?_) hmass0
        exact List.mem_map.mpr ⟨eq, List.mem_range.mpr heq, rfl⟩
      · rw [← Scalar.largest_le (OrderedScalar.lt_iff.mp hpressure).1]
        exact le_of_overshoot hpressure (hnumber _ (Nat.lt_succ_self _))
          (OrderedScalar.le_trans (Scalar.le_add_left hmass hrest) hsum0)
      · exact le_of_overshoot htol (OrderedScalar.le_self_of_isFinite hcontrol)
          (OrderedScalar.le_trans (Scalar.le_add_left hsum hlast) hzero)

/-! ## Measure and check -/

omit [Scalar α] [RoundedScalar α] in
/-- Mass balances come before the pressure equation. -/
theorem components_le (l : Layout) : l.components ≤ l.pressureSlot := by
  obtain ⟨water, oil, gas⟩ := l
  cases water <;> cases oil <;> cases gas <;> decide

/-- Mass balances whose weighted residuals are within the tolerance of rates hold. -/
theorem massCriterion_of_le (ht : t.Graded) {factors : List α}
    (hfactors : factors.length = w.layout.components)
    (hle : ∀ eq < w.layout.pressureSlot, ∀ r ∈ w.countedResiduals factors eq, r ≤ t.flow) :
    ∀ entry ∈ factors.zipIdx, (w.massCriterion t false entry.2 entry.1).fails = false := by
  rintro ⟨factor, eq⟩ hmem
  have hfactor := List.mk_mem_zipIdx_iff_getElem?.mp hmem
  have heq : eq < w.layout.pressureSlot := by
    have hlt := (List.getElem?_eq_some_iff.mp hfactor).1
    have := components_le w.layout
    omega
  refine (massCriterion_holds ht.usable false eq factor).mpr ?_
  intro seg hseg
  have hresidual : factor * Scalar.abs (w.system.residual seg eq) ≤ t.flow := by
    refine hle eq heq _ (List.mem_map.mpr ⟨seg, List.mem_range.mpr hseg, ?_⟩)
    rw [countedResidual, hfactor]
    exact RoundedScalar.mul_comm _ _
  refine ⟨Scalar.isNumber_iff.mpr (OrderedScalar.le_self hresidual).1, ?_⟩
  show ∀ b ∈ [t.largest, t.flow, t.relaxedFlow], _ ≤ b
  simp only [List.forall_mem_cons]
  exact ⟨OrderedScalar.le_trans hresidual ht.flow_le_largest, hresidual,
    OrderedScalar.le_trans hresidual ht.flow_le_relaxed, by simp⟩

/-- Pressure equations whose residuals are within the tolerance of pressures hold. -/
theorem pressureCriterion_of_le (ht : t.Graded) {factors : List α}
    (hfactors : factors.length = w.layout.components)
    (hle : ∀ r ∈ w.countedResiduals factors w.layout.pressureSlot, r ≤ t.pressure) :
    (w.pressureCriterion t false).fails = false := by
  have hnone : factors[w.layout.pressureSlot]? = none :=
    List.getElem?_eq_none (hfactors.le.trans (components_le w.layout))
  refine (pressureCriterion_holds ht.usable false).mpr ?_
  intro seg hpos hlt
  have hresidual : Scalar.abs (w.system.residual seg w.layout.pressureSlot) ≤ t.pressure := by
    refine hle _ (List.mem_map.mpr ⟨seg, List.mem_range.mpr hlt, ?_⟩)
    rw [countedResidual, hnone]
    exact if_pos hpos
  refine ⟨Scalar.isNumber_iff.mpr (OrderedScalar.le_self hresidual).1, ?_⟩
  show ∀ b ∈ [t.pressure, t.relaxedPressure], _ ≤ b
  simp only [List.forall_mem_cons]
  exact ⟨hresidual, OrderedScalar.le_trans hresidual ht.pressure_le_relaxed, by simp⟩

/-- A control residual that is not too large fails mildly, and only above the tolerance in force. -/
theorem controlSeverity_of_le (ht : t.Graded) (hle : w.controlResidual ≤ t.pressure)
    (control : Equation) :
    w.controlSeverity t control =
      if (if control == .controlRate then t.flow else t.pressure) < w.controlResidual then .normal
      else .none := by
  have hlargest : 0 ≤ t.largest := (ht.usable _ (List.mem_cons_self ..)).1
  have hten : ¬10.0 * t.largest < w.controlResidual := by
    refine OrderedScalar.not_lt_of_le (OrderedScalar.le_trans hle ?_)
    exact OrderedScalar.le_trans ht.pressure_le_largest
      (RoundedScalar.le_mul hlargest RoundedScalar.one_le_ten RoundedScalar.isFinite_ten)
  have hnumber := Scalar.isNumber_iff.mpr (OrderedScalar.le_self hle).1
  rw [controlSeverity]
  simp only [severityOf, hnumber, hten]
  simp

/-- When the control residual is within the tolerance that the measure applies, the control equation
    fails only in a stopped well whose mode is tubing-head pressure. -/
theorem controlSeverity_of_measure (ht : t.Graded) {control e : Equation}
    (hforce : w.controlInForce s = .ok control) (he : s.mode.equation? = some e)
    (hle : w.controlResidual ≤ if e == .controlThp then t.pressure else t.flow) :
    w.controlSeverity t control =
      if s.stopped = true ∧ e = .controlThp ∧ t.flow < w.controlResidual then .normal else .none := by
  have hpressure : w.controlResidual ≤ t.pressure := by
    cases hthp : e == .controlThp with
    | true =>
        rw [hthp] at hle
        exact hle
    | false =>
        rw [hthp] at hle
        exact OrderedScalar.le_trans hle ht.flow_le_pressure
  rw [controlSeverity_of_le ht hpressure]
  rw [controlInForce] at hforce
  cases hs : s.stopped with
  | true =>
      rw [hs] at hforce
      cases hforce
      by_cases hthp : e = .controlThp
      · simp [hthp]
      · have hflow : w.controlResidual ≤ t.flow := by
          rwa [if_neg (by rwa [beq_iff_eq])] at hle
        simp [hthp, OrderedScalar.not_lt_of_le hflow]
  | false =>
      rw [hs] at hforce
      replace hforce : w.controlOf s.mode = .ok control := hforce
      rw [controlOf, he] at hforce
      obtain rfl : e = control := Except.ok.inj hforce
      have hwithin : w.controlResidual ≤ if e == .controlRate then t.flow else t.pressure := by
        cases e <;> first | exact hpressure | exact hle
      rw [if_neg (OrderedScalar.not_lt_of_le hwithin), if_neg (by simp)]

/-- When the measure is zero, a check with the same tolerances that are not relaxed finds nothing,
    except in a stopped well whose mode is tubing-head pressure: its rate is held to the tolerance of
    pressures by the measure and to that of rates by the check. -/
theorem checkConvergence_of_measure (w : SegmentedWell α) (s : WellRecord α) (ht : t.Graded)
    {factors v : List α} {m : α} (hv : w.finiteResiduals factors = .ok v)
    (hm : w.measure s v t.flow t.pressure = .ok m) (hzero : Scalar.isZero m = true) :
    ∃ report, w.checkConvergence s factors t false = .ok report ∧
      report.failures =
        if s.stopped = true ∧ s.mode.equation? = some .controlThp ∧ t.flow < w.controlResidual then
          [⟨.controlRate, .normal, none, w.name⟩]
        else [] := by
  obtain ⟨hfactors, _⟩ := finiteResiduals_cases hv
  obtain ⟨hmass, hpressure, e, he, hcontrol⟩ := within_of_measure ht hv hm hzero
  obtain ⟨control, hforce⟩ := controlInForce_ok (s := s) w (Or.inr (by rw [he]; rfl))
  obtain ⟨report, hreport, hfailures⟩ :=
    failures_checkConvergence ht.usable hfactors hforce false
  refine ⟨report, hreport, ?_⟩
  have hmasses : (factors.zipIdx.map fun entry => w.massCriterion t false entry.2 entry.1).filter
      Criterion.fails = [] := by
    rw [List.filter_eq_nil_iff, List.forall_mem_map]
    intro entry hentry
    rw [massCriterion_of_le ht hfactors hmass entry hentry]
    decide
  rw [hfailures, criteria, List.filter_append, hmasses, List.nil_append,
    List.filter_cons_of_neg (by rw [pressureCriterion_of_le ht hfactors hpressure]; decide),
    ← failures_reportOf, ← controlSeverity_eq, controlSeverity_of_measure ht hforce he hcontrol, he]
  by_cases hexception : s.stopped = true ∧ e = .controlThp ∧ t.flow < w.controlResidual
  · rw [if_pos hexception, if_pos ⟨hexception.1, congrArg some hexception.2.1, hexception.2.2⟩]
    have hstopped : control = .controlRate := by
      rw [controlInForce, hexception.1] at hforce
      exact (Except.ok.inj hforce).symm
    rw [hstopped]
    rfl
  · rw [if_neg hexception, if_neg (by rwa [Option.some.injEq])]
    rfl

/-- The usual tolerances are graded. -/
theorem graded_default : (Tolerances.default : Tolerances Float).Graded := by
  constructor <;> decide +kernel

/-- A stopped producer whose mode is tubing-head pressure. -/
def stoppedRecord : WellRecord Float := { WellRecord.producer 2 .thp with stopped := true }

/-- The rate that is left in a stopped well is reported although the measure is zero. -/
theorem checkConvergence_of_measure_stoppedRecord :
    (twoSegments #[0, 0, 5, 0, 0, 0]).measure stoppedRecord [0, 0, 0, 5] 1e-4 1e3 = .ok 0 ∧
      ∃ report, (twoSegments #[0, 0, 5, 0, 0, 0]).checkConvergence stoppedRecord [1, 1] .default false
          = .ok report ∧ report.failures = [⟨.controlRate, .normal, none, "P1"⟩] := by
  have hlisted : (twoSegments #[0, 0, 5, 0, 0, 0]).finiteResiduals [1, 1] = .ok [0, 0, 0, 5] := by
    decide +kernel
  have hmeasure : (twoSegments #[0, 0, 5, 0, 0, 0]).measure stoppedRecord [0, 0, 0, 5] 1e-4 1e3
      = .ok 0 := by decide +kernel
  obtain ⟨report, hreport, hfailures⟩ := checkConvergence_of_measure
    (twoSegments #[0, 0, 5, 0, 0, 0]) stoppedRecord graded_default hlisted hmeasure
    (by decide +kernel)
  refine ⟨hmeasure, report, hreport, ?_⟩
  rw [hfailures]
  decide +kernel

/-- So a measure of zero does not mean that a check finds nothing. -/
theorem not_forall_converged_of_measure :
    ¬∀ (w : SegmentedWell Float) (s : WellRecord Float) (t : Tolerances Float)
      (factors v : List Float) (m : Float), 0 < w.layout.components → (∀ f ∈ factors, 0 < f) →
      t.Graded → w.finiteResiduals factors = .ok v → w.measure s v t.flow t.pressure = .ok m →
      Scalar.isZero m = true →
      ∃ report, w.checkConvergence s factors t false = .ok report ∧ report.converged = true := by
  intro h
  obtain ⟨report, hreport, hconverged⟩ := h (twoSegments #[0, 0, 5, 0, 0, 0]) stoppedRecord .default
    [1, 1] [0, 0, 0, 5] 0 (by decide) (by decide +kernel) graded_default (by decide +kernel)
    (by decide +kernel) (by decide +kernel)
  have hchecked : (twoSegments #[0, 0, 5, 0, 0, 0]).checkConvergence stoppedRecord [1, 1] .default
      false = .ok ⟨[⟨.controlRate, .normal, none, "P1"⟩]⟩ := by decide +kernel
  obtain rfl := Except.ok.inj (hreport.symm.trans hchecked)
  cases hconverged

end SegmentedWell

end ReservoirWells
