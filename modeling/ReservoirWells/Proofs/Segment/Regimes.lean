import Mathlib.Analysis.SpecialFunctions.Log.Base
import Mathlib.Analysis.SpecialFunctions.Pow.Real
import ReservoirWells.Proofs.Segment.Opposition
import ReservoirWells.Proofs.Segment.Seeding

/-! # Regimes — the friction factor from laminar to turbulent flow

    The friction factor follows one formula in laminar flow, another one in turbulent flow, and a
    straight line in between.  The formulas meet at the ends of the transition, none of them tells the
    directions of flow apart, and in laminar flow the mass rate that the factor is divided by leaves
    a loss that is proportional to it.  Of the correlation for turbulent flow nothing is asked but
    that it is above zero.

    * `Friction.laminar`, `Friction.transition` — the formulas below turbulent flow;
    * `Friction.re_transition_at_laminarLimit`, `Friction.re_transition_at_turbulentLimit` — where they
      meet;
    * `Friction.factor_abs` — only the magnitude of the mass rate counts, for values and derivatives;
    * `Friction.loss_laminar` — the loss of laminar flow;
    * `Friction.factor_regimes` — all of it for a pipe;
    * `Friction.haaland_pos` — over the real numbers, with their powers and logarithms, the correlation
      is above zero in every pipe whose roughness does not exceed its diameter. -/

namespace ReservoirWells

variable {α : Type}

namespace Friction

section Formulas

variable [Scalar α]

/-- The friction factor of laminar flow. -/
def laminar (re : Dual α) : Dual α := re.recip * (16.0 : α)

variable [Transcendental α]

/-- The friction factor of the transition. -/
def transition (diameter roughness : α) (re : Dual α) : Dual α :=
  let low : α := 16.0 / laminarLimit
  let high := (haaland (.const turbulentLimit) diameter roughness).re
  (re - (laminarLimit : α)) * ((high - low) / (turbulentLimit - laminarLimit)) + low

/-- The Reynolds number chooses the formula. -/
theorem factor_eq (area diameter roughness : α) (massRate viscosity : Dual α) :
    factor area diameter massRate roughness viscosity
      = if (reynolds area diameter massRate viscosity).re < laminarLimit then
          laminar (reynolds area diameter massRate viscosity)
        else if turbulentLimit < (reynolds area diameter massRate viscosity).re then
          haaland (reynolds area diameter massRate viscosity) diameter roughness
        else transition diameter roughness (reynolds area diameter massRate viscosity) := rfl

end Formulas

variable [ExactScalar α]

/-! ## Where the formulas meet -/

theorem two_eq : (2.0 : α) = 2 := ExactScalar.ofScientific_whole 2

theorem sixteen_eq : (16.0 : α) = 16 := ExactScalar.ofScientific_whole 16

theorem re_laminar (re : Dual α) : (laminar re).re = 16 / re.re := by
  rw [laminar, Dual.re_mul_scalar, Dual.re_recip, sixteen_eq, one_div_mul_eq_div]

/-- A straight line stays between its ends. -/
theorem between_ends (first last : α) {t : α} (h0 : 0 ≤ t) (h1 : t ≤ 1) :
    min first last ≤ first + (last - first) * t ∧ first + (last - first) * t ≤ max first last := by
  have hmean : first + (last - first) * t = (1 - t) * first + t * last := by ring
  have hrest : 0 ≤ 1 - t := sub_nonneg.mpr h1
  rw [hmean]
  constructor
  · calc min first last = (1 - t) * min first last + t * min first last := by ring
      _ ≤ (1 - t) * first + t * last :=
        add_le_add (mul_le_mul_of_nonneg_left (min_le_left _ _) hrest)
          (mul_le_mul_of_nonneg_left (min_le_right _ _) h0)
  · calc (1 - t) * first + t * last
        ≤ (1 - t) * max first last + t * max first last :=
        add_le_add (mul_le_mul_of_nonneg_left (le_max_left _ _) hrest)
          (mul_le_mul_of_nonneg_left (le_max_right _ _) h0)
      _ = max first last := by ring

variable [Transcendental α] {area diameter roughness length : α} {density viscosity : Dual α}

/-- The transition as a straight line from the laminar to the turbulent end. -/
theorem re_transition (re : Dual α) : (transition diameter roughness re).re
    = 16 / 2000 + ((haaland (.const 4000) diameter roughness).re - 16 / 2000)
        * ((re.re - 2000) / 2000) := by
  rw [transition, Dual.re_add_scalar, Dual.re_mul_scalar, Dual.re_sub_scalar, laminarLimit_eq,
    turbulentLimit_eq, sixteen_eq]
  ring

theorem re_transition_at_laminarLimit {re : Dual α} (h : re.re = 2000) :
    (transition diameter roughness re).re = (laminar re).re := by
  rw [re_transition, re_laminar, h, sub_self, zero_div, mul_zero, add_zero]

theorem re_transition_at_turbulentLimit {re : Dual α} (h : re.re = 4000) :
    (transition diameter roughness re).re = (haaland re diameter roughness).re := by
  have hend : (haaland re diameter roughness).re = (haaland (.const 4000) diameter roughness).re :=
    re_haaland_congr diameter roughness h
  rw [re_transition, hend, h]
  ring

theorem transition_between {re : Dual α} (hlow : 2000 ≤ re.re) (hhigh : re.re ≤ 4000) :
    min (16 / 2000) (haaland (.const 4000) diameter roughness).re
        ≤ (transition diameter roughness re).re ∧
      (transition diameter roughness re).re
        ≤ max (16 / 2000) (haaland (.const 4000) diameter roughness).re := by
  rw [re_transition]
  refine between_ends _ _ ?_ ?_
  · exact div_nonneg (sub_nonneg.mpr hlow) (Nat.ofNat_nonneg 2000)
  · rw [div_le_one (Nat.ofNat_pos (n := 2000))]
    linarith

/-- The factor between the limits, both of them included. -/
theorem factor_of_transition {massRate : Dual α}
    (hlow : 2000 ≤ (reynolds area diameter massRate viscosity).re)
    (hhigh : (reynolds area diameter massRate viscosity).re ≤ 4000) :
    factor area diameter massRate roughness viscosity
      = transition diameter roughness (reynolds area diameter massRate viscosity) := by
  rw [factor_eq, laminarLimit_eq, turbulentLimit_eq, if_neg hlow.not_gt, if_neg hhigh.not_gt]

/-! ## Directions -/

omit [Transcendental α] in
theorem reynolds_abs (harea : 0 < area) (hdiameter : 0 < diameter) (hviscosity : 0 < viscosity.re)
    (massRate : Dual α) :
    reynolds area diameter massRate.abs viscosity = reynolds area diameter massRate viscosity := by
  rcases lt_trichotomy massRate.re 0 with hneg | hzero | hpos
  · have hturned : -massRate * (diameter / area) / viscosity
        = -(massRate * (diameter / area) / viscosity) := by
      ext
      · simp only [Dual.re_div, Dual.re_mul_scalar, Dual.re_neg]
        ring
      · simp only [Dual.eps_div, Dual.eps_mul_scalar, Dual.re_mul_scalar, Dual.eps_neg, Dual.re_neg]
        ring
    have hmoving : (massRate * (diameter / area) / viscosity).re ≠ 0 := by
      rw [Dual.re_div, Dual.re_mul_scalar]
      exact div_ne_zero (mul_ne_zero hneg.ne (div_pos hdiameter harea).ne') hviscosity.ne'
    rw [Dual.abs_of_neg hneg, reynolds, reynolds, hturned, Dual.abs_neg hmoving]
  · rw [Dual.abs, if_neg hzero.not_lt]
  · rw [Dual.abs_of_pos hpos]

/-- Only the magnitude of the mass rate counts for the factor, also for its derivative. -/
theorem factor_abs (harea : 0 < area) (hdiameter : 0 < diameter) (hviscosity : 0 < viscosity.re)
    (massRate : Dual α) : factor area diameter massRate.abs roughness viscosity
      = factor area diameter massRate roughness viscosity := by
  rw [factor_eq, factor_eq, reynolds_abs harea hdiameter hviscosity]

theorem loss_abs (harea : 0 < area) (hdiameter : 0 < diameter) (hviscosity : 0 < viscosity.re)
    (massRate : Dual α) : loss length diameter area roughness density massRate.abs viscosity
      = loss length diameter area roughness density massRate viscosity := by
  have hsquare : ∀ f : Dual α, f * massRate.abs * massRate.abs = f * massRate * massRate := by
    intro f
    rw [Dual.abs]
    split
    · ext
      · simp only [Dual.re_mul, Dual.re_neg]
        ring
      · simp only [Dual.eps_mul, Dual.re_mul, Dual.eps_neg, Dual.re_neg]
        ring
    · rfl
  rw [loss, loss, reynolds_abs harea hdiameter hviscosity, factor_abs harea hdiameter hviscosity]
  dsimp only
  rw [hsquare]

omit [Transcendental α] in
theorem re_reynolds_pos (harea : 0 < area) (hdiameter : 0 < diameter) (hviscosity : 0 < viscosity.re)
    {massRate : Dual α} (h : massRate.re ≠ 0) :
    0 < (reynolds area diameter massRate viscosity).re := by
  rw [re_reynolds, abs_pos]
  exact div_ne_zero (mul_ne_zero h (div_pos hdiameter harea).ne') hviscosity.ne'

/-! ## Laminar flow -/

/-- The loss of laminar flow is proportional to the mass rate, with its derivative. -/
theorem loss_laminar (harea : 0 < area) (hdiameter : 0 < diameter) (hviscosity : 0 < viscosity.re)
    (hdensity : 0 < density.re) {massRate : Dual α} (hrate : massRate.re ≠ 0)
    (hlaminar : (reynolds area diameter massRate viscosity).re < 2000) :
    loss length diameter area roughness density massRate viscosity
      = viscosity * massRate.abs * (32 * length / (area * diameter ^ 2)) / density := by
  have hpos : 0 < massRate.abs.re := by
    rw [Dual.re_abs]
    exact abs_pos.mpr hrate
  rw [← loss_abs harea hdiameter hviscosity]
  rw [← reynolds_abs harea hdiameter hviscosity] at hlaminar
  generalize massRate.abs = rate at hpos hlaminar ⊢
  have hre : reynolds area diameter rate viscosity = rate * (diameter / area) / viscosity := by
    refine Dual.abs_of_pos ?_
    rw [Dual.re_div, Dual.re_mul_scalar]
    exact div_pos (mul_pos hpos (div_pos hdiameter harea)) hviscosity
  rw [loss, Scalar.isZero_of_pos (re_reynolds_pos harea hdiameter hviscosity hpos.ne'),
    if_neg Bool.false_ne_true, factor_eq, laminarLimit_eq, if_pos hlaminar, laminar, hre]
  dsimp only
  ext
  · simp only [Dual.re_div, Dual.re_mul_scalar, Dual.re_mul, Dual.re_recip, sixteen_eq, two_eq]
    field_simp
    ring
  · simp only [Dual.eps_div, Dual.eps_mul_scalar, Dual.eps_mul, Dual.eps_recip, Dual.re_div,
      Dual.re_mul_scalar, Dual.re_mul, Dual.re_recip, sixteen_eq, two_eq]
    field_simp
    ring

/-- The same for one mass rate that is differentiated: the value and its derivative. -/
theorem loss_laminar_seeded (harea : 0 < area) (hdiameter : 0 < diameter)
    (hviscosity : 0 < viscosity.re) (hdensity : 0 < density.re) {rate : α} (hrate : rate ≠ 0)
    (hlaminar : (reynolds area diameter (.const rate) viscosity).re < 2000) :
    loss length diameter area roughness density.forget ⟨rate, 1⟩ viscosity.forget
      = ⟨32 * viscosity.re * length * |rate| / (area * diameter ^ 2 * density.re),
          32 * viscosity.re * length * (|rate| / rate) / (area * diameter ^ 2 * density.re)⟩ := by
  have hslope : (⟨rate, 1⟩ : Dual α).abs = ⟨|rate|, |rate| / rate⟩ := by
    rcases lt_or_gt_of_ne hrate with hneg | hpos
    · rw [Dual.abs_of_neg (x := ⟨rate, 1⟩) hneg, abs_of_neg hneg, neg_div, div_self hrate]
      rfl
    · rw [Dual.abs_of_pos (x := ⟨rate, 1⟩) hpos, abs_of_pos hpos, div_self hrate]
  have hlaminar' : (reynolds area diameter ⟨rate, 1⟩ viscosity.forget).re < 2000 := by
    rw [re_reynolds] at hlaminar ⊢
    exact hlaminar
  have hviscosity' : 0 < viscosity.forget.re := hviscosity
  have hdensity' : 0 < density.forget.re := hdensity
  have hrate' : (⟨rate, 1⟩ : Dual α).re ≠ 0 := hrate
  rw [loss_laminar harea hdiameter hviscosity' hdensity' hrate' hlaminar', hslope]
  ext
  · simp only [Dual.re_div, Dual.re_mul_scalar, Dual.re_mul, Dual.forget_re]
    field_simp
  · simp only [Dual.eps_div, Dual.eps_mul_scalar, Dual.eps_mul, Dual.re_mul_scalar, Dual.re_mul,
      Dual.forget_re, Dual.forget_eps]
    field_simp
    ring

/-! ## All regimes -/

/-- Positive in every regime, as long as something flows. -/
theorem factor_pos (harea : 0 < area) (hdiameter : 0 < diameter) (hviscosity : 0 < viscosity.re)
    (hturbulent : ∀ re : Dual α, 4000 ≤ re.re → 0 < (haaland re diameter roughness).re)
    {massRate : Dual α} (hrate : massRate.re ≠ 0) :
    0 < (factor area diameter massRate roughness viscosity).re := by
  have hre := re_reynolds_pos harea hdiameter hviscosity hrate
  rcases lt_or_ge (reynolds area diameter massRate viscosity).re 2000 with hlaminar | hlow
  · rw [factor_eq, laminarLimit_eq, if_pos hlaminar, re_laminar]
    exact div_pos (Nat.ofNat_pos (n := 16)) hre
  rcases lt_or_ge 4000 (reynolds area diameter massRate viscosity).re with hhigh | hhigh
  · rw [factor_eq, laminarLimit_eq, turbulentLimit_eq, if_neg hlow.not_gt, if_pos hhigh]
    exact hturbulent _ hhigh.le
  · rw [factor_of_transition hlow hhigh]
    refine lt_of_lt_of_le (lt_min ?_ ?_) (transition_between hlow hhigh).1
    · exact div_pos (Nat.ofNat_pos (n := 16)) (Nat.ofNat_pos (n := 2000))
    · exact hturbulent (.const 4000) (le_refl (4000 : α))

/-- Take a pipe with an area and a diameter, a viscosity, and a correlation that is above zero in
    turbulent flow. At both limits of the Reynolds number the formulas of either side give one factor;
    between them it lies between the factors at the limits; only the magnitude of the mass rate
    counts; the factor is above zero when something flows; and the loss of laminar flow is
    `32 μ L |w| / (A D² ρ)`, as a dual number and so with every derivative, in particular the one
    with respect to the mass rate. -/
theorem factor_regimes (harea : 0 < area) (hdiameter : 0 < diameter) (hviscosity : 0 < viscosity.re)
    (hturbulent : ∀ re : Dual α, 4000 ≤ re.re → 0 < (haaland re diameter roughness).re) :
    let re massRate := reynolds area diameter massRate viscosity
    let factor massRate := factor area diameter massRate roughness viscosity
    (∀ w, (re w).re = 2000 → (factor w).re = (laminar (re w)).re ∧
      (factor w).re = (transition diameter roughness (re w)).re) ∧
    (∀ w, (re w).re = 4000 → (factor w).re = (transition diameter roughness (re w)).re ∧
      (factor w).re = (haaland (re w) diameter roughness).re) ∧
    (∀ w, 2000 ≤ (re w).re → (re w).re ≤ 4000 →
      min (16 / 2000) (haaland (.const 4000) diameter roughness).re ≤ (factor w).re ∧
      (factor w).re ≤ max (16 / 2000) (haaland (.const 4000) diameter roughness).re) ∧
    (∀ w, factor w.abs = factor w ∧ ∀ w', |w'.re| = |w.re| → (factor w').re = (factor w).re) ∧
    (∀ w, w.re ≠ 0 → 0 < (factor w).re) ∧
    ∀ (length : α) (density w : Dual α), 0 < density.re → w.re ≠ 0 → (re w).re < 2000 →
      loss length diameter area roughness density w viscosity
        = viscosity * w.abs * (32 * length / (area * diameter ^ 2)) / density ∧
      loss length diameter area roughness density.forget ⟨w.re, 1⟩ viscosity.forget
        = ⟨32 * viscosity.re * length * |w.re| / (area * diameter ^ 2 * density.re),
            32 * viscosity.re * length * (|w.re| / w.re) / (area * diameter ^ 2 * density.re)⟩ := by
  intro re factor
  have hlimits : (2000 : α) ≤ 4000 := by norm_num
  refine ⟨?_, ?_, fun w hlow hhigh => ?_, fun w => ⟨?_, fun w' h => ?_⟩, fun w hw => ?_, ?_⟩
  · intro w hw
    have htransition : factor w = transition diameter roughness (re w) :=
      factor_of_transition hw.ge (hw.le.trans hlimits)
    rw [htransition]
    exact ⟨re_transition_at_laminarLimit hw, rfl⟩
  · intro w hw
    have htransition : factor w = transition diameter roughness (re w) :=
      factor_of_transition (hlimits.trans hw.ge) hw.le
    rw [htransition]
    exact ⟨rfl, re_transition_at_turbulentLimit hw⟩
  · have htransition : factor w = transition diameter roughness (re w) :=
      factor_of_transition hlow hhigh
    rw [htransition]
    exact transition_between hlow hhigh
  · exact factor_abs harea hdiameter hviscosity w
  · rcases abs_eq_abs.mp h with hsame | hopposite
    · show (Friction.factor area diameter w' roughness viscosity).re = _
      rw [← re_factor_forget, Dual.forget_congr hsame, re_factor_forget]
    · exact factor_even hopposite
  · exact factor_pos harea hdiameter hviscosity hturbulent hw
  · intro length density w hdensity hw hlaminar
    refine ⟨loss_laminar harea hdiameter hviscosity hdensity hw hlaminar,
      loss_laminar_seeded harea hdiameter hviscosity hdensity hw ?_⟩
    have hsame : (re w).re = (reynolds area diameter (.const w.re) viscosity).re :=
      (re_reynolds w).trans (re_reynolds (.const w.re)).symm
    exact hsame ▸ hlaminar

end Friction

/-! ## Real pipes -/

/-- Real numbers are scalars. -/
noncomputable instance instScalarReal : Scalar ℝ where
  decidableLt := inferInstance
  decidableLe := inferInstance
  zero_le_zero := le_refl 0
  zero_le_one := zero_le_one
  isFinite := fun _ => true

theorem ofScientific_real (digits : Nat) (below : Bool) (places : Nat) :
    (OfScientific.ofScientific digits below places : ℝ)
      = if below then (digits : ℝ) / 10 ^ places else (digits : ℝ) * 10 ^ places := by
  have hcast : (OfScientific.ofScientific digits below places : ℝ)
      = ((OfScientific.ofScientific digits below places : ℚ) : ℝ) :=
    (Rat.cast_ofScientific digits below places).symm
  refine hcast.trans ?_
  rw [ExactScalar.ofScientific_eq (α := ℚ)]
  split <;> push_cast <;> rfl

/-- Real arithmetic is exact. -/
noncomputable instance instExactScalarReal : ExactScalar ℝ where
  __ := instScalarReal
  __ := (inferInstance : Field ℝ)
  __ := (inferInstance : LinearOrder ℝ)
  __ := (inferInstance : IsStrictOrderedRing ℝ)
  isFinite_eq_true := fun _ => rfl
  ofScientific_eq := ofScientific_real

/-- Powers and logarithms of real numbers. -/
noncomputable instance instTranscendentalReal : Transcendental ℝ where
  pow := fun x y => x ^ y
  exp := Real.exp
  log10 := Real.logb (Nat.cast 10)
  ln10 := Real.log (Nat.cast 10)

namespace Friction

/-- The correlation is above zero in turbulent flow through a pipe that is not rougher than it is
    wide: the logarithm is that of a number below one. -/
theorem haaland_pos {diameter roughness : ℝ} (hdiameter : 0 < diameter) (hrough : 0 ≤ roughness)
    (hsmooth : roughness ≤ diameter) (re : Dual ℝ) (hre : 4000 ≤ re.re) :
    0 < (haaland re diameter roughness).re := by
  have hpos : 0 < re.re := (by norm_num : (0 : ℝ) < 4000).trans_le hre
  have hbase : 0 ≤ roughness / (3.7 * diameter) :=
    div_nonneg hrough (mul_nonneg (by norm_num) hdiameter.le)
  have hbase' : roughness / (3.7 * diameter) ≤ 1 / 3.7 := by
    rw [div_le_div_iff₀ (mul_pos (by norm_num) hdiameter) (by norm_num)]
    linarith
  have hrelative : (roughness / (3.7 * diameter)) ^ (10.0 / 9.0 : ℝ) ≤ 1 / 3.7 := by
    calc (roughness / (3.7 * diameter)) ^ (10.0 / 9.0 : ℝ)
        ≤ (roughness / (3.7 * diameter)) ^ (1 : ℝ) :=
          Real.rpow_le_rpow_of_exponent_ge' hbase (hbase'.trans (by norm_num)) zero_le_one
            (by norm_num)
      _ ≤ 1 / 3.7 := by rwa [Real.rpow_one]
  have hflow : 1 / re.re * 6.9 ≤ 1 / 4000 * 6.9 :=
    mul_le_mul_of_nonneg_right (one_div_le_one_div_of_le (by norm_num) hre) (by norm_num)
  have hargument : 0 < 1 / re.re * 6.9 + (roughness / (3.7 * diameter)) ^ (10.0 / 9.0 : ℝ) :=
    add_pos_of_pos_of_nonneg (mul_pos (one_div_pos.mpr hpos) (by norm_num))
      (Real.rpow_nonneg hbase _)
  have hbelow : 1 / re.re * 6.9 + (roughness / (3.7 * diameter)) ^ (10.0 / 9.0 : ℝ) < 1 :=
    (add_le_add hflow hrelative).trans_lt (by norm_num)
  obtain ⟨x, hx0, hx1, hvalue⟩ : ∃ x : ℝ, 0 < x ∧ x < 1 ∧ (haaland re diameter roughness).re
      = 1 / (Real.logb 10 x * -3.6 * (Real.logb 10 x * -3.6) * 4.0) :=
    ⟨_, hargument, hbelow, rfl⟩
  have hlog : Real.logb 10 x < 0 := Real.logb_neg (by norm_num) hx0 hx1
  have hscaled : 0 < Real.logb 10 x * -3.6 := mul_pos_of_neg_of_neg hlog (by norm_num)
  rw [hvalue]
  exact one_div_pos.mpr (mul_pos (mul_pos hscaled hscaled) (by norm_num))

/-- A slightly rough pipe with a fluid that is laminar in it up to a mass rate of two: at both limits
    and in turbulent flow, and the loss along the pipe when a rate of one is produced. -/
theorem factor_regimes_roughPipe :
    let re (w : Dual ℝ) := reynolds (1 / 100) (1 / 10) w (.const (1 / 100))
    let factor (w : Dual ℝ) := factor (1 / 100) (1 / 10) w (1 / 100000) (.const (1 / 100))
    (∀ re : Dual ℝ, 4000 ≤ re.re → 0 < (haaland re (1 / 10) (1 / 100000)).re) ∧
      (re (.const (-2))).re = 2000 ∧ (factor (.const (-2))).re = 16 / 2000 ∧
      (re (.const 4)).re = 4000 ∧
      (factor (.const 4)).re = (haaland (re (.const 4)) (1 / 10) (1 / 100000)).re ∧
      0 < (factor (.const 5)).re ∧ (factor (.const (-5))).re = (factor (.const 5)).re ∧
      loss 10 (1 / 10) (1 / 100) (1 / 100000) (.const 1000) ⟨-1, 1⟩ (.const (1 / 100))
        = (⟨32, -32⟩ : Dual ℝ) := by
  intro re factor
  have hturbulent : ∀ re : Dual ℝ, 4000 ≤ re.re → 0 < (haaland re (1 / 10) (1 / 100000)).re :=
    haaland_pos (by norm_num) (by norm_num) (by norm_num)
  have harea : (0 : ℝ) < 1 / 100 := by norm_num
  have hdiameter : (0 : ℝ) < 1 / 10 := by norm_num
  have hviscosity : 0 < (Dual.const (1 / 100 : ℝ)).re := harea
  obtain ⟨hlaminar, hhigh, _, hdirection, hpos, hloss⟩ :=
    factor_regimes harea hdiameter hviscosity hturbulent
  have hre : ∀ w : Dual ℝ, (re w).re = |w.re * (1 / 10 / (1 / 100)) / (1 / 100)| := re_reynolds
  have hfirst : (re (.const (-2))).re = 2000 := by
    rw [hre, Dual.re_const, abs_of_neg (by norm_num)]
    norm_num
  have hlast : (re (.const 4)).re = 4000 := by
    rw [hre, Dual.re_const, abs_of_pos (by norm_num)]
    norm_num
  refine ⟨hturbulent, hfirst, ?_, hlast, (hhigh _ hlast).2, hpos _ (by norm_num), ?_, ?_⟩
  · rw [(hlaminar _ hfirst).1, re_laminar]
    exact congrArg (16 / ·) hfirst
  · exact (hdirection (.const 5)).2 (.const (-5)) (abs_neg 5)
  · have hslow : (re ⟨-1, 0⟩).re < 2000 := by
      rw [hre, abs_of_neg (by norm_num)]
      norm_num
    refine (hloss 10 (.const 1000) ⟨-1, 0⟩ (by norm_num) (by norm_num) hslow).2.trans ?_
    ext <;> norm_num

end Friction

end ReservoirWells
