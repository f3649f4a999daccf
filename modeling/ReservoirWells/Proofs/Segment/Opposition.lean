import Mathlib.Tactic.Linarith
import Mathlib.Tactic.NormNum
import Mathlib.Tactic.Ring
import ReservoirWells.Proofs.Segment.Runs

/-! # Opposition — losses act against the flow

    The laws of pressure loss give magnitudes, and each caller adds a sign of its own: from the mass
    rate or from the rate of a device, before a rate is limited or after it, and with its own choice
    for what is at rest.  All of them come to the same.  A loss is not below zero, does not depend on
    the direction of the flow and vanishes at rest (`IsLoss`), so with a sign against the flow it is
    a drop that opposes it (`IsLoss.opposesFlow`).

    * `Friction.isLoss_loss` — friction is a loss in laminar flow, in turbulent flow and in between;
    * `SpiralDevice.opposesFlow`, `AutonomousDevice.opposesFlow`, `Valve.opposesFlow` — the devices;
    * `losses_oppose_flow` — every device, and the friction along a pipe. -/

namespace ReservoirWells

variable {α : Type} [ExactScalar α]

/-! ## Losses and drops -/

/-- The drop acts against the mass rate: it is odd, and positive towards the outlet. -/
structure OpposesFlow (drop : Dual α → Dual α) : Prop where
  odd : ∀ {x y : Dual α}, y.re = -x.re → (drop y).re = -(drop x).re
  rest : ∀ {x : Dual α}, x.re = 0 → (drop x).re = 0
  producing : ∀ {x : Dual α}, x.re < 0 → 0 ≤ (drop x).re
  injecting : ∀ {x : Dual α}, 0 < x.re → (drop x).re ≤ 0

/-- A loss has no direction. -/
structure IsLoss (loss : Dual α → α) : Prop where
  nonneg : ∀ x, 0 ≤ loss x
  even : ∀ {x y : Dual α}, y.re = -x.re → loss y = loss x
  rest : ∀ {x : Dual α}, x.re = 0 → loss x = 0

theorem dropSign_of_nonpos {rate : α} (h : rate ≤ 0) : dropSign rate = 1 := if_pos h

theorem dropSign_of_pos {rate : α} (h : 0 < rate) : dropSign rate = -1 := if_neg (not_le.mpr h)

namespace IsLoss

variable {loss loss' : Dual α → α}

theorem add (h : IsLoss loss) (h' : IsLoss loss') : IsLoss fun x => loss x + loss' x where
  nonneg := fun x => add_nonneg (h.nonneg x) (h'.nonneg x)
  even := fun hxy => by rw [h.even hxy, h'.even hxy]
  rest := fun hx => by rw [h.rest hx, h'.rest hx, add_zero]

/-- A loss with a sign against the flow is a drop that opposes it. What sign is taken at rest makes no
    difference. -/
theorem opposesFlow (h : IsLoss loss) {drop : Dual α → Dual α}
    (hproducing : ∀ {x : Dual α}, x.re < 0 → (drop x).re = loss x)
    (hinjecting : ∀ {x : Dual α}, 0 < x.re → (drop x).re = -loss x)
    (hrest : ∀ {x : Dual α}, x.re = 0 → (drop x).re = 0) : OpposesFlow drop where
  odd := by
    intro x y hxy
    rcases lt_trichotomy x.re 0 with hx | hx | hx
    · rw [hproducing hx, hinjecting (hxy ▸ neg_pos.mpr hx), h.even hxy]
    · rw [hrest hx, hrest (by rw [hxy, hx, neg_zero]), neg_zero]
    · rw [hinjecting hx, hproducing (hxy ▸ neg_neg_of_pos hx), h.even hxy, neg_neg]
  rest := hrest
  producing := fun hx => hproducing hx ▸ h.nonneg _
  injecting := fun hx => hinjecting hx ▸ neg_nonpos.mpr (h.nonneg _)

end IsLoss

variable [Transcendental α]

/-! ## Friction -/

namespace Friction

variable {area diameter roughness length : α} {density viscosity : Dual α}

omit [Transcendental α] in
theorem re_reynolds (massRate : Dual α) : (reynolds area diameter massRate viscosity).re
    = |massRate.re * (diameter / area) / viscosity.re| := by
  rw [reynolds, Dual.re_abs, Dual.re_div, Dual.re_mul_scalar]

omit [Transcendental α] in
/-- The Reynolds number does not tell the directions apart. -/
theorem reynolds_even {x y : Dual α} (h : y.re = -x.re) :
    (reynolds area diameter y viscosity).re = (reynolds area diameter x viscosity).re := by
  rw [re_reynolds, re_reynolds, h, neg_mul, neg_div, abs_neg]

omit [Transcendental α] in
theorem laminarLimit_eq : (laminarLimit : α) = 2000 := ExactScalar.ofScientific_whole 2000

omit [Transcendental α] in
theorem turbulentLimit_eq : (turbulentLimit : α) = 4000 := ExactScalar.ofScientific_whole 4000

/-- The correlation is the reciprocal of a square. -/
theorem haaland_nonneg (re : Dual α) (diameter roughness : α) :
    0 ≤ (haaland re diameter roughness).re := by
  rw [haaland, Dual.re_recip, Dual.re_mul_scalar, Dual.re_mul]
  exact one_div_nonneg.mpr
    (mul_nonneg (mul_self_nonneg _) (ExactScalar.ofScientific_nonneg _ _ _))

/-- Friction factors are not below zero. In the transition they lie between those of its ends. -/
theorem factor_nonneg (massRate : Dual α) :
    0 ≤ (factor area diameter massRate roughness viscosity).re := by
  have hre : 0 ≤ (reynolds area diameter massRate viscosity).re := by
    rw [re_reynolds]
    exact abs_nonneg _
  rw [factor]
  generalize reynolds area diameter massRate viscosity = re at hre ⊢
  dsimp only
  split
  · rw [Dual.re_mul_scalar, Dual.re_recip]
    exact mul_nonneg (one_div_nonneg.mpr hre) (ExactScalar.ofScientific_nonneg _ _ _)
  split
  · exact haaland_nonneg re diameter roughness
  · rename_i hlaminar hturbulent
    have hhigh := haaland_nonneg (.const turbulentLimit) diameter roughness
    have hlow : (0 : α) ≤ 16.0 / laminarLimit :=
      div_nonneg (ExactScalar.ofScientific_nonneg _ _ _) (ExactScalar.ofScientific_nonneg _ _ _)
    generalize (haaland (Dual.const turbulentLimit) diameter roughness).re = high at hhigh ⊢
    generalize (16.0 / laminarLimit : α) = low at hlow ⊢
    rw [laminarLimit_eq, not_lt] at hlaminar
    rw [turbulentLimit_eq, not_lt] at hturbulent
    rw [Dual.re_add_scalar, Dual.re_mul_scalar, Dual.re_sub_scalar, laminarLimit_eq,
      turbulentLimit_eq]
    -- how far the transition has gone
    have hstart : 0 ≤ (re.re - 2000) / 2000 :=
      div_nonneg (sub_nonneg.mpr hlaminar) (Nat.ofNat_nonneg 2000)
    have hend : 0 ≤ 1 - (re.re - 2000) / 2000 := by
      rw [sub_nonneg, div_le_one (Nat.ofNat_pos (n := 2000))]
      linarith
    calc (0 : α) ≤ low * (1 - (re.re - 2000) / 2000) + high * ((re.re - 2000) / 2000) :=
          add_nonneg (mul_nonneg hlow hend) (mul_nonneg hhigh hstart)
      _ = (re.re - 2000) * ((high - low) / (4000 - 2000)) + low := by ring

/-- Friction factors do not tell the directions apart. -/
theorem factor_even {x y : Dual α} (h : y.re = -x.re) :
    (factor area diameter y roughness viscosity).re
      = (factor area diameter x roughness viscosity).re := by
  have hre : reynolds area diameter y.forget viscosity.forget
      = reynolds area diameter x.forget viscosity.forget := by
    rw [← forget_reynolds, ← forget_reynolds, Dual.forget_congr (reynolds_even h)]
  have hfactor : (factor area diameter y roughness viscosity).forget
      = (factor area diameter x roughness viscosity).forget := by
    rw [forget_factor, forget_factor, factor, hre]
    rfl
  show (factor area diameter y roughness viscosity).forget.re = _
  rw [hfactor]
  rfl

theorem re_loss (massRate : Dual α) :
    (loss length diameter area roughness density massRate viscosity).re
      = if Scalar.isZero (reynolds area diameter massRate viscosity).re then 0
        else (factor area diameter massRate roughness viscosity).re * (massRate.re * massRate.re)
          * (2.0 * length / (area * area * diameter)) / density.re := by
  rw [loss, apply_ite Dual.re]
  simp only [Dual.re_div, Dual.re_mul, Dual.re_mul_scalar, Dual.re_zero, mul_assoc]

/-- Friction is a loss. -/
theorem isLoss_loss (area roughness : α) (viscosity : Dual α) (hlength : 0 ≤ length)
    (hdiameter : 0 ≤ diameter) (hdensity : 0 ≤ density.re) : IsLoss fun massRate =>
      (loss length diameter area roughness density massRate viscosity).re where
  nonneg := by
    intro x
    rw [re_loss]
    split
    · exact le_refl 0
    · have hpipe : 0 ≤ 2.0 * length / (area * area * diameter) :=
        div_nonneg (mul_nonneg (ExactScalar.ofScientific_nonneg _ _ _) hlength)
          (mul_nonneg (mul_self_nonneg area) hdiameter)
      exact div_nonneg (mul_nonneg (mul_nonneg (factor_nonneg x) (mul_self_nonneg x.re)) hpipe)
        hdensity
  even := by
    intro x y h
    rw [re_loss, re_loss, reynolds_even h, factor_even h, h, neg_mul_neg]
  rest := by
    intro x h
    have hre : (reynolds area diameter x viscosity).re = 0 := by
      rw [re_reynolds, h, zero_mul, zero_div, abs_zero]
    rw [re_loss, if_pos ((Scalar.isZero_iff _).mpr hre)]

omit [Transcendental α] in
/-- What a constriction takes is a loss. -/
theorem isLoss_constrictionLoss (area coefficient : α) (hdensity : 0 ≤ density.re) :
    IsLoss fun massRate => (constrictionLoss massRate density area coefficient).re := by
  have hre : ∀ w : Dual α, (constrictionLoss w density area coefficient).re
      = w.re * w.re / (density.re * (2.0 * coefficient * coefficient * area * area)) := by
    intro w
    rw [constrictionLoss, Dual.re_div, Dual.re_mul, Dual.re_mul_scalar]
  have hopening : 0 ≤ 2.0 * coefficient * coefficient * area * area := by
    rw [mul_assoc _ area, mul_assoc (2.0 : α) coefficient]
    exact mul_nonneg (mul_nonneg (ExactScalar.ofScientific_nonneg _ _ _) (mul_self_nonneg _))
      (mul_self_nonneg _)
  refine ⟨?_, ?_, ?_⟩
  · intro x
    rw [hre]
    exact div_nonneg (mul_self_nonneg _) (mul_nonneg hdensity hopening)
  · intro x y h
    rw [hre, hre, h, neg_mul_neg]
  · intro x h
    rw [hre, h, zero_mul, zero_div]

end Friction

/-! ## Devices -/

/-- A state whose fractions and viscosities are not below zero, with a density. -/
structure FlowState.Physical (s : FlowState α) : Prop where
  fractions : ∀ p, 0 ≤ (s.fractions.get p).re
  viscosities : ∀ p, 0 ≤ (s.viscosities.get p).re
  density : 0 < s.density.re

omit [Transcendental α] in
/-- The water cut of the liquid is a fraction, so the mixture is at least as viscous as nothing. -/
theorem mixtureViscosity_nonneg {upwind : FlowState α} (h : upwind.Physical) :
    0 ≤ (mixtureViscosity upwind).re := by
  have hwater := h.fractions .water
  have hoil := h.fractions .oil
  have hwater' := h.viscosities .water
  have hoil' := h.viscosities .oil
  have hgas : 0 ≤ upwind.fractions.gas.re * upwind.viscosities.gas.re :=
    mul_nonneg (h.fractions .gas) (h.viscosities .gas)
  rw [mixtureViscosity]
  dsimp only [PerPhase.get] at *
  rw [Dual.re_add, Dual.re_mul]
  refine add_nonneg ?_ hgas
  split
  · exact add_nonneg (mul_nonneg hoil hoil') (mul_nonneg hwater hwater')
  · have hliquid := add_nonneg hwater hoil
    simp only [Dual.re_mul, Dual.re_add, Dual.re_add_scalar, Dual.re_neg, Dual.re_div]
    have hcut := div_nonneg hwater hliquid
    have hrest : 0 ≤ -(upwind.fractions.water.re
        / (upwind.fractions.water.re + upwind.fractions.oil.re)) + 1 := by
      have hpart := div_le_one_of_le₀ (le_add_of_nonneg_right hoil) hliquid
      linarith
    exact mul_nonneg hliquid (add_nonneg (mul_nonneg hcut hwater') (mul_nonneg hrest hoil'))

/-! ### Spiral devices -/

omit [Transcendental α] in
theorem signedLike_of_neg {most rate : α} (h : rate < 0) : signedLike most rate = -|most| := by
  rw [signedLike, Scalar.isNegative, decide_eq_true h, Bool.true_or, if_pos rfl, Scalar.abs_eq]

omit [Transcendental α] in
theorem signedLike_of_pos {most rate : α} (h : 0 < rate) : signedLike most rate = |most| := by
  rw [signedLike, Scalar.isNegative, decide_eq_false h.not_gt, Scalar.isZero_of_pos h,
    Bool.false_and, Bool.false_or, if_neg Bool.false_ne_true, Scalar.abs_eq]

namespace SpiralDevice

/-- A spiral device whose calibration and scaling are positive, and whose strength and largest rate
    are not below zero. -/
structure Sensible (d : SpiralDevice α) : Prop where
  strength : 0 ≤ d.strength
  density : 0 < d.density
  viscosity : 0 < d.viscosity
  scaling : 0 < d.scaling
  maxRate : ∀ most ∈ d.maxRate, 0 ≤ most

/-- A rate that keeps to the largest one of the device. -/
def limited (d : SpiralDevice α) (free : α) : α :=
  match d.maxRate with
  | some most => if most < |free| then signedLike most free else free
  | none => free

variable {d : SpiralDevice α}

omit [Transcendental α] in
/-- Limiting a rate does not turn it around. -/
theorem limited_nonneg {free : α} (h : 0 ≤ free) (hd : d.Sensible) : 0 ≤ d.limited free := by
  rw [limited]
  split
  · rename_i most hmost
    split
    · rename_i hlimit
      have hpos : 0 < free := by
        rw [abs_of_nonneg h] at hlimit
        exact (hd.maxRate most hmost).trans_lt hlimit
      rw [signedLike_of_pos hpos]
      exact abs_nonneg most
    · exact h
  · exact h

omit [Transcendental α] in
/-- Rates of both directions are limited in the same way. -/
theorem limited_neg (free : α) (hd : d.Sensible) : d.limited (-free) = -d.limited free := by
  rw [limited, limited]
  split
  · rename_i most hmost
    rw [abs_neg]
    split
    · rename_i hlimit
      rcases lt_trichotomy free 0 with hneg | hzero | hpos
      · rw [signedLike_of_neg hneg, signedLike_of_pos (neg_pos.mpr hneg), neg_neg]
      · rw [hzero, abs_zero] at hlimit
        exact absurd (hd.maxRate most hmost) (not_le.mpr hlimit)
      · rw [signedLike_of_pos hpos, signedLike_of_neg (neg_neg_of_pos hpos)]
    · rfl
  · rfl

variable {upwind : FlowState α}

/-- What the calibration makes of the density and the viscosity upwind. -/
def calibration (d : SpiralDevice α) (upwind : FlowState α) : α :=
  ((upwind.density / d.density).pow 0.75).re * ((mixtureViscosity upwind / d.viscosity).pow 0.25).re

/-- The rate in the device. -/
def deviceRate (d : SpiralDevice α) (upwind : FlowState α) (massRate : Dual α) : α :=
  d.limited (massRate.re / upwind.density.re * d.scaling)

theorem re_drop (massRate : Dual α) : (d.drop upwind massRate).re
    = d.calibration upwind * d.deviceRate upwind massRate * d.deviceRate upwind massRate
      * (d.strength * dropSign (d.deviceRate upwind massRate)) := by
  have hfree : (massRate / upwind.density * d.scaling).re
      = massRate.re / upwind.density.re * d.scaling := by
    rw [Dual.re_mul_scalar, Dual.re_div]
  rw [deviceRate, limited, ← hfree, drop]
  generalize massRate / upwind.density * d.scaling = free
  cases d.maxRate with
  | none => rfl
  | some most =>
      dsimp only
      rw [Scalar.abs_eq]
      by_cases hlimit : most < |free.re|
      · rw [if_pos hlimit, if_pos hlimit]
        rfl
      · rw [if_neg hlimit, if_neg hlimit]
        rfl

omit [Transcendental α] in
theorem deviceRate_nonneg (hd : d.Sensible) (hupwind : upwind.Physical) {x : Dual α}
    (h : 0 ≤ x.re) : 0 ≤ d.deviceRate upwind x :=
  limited_nonneg (mul_nonneg (div_nonneg h hupwind.density.le) hd.scaling.le) hd

omit [Transcendental α] in
theorem deviceRate_neg (hd : d.Sensible) {x y : Dual α} (h : y.re = -x.re) :
    d.deviceRate upwind y = -d.deviceRate upwind x := by
  rw [deviceRate, deviceRate, h, neg_div, neg_mul, limited_neg _ hd]

omit [Transcendental α] in
theorem deviceRate_rest (hd : d.Sensible) {x : Dual α} (h : x.re = 0) :
    d.deviceRate upwind x = 0 :=
  self_eq_neg.mp (deviceRate_neg hd (h.trans (by rw [h, neg_zero])))

theorem calibration_nonneg (hpow : ∀ b n : α, 0 ≤ b → 0 ≤ Transcendental.pow b n)
    (hd : d.Sensible) (hupwind : upwind.Physical) : 0 ≤ d.calibration upwind :=
  mul_nonneg (Dual.re_pow_nonneg _ _ hpow (div_nonneg hupwind.density.le hd.density.le))
    (Dual.re_pow_nonneg _ _ hpow (div_nonneg (mixtureViscosity_nonneg hupwind) hd.viscosity.le))

/-- The loss goes with the square of the rate in the device. -/
theorem isLoss (hpow : ∀ b n : α, 0 ≤ b → 0 ≤ Transcendental.pow b n) (hd : d.Sensible)
    (hupwind : upwind.Physical) : IsLoss fun x =>
      d.calibration upwind * (d.deviceRate upwind x * d.deviceRate upwind x) * d.strength where
  nonneg := by
    intro x
    exact mul_nonneg (mul_nonneg (calibration_nonneg hpow hd hupwind) (mul_self_nonneg _))
      hd.strength
  even := by
    intro x y h
    rw [deviceRate_neg hd h, neg_mul_neg]
  rest := by
    intro x h
    rw [deviceRate_rest hd h, mul_zero, mul_zero, zero_mul]

/-- A spiral device opposes the flow, whether its rate is limited or not. -/
theorem opposesFlow (hpow : ∀ b n : α, 0 ≤ b → 0 ≤ Transcendental.pow b n) (hd : d.Sensible)
    (hupwind : upwind.Physical) : OpposesFlow (d.drop upwind) := by
  refine (isLoss hpow hd hupwind).opposesFlow ?_ ?_ ?_
  · intro x h
    have hrate : d.deviceRate upwind x ≤ 0 := by
      have hopposite := deviceRate_nonneg hd hupwind (x := -x) (neg_nonneg.mpr h.le)
      rwa [deviceRate_neg hd (Dual.re_neg x), neg_nonneg] at hopposite
    rw [re_drop, dropSign_of_nonpos hrate, mul_one, mul_assoc (d.calibration upwind)]
  · intro x h
    -- a device that lets no rate through takes its sign at rest
    rcases (deviceRate_nonneg hd hupwind h.le).eq_or_lt with hzero | hpos
    · rw [re_drop, ← hzero, mul_zero, zero_mul, mul_zero, mul_zero, zero_mul, neg_zero]
    · rw [re_drop, dropSign_of_pos hpos, mul_assoc (d.calibration upwind), mul_neg_one, mul_neg]
  · intro x h
    rw [re_drop, deviceRate_rest hd h, mul_zero, zero_mul]

end SpiralDevice

/-! ### Autonomous devices -/

namespace AutonomousDevice

/-- An autonomous device whose calibration and scaling are positive, and whose strength is not below
    zero. The viscosity of the calibration goes into a power, whose sign does not matter. -/
structure Sensible (d : AutonomousDevice α) : Prop where
  strength : 0 ≤ d.strength
  density : 0 < d.density
  scaling : 0 < d.scaling

variable {d : AutonomousDevice α} {upwind : FlowState α}

/-- The mixture density of the device. -/
def mixtureDensity (d : AutonomousDevice α) (upwind : FlowState α) : Dual α :=
  weighted d.densityExponents upwind.fractions upwind.densities

/-- The mixture viscosity of the device. -/
def mixtureViscosity (d : AutonomousDevice α) (upwind : FlowState α) : Dual α :=
  weighted d.viscosityExponents upwind.fractions upwind.viscosities

/-- The loss of an autonomous device. -/
def loss (d : AutonomousDevice α) (upwind : FlowState α) (massRate : Dual α) : α :=
  (d.mixtureDensity upwind).re * (d.mixtureDensity upwind).re / d.density
    * (((d.mixtureViscosity upwind).recip * d.viscosity).powAbs d.viscosityExponent).re
    * ((Dual.const |massRate.re * d.scaling / (d.mixtureDensity upwind).re|).powAbs
        d.rateExponent).re * d.strength

theorem isLoss (hpow : ∀ b n : α, 0 ≤ b → 0 ≤ Transcendental.pow b n) (hd : d.Sensible) :
    IsLoss (d.loss upwind) where
  nonneg := by
    intro x
    have hdensity := div_nonneg (mul_self_nonneg (d.mixtureDensity upwind).re) hd.density.le
    exact mul_nonneg (mul_nonneg (mul_nonneg hdensity (Dual.re_powAbs_nonneg _ _ hpow))
      (Dual.re_powAbs_nonneg _ _ hpow)) hd.strength
  even := by
    intro x y h
    rw [loss, loss, h, neg_mul, neg_div, abs_neg]
  rest := by
    intro x h
    have hrate : (Dual.const |x.re * d.scaling / (d.mixtureDensity upwind).re|).re = 0 := by
      rw [Dual.re_const, h, zero_mul, zero_div, abs_zero]
    rw [loss, Dual.re_powAbs_of_zero _ _ hrate, mul_zero, zero_mul]

/-- The drop is the loss with the sign of the rate in the device. -/
theorem re_drop (massRate : Dual α) : (d.drop upwind massRate).re
    = d.loss upwind massRate
      * dropSign (massRate.re * d.scaling / (d.mixtureDensity upwind).re) := by
  have hrate : (massRate * d.scaling / d.mixtureDensity upwind).re
      = massRate.re * d.scaling / (d.mixtureDensity upwind).re := by
    rw [Dual.re_div, Dual.re_mul_scalar]
  rw [loss, ← hrate]
  have hdrop : d.drop upwind massRate
      = d.mixtureDensity upwind * d.mixtureDensity upwind / d.density
        * ((d.mixtureViscosity upwind).recip * d.viscosity).powAbs d.viscosityExponent
        * (massRate * d.scaling / d.mixtureDensity upwind
            * -dropSign (massRate * d.scaling / d.mixtureDensity upwind).re).powAbs d.rateExponent
        * (d.strength * dropSign (massRate * d.scaling / d.mixtureDensity upwind).re) := rfl
  rw [hdrop]
  generalize massRate * d.scaling / d.mixtureDensity upwind = rate
  have hmagnitude : (rate * -dropSign rate.re).re = (Dual.const |rate.re|).re := by
    rw [Dual.re_mul_scalar, Dual.re_const]
    rcases le_or_gt rate.re 0 with h | h
    · rw [dropSign_of_nonpos h, abs_of_nonpos h, mul_neg_one]
    · rw [dropSign_of_pos h, abs_of_pos h, neg_neg, mul_one]
  rw [Dual.re_mul_scalar, Dual.re_mul, Dual.re_mul, Dual.re_div_scalar, Dual.re_mul,
    Dual.re_powAbs_congr _ hmagnitude, ← mul_assoc]

/-- An autonomous device opposes the flow. -/
theorem opposesFlow (hpow : ∀ b n : α, 0 ≤ b → 0 ≤ Transcendental.pow b n) (hd : d.Sensible)
    (hdensity : 0 < (d.mixtureDensity upwind).re) : OpposesFlow (d.drop upwind) := by
  have hloss : IsLoss (d.loss upwind) := isLoss hpow hd
  refine hloss.opposesFlow ?_ ?_ ?_
  · intro x h
    have hrate : x.re * d.scaling / (d.mixtureDensity upwind).re ≤ 0 :=
      div_nonpos_of_nonpos_of_nonneg (mul_nonpos_of_nonpos_of_nonneg h.le hd.scaling.le) hdensity.le
    rw [re_drop, dropSign_of_nonpos hrate, mul_one]
  · intro x h
    rw [re_drop, dropSign_of_pos (div_pos (mul_pos h hd.scaling) hdensity), mul_neg_one]
  · intro x h
    rw [re_drop, hloss.rest h, zero_mul]

end AutonomousDevice

/-! ### Valves -/

namespace Valve

/-- A valve whose pipe has a positive diameter and a length that is not below zero. -/
structure Sensible (v : Valve α) : Prop where
  length : 0 ≤ v.length
  diameter : 0 < v.diameter

variable {v : Valve α} {upwind : FlowState α}

/-- A valve opposes the flow. -/
theorem opposesFlow (hv : v.Sensible) (hupwind : upwind.Physical) :
    OpposesFlow (v.drop upwind) := by
  have hloss := (Friction.isLoss_loss v.area v.roughness upwind.viscosity hv.length
    hv.diameter.le hupwind.density.le).add
      (Friction.isLoss_constrictionLoss v.constriction v.coefficient hupwind.density.le)
  refine hloss.opposesFlow ?_ ?_ ?_
  · intro x h
    rw [drop, Dual.re_mul_scalar, dropSign_of_nonpos h.le, mul_one, Dual.re_add]
  · intro x h
    rw [drop, Dual.re_mul_scalar, dropSign_of_pos h, mul_neg_one, Dual.re_add]
  · intro x h
    rw [drop, Dual.re_mul_scalar, Dual.re_add, hloss.rest h, zero_mul]

end Valve

/-! ## Drops -/

/-- A device that is configured sensibly; the mixture of an autonomous device has a density. -/
def Device.Sensible (upwind : FlowState α) : Device α → Prop
  | .pipe => True
  | .spiral d => d.Sensible
  | .autonomous d => d.Sensible ∧ 0 < (d.mixtureDensity upwind).re
  | .valve v => v.Sensible

/-- Every device opposes the flow. -/
theorem Device.opposesFlow (hpow : ∀ b n : α, 0 ≤ b → 0 ≤ Transcendental.pow b n)
    {device : Device α} {upwind : FlowState α} (hupwind : upwind.Physical)
    (hdevice : device.Sensible upwind) : OpposesFlow (device.drop upwind) := by
  cases device with
  | pipe =>
      exact ⟨fun _ => (neg_zero (G := α)).symm, fun _ => rfl, fun _ => le_refl 0,
        fun _ => le_refl 0⟩
  | spiral d => exact SpiralDevice.opposesFlow hpow hdevice hupwind
  | autonomous d => exact AutonomousDevice.opposesFlow hpow hdevice.1 hdevice.2
  | valve v => exact Valve.opposesFlow hdevice hupwind

/-- The states with another mass rate in one segment. -/
def States.withMassRate (states : States α) (seg : Nat) (rate : Dual α) : States α := fun i =>
  if i = seg then { states i with massRate := rate } else states i

namespace SegmentedWell

variable {w : SegmentedWell α} {segment : Segment α} {seg upwind : Nat} {states : States α}

omit [Transcendental α] in
/-- Another mass rate leaves the density and the viscosity upwind as they are. -/
theorem carriedState_withMassRate (states : States α) (seg upwind : Nat) (rate : Dual α) :
    (carriedState (states.withMassRate seg rate) seg upwind).density
        = (carriedState states seg upwind).density ∧
      (carriedState (states.withMassRate seg rate) seg upwind).viscosity
        = (carriedState states seg upwind).viscosity := by
  have hsame : ∀ i, ((states.withMassRate seg rate) i).density = (states i).density ∧
      ((states.withMassRate seg rate) i).viscosity = (states i).viscosity := by
    intro i
    rw [States.withMassRate]
    split <;> exact ⟨rfl, rfl⟩
  obtain ⟨hdensity, hviscosity⟩ := hsame upwind
  rw [carriedState, carriedState]
  split
  · exact ⟨hdensity, hviscosity⟩
  · exact ⟨congrArg Dual.forget hdensity, congrArg Dual.forget hviscosity⟩

theorem re_friction (rate : Dual α) :
    (w.friction segment seg upwind (states.withMassRate seg rate)).re
      = if w.settings.friction then (Friction.loss (w.tree.lengthBeyondOutlet seg) segment.diameter
          segment.area segment.roughness (carriedState states seg upwind).density rate
          (carriedState states seg upwind).viscosity).re * flowSign rate.re else 0 := by
  obtain ⟨hdensity, hviscosity⟩ := carriedState_withMassRate states seg upwind rate
  have hrate : (states.withMassRate seg rate seg).massRate = rate := by
    rw [States.withMassRate, if_pos rfl]
  rw [friction, apply_ite Dual.re, hrate]
  dsimp only
  rw [hdensity, hviscosity]
  rfl

/-- Friction along a pipe opposes the flow. -/
theorem friction_opposesFlow (hlength : 0 ≤ w.tree.lengthBeyondOutlet seg)
    (hdiameter : 0 < segment.diameter) (hdensity : 0 < (carriedState states seg upwind).density.re) :
    OpposesFlow fun rate => w.friction segment seg upwind (states.withMassRate seg rate) := by
  have hloss := Friction.isLoss_loss segment.area segment.roughness
    (carriedState states seg upwind).viscosity hlength hdiameter.le hdensity.le
  by_cases hcounts : w.settings.friction = true
  · refine hloss.opposesFlow ?_ ?_ ?_
    · intro x h
      rw [re_friction, if_pos hcounts, flowSign, if_pos h, mul_one]
    · intro x h
      rw [re_friction, if_pos hcounts, flowSign, if_neg h.not_gt, mul_neg_one]
    · intro x h
      rw [re_friction, if_pos hcounts, hloss.rest h, zero_mul]
  · have hnone : ∀ rate, (w.friction segment seg upwind (states.withMassRate seg rate)).re = 0 :=
      fun rate => (re_friction rate).trans (if_neg hcounts)
    exact ⟨fun _ => by rw [hnone, hnone, neg_zero], fun _ => hnone _, fun _ => (hnone _).ge,
      fun _ => (hnone _).le⟩

end SegmentedWell

/-- Losses oppose the flow: the drop across every device for an upwind state that is given, and the
    friction along every pipe. -/
theorem losses_oppose_flow (hpow : ∀ b n : α, 0 ≤ b → 0 ≤ Transcendental.pow b n) :
    (∀ (device : Device α) (upwind : FlowState α), upwind.Physical → device.Sensible upwind →
      OpposesFlow (device.drop upwind)) ∧
    ∀ (w : SegmentedWell α) (segment : Segment α) (seg upwind : Nat) (states : States α),
      0 ≤ w.tree.lengthBeyondOutlet seg → 0 < segment.diameter →
      0 < (carriedState states seg upwind).density.re →
      OpposesFlow fun rate => w.friction segment seg upwind (states.withMassRate seg rate) :=
  ⟨fun _ _ hupwind hdevice => Device.opposesFlow hpow hupwind hdevice,
    fun _ _ _ _ _ hlength hdiameter hdensity =>
      SegmentedWell.friction_opposesFlow hlength hdiameter hdensity⟩

/-- Water that stands in a segment. -/
def waterColumn : FlowState ℚ :=
  { FlowState.still with
    fractions := ⟨.const 1, 0, 0⟩
    viscosities := ⟨.const 1, 0, 0⟩
    density := .const 1000
    viscosity := .const 1 }

/-- A spiral device that is calibrated for water and lets through three at most. -/
def waterSpiral : SpiralDevice ℚ := ⟨2, 1000, 1, 1, some 3⟩

/-- The spiral device at five times the calibrated rate, and friction along a pipe of the side
    branch. -/
theorem losses_oppose_flow_water : (∀ b n : ℚ, 0 ≤ b → 0 ≤ Transcendental.pow b n) ∧
    OpposesFlow ((Device.spiral waterSpiral).drop waterColumn) ∧
    ((Device.spiral waterSpiral).drop waterColumn (.const (-5000))).re = 18 ∧
    ((Device.spiral waterSpiral).drop waterColumn (.const 5000)).re = -18 ∧
    OpposesFlow fun rate => WellCall.sideBranch.1.friction
      (SegmentTree.sideBranch.pipe 3 (some 2) 1015 1040) 1 1
      (States.withMassRate (fun _ => waterColumn) 1 rate) := by
  have hpow : ∀ b n : ℚ, 0 ≤ b → 0 ≤ Transcendental.pow b n := fun b n hb => zpow_nonneg hb n.num
  obtain ⟨hdevices, hpipes⟩ := losses_oppose_flow hpow
  have hphysical : waterColumn.Physical := by
    refine ⟨?_, ?_, by decide⟩ <;> intro p <;> cases p <;> decide
  have hspiral : waterSpiral.Sensible := by
    refine ⟨by decide, by decide, by decide, by decide, ?_⟩
    intro most hmost
    obtain rfl := Option.some.inj hmost
    decide
  have hdrop := hdevices (.spiral waterSpiral) waterColumn hphysical hspiral
  have hvalue : ((Device.spiral waterSpiral).drop waterColumn (.const (-5000))).re = 18 := by
    decide +kernel
  refine ⟨hpow, hdrop, hvalue, ?_,
    hpipes _ _ 1 1 _ (by decide +kernel) (by decide +kernel) (by decide)⟩
  rw [hdrop.odd (x := .const (-5000)) (neg_neg (5000 : ℚ)).symm, hvalue]

end ReservoirWells
