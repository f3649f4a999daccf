import ReservoirWells.Segment.Friction
import ReservoirWells.Segment.Profile

/-!
# Pressure drops of flow devices

The signed drop across a device, positive when the segment produces towards its outlet, that is, for
a negative mass rate.  The upwind state supplies fractions and properties; the mass rate is the
segment's own.
-/

namespace ReservoirWells

variable {α : Type} [Scalar α]

/-- The sign of a drop: against the flow, and positive at rest. -/
def dropSign (rate : α) : α := if rate ≤ 0 then 1 else -1

/-- A rate of magnitude `most` with the sign of `rate`, where a zero keeps its side. -/
def signedLike (most rate : α) : α :=
  if Scalar.isNegative rate then -Scalar.abs most else Scalar.abs most

/-- Liquid fractions below this are too small to split into water and oil. -/
def leastLiquid : α := 1e-30

variable [Transcendental α]

/-- The mixture viscosity, with the liquid part split by the water cut. -/
def mixtureViscosity (upwind : FlowState α) : Dual α :=
  let x := upwind.fractions
  let mu := upwind.viscosities
  let liquid := x.water + x.oil
  let liquidViscosity :=
    if liquid.re < leastLiquid then x.oil * mu.oil + x.water * mu.water
    else
      let cut := x.water / liquid
      liquid * (cut * mu.water + (-cut + (1 : α)) * mu.oil)
  liquidViscosity + x.gas * mu.gas

/-- Spiral device: `± (ρ / ρ₀) ^ 0.75 · (μ / μ₀) ^ 0.25 · strength · q²`, where the device rate `q`
    keeps to the largest one if there is one. -/
def SpiralDevice.drop (d : SpiralDevice α) (upwind : FlowState α) (massRate : Dual α) :
    Dual α :=
  let free := massRate / upwind.density * d.scaling
  let rate :=
    match d.maxRate with
    | some most => if most < Scalar.abs free.re then .const (signedLike most free.re) else free
    | none => free
  (upwind.density / d.density).pow 0.75 * (mixtureViscosity upwind / d.viscosity).pow 0.25
    * rate * rate * (d.strength * dropSign rate.re)

/-- Autonomous device: `± ρ² / ρ₀ · (μ₀ / μ) ^ x · strength · |q| ^ y`, where each phase enters the
    mixture with its fraction raised to an exponent of the device. -/
def AutonomousDevice.drop (d : AutonomousDevice α) (upwind : FlowState α)
    (massRate : Dual α) : Dual α :=
  let mixture (exponents : PerPhase α) (property : PerPhase (Dual α)) : Dual α :=
    Phase.all.foldl
      (fun sum p => sum + (upwind.fractions.get p).powAbs (exponents.get p) * property.get p) 0
  let density := mixture d.densityExponents upwind.densities
  let viscosity := mixture d.viscosityExponents upwind.viscosities
  let rate := massRate * d.scaling / density
  let sign := dropSign rate.re
  density * density / d.density * (viscosity.recip * d.viscosity).powAbs d.viscosityExponent
    * (rate * -sign).powAbs d.rateExponent * (d.strength * sign)

/-- Valve: friction along its pipe and the loss across its constriction. -/
def Valve.drop (v : Valve α) (upwind : FlowState α) (massRate : Dual α) : Dual α :=
  (Friction.loss v.length v.diameter v.area v.roughness upwind.density massRate upwind.viscosity
    + Friction.constrictionLoss massRate upwind.density v.constriction v.coefficient)
    * dropSign massRate.re

/-- The drop across a device; a plain pipe is none. -/
def Device.drop (d : Device α) (upwind : FlowState α) (massRate : Dual α) : Dual α :=
  match d with
  | .pipe => 0
  | .spiral d => d.drop upwind massRate
  | .autonomous d => d.drop upwind massRate
  | .valve v => v.drop upwind massRate

end ReservoirWells
