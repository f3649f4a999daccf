import ReservoirWells.Dual

/-!
# Friction and velocity head

Pressure losses of pipe flow, as magnitudes; the sign of the flow is left to the caller.  The
friction factor is `16 / Re` in laminar flow, the Haaland correlation in turbulent flow, and the
straight line between the two ends in the transition.
-/

namespace ReservoirWells.Friction

variable {α : Type} [Scalar α] [Transcendental α]

/-- Reynolds number up to which flow is laminar. -/
def laminarLimit : α := 2000.0

/-- Reynolds number from which flow is turbulent. -/
def turbulentLimit : α := 4000.0

/-- The magnitude of the Reynolds number. -/
def reynolds (area diameter : α) (massRate viscosity : Dual α) : Dual α :=
  (massRate * (diameter / area) / viscosity).abs

/-- The Haaland correlation. -/
def haaland (re : Dual α) (diameter roughness : α) : Dual α :=
  let relative := Transcendental.pow (roughness / (3.7 * diameter)) (10.0 / 9.0)
  let value := (re.recip * (6.9 : α) + relative).log10 * (-3.6 : α)
  (value * value * (4.0 : α)).recip

/-- The Fanning friction factor. -/
def factor (area diameter : α) (massRate : Dual α) (roughness : α) (viscosity : Dual α) : Dual α :=
  let re := reynolds area diameter massRate viscosity
  if re.re < laminarLimit then re.recip * (16.0 : α)
  else if turbulentLimit < re.re then haaland re diameter roughness
  else
    let low : α := 16.0 / laminarLimit
    let high := (haaland (.const turbulentLimit) diameter roughness).re
    (re - (laminarLimit : α)) * ((high - low) / (turbulentLimit - laminarLimit)) + low

/-- The loss `2 f L w² / (A² D ρ)` along a pipe, zero when nothing flows. -/
def loss (length diameter area roughness : α) (density massRate viscosity : Dual α) : Dual α :=
  if Scalar.isZero (reynolds area diameter massRate viscosity).re then 0
  else
    let f := factor area diameter massRate roughness viscosity
    f * massRate * massRate * (2.0 * length / (area * area * diameter)) / density

/-- The loss `w² / (2 ρ c² A²)` across a constriction with flow coefficient `c`. -/
def constrictionLoss (massRate density : Dual α) (area coefficient : α) : Dual α :=
  massRate * massRate / (density * (2.0 * coefficient * coefficient * area * area))

/-- The velocity head `w² / (2 A² ρ)`. -/
def velocityHead (area : α) (massRate density : Dual α) : Dual α :=
  massRate * massRate * (0.5 : α) / (density * (area * area))

end ReservoirWells.Friction
