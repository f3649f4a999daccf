import ReservoirWells.Phase

/-!
# Segments and their flow devices

A segment is a stretch of tubing with a number, the number of the segment it drains into, and its
geometry; depth and length are those of its end.  It may carry a flow device, which then takes the
place of the pipe's own pressure losses.
-/

namespace ReservoirWells

/-- A spiral inflow device. -/
structure SpiralDevice (α : Type) where
  /-- Pressure drop per squared rate. -/
  strength : α
  /-- Density at calibration. -/
  density : α
  /-- Viscosity at calibration. -/
  viscosity : α
  /-- Device rate per segment rate. -/
  scaling : α
  /-- Largest magnitude of the device rate. -/
  maxRate : Option α
  deriving Repr, DecidableEq, Inhabited

/-- An autonomous inflow device. -/
structure AutonomousDevice (α : Type) where
  /-- Pressure drop per powered rate. -/
  strength : α
  /-- Density at calibration. -/
  density : α
  /-- Viscosity at calibration. -/
  viscosity : α
  /-- Device rate per segment rate. -/
  scaling : α
  /-- Exponent of the rate. -/
  rateExponent : α
  /-- Exponent of the viscosity ratio. -/
  viscosityExponent : α
  /-- Exponents of the fractions in the mixture density. -/
  densityExponents : PerPhase α
  /-- Exponents of the fractions in the mixture viscosity. -/
  viscosityExponents : PerPhase α
  deriving Repr, DecidableEq, Inhabited

/-- A valve: a constriction and a stretch of pipe. -/
structure Valve (α : Type) where
  /-- Flow coefficient of the constriction. -/
  coefficient : α
  /-- Area of the constriction. -/
  constriction : α
  /-- Length of the pipe. -/
  length : α
  /-- Diameter of the pipe. -/
  diameter : α
  /-- Area of the pipe. -/
  area : α
  /-- Roughness of the pipe. -/
  roughness : α
  /-- Whether anything flows through. -/
  isOpen : Bool
  deriving Repr, DecidableEq, Inhabited

/-- What a segment carries. -/
inductive Device (α : Type)
  /-- Plain pipe. -/
  | pipe
  | spiral (device : SpiralDevice α)
  | autonomous (device : AutonomousDevice α)
  | valve (device : Valve α)
  deriving Repr, DecidableEq, Inhabited

/-- Whether the device controls inflow; a plain pipe does not. -/
def Device.controlsInflow {α : Type} : Device α → Bool
  | .pipe => false
  | _ => true

/-- Whether the device lets nothing through: a valve that is not open. -/
def Device.isShut {α : Type} : Device α → Bool
  | .valve v => !v.isOpen
  | _ => false

/-- A segment as it is configured. -/
structure Segment (α : Type) where
  /-- Its number, unique in the well. -/
  number : Nat
  /-- Number of the segment it drains into; the top segment has none. -/
  outlet : Option Nat
  /-- Depth of its end. -/
  depth : α
  /-- Length along the well to its end. -/
  length : α
  /-- Cross-section. -/
  area : α
  /-- Diameter. -/
  diameter : α
  /-- Roughness. -/
  roughness : α
  /-- What it carries. -/
  device : Device α
  deriving Repr, DecidableEq, Inhabited

end ReservoirWells
