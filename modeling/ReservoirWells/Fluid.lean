import ReservoirWells.Decimal.Shortest
import ReservoirWells.Dual
import ReservoirWells.Phase

/-!
# Fluids — density and viscosity of each phase at a pressure

Properties are dual numbers, so that a derivative with respect to pressure comes with them.  Two
kinds of fluid are known: one with constant properties, and one whose densities grow exponentially
with pressure, `ρ = ρ₀ · exp (c · (p - p₀))`.
-/

namespace ReservoirWells

/-- A phase with constant properties. -/
structure ConstantPhase (α : Type) where
  /-- Density. -/
  density : α
  /-- Viscosity. -/
  viscosity : α
  deriving Repr, DecidableEq, Inhabited

/-- A phase with constant compressibility and viscosity. -/
structure CompressiblePhase (α : Type) where
  /-- Density at the reference pressure. -/
  referenceDensity : α
  /-- Where the density is known. -/
  referencePressure : α
  /-- Relative growth of the density per unit of pressure. -/
  compressibility : α
  /-- Viscosity. -/
  viscosity : α
  deriving Repr, DecidableEq, Inhabited

/-- A fluid; a phase may lack properties. -/
inductive Fluid (α : Type)
  | constant (phases : PerPhase (Option (ConstantPhase α)))
  | compressible (phases : PerPhase (Option (CompressiblePhase α)))
  deriving Repr, DecidableEq

/-- Why a property cannot be given. -/
inductive PropertyError (α : Type)
  /-- The fluid has no properties for the phase. -/
  | missingPhase (phase : Phase)
  /-- The density came out infinite, negative, zero or not a number. -/
  | badDensity (phase : Phase) (density pressure : α)
  deriving Repr, DecidableEq

/-- The wording of each error, with floats in full. -/
def PropertyError.message : PropertyError Float → String
  | .missingPhase p => "no properties for phase " ++ p.name
  | .badDensity p density pressure =>
    "calculation error: " ++ p.name ++ " density " ++ Decimal.floatText density ++ " at p = "
      ++ Decimal.floatText pressure ++ " Pa"

variable {α : Type} [Scalar α]

namespace Fluid

/-- The parameters of a phase. -/
def parameters {β : Type} (phases : PerPhase (Option β)) (p : Phase) :
    Except (PropertyError α) β :=
  match phases.get p with
  | some b => .ok b
  | none => .error (.missingPhase p)

/-- The viscosity of a phase. It does not depend on pressure. -/
def viscosity (f : Fluid α) (p : Phase) : Except (PropertyError α) (Dual α) :=
  match f with
  | constant phases => (parameters phases p).map fun b => .const b.viscosity
  | compressible phases => (parameters phases p).map fun b => .const b.viscosity

variable [Transcendental α]

/-- The density of a phase at a pressure. -/
def density (f : Fluid α) (p : Phase) (pressure : Dual α) :
    Except (PropertyError α) (Dual α) :=
  match f with
  | constant phases => (parameters phases p).map fun b => .const b.density
  | compressible phases => do
    let b ← parameters phases p
    let rho := ((pressure - b.referencePressure) * b.compressibility).exp * b.referenceDensity
    if !Scalar.isFinite rho.re || rho.re ≤ 0 then .error (.badDensity p rho.re pressure.re)
    else return rho

end Fluid

end ReservoirWells
