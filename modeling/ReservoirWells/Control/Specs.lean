import ReservoirWells.Bound
import ReservoirWells.Control.Mode

/-!
# Specifications — what a group or a well is asked to do

A specification holds the mode in force, the targets, and the guide rate by which a group shares its
target out.  A target that is absent, negative or not a number is *undefined* (`defined?`), and
an undefined target limits nothing.

Guide rates default to one.  A well takes part in one direction only: `Specs.producer` and
`Specs.injector` set the guide rate of the other direction to zero.
-/

namespace ReservoirWells

variable {α : Type} [Scalar α]

/-- The target, if it is at least zero. -/
def defined? (target : Option α) : Option α := target.filter fun x => 0 ≤ x

/-- What is asked of production. -/
structure ProductionSpec (α : Type) [Scalar α] where
  /-- The mode in force. -/
  mode : ProductionMode
  /-- What to do when a target is exceeded. -/
  procedure : Procedure
  /-- Largest oil rate. -/
  oil : Option α
  /-- Largest water rate. -/
  water : Option α
  /-- Largest gas rate. -/
  gas : Option α
  /-- Largest liquid rate. -/
  liquid : Option α
  /-- Largest volume rate at reservoir conditions. -/
  reservoir : Option α
  /-- Bottom-hole pressure limit. -/
  bhp : Option α
  /-- Weight in the sharing of a group target. -/
  guideRate : Nonneg α

namespace ProductionSpec

/-- No control, no targets, guide rate one. -/
def default : ProductionSpec α :=
  { mode := .none, procedure := .none, oil := none, water := none, gas := none, liquid := none,
    reservoir := none, bhp := none, guideRate := .one }

/-- Replaces the guide rate, which may not be negative. -/
def withGuideRate (s : ProductionSpec α) (rate : α) : Except BoundError (ProductionSpec α) :=
  (Nonneg.check rate).map fun g => { s with guideRate := g }

/-- The field that holds the target of a mode; `none` for a mode that has no target. -/
def targetField? (s : ProductionSpec α) : ProductionMode → Option (Option α)
  | .orat => some s.oil
  | .wrat => some s.water
  | .grat => some s.gas
  | .lrat => some s.liquid
  | .resv => some s.reservoir
  | _ => none

end ProductionSpec

/-- What is asked of injection. -/
structure InjectionSpec (α : Type) [Scalar α] where
  /-- The injected phase. -/
  phase : Phase
  /-- The mode in force. -/
  mode : InjectionMode
  /-- Largest surface rate. -/
  surface : Option α
  /-- Largest volume rate at reservoir conditions. -/
  reservoir : Option α
  /-- Bottom-hole pressure limit. -/
  bhp : Option α
  /-- Fraction of the produced phase that is injected again. -/
  reinjection : Nonneg α
  /-- Fraction of the produced volume that is replaced. -/
  voidage : Nonneg α
  /-- Weight in the sharing of a group target. -/
  guideRate : Nonneg α

namespace InjectionSpec

/-- A water injector without control or targets, guide rate one. -/
def default : InjectionSpec α :=
  { phase := .water, mode := .none, surface := none, reservoir := none, bhp := none,
    reinjection := .zero, voidage := .zero, guideRate := .one }

/-- Replaces the guide rate, which may not be negative. -/
def withGuideRate (s : InjectionSpec α) (rate : α) : Except BoundError (InjectionSpec α) :=
  (Nonneg.check rate).map fun g => { s with guideRate := g }

/-- The field that holds the target of a mode; `none` for a mode that has no target. -/
def targetField? (s : InjectionSpec α) : InjectionMode → Option (Option α)
  | .rate => some s.surface
  | .resv => some s.reservoir
  | _ => none

end InjectionSpec

/-- The specifications of one node, for both directions. -/
structure Specs (α : Type) [Scalar α] where
  /-- Production. -/
  production : ProductionSpec α
  /-- Injection. -/
  injection : InjectionSpec α

namespace Specs

/-- Neither controlled nor limited. -/
def default : Specs α := ⟨.default, .default⟩

/-- A producing well: no part in sharing injection. -/
def producer (production : ProductionSpec α) : Specs α :=
  ⟨production, { InjectionSpec.default with guideRate := .zero }⟩

/-- An injecting well: no part in sharing production. -/
def injector (injection : InjectionSpec α) : Specs α :=
  ⟨{ ProductionSpec.default with guideRate := .zero }, injection⟩

/-- The mode in force in one direction. -/
def mode (s : Specs α) : Direction → Mode
  | .production => .production s.production.mode
  | .injection => .injection s.injection.mode

/-- Puts a mode in force, in the direction of that mode. -/
def adopt (s : Specs α) : Mode → Specs α
  | .production m => { s with production := { s.production with mode := m } }
  | .injection m => { s with injection := { s.injection with mode := m } }

/-- The guide rate in one direction. -/
def guideRate (s : Specs α) : Direction → α
  | .production => s.production.guideRate.val
  | .injection => s.injection.guideRate.val

/-- The field that holds the target of a mode; `none` for a mode that has no target. -/
def targetField? (s : Specs α) : Mode → Option (Option α)
  | .production m => s.production.targetField? m
  | .injection m => s.injection.targetField? m

end Specs

end ReservoirWells
