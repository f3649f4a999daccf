import ReservoirWells.Fluid
import ReservoirWells.Segment.Tree
import ReservoirWells.Segment.Unknowns

/-!
# Flow profiles — what the unknowns say about the fluid in each segment

From the unknowns and a fluid follow the mixture density and viscosity and the mass rate of every
segment.  Such a profile is kept once for every unknown that derivatives may be taken with respect
to, and a term of an equation is evaluated once for each (`Profile.evaluate`); the values are the
same every time, only the derivatives differ.

The pressure terms of a segment use the properties of its *upwind* segment: its outlet when the
total rate is positive, itself otherwise.  The state of another segment enters without derivatives
(`carriedState`), so the row of a segment never holds the derivatives of a neighbour.
-/

namespace ReservoirWells

/-- The state of a segment, differentiated with respect to one unknown. -/
structure FlowState (α : Type) where
  /-- Pressure. -/
  pressure : Dual α
  /-- Total rate. -/
  totalRate : Dual α
  /-- Fraction of each phase. -/
  fractions : PerPhase (Dual α)
  /-- Density of each phase. -/
  densities : PerPhase (Dual α)
  /-- Viscosity of each phase. -/
  viscosities : PerPhase (Dual α)
  /-- Density of the mixture. -/
  density : Dual α
  /-- Viscosity of the mixture. -/
  viscosity : Dual α
  /-- Mass rate. -/
  massRate : Dual α
  deriving Repr, DecidableEq

/-- A term of an equation: its value, and its derivative with respect to each unknown. -/
structure Linearization (α : Type) where
  /-- The value. -/
  value : α
  /-- The derivatives, in the order of the layout. -/
  derivatives : List α
  deriving Repr, DecidableEq

variable {α : Type} [Scalar α]

namespace Linearization

/-- Collects one dual number per unknown. The value is that of the first. -/
def ofDuals (duals : List (Dual α)) : Linearization α :=
  ⟨(duals.head?.map (·.re)).getD 0, duals.map (·.eps)⟩

/-- An unknown itself: derivative one at its own place. -/
def ofVariable (value : α) (slot size : Nat) : Linearization α :=
  ⟨value, (List.replicate size 0).set slot 1⟩

end Linearization

namespace FlowState

/-- Nothing flows and nothing is there. -/
def still : FlowState α := ⟨0, 0, .const 0, .const 0, .const 0, 0, 0, 0⟩

/-- The same values without derivatives. -/
def forget (s : FlowState α) : FlowState α :=
  { pressure := s.pressure.forget
    totalRate := s.totalRate.forget
    fractions := s.fractions.map Dual.forget
    densities := s.densities.map Dual.forget
    viscosities := s.viscosities.map Dual.forget
    density := s.density.forget
    viscosity := s.viscosity.forget
    massRate := s.massRate.forget }

end FlowState

/-- The states of all segments, differentiated with respect to one unknown. -/
abbrev States (α : Type) := Nat → FlowState α

/-- The state that segment `seg` takes over from segment `upwind`. -/
def carriedState (states : States α) (seg upwind : Nat) : FlowState α :=
  if seg == upwind then states upwind else (states upwind).forget

/-- The state of a segment that follows from its unknowns: properties of the active phases, and
    mixtures weighted by the fractions. -/
def FlowState.compute [Transcendental α] (fluid : Fluid α) (u : Unknowns α)
    (seg chosen : Nat) : Except (PropertyError α) (FlowState α) := do
  let x := u.seed seg chosen
  let properties ← u.layout.phases.toList.mapM fun p => do
    let density ← fluid.density p x.pressure
    let viscosity ← fluid.viscosity p
    return (p, density, viscosity)
  let density := properties.foldl
    (fun sum (p, density, _) => sum + x.fractions.get p * density) (0 : Dual α)
  let viscosity := properties.foldl
    (fun sum (p, _, viscosity) => sum + x.fractions.get p * viscosity) (0 : Dual α)
  return {
    pressure := x.pressure
    totalRate := x.totalRate
    fractions := x.fractions
    densities := properties.foldl (fun all (p, density, _) => all.set p density) (.const 0)
    viscosities := properties.foldl (fun all (p, _, viscosity) => all.set p viscosity) (.const 0)
    density
    viscosity
    massRate := x.totalRate * density }

/-- The states of all segments, once for each unknown, and where their properties come from. -/
structure Profile (α : Type) where
  /-- The upwind segment of each segment. -/
  upwinds : List Nat
  /-- For each unknown, the states of all segments. -/
  slots : List (List (FlowState α))
  deriving Repr, DecidableEq

namespace Profile

/-- The segment whose properties a segment takes over. The top segment has only itself. -/
def upwindOf (t : SegmentTree α) (u : Unknowns α) (seg : Nat) : Nat :=
  match t.outlet? seg with
  | some outlet => if 0 < u.totalRate seg then outlet else seg
  | none => 0

/-- Computes the profile, or stops at the first property that the fluid cannot give. -/
def compute [Transcendental α] (t : SegmentTree α) (u : Unknowns α) (fluid : Fluid α) :
    Except (PropertyError α) (Profile α) := do
  let slots ← (List.range u.layout.size).mapM fun chosen =>
    (List.range t.size).mapM fun seg => FlowState.compute fluid u seg chosen
  return { upwinds := (List.range t.size).map (upwindOf t u), slots }

/-- The upwind segment of a segment. -/
def upwind (q : Profile α) (seg : Nat) : Nat := q.upwinds[seg]?.getD seg

/-- The states under one list of derivatives. -/
def statesOf (slot : List (FlowState α)) : States α := fun seg => slot[seg]?.getD .still

/-- The states whose values are shown. -/
def values (q : Profile α) : States α := statesOf (q.slots.head?.getD [])

/-- Evaluates a term with respect to every unknown. -/
def evaluate (q : Profile α) (term : States α → Dual α) : Linearization α :=
  .ofDuals (q.slots.map fun slot => term (statesOf slot))

end Profile

end ReservoirWells
