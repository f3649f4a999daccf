import ReservoirWells.Control.WellTable
import ReservoirWells.BlockSystem
import ReservoirWells.Segment.Profile

/-!
# Multisegment wells

A well holds its segments, the values of the unknowns, the flow profile that follows from them, and
the system of its equations.  A profile belongs to the unknowns it was computed from: changing the
unknowns drops it (`SegmentedWell.setUnknowns`), and the pressure equations cannot be assembled
until it has been computed again.

The record that the simulation keeps of a well is apart from it: how it is controlled, and the
pressure drops found by the last assembly.
-/

namespace ReservoirWells

/-- Which losses enter the pressure equations. -/
structure Settings (α : Type) where
  /-- Friction along pipes. -/
  friction : Bool
  /-- Acceleration of the flow. -/
  acceleration : Bool
  /-- Acceleration due to gravity. -/
  gravity : α
  deriving Repr, DecidableEq, Inhabited

/-- The parts of the pressure drop from a segment to its outlet. -/
structure Drop (α : Type) where
  /-- The weight of the column. -/
  hydrostatic : α
  /-- Friction, or the drop across a device. -/
  friction : α
  /-- Acceleration. -/
  acceleration : α
  deriving Repr, DecidableEq, Inhabited

/-- What the simulation keeps of a well. -/
structure WellRecord (α : Type) where
  /-- Produces or injects. -/
  kind : WellKind
  /-- Whether the well is stopped. -/
  stopped : Bool
  /-- The mode of a producer. -/
  production : ProductionMode
  /-- The mode of an injector. -/
  injection : InjectionMode
  /-- The drops of the segments. -/
  drops : List (Drop α)
  deriving Repr, DecidableEq, Inhabited

/-- What a list should have held. -/
inductive Expected
  | formationFactors
  | residuals
  deriving Repr, DecidableEq

/-- How messages describe what a list should have held. -/
def Expected.name : Expected → String
  | .formationFactors => "average formation volume factors"
  | .residuals => "residuals"

/-- An error of a multisegment well. -/
inductive WellError (α : Type)
  /-- The top segment has the control equation instead. -/
  | topSegment
  /-- There is no such segment. -/
  | unknownSegment (index : Nat)
  /-- The segment is a plain pipe. -/
  | notADevice (well : String) (number : Nat)
  /-- The unknowns have changed since a profile was computed. -/
  | staleProfile
  /-- The control mode has no equation to be checked. -/
  | unknownMode (well : String) (mode : Mode)
  /-- A list has the wrong length. -/
  | wrongLength (what : Expected) (expected actual : Nat)
  /-- A residual is infinite or not a number; without a segment, that of the control equation. -/
  | notFinite (well : String) (segment : Option Nat) (equation : Nat)
  /-- The fluid could not be evaluated. -/
  | property (cause : PropertyError α)
  /-- The record keeps no drops for the segment. -/
  | noDrop (segment : Nat)
  deriving Repr, DecidableEq

/-- The wording of each error. The cause of a failed evaluation has its own. -/
def WellError.message {α : Type} : WellError α → String
  | .topSegment => "the top segment has no pressure equation"
  | .unknownSegment index => "segment index " ++ toString index ++ " is out of range"
  | .notADevice well number =>
    "segment " ++ toString number ++ " of well " ++ well ++ " is not an inflow-control device"
  | .staleProfile => "segment quantities are stale"
  | .unknownMode well mode => "unknown control mode " ++ mode.name ++ " for well " ++ well
  | .wrongLength what expected actual =>
    "expected " ++ toString expected ++ " " ++ what.name ++ ", got " ++ toString actual
  | .notFinite well segment equation =>
    let place :=
      match segment with
      | some seg => "Some(" ++ toString seg ++ ")"
      | none => "None"
    "non-finite residual for well " ++ well ++ " (segment " ++ place ++ ", equation "
      ++ toString equation ++ ")"
  | .property _ => "fluid property evaluation failed"
  | .noDrop segment => "no pressure drops are kept for segment " ++ toString segment

variable {α : Type} [Scalar α]

/-- Standard gravity. -/
def standardGravity : α := 9.80665

/-- Friction without acceleration, under standard gravity. -/
def Settings.default : Settings α := ⟨true, false, standardGravity⟩

/-- Nothing drops. -/
def Drop.zero : Drop α := ⟨0, 0, 0⟩

namespace WellRecord

/-- An open producer without drops. -/
def producer (segments : Nat) (mode : ProductionMode) : WellRecord α :=
  ⟨.producer, false, mode, .none, List.replicate segments .zero⟩

/-- An open injector without drops. -/
def injector (segments : Nat) (mode : InjectionMode) : WellRecord α :=
  ⟨.injector, false, .none, mode, List.replicate segments .zero⟩

/-- The mode that goes with the kind of the well. -/
def mode (s : WellRecord α) : Mode :=
  match s.kind with
  | .producer => .production s.production
  | .injector => .injection s.injection

end WellRecord

/-- A multisegment well. -/
structure SegmentedWell (α : Type) where
  /-- Its name. -/
  name : String
  /-- Its segments. -/
  tree : SegmentTree α
  /-- The values of the unknowns. -/
  unknowns : Unknowns α
  /-- What follows from the unknowns, if it has been computed since they changed. -/
  profile : Option (Profile α)
  /-- Its equations. -/
  system : BlockSystem α
  /-- Which losses count. -/
  settings : Settings α
  deriving Repr, DecidableEq

namespace SegmentedWell

/-- A well at rest. -/
def make (name : String) (tree : SegmentTree α) (phases : ActivePhases) (settings : Settings α) :
    SegmentedWell α :=
  let layout : Layout := ⟨phases⟩
  { name, tree, unknowns := .zero layout tree.size, profile := none,
    system := .zero tree.size layout.size, settings }

/-- The places of the unknowns. -/
def layout (w : SegmentedWell α) : Layout := w.unknowns.layout

/-- Replaces rows of unknowns from a segment on, and drops the profile. Nothing when a row does not
    fit the well. -/
def setUnknowns (w : SegmentedWell α) (first : Nat) (rows : List (List α)) :
    Option (SegmentedWell α) :=
  (w.unknowns.setRows? first rows).map fun u => { w with unknowns := u, profile := none }

/-- Computes the profile. If the fluid cannot be evaluated, the well stays as it is. -/
def compute [Transcendental α] (w : SegmentedWell α) (fluid : Fluid α) :
    Except (WellError α) (SegmentedWell α) :=
  match Profile.compute w.tree w.unknowns fluid with
  | .ok q => .ok { w with profile := some q }
  | .error e => .error (.property e)

/-- The profile of the present unknowns. -/
def current (w : SegmentedWell α) : Except (WellError α) (Profile α) :=
  match w.profile with
  | some q => .ok q
  | none => .error .staleProfile

end SegmentedWell

end ReservoirWells
