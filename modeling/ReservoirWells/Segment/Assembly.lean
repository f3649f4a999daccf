import ReservoirWells.Segment.DeviceDrop
import ReservoirWells.Segment.Well

/-!
# Assembly — the pressure equations and the control equation

Every segment below the top has the equation `p - Δp - p_outlet = 0` in the pressure row, where
`Δp` is the drop across its device or, for a plain pipe, the sum of hydrostatic, friction and
acceleration losses.  The pressure row of the top segment holds the control equation.

A pressure equation touches two things only, its row of the system and the drops of its segment;
`Assembly` is the pair of the two.  An equation that cannot be assembled leaves both alone.

* **`SegmentedWell.pipeEquation`**, **`SegmentedWell.deviceEquation`** — the two kinds of pressure
  equation, and **`SegmentedWell.pressureEquation`**, which takes the one that fits the segment.
* **`SegmentedWell.accelerationLoss`** — subtracts the acceleration loss from an equation.
* **`SegmentedWell.pressureEquations`** — all segments below the top in order.
* **`SegmentedWell.controlEquation`** — the pressure row of the top segment.
-/

namespace ReservoirWells

/-- What assembling a pressure equation changes. -/
structure Assembly (α : Type) where
  /-- The system. -/
  system : BlockSystem α
  /-- The drops of the segments. -/
  drops : List (Drop α)
  deriving Repr, DecidableEq

/-- What the control equation asks for. -/
inductive ControlTarget (α : Type)
  /-- A pressure of the top segment. -/
  | pressure (target : α)
  /-- A total rate of the top segment, negative for producers. -/
  | rate (target : α)
  /-- No flow in the top segment. -/
  | stopped
  deriving Repr, DecidableEq

variable {α : Type} [Scalar α]

namespace Assembly

/-- Replaces the system. -/
def setSystem (x : Assembly α) (system : BlockSystem α) : Assembly α := { x with system }

/-- Changes the drops of a segment. -/
def recordDrop (x : Assembly α) (seg : Nat) (f : Drop α → Drop α) :
    Except (WellError α) (Assembly α) :=
  if seg < x.drops.length then .ok { x with drops := x.drops.modify seg f }
  else .error (.noDrop seg)

end Assembly

namespace SegmentedWell

/-- A segment below the top, and the index of its outlet. -/
def belowTop (w : SegmentedWell α) (seg : Nat) :
    Except (WellError α) (Segment α × Nat) :=
  match w.tree.segment? seg with
  | none => .error (.unknownSegment seg)
  | some segment =>
    match w.tree.outlet? seg with
    | none => .error .topSegment
    | some outlet => .ok (segment, outlet)

/-- Writes `equation - p_outlet` into the pressure row of a segment. -/
def insertEquation (w : SegmentedWell α) (s : BlockSystem α) (seg outlet : Nat)
    (equation : Linearization α) : BlockSystem α :=
  let slot := w.layout.pressureSlot
  let outletPressure := Linearization.ofVariable (w.unknowns.pressure outlet) slot w.layout.size
  ((s.setResidual seg slot (equation.value - outletPressure.value)).addRow seg slot seg
    equation.derivatives 1).addRow seg slot outlet outletPressure.derivatives (-1)

/-! ## Terms -/

/-- The weight of the column between a segment and its outlet. -/
def hydrostatic (w : SegmentedWell α) (seg : Nat) (states : States α) : Dual α :=
  (states seg).density * (w.settings.gravity * w.tree.depthBelowOutlet seg)

/-- One for a negative mass rate, minus one otherwise. -/
def flowSign (massRate : α) : α := if massRate < 0 then 1 else -1

/-- The velocity head of a segment in some area, with upwind density. -/
def headOf (area : α) (seg upwind : Nat) (states : States α) : Dual α :=
  Friction.velocityHead area (states seg).massRate (carriedState states seg upwind).density

variable [Transcendental α]

/-- The friction along a pipe segment, signed against the flow, with upwind properties. Zero when
    friction does not count. -/
def friction (w : SegmentedWell α) (segment : Segment α) (seg upwind : Nat) (states : States α) :
    Dual α :=
  if w.settings.friction then
    let massRate := (states seg).massRate
    let carried := carriedState states seg upwind
    Friction.loss (w.tree.lengthBeyondOutlet seg) segment.diameter segment.area segment.roughness
      carried.density massRate carried.viscosity * flowSign massRate.re
  else 0

/-- The drop across the device of a segment. -/
def deviceDrop (segment : Segment α) (seg upwind : Nat) (states : States α) : Dual α :=
  segment.device.drop (carriedState states seg upwind) (states seg).massRate

/-! ## Pressure equations -/

omit [Transcendental α] in
/-- Subtracts the acceleration loss from the pressure equation of a segment and records it. The loss
    is the segment's velocity head less that of each inlet, the latter in the larger of the two
    areas. -/
def accelerationLoss (w : SegmentedWell α) (seg : Nat) (x : Assembly α) :
    Except (WellError α) (Assembly α) := do
  let (segment, _) ← w.belowTop seg
  let q ← w.current
  let sign := flowSign (q.values seg).massRate.re
  let head := q.evaluate (headOf segment.area seg (q.upwind seg))
  let inletHeads : List (Nat × Linearization α) := (w.tree.inlets seg).map fun inlet =>
    let area := ((w.tree.segment? inlet).map (·.area)).getD segment.area
    (inlet, q.evaluate (headOf (Scalar.max area segment.area) inlet (q.upwind inlet)))
  let loss := sign * inletHeads.foldl (fun rest (_, h) => rest - h.value) head.value
  let slot := w.layout.pressureSlot
  let own := (x.system.addResidual seg slot (-loss)).addRow seg slot seg head.derivatives (-sign)
  let whole := inletHeads.foldl
    (fun s (inlet, h) => s.addRow seg slot inlet h.derivatives sign) own
  (x.setSystem whole).recordDrop seg fun d => { d with acceleration := loss }

/-- Assembles the equation of a plain pipe and records its drops. The friction drop is recorded only
    when friction counts. -/
def pipeEquation (w : SegmentedWell α) (seg : Nat) (x : Assembly α) :
    Except (WellError α) (Assembly α) := do
  let (segment, outlet) ← w.belowTop seg
  let q ← w.current
  let hydrostatic := w.hydrostatic seg
  let friction := w.friction segment seg (q.upwind seg)
  let equation := q.evaluate fun states =>
    (states seg).pressure - hydrostatic states - friction states
  let recorded ← x.recordDrop seg fun d => { d with
    hydrostatic := (q.evaluate hydrostatic).value
    friction := if w.settings.friction then (q.evaluate friction).value else d.friction }
  let assembled := recorded.setSystem (w.insertEquation x.system seg outlet equation)
  if w.settings.acceleration then w.accelerationLoss seg assembled else return assembled

/-- Assembles the equation of a segment with a device and records the drop across it. A shut valve
    lets nothing through: its equation is `Q = 0`. -/
def deviceEquation (w : SegmentedWell α) (seg : Nat) (x : Assembly α) :
    Except (WellError α) (Assembly α) := do
  let (segment, outlet) ← w.belowTop seg
  let slot := w.layout.pressureSlot
  if !segment.device.controlsInflow then .error (.notADevice w.name segment.number)
  else if segment.device.isShut then
    let closed := (x.system.setResidual seg slot (w.unknowns.totalRate seg)).setJacobian
      seg slot seg Layout.rateSlot 1
    (x.setSystem closed).recordDrop seg fun d => { d with friction := 0 }
  else
    let q ← w.current
    let drop := deviceDrop segment seg (q.upwind seg)
    let equation := q.evaluate fun states => (states seg).pressure - drop states
    (x.setSystem (w.insertEquation x.system seg outlet equation)).recordDrop seg
      fun d => { d with friction := (q.evaluate drop).value }

/-- Assembles the pressure equation of a segment. -/
def pressureEquation (w : SegmentedWell α) (seg : Nat) (x : Assembly α) :
    Except (WellError α) (Assembly α) := do
  let (segment, _) ← w.belowTop seg
  if segment.device.controlsInflow then w.deviceEquation seg x else w.pipeEquation seg x

/-- Assembles the pressure equations of some segments in order, until one fails. -/
def pressureEquationsOf (w : SegmentedWell α) :
    List Nat → Assembly α → Assembly α × Except (WellError α) Unit
  | [], x => (x, .ok ())
  | seg :: rest, x =>
    match w.pressureEquation seg x with
    | .ok x => w.pressureEquationsOf rest x
    | .error e => (x, .error e)

/-- Assembles the pressure equations of all segments below the top. -/
def pressureEquations (w : SegmentedWell α) (x : Assembly α) :
    Assembly α × Except (WellError α) Unit :=
  w.pressureEquationsOf (List.range' 1 (w.tree.size - 1)) x

/-! ## The control equation -/

omit [Transcendental α] in
/-- Writes the control equation into the pressure row of the top segment. -/
def controlEquation (w : SegmentedWell α) (target : ControlTarget α) : SegmentedWell α :=
  let slot := w.layout.pressureSlot
  let (residual, unknown) :=
    match target with
    | .pressure p => (w.unknowns.pressure 0 - p, slot)
    | .rate q => (w.unknowns.totalRate 0 - q, Layout.rateSlot)
    | .stopped => (w.unknowns.totalRate 0, Layout.rateSlot)
  { w with system := (w.system.setResidual 0 slot residual).setJacobian 0 slot 0 unknown 1 }

/-! ## Assembling into the well -/

omit [Transcendental α] in
/-- Carries out an assembly on the well's own system and on the drops of its record. -/
def assemble (w : SegmentedWell α) (s : WellRecord α)
    (f : Assembly α → Except (WellError α) (Assembly α)) :
    Except (WellError α) (SegmentedWell α × WellRecord α) :=
  (f ⟨w.system, s.drops⟩).map fun x => ({ w with system := x.system }, { s with drops := x.drops })

/-- Assembles all pressure equations into the well; what was assembled before an error stays. -/
def assembleAll (w : SegmentedWell α) (s : WellRecord α) :
    (SegmentedWell α × WellRecord α) × Except (WellError α) Unit :=
  let (x, done) := w.pressureEquations ⟨w.system, s.drops⟩
  (({ w with system := x.system }, { s with drops := x.drops }), done)

end SegmentedWell

end ReservoirWells
