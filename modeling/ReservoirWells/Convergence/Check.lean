import ReservoirWells.Convergence.Report
import ReservoirWells.Segment.Well

/-!
# Convergence — how far the residuals are from zero

Mass-balance residuals are weighted with the average formation volume factor of their component.
The pressure equations of all segments below the top count as one equation, by their largest
residual; the control equation counts for itself.

* **`SegmentedWell.checkConvergence`** — a report of the equations that have not converged.
* **`SegmentedWell.finiteResiduals`** — the largest residual of each equation, or the first one that
  is not finite.
* **`SegmentedWell.measure`** — one number, zero when every residual is within its tolerance.
-/

namespace ReservoirWells

/-- The tolerances of a convergence check. -/
structure Tolerances (α : Type) where
  /-- Mass-balance residuals above this are too large, and control residuals above ten times
      this. -/
  largest : α
  /-- Mass balances and rate control. -/
  flow : α
  /-- Mass balances, when tolerances are relaxed. -/
  relaxedFlow : α
  /-- Pressure equations and pressure control. -/
  pressure : α
  /-- Pressure equations, when tolerances are relaxed. -/
  relaxedPressure : α
  deriving Repr, DecidableEq, Inhabited

variable {α : Type} [Scalar α]

/-- The usual tolerances. -/
def Tolerances.default : Tolerances α := ⟨1e7, 1e-4, 1e-3, 1e3, 1e4⟩

namespace Mode

/-- The equation by which a mode is controlled; nothing for a mode that has none. -/
def equation? : Mode → Option Equation
  | .injection .thp | .production .thp => some .controlThp
  | .injection .bhp | .production .bhp => some .controlBhp
  | .injection .rate | .injection .resv | .injection .grup => some .controlRate
  | .production .orat | .production .wrat | .production .grat | .production .lrat
  | .production .resv | .production .crat | .production .grup => some .controlRate
  | _ => none

end Mode

namespace SegmentedWell

/-- Refuses a list of formation volume factors that does not hold one per component. -/
def checkFactors (w : SegmentedWell α) (factors : List α) : Except (WellError α) Unit :=
  if factors.length == w.layout.components then .ok ()
  else .error (.wrongLength .formationFactors w.layout.components factors.length)

/-- The control equation of a mode, or the error that it has none. -/
def controlOf (w : SegmentedWell α) (mode : Mode) : Except (WellError α) Equation :=
  match mode.equation? with
  | some e => .ok e
  | none => .error (.unknownMode w.name mode)

/-! ## The report -/

/-- How badly an equation has failed: `limit` is too large, and unless tolerances are relaxed
    `tolerance` counts beside `relaxedTolerance`. -/
def severityOf (residual : α) (tooLarge : Bool) (relax : Bool) (tolerance relaxedTolerance : α) :
    Severity :=
  if !Scalar.isNumber residual then .notANumber
  else if tooLarge then .tooLarge
  else if (!relax && decide (tolerance < residual)) || decide (relaxedTolerance < residual) then
    .normal
  else .none

/-- The largest weighted residual of a mass balance. -/
def massResidual (w : SegmentedWell α) (eq : Nat) (factor : α) : α :=
  (List.range w.tree.size).foldl
    (fun most seg => Scalar.strictMax most (factor * Scalar.abs (w.system.residual seg eq))) 0

/-- The largest residual of the pressure equations below the top. -/
def pressureResidual (w : SegmentedWell α) : α :=
  (List.range' 1 (w.tree.size - 1)).foldl
    (fun most seg =>
      Scalar.strictMax most (Scalar.abs (w.system.residual seg w.layout.pressureSlot))) 0

/-- The residual of the control equation. -/
def controlResidual (w : SegmentedWell α) : α :=
  Scalar.abs (w.system.residual 0 w.layout.pressureSlot)

/-- The severity of a mass balance. -/
def massSeverity (w : SegmentedWell α) (t : Tolerances α) (relax : Bool) (eq : Nat) (factor : α) :
    Severity :=
  let residual := w.massResidual eq factor
  severityOf residual (decide (t.largest < residual)) relax t.flow t.relaxedFlow

/-- The severity of the pressure equations. Only an infinite residual is too large. -/
def pressureSeverity (w : SegmentedWell α) (t : Tolerances α) (relax : Bool) : Severity :=
  let residual := w.pressureResidual
  severityOf residual (!Scalar.isFinite residual) relax t.pressure t.relaxedPressure

/-- The control equation in force. A stopped well is controlled on its rate. -/
def controlInForce (w : SegmentedWell α) (s : WellRecord α) : Except (WellError α) Equation :=
  if s.stopped then .ok .controlRate else w.controlOf s.mode

/-- The severity of the control equation, which has one tolerance only. -/
def controlSeverity (w : SegmentedWell α) (t : Tolerances α) (control : Equation) : Severity :=
  let residual := w.controlResidual
  let tolerance := if control == .controlRate then t.flow else t.pressure
  severityOf residual (decide (10.0 * t.largest < residual)) true tolerance tolerance

/-- A report of one equation. -/
def reportOf (w : SegmentedWell α) (equation : Equation) (component : Option Nat)
    (severity : Severity) : Report :=
  if severity == .none then .empty else .push .empty ⟨equation, severity, component, w.name⟩

/-- Checks the residuals of the well: the mass balances in order, the pressure equations, the
    control equation. With `relax` only the relaxed tolerances apply to the first two. -/
def checkConvergence (w : SegmentedWell α) (s : WellRecord α) (factors : List α)
    (t : Tolerances α) (relax : Bool) : Except (WellError α) Report := do
  w.checkFactors factors
  let control ← w.controlInForce s
  let mass := factors.zipIdx.foldl
    (fun report (factor, eq) =>
      report ++ w.reportOf .massBalance (some eq) (w.massSeverity t relax eq factor)) .empty
  return mass ++ w.reportOf .pressure none (w.pressureSeverity t relax)
    ++ w.reportOf control none (w.controlSeverity t control)

/-! ## Largest residuals -/

/-- The residual that counts for an equation of a segment: weighted in a mass balance, as it is
    below the top, and none in the row of the control equation. -/
def countedResidual (w : SegmentedWell α) (factors : List α) (seg eq : Nat) : α :=
  match factors[eq]? with
  | some factor => Scalar.abs (w.system.residual seg eq) * factor
  | none => if 0 < seg then Scalar.abs (w.system.residual seg eq) else 0

/-- The first residual that is not finite, segment by segment. -/
def firstNotFinite (w : SegmentedWell α) (factors : List α) : Option (Nat × Nat) :=
  ((List.range w.tree.size).flatMap fun seg =>
    (List.range w.layout.size).map fun eq => (seg, eq)).find? fun (seg, eq) =>
      !Scalar.isFinite (w.countedResidual factors seg eq)

/-- The largest residual of each equation and then that of the control equation, if all residuals
    are finite. -/
def finiteResiduals (w : SegmentedWell α) (factors : List α) : Except (WellError α) (List α) := do
  w.checkFactors factors
  match w.firstNotFinite factors with
  | some (seg, eq) => .error (.notFinite w.name (some seg) eq)
  | none =>
    if !Scalar.isFinite w.controlResidual then
      .error (.notFinite w.name none w.layout.pressureSlot)
    else
      let largest (eq : Nat) : α := (List.range w.tree.size).foldl
        (fun most seg => Scalar.max most (w.countedResidual factors seg eq)) 0
      return (List.range w.layout.size).map largest ++ [w.controlResidual]

/-! ## One number -/

/-- The tolerance of the control equation in one number: that of pressures for tubing-head pressure
    only. -/
def toleranceOfControl (w : SegmentedWell α) (s : WellRecord α) (flow pressure : α) :
    Except (WellError α) α :=
  (w.controlOf s.mode).map fun control => if control == .controlThp then pressure else flow

/-- A residual over its tolerance, zero when it is within. -/
def overshoot (residual tolerance : α) : α :=
  if tolerance < residual then residual / tolerance else 0

/-- How far some residuals, listed as by `finiteResiduals`, are from convergence. -/
def measure (w : SegmentedWell α) (s : WellRecord α) (residuals : List α) (flow pressure : α) :
    Except (WellError α) α :=
  let size := w.layout.size
  if residuals.length != size + 1 then
    .error (.wrongLength .residuals (size + 1) residuals.length)
  else do
    let control ← w.toleranceOfControl s flow pressure
    let residual (place : Nat) : α := residuals[place]?.getD 0
    let mass := Scalar.total ((residuals.take (size - 1)).map fun r => overshoot r flow)
    return mass + overshoot (residual (size - 1)) pressure + overshoot (residual size) control

end SegmentedWell

/-- A convergence check of one well with fixed tolerances. -/
structure WellCheck (α : Type) where
  /-- The well. -/
  well : SegmentedWell α
  /-- What the simulation keeps of it. -/
  record : WellRecord α
  /-- The tolerances. -/
  tolerances : Tolerances α

/-- Runs a check. -/
def WellCheck.run (c : WellCheck α) (factors : List α) (relax : Bool) :
    Except (WellError α) Report :=
  c.well.checkConvergence c.record factors c.tolerances relax

end ReservoirWells
