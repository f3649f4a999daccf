import ReservoirWells.Segment.Assembly
import ReservoirWells.Proofs.Fallible

/-! # Steps — a pressure equation written step by step

    A pressure equation is assembled as a whole or not at all.  Written step by step, each drop and
    each entry goes to its place as soon as it is known, and an error further on would leave the
    steps before it behind.  It does not come to that: whatever can fail is asked for before the
    first step, and the acceleration loss, which asks again after the equation was written, gets the
    same answers as before.

    * `Stepwise` — steps that change an assembly, where an error keeps what was changed before;
    * `SegmentedWell.accelerationSteps`, `SegmentedWell.pipeSteps`, `SegmentedWell.deviceSteps`,
      `SegmentedWell.pressureSteps` — the equations in steps;
    * `SegmentedWell.run_accelerationSteps`, `SegmentedWell.run_pipeSteps`,
      `SegmentedWell.run_deviceSteps`, `SegmentedWell.run_pressureSteps` — they come to the whole
      equation, or they leave everything as it was. -/

namespace ReservoirWells

variable {α β : Type}

/-- Steps that change an assembly and may fail; what was changed before an error stays changed. -/
abbrev Stepwise (α β : Type) := EStateM (WellError α) (Assembly α) β

/-- The system and the drops of a segment are replaced when the segment has any drops. -/
theorem Assembly.recordDrop_of_lt {x : Assembly α} {seg : Nat} (h : seg < x.drops.length)
    (system : BlockSystem α) (f : Drop α → Drop α) :
    (x.setSystem system).recordDrop seg f = .ok ⟨system, x.drops.modify seg f⟩ :=
  if_pos h

/-- The outcome of an equation that is assembled as a whole or not at all. -/
def Assembly.settle (x : Assembly α) :
    Except (WellError α) (Assembly α) → EStateM.Result (WellError α) (Assembly α) Unit
  | .ok y => .ok () y
  | .error e => .error e x

theorem Assembly.lt_length_modify {x : Assembly α} {seg : Nat} (h : seg < x.drops.length)
    (system : BlockSystem α) (f : Drop α → Drop α) :
    seg < (Assembly.mk system (x.drops.modify seg f)).drops.length := by
  show seg < (x.drops.modify seg f).length
  rwa [List.length_modify]

namespace Stepwise

/-- Asks for a value, which changes nothing. -/
def ask (value : Except (WellError α) β) : Stepwise α β := fun x =>
  match value with
  | .ok b => .ok b x
  | .error e => .error e x

/-- Changes the system. -/
def rewrite (f : BlockSystem α → BlockSystem α) : Stepwise α Unit :=
  modify fun x => x.setSystem (f x.system)

/-- Changes the drops of a segment. -/
def record (seg : Nat) (f : Drop α → Drop α) : Stepwise α Unit := fun x =>
  x.settle (x.recordDrop seg f)

/-! ## Running steps -/

variable {x y : Assembly α}

theorem run_ask_ok {value : Except (WellError α) β} {b : β} (h : value = .ok b) (x : Assembly α) :
    (ask value).run x = .ok b x := by
  rw [h]
  rfl

theorem run_rewrite (f : BlockSystem α → BlockSystem α) (x : Assembly α) :
    (rewrite f).run x = .ok () (x.setSystem (f x.system)) := rfl

theorem run_record {seg : Nat} (h : seg < x.drops.length) (g : Drop α → Drop α) :
    (record seg g).run x = .ok () { x with drops := x.drops.modify seg g } := by
  show x.settle (x.recordDrop seg g) = _
  rw [Assembly.recordDrop, if_pos h]
  rfl

/-- A list of changes of the system is made one after the other. -/
theorem run_forM_rewrite (g : β → BlockSystem α → BlockSystem α) (l : List β) :
    ∀ x : Assembly α, (forM l fun b => rewrite (g b)).run x
      = .ok () (x.setSystem (l.foldl (fun s b => g b s) x.system)) := by
  induction l with
  | nil => intro x; rfl
  | cons b rest ih =>
      intro x
      rw [List.forM_cons, EStateM.run_bind, run_rewrite]
      exact ih _

end Stepwise

namespace SegmentedWell

open Stepwise

variable [Scalar α]

/-! ## The equations in steps -/

/-- Takes the acceleration loss off the equation of a segment, step by step. -/
def accelerationSteps (w : SegmentedWell α) (seg : Nat) : Stepwise α Unit := do
  let (segment, _) ← ask (w.belowTop seg)
  let q ← ask w.current
  let sign := flowSign (q.values seg).massRate.re
  let head := q.evaluate (headOf segment.area seg (q.upwind seg))
  let inletHeads : List (Nat × Linearization α) := (w.tree.inlets seg).map fun inlet =>
    let area := ((w.tree.segment? inlet).map (·.area)).getD segment.area
    (inlet, q.evaluate (headOf (Scalar.max area segment.area) inlet (q.upwind inlet)))
  let loss := sign * inletHeads.foldl (fun rest (_, h) => rest - h.value) head.value
  let slot := w.layout.pressureSlot
  record seg fun d => { d with acceleration := loss }
  rewrite (·.addResidual seg slot (-loss))
  rewrite (·.addRow seg slot seg head.derivatives (-sign))
  forM inletHeads fun h => rewrite (·.addRow seg slot h.1 h.2.derivatives sign)

/-- Records the drops of a pipe; that of friction only when friction counts. -/
def pipeDropSteps (w : SegmentedWell α) (seg : Nat) (hydrostatic friction : α) :
    Stepwise α Unit := do
  record seg fun d => { d with hydrostatic }
  if w.settings.friction then record seg fun d => { d with friction }

variable [Transcendental α]

/-- Assembles the equation of a plain pipe step by step. -/
def pipeSteps (w : SegmentedWell α) (seg : Nat) : Stepwise α Unit := do
  let (segment, outlet) ← ask (w.belowTop seg)
  let q ← ask w.current
  let hydrostatic := w.hydrostatic seg
  let friction := w.friction segment seg (q.upwind seg)
  let equation := q.evaluate fun states =>
    (states seg).pressure - hydrostatic states - friction states
  w.pipeDropSteps seg (q.evaluate hydrostatic).value (q.evaluate friction).value
  rewrite fun s => w.insertEquation s seg outlet equation
  if w.settings.acceleration then w.accelerationSteps seg

/-- Assembles the equation of a segment with a device step by step. -/
def deviceSteps (w : SegmentedWell α) (seg : Nat) : Stepwise α Unit := do
  let (segment, outlet) ← ask (w.belowTop seg)
  let slot := w.layout.pressureSlot
  if !segment.device.controlsInflow then
    ask (.error (.notADevice w.name segment.number))
  else if segment.device.isShut then
    rewrite (·.setResidual seg slot (w.unknowns.totalRate seg))
    rewrite (·.setJacobian seg slot seg Layout.rateSlot 1)
    record seg fun d => { d with friction := 0 }
  else
    let q ← ask w.current
    let drop := deviceDrop segment seg (q.upwind seg)
    let equation := q.evaluate fun states => (states seg).pressure - drop states
    record seg fun d => { d with friction := (q.evaluate drop).value }
    rewrite fun s => w.insertEquation s seg outlet equation

/-- Assembles the pressure equation of a segment step by step. -/
def pressureSteps (w : SegmentedWell α) (seg : Nat) : Stepwise α Unit := do
  let (segment, _) ← ask (w.belowTop seg)
  if segment.device.controlsInflow then w.deviceSteps seg else w.pipeSteps seg

/-! ## What the steps come to -/

variable {w : SegmentedWell α} {seg : Nat} {x : Assembly α}

omit [Transcendental α] in
/-- The steps of the acceleration loss come to the whole of it. -/
theorem run_accelerationSteps (hseg : seg < x.drops.length) :
    (w.accelerationSteps seg).run x = x.settle (w.accelerationLoss seg x) := by
  rw [accelerationSteps, accelerationLoss, EStateM.run_bind]
  cases hbelow : w.belowTop seg with
  | error e => rfl
  | ok below =>
      obtain ⟨segment, outlet⟩ := below
      cases hq : w.current with
      | error e => rfl
      | ok q =>
          simp only [ok_bind, EStateM.run_bind, run_ask_ok rfl, run_record hseg, run_rewrite,
            run_forM_rewrite]
          rw [Assembly.recordDrop_of_lt hseg]
          rfl

omit [Transcendental α] in
/-- The acceleration loss can be taken off wherever an equation could be written. -/
theorem accelerationLoss_ok {segment : Segment α} {outlet : Nat} {q : Profile α}
    (hbelow : w.belowTop seg = .ok (segment, outlet)) (hq : w.current = .ok q)
    (hseg : seg < x.drops.length) : ∃ y, w.accelerationLoss seg x = .ok y := by
  rw [accelerationLoss, hbelow, hq]
  simp only [ok_bind]
  exact ⟨_, Assembly.recordDrop_of_lt hseg _ _⟩

omit [Transcendental α] in
/-- After an equation was written the steps of the acceleration loss do not fail. -/
theorem run_accelerationSteps_of_ok {segment : Segment α} {outlet : Nat} {q : Profile α}
    (hbelow : w.belowTop seg = .ok (segment, outlet)) (hq : w.current = .ok q) {y : Assembly α}
    (hseg : seg < y.drops.length) (x : Assembly α) :
    (w.accelerationSteps seg).run y = x.settle (w.accelerationLoss seg y) := by
  obtain ⟨z, hz⟩ := accelerationLoss_ok hbelow hq hseg
  rw [run_accelerationSteps hseg, hz]
  rfl

omit [Scalar α] [Transcendental α] in
theorem run_pipeDropSteps (hseg : seg < x.drops.length) (hydrostatic friction : α) :
    (w.pipeDropSteps seg hydrostatic friction).run x
      = .ok () { x with drops := x.drops.modify seg fun d => { d with
          hydrostatic
          friction := if w.settings.friction then friction else d.friction } } := by
  rw [pipeDropSteps, EStateM.run_bind, run_record hseg]
  cases w.settings.friction with
  | false => rfl
  | true =>
      simp only [if_true, run_record (Assembly.lt_length_modify hseg _ _), List.modify_modify_eq]
      rfl

/-- The steps for a pipe come to the whole equation, whose acceleration loss does not fail. -/
theorem run_pipeSteps (hseg : seg < x.drops.length) :
    (w.pipeSteps seg).run x = x.settle (w.pipeEquation seg x) := by
  rw [pipeSteps, pipeEquation, EStateM.run_bind]
  cases hbelow : w.belowTop seg with
  | error e => rfl
  | ok below =>
      obtain ⟨segment, outlet⟩ := below
      cases hq : w.current with
      | error e => rfl
      | ok q =>
          simp only [ok_bind, EStateM.run_bind, run_ask_ok rfl, run_pipeDropSteps hseg, run_rewrite,
            show x.recordDrop seg = fun f => .ok { x with drops := x.drops.modify seg f }
              from funext fun f => Assembly.recordDrop_of_lt hseg x.system f]
          cases w.settings.acceleration with
          | false => rfl
          | true =>
              exact run_accelerationSteps_of_ok hbelow hq (Assembly.lt_length_modify hseg _ _) x

/-- The steps for a device come to the whole equation. -/
theorem run_deviceSteps (hseg : seg < x.drops.length) :
    (w.deviceSteps seg).run x = x.settle (w.deviceEquation seg x) := by
  rw [deviceSteps, deviceEquation, EStateM.run_bind]
  cases hbelow : w.belowTop seg with
  | error e => rfl
  | ok below =>
      obtain ⟨segment, outlet⟩ := below
      simp only [ok_bind, run_ask_ok rfl]
      cases hdevice : segment.device.controlsInflow with
      | false => rfl
      | true =>
          simp only [Bool.not_true, Bool.false_eq_true, if_false]
          cases segment.device.isShut with
          | true =>
              simp only [if_true, EStateM.run_bind, run_rewrite]
              rw [Assembly.recordDrop_of_lt hseg, run_record (by exact hseg)]
              rfl
          | false =>
              simp only [Bool.false_eq_true, if_false, EStateM.run_bind]
              cases hq : w.current with
              | error e => rfl
              | ok q =>
                  simp only [ok_bind, run_ask_ok rfl, run_record hseg, run_rewrite]
                  rw [Assembly.recordDrop_of_lt hseg]
                  rfl

theorem run_pressureSteps (hseg : seg < x.drops.length) :
    (w.pressureSteps seg).run x = x.settle (w.pressureEquation seg x) := by
  rw [pressureSteps, pressureEquation, EStateM.run_bind]
  cases hbelow : w.belowTop seg with
  | error e => rfl
  | ok below =>
      obtain ⟨segment, outlet⟩ := below
      simp only [ok_bind, run_ask_ok rfl]
      cases segment.device.controlsInflow with
      | false => exact run_pipeSteps hseg
      | true => exact run_deviceSteps hseg

end SegmentedWell

end ReservoirWells
