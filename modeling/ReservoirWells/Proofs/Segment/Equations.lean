import Mathlib.Tactic.Abel
import Mathlib.Tactic.Ring
import ReservoirWells.Proofs.BlockSystem
import ReservoirWells.Proofs.Segment.Profile
import ReservoirWells.Proofs.Segment.Tree

/-! # Equations — what a pressure equation writes

    A pressure equation is written in one piece (`SegmentedWell.insertEquation`), and the
    acceleration loss is taken off afterwards (`SegmentedWell.accelerationLoss`).  This file says
    what the two write into the system and into the drops, and what the whole equation comes to:

    * `SegmentedWell.residual_insertEquation`, `SegmentedWell.jacobian_insertEquation`;
    * `SegmentedWell.residual_accelerated`, `SegmentedWell.jacobian_accelerated`;
    * `SegmentedWell.pressureEquation_shut`, `SegmentedWell.pressureEquation_open` — the equation of
      a segment;
    * `SegmentedWell.residual_openSystem`, `SegmentedWell.jacobian_openSystem` — its residual and
      its row of the Jacobian. -/

namespace ReservoirWells

variable {α : Type}

namespace SegmentedWell

section Below

variable {w : SegmentedWell α} {seg : Nat}

/-- A segment has a pressure equation when it is a segment and has an outlet. -/
theorem belowTop_eq_ok {segment : Segment α} {outlet : Nat} :
    w.belowTop seg = .ok (segment, outlet) ↔
      w.tree.segment? seg = some segment ∧ w.tree.outlet? seg = some outlet := by
  rw [belowTop]
  cases w.tree.segment? seg with
  | none => simp
  | some s =>
      cases w.tree.outlet? seg with
      | none => simp
      | some o => simp

theorem current_eq_ok {q : Profile α} : w.current = .ok q ↔ w.profile = some q := by
  rw [current]
  cases w.profile with
  | none => simp
  | some q' => simp

/-- Drops are recorded for segments that have any. -/
theorem recordDrop_eq_ok {x y : Assembly α} {f : Drop α → Drop α} :
    x.recordDrop seg f = .ok y ↔
      seg < x.drops.length ∧ y = { x with drops := x.drops.modify seg f } := by
  rw [Assembly.recordDrop]
  by_cases h : seg < x.drops.length
  · simp [h, eq_comm]
  · simp [h]

/-- What is recorded does not depend on the system, and two records are one change. -/
theorem recordDrop_then (x : Assembly α) (seg : Nat) (f g : Drop α → Drop α)
    (system : BlockSystem α) :
    (x.recordDrop seg f >>= fun y => (y.setSystem system).recordDrop seg g)
      = (x.setSystem system).recordDrop seg (g ∘ f) := by
  by_cases h : seg < x.drops.length
  · have hafter : seg < (x.drops.modify seg f).length := by rwa [List.length_modify]
    have hboth : (x.drops.modify seg f).modify seg g = x.drops.modify seg (g ∘ f) :=
      List.modify_modify_eq f g seg x.drops
    simp only [Assembly.recordDrop, Assembly.setSystem, h, hafter, hboth, if_true, bind,
      Except.bind]
  · simp only [Assembly.recordDrop, Assembly.setSystem, h, if_false, bind, Except.bind]

theorem recordDrop_map (x : Assembly α) (seg : Nat) (f : Drop α → Drop α)
    (system : BlockSystem α) :
    (x.recordDrop seg f >>= fun y => .ok (y.setSystem system))
      = (x.setSystem system).recordDrop seg f := by
  by_cases h : seg < x.drops.length
  · simp only [Assembly.recordDrop, Assembly.setSystem, h, if_true, bind, Except.bind]
  · simp only [Assembly.recordDrop, Assembly.setSystem, h, if_false, bind, Except.bind]

end Below

/-! ## Writing an equation -/

section Insert

variable [ExactScalar α] {w : SegmentedWell α} {s : BlockSystem α} {seg outlet : Nat}
  (hs : s.Sized w.tree.size w.layout.size)

include hs

theorem sized_insertEquation (equation : Linearization α) :
    (w.insertEquation s seg outlet equation).Sized w.tree.size w.layout.size :=
  ((hs.setResidual ..).addRow ..).addRow ..

theorem residual_insertEquation (hseg : seg < w.tree.size) (equation : Linearization α)
    {seg' eq' : Nat} (heq' : eq' < w.layout.size) :
    (w.insertEquation s seg outlet equation).residual seg' eq'
      = if seg = seg' ∧ w.layout.pressureSlot = eq'
        then equation.value - w.unknowns.pressure outlet else s.residual seg' eq' := by
  rw [insertEquation, BlockSystem.residual_addRow, BlockSystem.residual_addRow,
    BlockSystem.setResidual,
    BlockSystem.residual_modifyResidual hs hseg w.layout.pressureSlot_lt_size heq']
  rfl

theorem jacobian_insertEquation (hseg : seg < w.tree.size) (houtlet : outlet < w.tree.size)
    {equation : Linearization α} (hlength : equation.derivatives.length = w.layout.size)
    {c v : Nat} (hc : c < w.tree.size) (hv : v < w.layout.size) :
    (w.insertEquation s seg outlet equation).jacobian seg w.layout.pressureSlot c v
      = s.jacobian seg w.layout.pressureSlot c v
        + (if seg = c then equation.derivatives.getD v 0 else 0)
        - (if outlet = c then if w.layout.pressureSlot = v then 1 else 0 else 0) := by
  have hslot := w.layout.pressureSlot_lt_size
  have hvariable : ((List.replicate w.layout.size (0 : α)).set w.layout.pressureSlot 1).getD v 0
      = if w.layout.pressureSlot = v then 1 else 0 := by
    rw [List.getD_eq_getElem?_getD, List.getElem?_set]
    by_cases h : w.layout.pressureSlot = v
    · simp [h, hv]
    · simp [h, hv]
  have hset := hs.setResidual seg w.layout.pressureSlot
    (equation.value - w.unknowns.pressure outlet)
  rw [insertEquation, Linearization.ofVariable,
    BlockSystem.jacobian_addRow (hset.addRow ..) hseg hslot houtlet (by simp) hslot hc hv,
    BlockSystem.jacobian_addRow hset hseg hslot hseg hlength.le hslot hc hv,
    BlockSystem.setResidual, BlockSystem.jacobian_modifyResidual, hvariable, one_mul]
  simp only [true_and]
  split_ifs <;> ring

end Insert

/-! ## Taking off the acceleration loss -/

section Acceleration

variable [ExactScalar α]

/-- The velocity head of an inlet of a segment, in the larger of the two areas. -/
def inletHead (w : SegmentedWell α) (segment : Segment α) (inlet upwind : Nat) :
    States α → Dual α :=
  headOf (Scalar.max (((w.tree.segment? inlet).map (·.area)).getD segment.area) segment.area) inlet
    upwind

/-- The acceleration loss of a segment as a term: its velocity head less those of its inlets, signed
    against the flow. -/
def acceleration (w : SegmentedWell α) (segment : Segment α) (seg : Nat) (upwind : Nat → Nat)
    (states : States α) : Dual α :=
  (w.tree.inlets seg).foldl
    (fun rest inlet => rest - w.inletHead segment inlet (upwind inlet) states)
    (headOf segment.area seg (upwind seg) states) * flowSign (states seg).massRate.re

/-- The derivative of the acceleration loss with respect to unknown `v` of segment `c`: each velocity
    head has one in the columns of its own segment. -/
def accelerationSlope (w : SegmentedWell α) (q : Profile α) (segment : Segment α)
    (seg c v : Nat) : α :=
  ((if seg = c then (headOf segment.area seg (q.upwind seg) (q.statesFor v)).eps else 0)
    - ((w.tree.inlets seg).map fun inlet => if inlet = c
        then (w.inletHead segment inlet (q.upwind inlet) (q.statesFor v)).eps else 0).sum)
    * flowSign (q.statesFor 0 seg).massRate.re

/-- Neither the segment nor an inlet of it. -/
theorem accelerationSlope_eq_zero (w : SegmentedWell α) (q : Profile α) (segment : Segment α)
    {seg c : Nat} (hself : seg ≠ c) (hinlets : c ∉ w.tree.inlets seg) (v : Nat) :
    w.accelerationSlope q segment seg c v = 0 := by
  have hheads : ((w.tree.inlets seg).map fun inlet => if inlet = c
      then (w.inletHead segment inlet (q.upwind inlet) (q.statesFor v)).eps else 0).sum = 0 := by
    refine List.sum_eq_zero fun x hx => ?_
    obtain ⟨inlet, hinlet, rfl⟩ := List.mem_map.mp hx
    refine if_neg ?_
    rintro rfl
    exact hinlets hinlet
  rw [accelerationSlope, if_neg hself, hheads, sub_zero, zero_mul]

/-- A system from whose equation the acceleration loss was taken off. -/
def accelerated (w : SegmentedWell α) (q : Profile α) (segment : Segment α) (seg : Nat)
    (s : BlockSystem α) : BlockSystem α :=
  let sign := flowSign (q.statesFor 0 seg).massRate.re
  (w.tree.inlets seg).foldl
    (fun s inlet => s.addRow seg w.layout.pressureSlot inlet
      (q.evaluate (w.inletHead segment inlet (q.upwind inlet))).derivatives sign)
    ((s.addResidual seg w.layout.pressureSlot
        (-(w.acceleration segment seg q.upwind (q.statesFor 0)).re)).addRow seg
      w.layout.pressureSlot seg
      (q.evaluate (headOf segment.area seg (q.upwind seg))).derivatives (-sign))

/-- The loss is taken off the equation and recorded. -/
theorem accelerationLoss_eq {w : SegmentedWell α} {q : Profile α} {segment : Segment α}
    {seg outlet : Nat} (hbelow : w.belowTop seg = .ok (segment, outlet))
    (hq : w.current = .ok q) (hslots : 0 < q.slots.length) (x : Assembly α) :
    w.accelerationLoss seg x
      = (x.setSystem (w.accelerated q segment seg x.system)).recordDrop seg fun d =>
          { d with acceleration := (w.acceleration segment seg q.upwind (q.statesFor 0)).re } := by
  have hheads : ∀ (inlets : List Nat) (rest : Dual α),
      inlets.foldl (fun rest inlet =>
          rest - (q.evaluate (w.inletHead segment inlet (q.upwind inlet))).value) rest.re
        = (inlets.foldl (fun rest inlet =>
            rest - w.inletHead segment inlet (q.upwind inlet) (q.statesFor 0)) rest).re := by
    intro inlets
    induction inlets with
    | nil => intro rest; rfl
    | cons inlet others ih =>
        intro rest
        rw [List.foldl_cons, List.foldl_cons, ← ih, Profile.evaluate_value hslots]
        rfl
  have hloss : flowSign (q.statesFor 0 seg).massRate.re * (w.tree.inlets seg).foldl
        (fun rest inlet =>
          rest - (q.evaluate (w.inletHead segment inlet (q.upwind inlet))).value)
        (q.evaluate (headOf segment.area seg (q.upwind seg))).value
      = (w.acceleration segment seg q.upwind (q.statesFor 0)).re := by
    rw [Profile.evaluate_value hslots, hheads, mul_comm]
    rfl
  rw [accelerationLoss, hbelow, hq]
  simp only [bind, Except.bind, List.foldl_map, Profile.values_eq]
  rw [accelerated, ← hloss]
  rfl

/-! ### What it writes -/

variable {w : SegmentedWell α} {q : Profile α} {segment : Segment α} {seg : Nat}
  {s : BlockSystem α} (hs : s.Sized w.tree.size w.layout.size)

include hs

theorem sized_accelerated :
    (w.accelerated q segment seg s).Sized w.tree.size w.layout.size := by
  have hrows : ∀ (inlets : List Nat) (sign : α) {s : BlockSystem α},
      s.Sized w.tree.size w.layout.size →
      (inlets.foldl (fun s inlet => s.addRow seg w.layout.pressureSlot inlet
        (q.evaluate (w.inletHead segment inlet (q.upwind inlet))).derivatives sign) s).Sized
          w.tree.size w.layout.size := by
    intro inlets sign
    induction inlets with
    | nil => intro s hs; exact hs
    | cons inlet rest ih => intro s hs; exact ih (hs.addRow ..)
  exact hrows _ _ ((hs.addResidual ..).addRow ..)

theorem residual_accelerated (hseg : seg < w.tree.size) {seg' eq' : Nat}
    (heq' : eq' < w.layout.size) :
    (w.accelerated q segment seg s).residual seg' eq'
      = if seg = seg' ∧ w.layout.pressureSlot = eq'
        then s.residual seg w.layout.pressureSlot
          - (w.acceleration segment seg q.upwind (q.statesFor 0)).re
        else s.residual seg' eq' := by
  have hrows : ∀ (inlets : List Nat) (sign : α) (s : BlockSystem α),
      (inlets.foldl (fun s inlet => s.addRow seg w.layout.pressureSlot inlet
        (q.evaluate (w.inletHead segment inlet (q.upwind inlet))).derivatives sign) s).residual
          seg' eq' = s.residual seg' eq' := by
    intro inlets sign
    induction inlets with
    | nil => intro s; rfl
    | cons inlet rest ih => intro s; rw [List.foldl_cons, ih, BlockSystem.residual_addRow]
  rw [accelerated, hrows, BlockSystem.residual_addRow, BlockSystem.addResidual,
    BlockSystem.residual_modifyResidual hs hseg w.layout.pressureSlot_lt_size heq', sub_eq_add_neg]

theorem jacobian_accelerated (hlength : q.slots.length = w.layout.size) (hseg : seg < w.tree.size)
    {c v : Nat} (hc : c < w.tree.size) (hv : v < w.layout.size) :
    (w.accelerated q segment seg s).jacobian seg w.layout.pressureSlot c v
      = s.jacobian seg w.layout.pressureSlot c v - w.accelerationSlope q segment seg c v := by
  have hslot := w.layout.pressureSlot_lt_size
  have hderivatives : ∀ term : States α → Dual α,
      (q.evaluate term).derivatives.length ≤ w.layout.size := fun term =>
    (hlength ▸ q.length_derivatives term).le
  -- the rows of the inlets, added to any system
  have hrows : ∀ (inlets : List Nat) (sign : α) {s : BlockSystem α},
      s.Sized w.tree.size w.layout.size → (∀ i ∈ inlets, i < w.tree.size) →
      (inlets.foldl (fun s inlet => s.addRow seg w.layout.pressureSlot inlet
        (q.evaluate (w.inletHead segment inlet (q.upwind inlet))).derivatives sign) s).jacobian
          seg w.layout.pressureSlot c v
        = s.jacobian seg w.layout.pressureSlot c v + sign * (inlets.map fun inlet => if inlet = c
            then (w.inletHead segment inlet (q.upwind inlet) (q.statesFor v)).eps else 0).sum := by
    intro inlets sign
    induction inlets with
    | nil => intro s _ _; simp
    | cons inlet rest ih =>
        intro s hs hinlets
        rw [List.foldl_cons, ih (hs.addRow ..) fun i hi => hinlets i (List.mem_cons_of_mem _ hi),
          BlockSystem.jacobian_addRow hs hseg hslot (hinlets inlet (List.mem_cons_self ..))
            (hderivatives _) hslot hc hv, List.map_cons, List.sum_cons,
          Profile.evaluate_derivatives _ (hlength ▸ hv)]
        simp only [true_and]
        split_ifs <;> ring
  rw [accelerated, accelerationSlope, hrows _ _ ((hs.addResidual ..).addRow ..) fun i hi => ?_,
    BlockSystem.jacobian_addRow (hs.addResidual ..) hseg hslot hseg (hderivatives _) hslot hc hv,
    BlockSystem.addResidual, BlockSystem.jacobian_modifyResidual,
    Profile.evaluate_derivatives _ (hlength ▸ hv)]
  · simp only [true_and]
    split_ifs <;> ring
  · exact SegmentTree.lt_size_of_outlet? (SegmentTree.mem_inlets.mp hi)

end Acceleration

/-! ## The equation of a segment -/

section Equation

variable [ExactScalar α] [Transcendental α]

/-- The pressure of a segment less what drops in it, before acceleration. -/
def equationTerm (w : SegmentedWell α) (segment : Segment α) (seg upwind : Nat) :
    States α → Dual α :=
  if segment.device.controlsInflow then fun states =>
    (states seg).pressure - deviceDrop segment seg upwind states
  else fun states =>
    (states seg).pressure - w.hydrostatic seg states - w.friction segment seg upwind states

/-- Whether acceleration counts for a segment: only along pipes, and only when it is to count. -/
def accelerates (w : SegmentedWell α) (segment : Segment α) : Bool :=
  w.settings.acceleration && !segment.device.controlsInflow

/-- The system after the equation of a segment through which something flows. -/
def openSystem (w : SegmentedWell α) (q : Profile α) (segment : Segment α) (seg outlet : Nat)
    (s : BlockSystem α) : BlockSystem α :=
  let inserted := w.insertEquation s seg outlet
    (q.evaluate (w.equationTerm segment seg (q.upwind seg)))
  if w.accelerates segment then w.accelerated q segment seg inserted else inserted

/-- What that equation records. -/
def openDrop (w : SegmentedWell α) (q : Profile α) (segment : Segment α) (seg : Nat)
    (d : Drop α) : Drop α :=
  if segment.device.controlsInflow then
    { d with friction := (deviceDrop segment seg (q.upwind seg) (q.statesFor 0)).re }
  else
    { hydrostatic := (w.hydrostatic seg (q.statesFor 0)).re
      friction := if w.settings.friction
        then (w.friction segment seg (q.upwind seg) (q.statesFor 0)).re else d.friction
      acceleration := if w.settings.acceleration
        then (w.acceleration segment seg q.upwind (q.statesFor 0)).re else d.acceleration }

variable {w : SegmentedWell α} {q : Profile α} {segment : Segment α} {seg outlet : Nat}

/-- A shut valve needs no profile: nothing flows through it. -/
theorem pressureEquation_shut (hbelow : w.belowTop seg = .ok (segment, outlet))
    (hshut : segment.device.isShut = true) (x : Assembly α) :
    w.pressureEquation seg x
      = (x.setSystem ((x.system.setResidual seg w.layout.pressureSlot
          (w.unknowns.totalRate seg)).setJacobian seg w.layout.pressureSlot seg
            Layout.rateSlot 1)).recordDrop seg fun d => { d with friction := 0 } := by
  have hdevice : segment.device.controlsInflow = true := by
    cases hd : segment.device with
    | pipe => rw [hd] at hshut; cases hshut
    | _ => rfl
  simp only [pressureEquation, deviceEquation, hbelow, bind, Except.bind, hdevice, hshut,
    if_true, Bool.not_true, Bool.false_eq_true, if_false]

/-- Any other segment has its equation written and its drops recorded, as the profile has it. -/
theorem pressureEquation_open (hbelow : w.belowTop seg = .ok (segment, outlet))
    (hopen : segment.device.isShut = false) (hq : w.current = .ok q)
    (hslots : 0 < q.slots.length) (x : Assembly α) :
    w.pressureEquation seg x
      = (x.setSystem (w.openSystem q segment seg outlet x.system)).recordDrop seg
          (w.openDrop q segment seg) := by
  cases hdevice : segment.device.controlsInflow with
  | true =>
      simp only [pressureEquation, deviceEquation, hbelow, bind, Except.bind, hdevice, hopen, hq,
        if_true, Bool.not_true, Bool.false_eq_true, if_false]
      rw [Profile.evaluate_value hslots]
      have hdrop : w.openDrop q segment seg = fun d =>
          { d with friction := (deviceDrop segment seg (q.upwind seg) (q.statesFor 0)).re } := by
        funext d
        rw [openDrop, if_pos hdevice]
      rw [hdrop]
      simp only [openSystem, equationTerm, accelerates, hdevice, if_true, Bool.not_true,
        Bool.and_false, Bool.false_eq_true, if_false]
  | false =>
      simp only [pressureEquation, pipeEquation, hbelow, bind, Except.bind, hdevice, hq,
        Bool.false_eq_true, if_false]
      rw [Profile.evaluate_value hslots, Profile.evaluate_value hslots]
      have hterm : w.equationTerm segment seg (q.upwind seg) = fun states =>
          (states seg).pressure - w.hydrostatic seg states
            - w.friction segment seg (q.upwind seg) states := by
        rw [equationTerm, hdevice, if_neg Bool.false_ne_true]
      rw [← hterm]
      cases hacc : w.settings.acceleration with
      | false =>
          have hdrop : w.openDrop q segment seg = fun d => { d with
              hydrostatic := (w.hydrostatic seg (q.statesFor 0)).re
              friction := if w.settings.friction
                then (w.friction segment seg (q.upwind seg) (q.statesFor 0)).re
                else d.friction } := by
            funext d
            rw [openDrop, hdevice, if_neg Bool.false_ne_true, hacc, if_neg Bool.false_ne_true]
          have hsystem : w.openSystem q segment seg outlet x.system = w.insertEquation x.system seg
              outlet (q.evaluate (w.equationTerm segment seg (q.upwind seg))) := by
            rw [openSystem, accelerates, hacc, Bool.false_and, if_neg Bool.false_ne_true]
          rw [hsystem, hdrop]
          exact recordDrop_map x seg _ _
      | true =>
          have hdrop : w.openDrop q segment seg = (fun d => { d with
              acceleration := (w.acceleration segment seg q.upwind (q.statesFor 0)).re }) ∘
              fun d => { d with
                hydrostatic := (w.hydrostatic seg (q.statesFor 0)).re
                friction := if w.settings.friction
                  then (w.friction segment seg (q.upwind seg) (q.statesFor 0)).re
                  else d.friction } := by
            funext d
            rw [openDrop, hdevice, if_neg Bool.false_ne_true, hacc, if_pos rfl]
            rfl
          have hsystem : w.openSystem q segment seg outlet x.system
              = w.accelerated q segment seg (w.insertEquation x.system seg outlet
                  (q.evaluate (w.equationTerm segment seg (q.upwind seg)))) := by
            rw [openSystem, accelerates, hacc, hdevice, Bool.true_and, Bool.not_false, if_pos rfl]
          rw [hsystem, hdrop, ← recordDrop_then]
          simp only [if_true, accelerationLoss_eq hbelow hq hslots]
          rfl

/-! ### What it writes -/

section Writes

variable {s : BlockSystem α} (hs : s.Sized w.tree.size w.layout.size)

include hs

theorem sized_openSystem :
    (w.openSystem q segment seg outlet s).Sized w.tree.size w.layout.size := by
  rw [openSystem]
  cases w.accelerates segment with
  | true => exact sized_accelerated (sized_insertEquation hs _)
  | false => exact sized_insertEquation hs _

/-- The residual of the equation is the value of its term less the pressure at the outlet and the
    acceleration loss, and no other residual changes. -/
theorem residual_openSystem (hslots : 0 < q.slots.length) (hseg : seg < w.tree.size)
    {seg' eq' : Nat} (heq' : eq' < w.layout.size) :
    (w.openSystem q segment seg outlet s).residual seg' eq'
      = if seg = seg' ∧ w.layout.pressureSlot = eq' then
          (w.equationTerm segment seg (q.upwind seg) (q.statesFor 0)).re - w.unknowns.pressure outlet
            - if w.accelerates segment
              then (w.acceleration segment seg q.upwind (q.statesFor 0)).re else 0
        else s.residual seg' eq' := by
  have hinserted : (w.insertEquation s seg outlet (q.evaluate
      (w.equationTerm segment seg (q.upwind seg)))).Sized w.tree.size w.layout.size :=
    sized_insertEquation hs _
  rw [openSystem]
  cases w.accelerates segment with
  | true =>
      simp only [if_true, residual_accelerated hinserted hseg heq',
        residual_insertEquation hs hseg _ heq',
        residual_insertEquation hs hseg _ w.layout.pressureSlot_lt_size,
        Profile.evaluate_value hslots, and_self]
      split_ifs <;> rfl
  | false =>
      simp only [Bool.false_eq_true, if_false, residual_insertEquation hs hseg _ heq',
        Profile.evaluate_value hslots, sub_zero]

/-- What the equation adds to its row of the Jacobian: the derivatives of its term in the columns of
    its segment, one subtracted at the pressure of the outlet, and the derivatives of the velocity
    heads in the columns of the segment and its inlets. -/
theorem jacobian_openSystem (hlength : q.slots.length = w.layout.size) (hseg : seg < w.tree.size)
    (houtlet : outlet < w.tree.size) {c v : Nat} (hc : c < w.tree.size) (hv : v < w.layout.size) :
    (w.openSystem q segment seg outlet s).jacobian seg w.layout.pressureSlot c v
      = s.jacobian seg w.layout.pressureSlot c v
        + (if seg = c then (w.equationTerm segment seg (q.upwind seg) (q.statesFor v)).eps else 0)
        - (if outlet = c then if w.layout.pressureSlot = v then 1 else 0 else 0)
        - if w.accelerates segment then w.accelerationSlope q segment seg c v else 0 := by
  have hderivatives := (q.length_derivatives
    (w.equationTerm segment seg (q.upwind seg))).trans hlength
  rw [openSystem]
  cases w.accelerates segment with
  | true =>
      simp only [if_true, jacobian_accelerated (sized_insertEquation hs _) hlength hseg hc hv,
        jacobian_insertEquation hs hseg houtlet hderivatives hc hv,
        Profile.evaluate_derivatives _ (hlength ▸ hv)]
  | false =>
      simp only [Bool.false_eq_true, if_false,
        jacobian_insertEquation hs hseg houtlet hderivatives hc hv,
        Profile.evaluate_derivatives _ (hlength ▸ hv), sub_zero]

end Writes

end Equation

end SegmentedWell

end ReservoirWells
