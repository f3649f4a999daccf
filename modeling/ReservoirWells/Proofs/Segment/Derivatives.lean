import ReservoirWells.Proofs.Segment.Runs
import ReservoirWells.Proofs.Segment.Seeding

/-! # Derivatives — every entry of a row is the derivative that it stands for

    The profile seeds an unknown in all segments at once, so the derivative of a term could be that
    with respect to several unknowns together.  It is not: a term has a derivative only in the
    columns of the segment that it belongs to (`TermOf.eps_solo`), and the row is put together of
    such terms.

    * `soloStates` — the states of all segments when a single unknown of one segment is seeded;
    * `SegmentedWell.wholeResidual` — the residual of a segment as one term;
    * `SegmentedWell.eps_wholeResidual` — its derivative with respect to a single unknown, term by
      term;
    * `SegmentedWell.pressureEquation_differentiates` — the row of the Jacobian holds these. -/

namespace ReservoirWells

variable {α : Type}

namespace SegmentTree.WellFormed

variable [ExactScalar α] {t : SegmentTree α} {i o : Nat}

/-- No segment drains into itself. -/
theorem outlet_ne (h : t.WellFormed) (ho : t.outlet? i = some o) : o ≠ i := by
  rintro rfl
  obtain ⟨s, below, hs, hbelow, hlt, _⟩ := h.outlet_segments ho
  cases hs.symm.trans hbelow
  exact lt_irrefl _ hlt

/-- Nor into a segment that drains into it. -/
theorem outlet_not_mem_inlets (h : t.WellFormed) (ho : t.outlet? i = some o) : o ∉ t.inlets i := by
  intro hmem
  obtain ⟨s, below, hs, hbelow, hlt, _⟩ := h.outlet_segments ho
  obtain ⟨s', below', hs', hbelow', hlt', _⟩ := h.outlet_segments (mem_inlets.mp hmem)
  cases hs.symm.trans hbelow'
  cases hbelow.symm.trans hs'
  exact lt_asymm hlt hlt'

end SegmentTree.WellFormed

/-! ## One unknown at a time -/

section Solo

variable [ExactScalar α] [Transcendental α]

/-- The states of all segments where unknown `v` of segment `c` is seeded. In every other segment
    the seed lies outside the layout, and nothing is differentiated. -/
def soloStates (t : SegmentTree α) (u : Unknowns α) (fluid : Fluid α) (c v : Nat) : States α :=
  fun i =>
    if i < t.size then
      match FlowState.compute fluid u i (if i = c then v else u.layout.size) with
      | .ok s => s
      | .error _ => .still
    else .still

variable {q : Profile α} {t : SegmentTree α} {u : Unknowns α} {fluid : Fluid α} {c v : Nat}
  (hof : q.IsOf t u fluid) (hc : c < t.size) (hv : v < u.layout.size)

include hof hv

theorem soloStates_self (hc : c < t.size) : soloStates t u fluid c v c = q.statesFor v c := by
  rw [soloStates, if_pos hc, if_pos rfl, hof.state_eq v hv c hc]

theorem soloStates_other {i : Nat} (hne : i ≠ c) :
    soloStates t u fluid c v i = (q.statesFor v i).forget := by
  rw [soloStates]
  rcases Nat.lt_or_ge i t.size with hi | hi
  · rw [if_pos hi, if_neg hne, hof.compute_plain hv hi]
  · rw [if_neg (Nat.not_lt.mpr hi), hof.still_eq v i hi hv, FlowState.forget_still]

/-- All of them can be computed when the profile can. -/
theorem compute_soloStates {i : Nat} (hi : i < t.size) :
    FlowState.compute fluid u i (if i = c then v else u.layout.size)
      = .ok (soloStates t u fluid c v i) := by
  by_cases hsame : i = c
  · subst hsame
    rw [if_pos rfl, soloStates_self hof hv hi, hof.state_eq v hv i hi]
  · rw [if_neg hsame, soloStates_other hof hv hsame, hof.compute_plain hv hi]

include hc

theorem forget_soloStates (i : Nat) :
    (soloStates t u fluid c v i).forget = (q.statesFor v i).forget := by
  by_cases hsame : i = c
  · subst hsame
    rw [soloStates_self hof hv hc]
  · rw [soloStates_other hof hv hsame, FlowState.forget_forget]

variable {seg : Nat} {term : States α → Dual α}

theorem TermOf.re_solo (h : TermOf seg term) :
    (term (soloStates t u fluid c v)).re = (term (q.statesFor 0)).re :=
  h.re_congr fun i => (forget_soloStates hof hc hv i).trans
    (hof.forget_statesFor hv u.layout.size_pos i)

/-- Seeding an unknown in all segments gives a term the derivative that it has with respect to the
    unknown of its own segment; with respect to those of the others it has none. -/
theorem TermOf.eps_solo (h : TermOf seg term) :
    (term (soloStates t u fluid c v)).eps
      = if seg = c then (term (q.statesFor v)).eps else 0 := by
  by_cases hsame : seg = c
  · -- the segment sees the same state of its own, and the same values of all others
    subst hsame
    rw [if_pos rfl, h.reads _ _ (soloStates_self hof hv hc) (forget_soloStates hof hc hv)]
  · rw [if_neg hsame]
    refine h.eps_eq_zero ?_
    rw [soloStates_other hof hv hsame, FlowState.forget_forget]

end Solo

/-! ## The whole residual -/

namespace SegmentedWell

section Whole

variable [ExactScalar α]

/-- Velocity heads that are subtracted one after the other are subtracted in sum, in their values as
    in their derivatives. -/
theorem foldl_sub (part : Dual α → α) (hpart : ∀ x y, part (x - y) = part x - part y)
    (heads : Nat → Dual α) (inlets : List Nat) (first : Dual α) :
    part (inlets.foldl (fun rest inlet => rest - heads inlet) first)
      = part first - (inlets.map fun inlet => part (heads inlet)).sum := by
  induction inlets generalizing first with
  | nil => simp
  | cons inlet rest ih =>
      rw [List.foldl_cons, ih, List.map_cons, List.sum_cons, hpart]
      ring

/-- Only the upwind segments of a segment and of its inlets matter for its acceleration loss. -/
theorem acceleration_congr (w : SegmentedWell α) (segment : Segment α) {seg : Nat}
    {upwind upwind' : Nat → Nat} (hseg : upwind seg = upwind' seg)
    (hinlets : ∀ inlet ∈ w.tree.inlets seg, upwind inlet = upwind' inlet) :
    w.acceleration segment seg upwind = w.acceleration segment seg upwind' := by
  funext states
  rw [acceleration, acceleration, hseg, List.foldl_ext _ _ _ fun rest inlet hinlet => by
    rw [hinlets inlet hinlet]]

variable [Transcendental α]

/-- The residual of a segment through which something can flow: its pressure less what drops in it
    and less the pressure at its outlet. What a term takes over from another segment enters as a
    value (`carriedState`). -/
def wholeResidual (w : SegmentedWell α) (segment : Segment α) (seg outlet : Nat)
    (states : States α) : Dual α :=
  let upwind := Profile.upwindOf w.tree w.unknowns
  w.equationTerm segment seg (upwind seg) states - (states outlet).pressure
    - if w.accelerates segment then w.acceleration segment seg upwind states else 0

/-- The equation before acceleration is a term of its segment. -/
theorem termOf_equationTerm (w : SegmentedWell α) (segment : Segment α) (seg upwind : Nat) :
    TermOf seg (w.equationTerm segment seg upwind) := by
  rw [equationTerm]
  cases segment.device.controlsInflow with
  | true => exact (TermOf.pressure seg).sub (TermOf.deviceDrop segment seg upwind)
  | false =>
      exact ((TermOf.pressure seg).sub (TermOf.hydrostatic w seg)).sub
        (TermOf.friction w segment seg upwind)

variable {w : SegmentedWell α} {q : Profile α} {fluid : Fluid α} {segment : Segment α}
  {seg outlet c v : Nat} (hof : q.IsOf w.tree w.unknowns fluid) (hc : c < w.tree.size)
  (hv : v < w.unknowns.layout.size)

include hof hc hv

theorem flowSign_solo :
    flowSign (soloStates w.tree w.unknowns fluid c v seg).massRate.re
      = flowSign (q.statesFor 0 seg).massRate.re := by
  have hsame : (soloStates w.tree w.unknowns fluid c v seg).forget = (q.statesFor 0 seg).forget :=
    (forget_soloStates hof hc hv seg).trans
      (hof.forget_statesFor hv w.unknowns.layout.size_pos seg)
  have hrate := congrArg (fun s => s.massRate.re) hsame
  exact congrArg flowSign hrate

/-- The derivative of the acceleration loss with respect to a single unknown. -/
theorem eps_acceleration :
    (w.acceleration segment seg q.upwind (soloStates w.tree w.unknowns fluid c v)).eps
      = w.accelerationSlope q segment seg c v := by
  have hheads : ∀ inlet, (w.inletHead segment inlet (q.upwind inlet)
      (soloStates w.tree w.unknowns fluid c v)).eps
        = if inlet = c then (w.inletHead segment inlet (q.upwind inlet) (q.statesFor v)).eps
          else 0 :=
    fun inlet => (TermOf.headOf _ inlet (q.upwind inlet)).eps_solo hof hc hv
  rw [acceleration, accelerationSlope, Dual.eps_mul_scalar, foldl_sub Dual.eps Dual.eps_sub,
    flowSign_solo hof hc hv, (TermOf.headOf segment.area seg (q.upwind seg)).eps_solo hof hc hv]
  simp only [hheads]

/-- And its value. -/
theorem re_acceleration :
    (w.acceleration segment seg q.upwind (soloStates w.tree w.unknowns fluid c v)).re
      = (w.acceleration segment seg q.upwind (q.statesFor 0)).re := by
  have hheads : ∀ inlet, (w.inletHead segment inlet (q.upwind inlet)
      (soloStates w.tree w.unknowns fluid c v)).re
        = (w.inletHead segment inlet (q.upwind inlet) (q.statesFor 0)).re :=
    fun inlet => (TermOf.headOf _ inlet (q.upwind inlet)).re_solo hof hc hv
  rw [acceleration, acceleration, Dual.re_mul_scalar, Dual.re_mul_scalar,
    foldl_sub Dual.re Dual.re_sub, foldl_sub Dual.re Dual.re_sub, flowSign_solo hof hc hv,
    (TermOf.headOf segment.area seg (q.upwind seg)).re_solo hof hc hv]
  simp only [hheads]

/-- The pressure of a segment has one derivative, with respect to itself. -/
theorem eps_pressure (houtlet : outlet < w.tree.size) :
    (soloStates w.tree w.unknowns fluid c v outlet).pressure.eps
      = if outlet = c then if w.layout.pressureSlot = v then 1 else 0 else 0 := by
  have hown : (q.statesFor v outlet).pressure.eps = if w.layout.pressureSlot = v then 1 else 0 := by
    rw [hof.pressure_eq hv houtlet]
    show (if w.layout.pressureSlot == v then 1 else 0 : α) = _
    simp only [beq_iff_eq]
  rw [← hown]
  exact (TermOf.pressure outlet).eps_solo hof hc hv

theorem re_pressure (houtlet : outlet < w.tree.size) :
    (soloStates w.tree w.unknowns fluid c v outlet).pressure.re = w.unknowns.pressure outlet := by
  have hown : (q.statesFor 0 outlet).pressure.re = w.unknowns.pressure outlet := by
    rw [hof.pressure_eq w.unknowns.layout.size_pos houtlet]
    rfl
  rw [← hown]
  exact (TermOf.pressure outlet).re_solo hof hc hv

omit hc hv in
/-- The profile has the same upwind segments. -/
theorem wholeResidual_eq (hseg : seg < w.tree.size) (states : States α) :
    w.wholeResidual segment seg outlet states
      = w.equationTerm segment seg (q.upwind seg) states - (states outlet).pressure
        - if w.accelerates segment then w.acceleration segment seg q.upwind states else 0 := by
  have hinlets : ∀ inlet ∈ w.tree.inlets seg,
      q.upwind inlet = Profile.upwindOf w.tree w.unknowns inlet := by
    intro inlet hinlet
    exact hof.upwind_eq inlet (SegmentTree.lt_size_of_outlet? (SegmentTree.mem_inlets.mp hinlet))
  rw [wholeResidual, ← w.acceleration_congr segment (hof.upwind_eq seg hseg) hinlets,
    hof.upwind_eq seg hseg]

/-- The derivative of the whole residual with respect to a single unknown, term by term. -/
theorem eps_wholeResidual (hseg : seg < w.tree.size) (houtlet : outlet < w.tree.size) :
    (w.wholeResidual segment seg outlet (soloStates w.tree w.unknowns fluid c v)).eps
      = (if seg = c then (w.equationTerm segment seg (q.upwind seg) (q.statesFor v)).eps else 0)
        - (if outlet = c then if w.layout.pressureSlot = v then 1 else 0 else 0)
        - if w.accelerates segment then w.accelerationSlope q segment seg c v else 0 := by
  have hterm := (w.termOf_equationTerm segment seg (q.upwind seg)).eps_solo hof hc hv
  rw [wholeResidual_eq hof hseg, Dual.eps_sub, Dual.eps_sub, hterm, eps_pressure hof hc hv houtlet,
    apply_ite Dual.eps, eps_acceleration hof hc hv, Dual.eps_zero]

/-- Its value is the same for every unknown. -/
theorem re_wholeResidual (hseg : seg < w.tree.size) (houtlet : outlet < w.tree.size) :
    (w.wholeResidual segment seg outlet (soloStates w.tree w.unknowns fluid c v)).re
      = (w.equationTerm segment seg (q.upwind seg) (q.statesFor 0)).re
        - w.unknowns.pressure outlet
        - if w.accelerates segment
          then (w.acceleration segment seg q.upwind (q.statesFor 0)).re else 0 := by
  have hterm := (w.termOf_equationTerm segment seg (q.upwind seg)).re_solo hof hc hv
  rw [wholeResidual_eq hof hseg, Dual.re_sub, Dual.re_sub, hterm, re_pressure hof hc hv houtlet,
    apply_ite Dual.re, re_acceleration hof hc hv, Dual.re_zero]

end Whole

/-! ## The row of a segment -/

section Row

variable [ExactScalar α] [Transcendental α]

/-- The pressure row of a segment in a system holds the whole residual of the segment and its
    derivatives, one unknown at a time. -/
structure RowOf (w : SegmentedWell α) (fluid : Fluid α) (segment : Segment α) (seg outlet : Nat)
    (s : BlockSystem α) : Prop where
  /-- All states with a single seed can be computed. -/
  computed : ∀ c < w.tree.size, ∀ v < w.layout.size, ∀ i < w.tree.size,
    FlowState.compute fluid w.unknowns i (if i = c then v else w.layout.size)
      = .ok (soloStates w.tree w.unknowns fluid c v i)
  value : ∀ c < w.tree.size, ∀ v < w.layout.size, s.residual seg w.layout.pressureSlot
    = (w.wholeResidual segment seg outlet (soloStates w.tree w.unknowns fluid c v)).re
  derivative : ∀ c < w.tree.size, ∀ v < w.layout.size, s.jacobian seg w.layout.pressureSlot c v
    = (w.wholeResidual segment seg outlet (soloStates w.tree w.unknowns fluid c v)).eps
  outlet_block : ∀ v < w.layout.size, s.jacobian seg w.layout.pressureSlot outlet v
    = if v = w.layout.pressureSlot then -1 else 0
  /-- Inlets have a block where acceleration counts. -/
  other_blocks : ∀ c < w.tree.size, c ≠ seg → c ≠ outlet →
    (w.accelerates segment = true → c ∉ w.tree.inlets seg) →
    ∀ v < w.layout.size, s.jacobian seg w.layout.pressureSlot c v = 0

variable {w : SegmentedWell α} {q : Profile α} {fluid : Fluid α} {segment : Segment α}
  {seg outlet : Nat} {s : BlockSystem α}

/-- An equation written into an empty row. -/
theorem rowOf_openSystem (hwell : w.tree.WellFormed) (hof : q.IsOf w.tree w.unknowns fluid)
    (ho : w.tree.outlet? seg = some outlet) (hs : s.Sized w.tree.size w.layout.size)
    (hempty : ∀ c v, s.jacobian seg w.layout.pressureSlot c v = 0) :
    RowOf w fluid segment seg outlet (w.openSystem q segment seg outlet s) := by
  have hseg := SegmentTree.lt_size_of_outlet? ho
  obtain ⟨_, _, _, hbelow, _⟩ := hwell.outlet_segments ho
  have houtlet := SegmentTree.lt_size_of_segment? hbelow
  -- without a velocity head in the row, a segment has no block but as the outlet
  have hfar : ∀ c < w.tree.size, c ≠ seg →
      (w.accelerates segment = true → c ∉ w.tree.inlets seg) → ∀ v < w.layout.size,
      (w.openSystem q segment seg outlet s).jacobian seg w.layout.pressureSlot c v
        = -if outlet = c then if w.layout.pressureSlot = v then 1 else 0 else 0 := by
    intro c hc hself hinlets v hv
    rw [jacobian_openSystem hs hof.slots_length hseg houtlet hc hv, hempty, if_neg hself.symm]
    cases hacc : w.accelerates segment with
    | true =>
        rw [if_pos rfl, w.accelerationSlope_eq_zero q segment hself.symm (hinlets hacc)]
        ring
    | false =>
        rw [if_neg Bool.false_ne_true]
        ring
  refine ⟨fun c _ v hv i hi => compute_soloStates hof hv hi, fun c hc v hv => ?_,
    fun c hc v hv => ?_, fun v hv => ?_, fun c hc hself hother hinlets v hv => ?_⟩
  · rw [residual_openSystem hs hof.slots_pos hseg w.layout.pressureSlot_lt_size,
      if_pos ⟨rfl, rfl⟩, re_wholeResidual hof hc hv hseg houtlet]
  · rw [jacobian_openSystem hs hof.slots_length hseg houtlet hc hv, hempty, zero_add,
      eps_wholeResidual hof hc hv hseg houtlet]
  · rw [hfar outlet houtlet (hwell.outlet_ne ho) (fun _ => hwell.outlet_not_mem_inlets ho) v hv,
      if_pos rfl]
    by_cases hslot : w.layout.pressureSlot = v
    · rw [if_pos hslot, if_pos hslot.symm]
    · rw [if_neg hslot, if_neg (Ne.symm hslot)]
      exact neg_zero (G := α)
  · rw [hfar c hc hself hinlets v hv, if_neg hother.symm]
    exact neg_zero (G := α)

/-- Where there is a drop to record, the equation is assembled into the well. -/
theorem assemble_pressureEquation {record : WellRecord α}
    (hbelow : w.belowTop seg = .ok (segment, outlet)) (hopen : segment.device.isShut = false)
    (hq : w.profile = some q) (hslots : 0 < q.slots.length) (hdrop : seg < record.drops.length) :
    w.assemble record (w.pressureEquation seg)
      = .ok ({ w with system := w.openSystem q segment seg outlet w.system },
        { record with drops := record.drops.modify seg (w.openDrop q segment seg) }) := by
  rw [assemble, pressureEquation_open hbelow hopen (current_eq_ok.mpr hq) hslots,
    Assembly.recordDrop, Assembly.setSystem, if_pos hdrop]
  rfl

/-- Take any well that is made of a list of segments, after any run. Once its system was cleared and
    its profile computed, the equation of every pipe and every open device below the top can be
    assembled, and its row holds the whole residual of the segment and its derivatives. -/
theorem pressureEquation_differentiates {all : List (Segment α)} {tree : SegmentTree α}
    (htree : SegmentTree.ofList all = .ok tree) (name : String) (phases : ActivePhases)
    (settings : Settings α) {start : WellRecord α} (hstart : start.drops.length = tree.size)
    (calls : List (WellCall α)) {w w' : SegmentedWell α} {record : WellRecord α}
    (hrun : WellCall.runAll (make name tree phases settings, start) calls = (w, record))
    {fluid : Fluid α}
    (hcompute : compute { w with system := w.system.clear } fluid = .ok w') {seg : Nat}
    {segment : Segment α} (hpos : 0 < seg) (hsegment : tree.segment? seg = some segment)
    (hopen : segment.device.isShut = false) :
    ∃ outlet after record', tree.outlet? seg = some outlet ∧
      w'.assemble record (w'.pressureEquation seg) = .ok (after, record') ∧
      RowOf w' fluid segment seg outlet after.system := by
  have hsound : Sound tree phases settings (w, record) := by
    rw [← hrun]
    exact (sound_make name hstart).runAll calls
  obtain rfl : w.tree = tree := hsound.tree_eq
  have hwell := (SegmentTree.wellFormed_of_ofList htree).1
  have hlt := SegmentTree.lt_size_of_segment? hsegment
  obtain ⟨r, hr⟩ := SegmentTree.exists_reach hpos hlt
  have ho : w.tree.outlet? seg = some r.outlet := SegmentTree.outlet?_eq_some.mpr ⟨r, hr, rfl⟩
  rw [compute] at hcompute
  split at hcompute
  · rename_i q hq
    cases hcompute
    have hof : q.IsOf w.tree w.unknowns fluid := Profile.isOf_of_compute hq
    have hdrop : seg < record.drops.length := hsound.drops_length ▸ hlt
    -- the row is empty before, so what is read there is what this equation wrote
    exact ⟨r.outlet, _, _, ho,
      assemble_pressureEquation (belowTop_eq_ok.mpr ⟨hsegment, ho⟩) hopen rfl hof.slots_pos hdrop,
      rowOf_openSystem hwell hof ho hsound.system_sized.clear fun c v =>
        BlockSystem.jacobian_clear ..⟩
  · cases hcompute

end Row

/-- Production through one of the two inlets of segment number two, injection through the other. -/
def crossFlow : List (WellCall ℚ) :=
  [.edit 0 [[-3 / 100, 100000], [-1 / 100, 443500], [-2 / 100, 329000], [1 / 100, 381500]]]

/-- The row of segment number two, with the rate of an inlet in it. -/
theorem pressureEquation_differentiates_crossFlow : ∃ w record w' after record',
    WellCall.runAll WellCall.sideBranch crossFlow = (w, record) ∧
      compute { w with system := w.system.clear } WellCall.brine = .ok w' ∧
      w'.assemble record (w'.pressureEquation 2) = .ok (after, record') ∧
      RowOf w' WellCall.brine (SegmentTree.sideBranch.pipe 2 (some 1) 1010 1020) 2 0
        after.system ∧
      after.system.jacobian 2 1 1 0 = -100000 := by
  have hentry : let x := WellCall.runAll WellCall.sideBranch crossFlow
      (compute { x.1 with system := x.1.system.clear } WellCall.brine >>= fun w' =>
        (w'.assemble x.2 (w'.pressureEquation 2)).map fun y => y.1.system.jacobian 2 1 1 0)
          = .ok (-100000) := by decide +kernel
  rcases hx : WellCall.runAll WellCall.sideBranch crossFlow with ⟨w, record⟩
  simp only [hx] at hentry
  obtain ⟨w', hw', hassemble⟩ := bind_eq_ok.mp hentry
  have htree : SegmentTree.ofList SegmentTree.sideBranch.segments = .ok SegmentTree.sideBranch := by
    decide +kernel
  obtain ⟨outlet, after, record', ho, hafter, hrow⟩ :=
    pressureEquation_differentiates htree "B" _ _ rfl crossFlow hx hw' (by decide : 0 < 2) rfl rfl
  cases ho
  rw [hafter] at hassemble
  exact ⟨w, record, w', after, record', rfl, hw', hafter, hrow, Except.ok.inj hassemble⟩

end SegmentedWell

end ReservoirWells
