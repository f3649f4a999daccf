import Mathlib.Algebra.BigOperators.Group.Finset.Sigma
import Mathlib.Algebra.BigOperators.Ring.Finset
import ReservoirWells.Proofs.Segment.Iterations

/-! # Newton — the linear system of a hydrostatic well is exact

    Without friction and acceleration and with constant properties, every pressure equation is
    linear in the unknowns of the whole well.  Then the Jacobian is the same everywhere, and it says
    exactly how the residuals change, however far the unknowns move.

    * `Dual.ExactStep` — a term that moves along its derivatives, closed under sums, differences and
      mixtures of constant properties;
    * `Unknowns.Moved` — unknowns that move, and with them the fractions, the implied one against the
      others;
    * `SegmentedWell.exactStep_wholeResidual` — the residual of a pipe moves along its derivatives;
    * `SegmentedWell.Linearized.exact_row` — so does every row of the pressure along the Jacobian;
    * `SegmentedWell.linearize_exact` — hence the linear system of one iteration gives the residuals
      of any other. -/

namespace ReservoirWells

variable {α : Type}

/-! ## Terms that move along their derivatives -/

namespace Dual

variable [ExactScalar α] {ι : Type}

/-- A term before and after a step in all unknowns, differentiated with respect to each of them: the
    derivatives stay, and the value moves along them. -/
structure ExactStep (unknowns : Finset ι) (step : ι → α) (f f' : ι → Dual α) : Prop where
  slope : ∀ k ∈ unknowns, (f' k).eps = (f k).eps
  value : ∀ k ∈ unknowns, (f' k).re = (f k).re + ∑ i ∈ unknowns, (f i).eps * step i

namespace ExactStep

variable {unknowns : Finset ι} {step : ι → α} {f f' g g' : ι → Dual α}

theorem const (c : α) : ExactStep unknowns step (fun _ => .const c) fun _ => .const c where
  slope := fun _ _ => rfl
  value := by
    intro k _
    simp only [eps_const, zero_mul, Finset.sum_const_zero, add_zero]

theorem add (hf : ExactStep unknowns step f f') (hg : ExactStep unknowns step g g') :
    ExactStep unknowns step (fun k => f k + g k) fun k => f' k + g' k where
  slope := by
    intro k hk
    rw [eps_add, eps_add, hf.slope k hk, hg.slope k hk]
  value := by
    intro k hk
    simp only [re_add, eps_add, add_mul, Finset.sum_add_distrib]
    rw [hf.value k hk, hg.value k hk, add_add_add_comm]

theorem sub (hf : ExactStep unknowns step f f') (hg : ExactStep unknowns step g g') :
    ExactStep unknowns step (fun k => f k - g k) fun k => f' k - g' k where
  slope := by
    intro k hk
    rw [eps_sub, eps_sub, hf.slope k hk, hg.slope k hk]
  value := by
    intro k hk
    simp only [re_sub, eps_sub, sub_mul, Finset.sum_sub_distrib]
    rw [hf.value k hk, hg.value k hk, add_sub_add_comm]

theorem mul_scalar (hf : ExactStep unknowns step f f') (c : α) :
    ExactStep unknowns step (fun k => f k * c) fun k => f' k * c where
  slope := by
    intro k hk
    rw [eps_mul_scalar, eps_mul_scalar, hf.slope k hk]
  value := by
    intro k hk
    simp only [re_mul_scalar, eps_mul_scalar, mul_right_comm _ c, ← Finset.sum_mul]
    rw [hf.value k hk, add_mul]

/-- A factor without derivative is a scalar. -/
theorem mul_plain (hf : ExactStep unknowns step f f') {y : Dual α} (hy : y.eps = 0) :
    ExactStep unknowns step (fun k => f k * y) fun k => f' k * y := by
  have hscalar : ∀ x : Dual α, x * y = x * y.re := by
    intro x
    show (⟨x.re * y.re, x.eps * y.re + y.eps * x.re⟩ : Dual α) = ⟨x.re * y.re, x.eps * y.re⟩
    rw [hy, zero_mul, add_zero]
  simp only [hscalar]
  exact hf.mul_scalar y.re

/-- Properties without derivatives, weighted by fractions that move along theirs. -/
theorem mixture {F F' : ι → PerPhase (Dual α)}
    (hF : ∀ p, ExactStep unknowns step (fun k => (F k).get p) fun k => (F' k).get p)
    (properties : List (Phase × Dual α × Dual α)) (hplain : ∀ y ∈ properties, y.2.1.eps = 0)
    (hf : ExactStep unknowns step f f') :
    ExactStep unknowns step
      (fun k => properties.foldl (fun sum y => sum + (F k).get y.1 * y.2.1) (f k))
      fun k => properties.foldl (fun sum y => sum + (F' k).get y.1 * y.2.1) (f' k) := by
  induction properties generalizing f f' with
  | nil => exact hf
  | cons y rest ih =>
      obtain ⟨hy, hrest⟩ := List.forall_mem_cons.mp hplain
      exact ih hrest (hf.add ((hF y.1).mul_plain hy))

end ExactStep

end Dual

/-! ## Unknowns that move -/

namespace Unknowns

section Moving

variable [ExactScalar α]

/-- The second values are the first and a step. Layouts are the same. -/
structure Moved (m : Nat) (d : Nat → Nat → α) (u u' : Unknowns α) : Prop where
  layout_eq : u'.layout = u.layout
  value_eq : ∀ i < m, ∀ slot < u.layout.size, u'.value i slot = u.value i slot + d i slot

/-- Values and the same values with a step. -/
theorem moved_rowsOf {m : Nat} {l : Layout} (values step : Nat → Nat → α) :
    (Unknowns.mk l (Unknowns.rowsOf m l.size values)).Moved m step
      ⟨l, Unknowns.rowsOf m l.size fun i slot => values i slot + step i slot⟩ where
  layout_eq := rfl
  value_eq := by
    intro i hi slot hslot
    rw [Unknowns.value_rowsOf _ hi hslot, Unknowns.value_rowsOf _ hi hslot]

variable {m : Nat} {d : Nat → Nat → α} {u u' : Unknowns α} (h : Moved m d u u') {i : Nat}
  (hi : i < m)

include h hi

/-- An unknown moves by its own step. -/
theorem Moved.seeded {slot : Nat} (hslot : slot < u.layout.size) :
    Dual.ExactStep (addresses m u.layout.size) (fun k => d k.1 k.2)
      (fun k => u.seeded i (seedFor u.layout i k) slot)
      fun k => u'.seeded i (seedFor u.layout i k) slot where
  slope := fun _ _ => rfl
  value := by
    intro k _
    have hown : (i, slot) ∈ addresses m u.layout.size := mem_addresses.mpr ⟨hi, hslot⟩
    show u'.value i slot = u.value i slot + _
    rw [h.value_eq i hi slot hslot, Finset.sum_eq_single_of_mem (i, slot) hown]
    · rw [u.eps_seeded hslot, if_pos ⟨rfl, rfl⟩, one_mul]
    · intro k' _ hne
      rw [u.eps_seeded hslot, if_neg, zero_mul]
      rintro ⟨rfl, rfl⟩
      exact hne rfl

theorem Moved.pressure : Dual.ExactStep (addresses m u.layout.size) (fun k => d k.1 k.2)
    (fun k => (u.seed i (seedFor u.layout i k)).pressure)
    fun k => (u'.seed i (seedFor u.layout i k)).pressure := by
  simp only [seed_eq, h.layout_eq]
  exact h.seeded hi u.layout.pressureSlot_lt_size

theorem Moved.fraction {slot? : Option Nat}
    (hslot : ∀ slot, slot? = some slot → slot < u.layout.size) :
    Dual.ExactStep (addresses m u.layout.size) (fun k => d k.1 k.2)
      (fun k => u.fraction i (seedFor u.layout i k) slot?)
      fun k => u'.fraction i (seedFor u.layout i k) slot? := by
  cases slot? with
  | none => exact .const 0
  | some slot => exact h.seeded hi (hslot slot rfl)

/-- The fractions move along their derivatives, that of the implied phase against those of the
    others. -/
theorem Moved.fractions (p : Phase) :
    Dual.ExactStep (addresses m u.layout.size) (fun k => d k.1 k.2)
      (fun k => (u.seed i (seedFor u.layout i k)).fractions.get p)
      fun k => (u'.seed i (seedFor u.layout i k)).fractions.get p := by
  have hwater := h.fraction hi fun _ => u.layout.waterSlot?_lt_size
  have hgas := h.fraction hi fun _ => u.layout.gasSlot?_lt_size
  simp only [seed_eq, h.layout_eq, PerPhase.get_set]
  by_cases hp : u.layout.impliedPhase = p
  · simp only [hp, if_true]
    exact ((Dual.ExactStep.const 1).sub hwater).sub hgas
  · simp only [hp, if_false]
    cases p with
    | water => exact hwater
    | oil => exact .const 0
    | gas => exact hgas

end Moving

end Unknowns

/-! ## The residual of a pipe -/

section Hydrostatic

variable [ExactScalar α] [Transcendental α]

/-- Constant properties are the same at every pressure, and they have no derivatives. -/
theorem FlowState.propertiesAt_constant {fluid : PerPhase (Option (ConstantPhase α))}
    {phases : List Phase} (hfluid : ∀ p ∈ phases, (fluid.get p).isSome = true) :
    ∃ properties, (∀ y ∈ properties, y.2.1.eps = 0) ∧
      ∀ pressure, propertiesAt (.constant fluid) phases pressure = .ok properties := by
  have hphase : ∀ p ∈ phases, ∃ b, fluid.get p = some b := fun p hp =>
    Option.isSome_iff_exists.mp (hfluid p hp)
  obtain ⟨properties, hproperties⟩ : ∃ properties,
      propertiesAt (.constant fluid) phases (0 : Dual α) = .ok properties := by
    refine mapM_ok_iff.mpr fun p hp => ?_
    obtain ⟨b, hb⟩ := hphase p hp
    refine ⟨(p, .const b.density, .const b.viscosity), ?_⟩
    simp only [Fluid.density, Fluid.viscosity, Fluid.parameters, hb]
    rfl
  refine ⟨properties, forall_of_mapM ?_ hproperties, fun _ => hproperties⟩
  intro p hp y hy
  obtain ⟨b, hb⟩ := hphase p hp
  simp only [Fluid.density, Fluid.viscosity, Fluid.parameters, hb] at hy
  cases hy
  rfl

/-- So a profile can always be computed. -/
theorem Profile.exists_compute_constant (t : SegmentTree α) {u : Unknowns α}
    {fluid : PerPhase (Option (ConstantPhase α))}
    (hfluid : ∀ p ∈ u.layout.phases.toList, (fluid.get p).isSome = true) :
    ∃ q, compute t u (.constant fluid) = .ok q := by
  obtain ⟨properties, _, hproperties⟩ := FlowState.propertiesAt_constant hfluid
  have hstates : ∀ chosen, ∃ states, ((List.range t.size).mapM fun seg =>
      FlowState.compute (.constant fluid) u seg chosen) = .ok states := by
    intro chosen
    refine mapM_ok_iff.mpr fun seg _ => ?_
    rw [FlowState.compute_eq, hproperties]
    exact ⟨_, rfl⟩
  obtain ⟨slots, hslots⟩ := mapM_ok_iff.mpr fun chosen (_ : chosen ∈ List.range u.layout.size) =>
    hstates chosen
  exact ⟨_, bind_eq_ok.mpr ⟨slots, hslots, rfl⟩⟩

/-- The state of a segment when the properties are the same at every pressure. -/
theorem soloStates_eq {t : SegmentTree α} {u : Unknowns α} {fluid : Fluid α}
    {properties : List (Phase × Dual α × Dual α)}
    (hproperties : ∀ pressure,
      FlowState.propertiesAt fluid u.layout.phases.toList pressure = .ok properties)
    {i : Nat} (hi : i < t.size) (k : Nat × Nat) :
    soloStates t u fluid k.1 k.2 i
      = .ofProperties (u.seed i (Unknowns.seedFor u.layout i k)) properties := by
  rw [soloStates, if_pos hi, FlowState.compute_eq, hproperties]
  rfl

namespace SegmentedWell

variable {w w' : SegmentedWell α} {segment : Segment α} {seg outlet : Nat}

/-- Along a pipe without friction and acceleration there is only the weight of the column. -/
theorem wholeResidual_hydrostatic (hpipe : segment.device = .pipe)
    (hfriction : w.settings.friction = false) (hacceleration : w.settings.acceleration = false)
    (states : States α) : w.wholeResidual segment seg outlet states
      = (states seg).pressure
        - (states seg).density * (w.settings.gravity * w.tree.depthBelowOutlet seg)
        - 0 - (states outlet).pressure - 0 := by
  have hdevice : segment.device.controlsInflow = false := by
    rw [hpipe]
    rfl
  have hloss : ∀ upwind, w.friction segment seg upwind states = 0 := by
    intro upwind
    rw [friction, hfriction, if_neg Bool.false_ne_true]
  rw [wholeResidual, equationTerm, accelerates, hdevice, hacceleration, Bool.false_and,
    if_neg Bool.false_ne_true, if_neg Bool.false_ne_true, hloss]
  rfl

/-- So with constant properties the residual of the segment moves along its derivatives. -/
theorem exactStep_wholeResidual {d : Nat → Nat → α} (htree : w'.tree = w.tree)
    (hsettings : w'.settings = w.settings)
    (hmoved : w.unknowns.Moved w.tree.size d w'.unknowns) (hpipe : segment.device = .pipe)
    (hfriction : w.settings.friction = false) (hacceleration : w.settings.acceleration = false)
    {fluid : PerPhase (Option (ConstantPhase α))}
    (hfluid : ∀ p ∈ w.layout.phases.toList, (fluid.get p).isSome = true)
    (hseg : seg < w.tree.size) (houtlet : outlet < w.tree.size) :
    Dual.ExactStep (addresses w.tree.size w.layout.size) (fun k => d k.1 k.2)
      (fun k => w.wholeResidual segment seg outlet
        (soloStates w.tree w.unknowns (.constant fluid) k.1 k.2))
      fun k => w'.wholeResidual segment seg outlet
        (soloStates w'.tree w'.unknowns (.constant fluid) k.1 k.2) := by
  obtain ⟨properties, hplain, hproperties⟩ := FlowState.propertiesAt_constant hfluid
  have hstates : ∀ {i}, i < w.tree.size → ∀ k,
      soloStates w.tree w.unknowns (.constant fluid) k.1 k.2 i
        = .ofProperties (w.unknowns.seed i (Unknowns.seedFor w.layout i k)) properties :=
    fun hi k => soloStates_eq hproperties hi k
  have hstates' : ∀ {i}, i < w.tree.size → ∀ k,
      soloStates w.tree w'.unknowns (.constant fluid) k.1 k.2 i
        = .ofProperties (w'.unknowns.seed i (Unknowns.seedFor w.layout i k)) properties := by
    intro i hi k
    rw [soloStates_eq (by rwa [hmoved.layout_eq]) hi, hmoved.layout_eq]
    rfl
  simp only [wholeResidual_hydrostatic hpipe hfriction hacceleration,
    wholeResidual_hydrostatic (w := w') hpipe (hsettings ▸ hfriction) (hsettings ▸ hacceleration),
    htree, hsettings, hstates hseg, hstates houtlet, hstates' hseg, hstates' houtlet]
  have hdensity := Dual.ExactStep.mixture (fun p => hmoved.fractions hseg p) properties hplain
    (.const 0)
  exact ((((hmoved.pressure hseg).sub (hdensity.mul_scalar _)).sub (.const 0)).sub
    (hmoved.pressure houtlet)).sub (.const 0)

end SegmentedWell

end Hydrostatic

/-! ## Rows -/

section Rows

variable [ExactScalar α]

/-- Where the term moves along its derivatives, so does the residual along the row. -/
theorem BlockSystem.HoldsTerm.exact {m n r e : Nat} {d : Nat → Nat → α} {f f' : Nat × Nat → Dual α}
    {s s' : BlockSystem α} (h : HoldsTerm m n r e f s) (h' : HoldsTerm m n r e f' s')
    (hstep : Dual.ExactStep (addresses m n) (fun k => d k.1 k.2) f f') (hm : 0 < m) (hn : 0 < n) :
    (∀ c < m, ∀ v < n, s'.jacobian r e c v = s.jacobian r e c v) ∧
      s'.residual r e = s.residual r e
        + ∑ c ∈ Finset.range m, ∑ v ∈ Finset.range n, s.jacobian r e c v * d c v := by
  constructor
  · intro c hc v hv
    have hk : (c, v) ∈ addresses m n := mem_addresses.mpr ⟨hc, hv⟩
    rw [h'.derivative (c, v) hk, h.derivative (c, v) hk, hstep.slope (c, v) hk]
  · have hk : (0, 0) ∈ addresses m n := mem_addresses.mpr ⟨hm, hn⟩
    have hsum : ∑ k ∈ addresses m n, (f k).eps * d k.1 k.2
        = ∑ c ∈ Finset.range m, ∑ v ∈ Finset.range n, s.jacobian r e c v * d c v := by
      rw [addresses, Finset.sum_product]
      refine Finset.sum_congr rfl fun c hc => Finset.sum_congr rfl fun v hv => ?_
      rw [h.derivative (c, v) (Finset.mem_product.mpr ⟨hc, hv⟩)]
    rw [h'.value (0, 0) hk, h.value (0, 0) hk, hstep.value (0, 0) hk, hsum]

namespace SegmentedWell

theorem exactStep_controlTerm {w w' : SegmentedWell α} {d : Nat → Nat → α}
    (hmoved : w.unknowns.Moved w.tree.size d w'.unknowns) (hsize : 0 < w.tree.size)
    (target : ControlTarget α) :
    Dual.ExactStep (addresses w.tree.size w.layout.size) (fun k => d k.1 k.2)
      (w.controlTerm target) (w'.controlTerm target) := by
  have hlayout : w'.layout = w.layout := hmoved.layout_eq
  have hcontrolled := hmoved.seeded hsize (target.slot_lt_size w.layout)
  unfold controlTerm
  rw [hlayout]
  exact hcontrolled.sub (.const target.amount)

variable [Transcendental α]

/-- In the linear systems of a hydrostatic well at two places, the row of every segment moves along
    its derivatives. -/
theorem Linearized.exact_row {w w' : SegmentedWell α} {step : Nat → Nat → α}
    {fluid : PerPhase (Option (ConstantPhase α))} {target : ControlTarget α}
    (h : Linearized (.constant fluid) target w) (h' : Linearized (.constant fluid) target w')
    (htree : w'.tree = w.tree) (hsettings : w'.settings = w.settings)
    (hmoved : w.unknowns.Moved w.tree.size step w'.unknowns) (hwell : w.tree.WellFormed)
    (hpipes : ∀ segment ∈ w.tree.segments, segment.device = .pipe)
    (hfriction : w.settings.friction = false) (hacceleration : w.settings.acceleration = false)
    (hfluid : ∀ p ∈ w.layout.phases.toList, (fluid.get p).isSome = true) {r : Nat}
    (hr : r < w.tree.size) :
    (∀ c < w.tree.size, ∀ v < w.layout.size,
      w'.system.jacobian r w.layout.pressureSlot c v
        = w.system.jacobian r w.layout.pressureSlot c v) ∧
    w'.system.residual r w.layout.pressureSlot = w.system.residual r w.layout.pressureSlot
      + ∑ c ∈ Finset.range w.tree.size, ∑ v ∈ Finset.range w.layout.size,
          w.system.jacobian r w.layout.pressureSlot c v * step c v := by
  have hlayout : w'.layout = w.layout := hmoved.layout_eq
  have hsize : 0 < w.tree.size := Nat.zero_lt_of_lt hr
  rcases Nat.eq_zero_or_pos r with rfl | hpos
  · have hcontrol := h'.control_row
    rw [htree, hlayout] at hcontrol
    exact h.control_row.exact hcontrol (exactStep_controlTerm hmoved hsize target) hsize
      w.layout.size_pos
  · obtain ⟨reach, hreach⟩ := SegmentTree.exists_reach hpos hr
    have hsegment := SegmentTree.segment?_of_reach? hreach
    have houtlet : w.tree.outlet? r = some reach.outlet :=
      SegmentTree.outlet?_eq_some.mpr ⟨reach, hreach, rfl⟩
    obtain ⟨_, _, _, hbelow, _⟩ := hwell.outlet_segments houtlet
    have hrow := h.pressure_rows (belowTop_eq_ok.mpr ⟨hsegment, houtlet⟩)
    have hrow' := h'.pressure_rows (belowTop_eq_ok.mpr ⟨htree ▸ hsegment, htree ▸ houtlet⟩)
    have hstep := exactStep_wholeResidual htree hsettings hmoved
      (hpipes _ (List.mem_of_getElem? hsegment)) hfriction hacceleration hfluid hr
      (SegmentTree.lt_size_of_segment? hbelow)
    rw [htree, hlayout] at hrow'
    rw [htree] at hstep
    exact hrow.exact hrow' hstep hsize w.layout.size_pos

/-- Linear systems with the same rows of the pressure have the same Jacobian: mass balances are not
    assembled. -/
theorem Linearized.entries_eq {w w' : SegmentedWell α} {fluid : Fluid α} {target : ControlTarget α}
    (h : Linearized fluid target w) (h' : Linearized fluid target w') (htree : w'.tree = w.tree)
    (hlayout : w'.layout = w.layout)
    (hrows : ∀ r < w.tree.size, ∀ c < w.tree.size, ∀ v < w.layout.size,
      w'.system.jacobian r w.layout.pressureSlot c v
        = w.system.jacobian r w.layout.pressureSlot c v) :
    w'.system.entries = w.system.entries := by
  obtain ⟨hsized', hmass', _, _⟩ := h'
  rw [htree, hlayout] at hsized' hmass'
  refine hsized'.entries_eq h.sized fun r e c v hr he hc hv => ?_
  by_cases hslot : e = w.layout.pressureSlot
  · rw [hslot]
    exact hrows r hr c hc v hv
  · rw [h.mass_rows r e c v he hslot hc hv, hmass' r e c v he hslot hc hv]

/-- Take any well of plain pipes, without friction and acceleration, and a fluid that has constant
    properties for every active phase. From any state of the well an iteration at any values of the
    unknowns goes through, for each control equation. An iteration at any other values has the same
    Jacobian, and its residuals in the rows of the pressure are those of the first and the Jacobian
    times the step from the first values to the others. -/
theorem linearize_exact {tree : SegmentTree α} {phases : ActivePhases} {settings : Settings α}
    {all : List (Segment α)} (htree : SegmentTree.ofList all = .ok tree)
    (hpipes : ∀ segment ∈ all, segment.device = .pipe) (hfriction : settings.friction = false)
    (hacceleration : settings.acceleration = false)
    {fluid : PerPhase (Option (ConstantPhase α))}
    (hfluid : ∀ p ∈ phases.toList, (fluid.get p).isSome = true) (target : ControlTarget α)
    {x x' : SegmentedWell α × WellRecord α} (hx : Reached tree phases settings x)
    (hx' : Reached tree phases settings x') (values step : Nat → Nat → α) :
    let l : Layout := ⟨phases⟩
    ∃ y y', linearize x (.constant fluid) target values = some y ∧
      linearize x' (.constant fluid) target (fun i slot => values i slot + step i slot) = some y' ∧
      y'.1.system.entries = y.1.system.entries ∧
      ∀ r < tree.size, y'.1.system.residual r l.pressureSlot
        = y.1.system.residual r l.pressureSlot + ∑ c ∈ Finset.range tree.size,
            ∑ v ∈ Finset.range l.size, y.1.system.jacobian r l.pressureSlot c v * step c v := by
  intro l
  obtain ⟨hwell, rfl⟩ := SegmentTree.wellFormed_of_ofList htree
  have hopen : ∀ segment ∈ tree.segments, segment.device.isShut = false := by
    intro segment hsegment
    rw [hpipes segment hsegment]
    rfl
  obtain ⟨q, hq⟩ := Profile.exists_compute_constant tree
    (u := ⟨l, Unknowns.rowsOf tree.size l.size values⟩) hfluid
  obtain ⟨q', hq'⟩ := Profile.exists_compute_constant tree
    (u := ⟨l, Unknowns.rowsOf tree.size l.size fun i slot => values i slot + step i slot⟩) hfluid
  obtain ⟨⟨w, record⟩, hy, hw, hu, hsettings, hlin⟩ :=
    exists_linearize hx hwell hopen rfl hq target
  obtain ⟨⟨w', record'⟩, hy', hw', hu', hsettings', hlin'⟩ :=
    exists_linearize hx' hwell hopen rfl hq' target
  refine ⟨_, _, hy, hy', ?_⟩
  dsimp only at *
  subst hw
  subst hsettings
  have hmoved : w.unknowns.Moved w.tree.size step w'.unknowns := by
    rw [hu, hu']
    exact Unknowns.moved_rowsOf values step
  have hlayout : w.layout = l := congrArg Unknowns.layout hu
  have hlayout' : w'.layout = w.layout := hmoved.layout_eq
  have hrows := fun r (hr : r < w.tree.size) => hlin.exact_row hlin' hw' hsettings' hmoved hwell
    hpipes hfriction hacceleration (hlayout ▸ hfluid) hr
  refine ⟨hlin.entries_eq hlin' hw' hlayout' fun r hr => (hrows r hr).1, ?_⟩
  rw [hlayout] at hrows
  exact fun r hr => (hrows r hr).2

end SegmentedWell

end Rows

namespace SegmentedWell

/-- Water and oil with constant properties. -/
def waterAndOil : PerPhase (Option (ConstantPhase ℚ)) := ⟨some ⟨1000, 1⟩, some ⟨800, 2⟩, none⟩

/-- The well with the side branch at rest, without friction and acceleration. -/
def hydrostaticBranch : SegmentedWell ℚ × WellRecord ℚ :=
  (make "B" SegmentTree.sideBranch ⟨true, true, false⟩ ⟨false, false, 10⟩, .producer 4 .wrat)

/-- As much water as oil, and pressures that differ from segment to segment. -/
def evenMixture : Nat → Nat → ℚ := fun i slot => if slot = 1 then 1 / 2 else i

/-- More water in segment number three, and more pressure in number two, its outlet. -/
def heavierColumn : Nat → Nat → ℚ := fun i slot =>
  if i = 1 ∧ slot = 1 then 1 / 10 else if i = 2 ∧ slot = 2 then 7 else 0

/-- Two iterations one after the other. The heavier column and the pressure at its end change the
    residual of segment number three by `-1000` and `-7`. -/
theorem linearize_exact_heavierColumn : ∃ y y',
    linearize hydrostaticBranch (.constant waterAndOil) (.rate (-1)) evenMixture = some y ∧
    linearize y (.constant waterAndOil) (.rate (-1))
      (fun i slot => evenMixture i slot + heavierColumn i slot) = some y' ∧
    y'.1.system.entries = y.1.system.entries ∧
    y.1.system.residual 1 2 = -45001 ∧ y'.1.system.residual 1 2 = -46008 ∧
    ∑ c ∈ Finset.range 4, ∑ v ∈ Finset.range 3,
      y.1.system.jacobian 1 2 c v * heavierColumn c v = -1007 := by
  have hvalues : (linearize hydrostaticBranch (.constant waterAndOil) (.rate (-1)) evenMixture >>=
      fun y => (linearize y (.constant waterAndOil) (.rate (-1)) fun i slot =>
        evenMixture i slot + heavierColumn i slot).map fun y' =>
          (y.1.system.residual 1 2, y'.1.system.residual 1 2)) = some (-45001, -46008) := by
    decide +kernel
  obtain ⟨y, hy, hrest⟩ := Option.bind_eq_some_iff.mp hvalues
  obtain ⟨y', hy', hresiduals⟩ := Option.map_eq_some_iff.mp hrest
  obtain ⟨hfirst, hsecond⟩ := Prod.mk.inj hresiduals
  have htree : SegmentTree.ofList SegmentTree.sideBranch.segments = .ok SegmentTree.sideBranch := by
    decide +kernel
  have hstart : Reached SegmentTree.sideBranch ⟨true, true, false⟩ ⟨false, false, 10⟩
      hydrostaticBranch := .start "B" rfl
  have hfluid : ∀ p ∈ (ActivePhases.mk true true false).toList,
      (waterAndOil.get p).isSome = true := by decide
  obtain ⟨z, z', hz, hz', hentries, hexact⟩ := linearize_exact htree (by decide +kernel) rfl rfl
    hfluid (.rate (-1)) hstart (hstart.linearize hy) evenMixture heavierColumn
  cases hy.symm.trans hz
  cases hy'.symm.trans hz'
  have hsum := hexact 1 (by decide)
  refine ⟨y, y', hy, hy', hentries, hfirst, hsecond, ?_⟩
  rw [show (Layout.mk ⟨true, true, false⟩).pressureSlot = 2 from rfl, hfirst, hsecond] at hsum
  have hstep := eq_sub_of_add_eq' hsum.symm
  exact hstep.trans (by norm_num)

end SegmentedWell

end ReservoirWells
