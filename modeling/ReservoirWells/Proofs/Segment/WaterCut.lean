import ReservoirWells.Proofs.Segment.Mixtures

/-! # The water cut — two ways to the viscosity of a mixture

    A spiral device splits the liquid of a mixture into water and oil by the water cut, which it cannot
    do when there is next to no liquid; below a threshold it adds up the phases as they are.  In exact
    arithmetic the threshold is of no consequence: the liquid that the cut is divided by is multiplied
    back, in the derivative too, and what remains is the viscosity that the state holds anyway.

    * `FlowState.viscosityByPhase`, `FlowState.viscosityByCut` — the two ways;
    * `FlowState.Produced` — states that are computed, or carried over from another segment;
    * `FlowState.Produced.viscosity_eq` — what the viscosity of such a state is made up of;
    * `SpiralDevice.drop_by_either` — hence one drop, whichever way is taken. -/

namespace ReservoirWells

variable {α : Type}

namespace FlowState

section Formulas

variable [Scalar α]

/-- The mixture viscosity, phase by phase. -/
def viscosityByPhase (s : FlowState α) : Dual α :=
  s.fractions.oil * s.viscosities.oil + s.fractions.water * s.viscosities.water
    + s.fractions.gas * s.viscosities.gas

/-- The mixture viscosity, with the liquid part split by the water cut. -/
def viscosityByCut (s : FlowState α) : Dual α :=
  let liquid := s.fractions.water + s.fractions.oil
  let cut := s.fractions.water / liquid
  liquid * (cut * s.viscosities.water + (-cut + (1 : α)) * s.viscosities.oil)
    + s.fractions.gas * s.viscosities.gas

/-- Which way is taken depends on the value of the liquid fraction. -/
theorem mixtureViscosity_eq (s : FlowState α) : mixtureViscosity s
    = if (s.fractions.water + s.fractions.oil).re < leastLiquid then s.viscosityByPhase
      else s.viscosityByCut := by
  rw [mixtureViscosity]
  dsimp only
  split <;> rfl

end Formulas

/-! ## States -/

section States

variable [Scalar α]

omit [Scalar α] in
/-- A property that was not collected is as it was before. -/
theorem get_collected_of_notMem {f : Phase → Phase × Dual α × Dual α} (hf : ∀ p, (f p).1 = p)
    (g : Phase × Dual α × Dual α → Dual α) (phases : List Phase) (all : PerPhase (Dual α)) {p : Phase}
    (h : p ∉ phases) :
    ((phases.map f).foldl (fun all y => all.set y.1 (g y)) all).get p = all.get p := by
  induction phases generalizing all with
  | nil => rfl
  | cons p' rest ih =>
      rw [List.mem_cons, not_or] at h
      rw [List.map_cons, List.foldl_cons, ih _ h.2, PerPhase.get_set, hf, if_neg (Ne.symm h.1)]

/-- Phases that are not active have no viscosity. -/
theorem viscosities_of_inactive {law : FluidLaw α} {u : Unknowns α} {seg chosen : Nat}
    {s : FlowState α} (h : computeBy law u seg chosen = .ok s) {p : Phase}
    (hp : u.layout.phases.isActive p = false) : s.viscosities.get p = 0 := by
  obtain ⟨properties, hproperties, hs⟩ := bind_eq_ok.mp h
  obtain ⟨density, viscosity, _, rfl⟩ := exists_properties hproperties
  cases hs
  have hnotMem : p ∉ u.layout.phases.toList := by
    intro hmem
    exact Bool.false_ne_true (hp.symm.trans (List.mem_filter.mp hmem).2)
  refine (get_collected_of_notMem (fun _ => rfl) (·.2.2) _ _ hnotMem).trans ?_
  cases p <;> rfl

/-- The states that the laws of pressure loss are evaluated for: computed ones, and those that a
    segment takes over from another one. -/
inductive Produced (law : FluidLaw α) (u : Unknowns α) : FlowState α → Prop
  | computed {seg chosen : Nat} {s : FlowState α} (h : computeBy law u seg chosen = .ok s) :
      Produced law u s
  | carried {states : States α} {upwind : Nat} (seg : Nat) (h : Produced law u (states upwind)) :
      Produced law u (carriedState states seg upwind)

end States

section Exact

variable [ExactScalar α]

/-- Phases without the property add nothing to a mixture. -/
theorem mixture_filter {active : Phase → Bool} (fractions property : PerPhase (Dual α))
    (h : ∀ p, active p = false → property.get p = 0) (phases : List Phase) (sum : Dual α) :
    (phases.filter active).foldl (fun sum p => sum + fractions.get p * property.get p) sum
      = phases.foldl (fun sum p => sum + fractions.get p * property.get p) sum := by
  induction phases generalizing sum with
  | nil => rfl
  | cons p rest ih =>
      cases hp : active p with
      | true => rw [List.filter_cons_of_pos hp, List.foldl_cons, List.foldl_cons, ih]
      | false =>
          rw [List.filter_cons_of_neg (by rw [hp]; exact Bool.false_ne_true), List.foldl_cons, ih,
            h p hp, Dual.add_mul_zero]

variable {law : FluidLaw α} {u : Unknowns α} {s : FlowState α}

/-- The viscosity of a computed state is made up of those of all three phases, active or not. -/
theorem viscosity_of_computeBy {seg chosen : Nat} (h : computeBy law u seg chosen = .ok s) :
    s.viscosity = s.viscosityByPhase := by
  have hinactive : ∀ p, u.layout.phases.isActive p = false → s.viscosities.get p = 0 :=
    fun p hp => viscosities_of_inactive h hp
  rw [(isComputed h).viscosity, ActivePhases.toList,
    mixture_filter s.fractions s.viscosities hinactive]
  show 0 + s.fractions.water * s.viscosities.water + s.fractions.oil * s.viscosities.oil
    + s.fractions.gas * s.viscosities.gas = _
  ext
  · simp only [viscosityByPhase, Dual.re_add, Dual.re_zero, zero_add]
    rw [add_comm (s.fractions.water * s.viscosities.water).re]
  · simp only [viscosityByPhase, Dual.eps_add, Dual.eps_zero, zero_add]
    rw [add_comm (s.fractions.water * s.viscosities.water).eps]

/-- Derivatives are forgotten before or after the phases are added up. -/
theorem viscosityByPhase_forget (s : FlowState α) :
    s.forget.viscosityByPhase = s.viscosityByPhase.forget := by
  simp only [viscosityByPhase, Dual.forget_add, Dual.forget_mul]
  rfl

/-- The viscosity of a state, computed or carried over, is that of its phases. -/
theorem Produced.viscosity_eq (h : s.Produced law u) : s.viscosity = s.viscosityByPhase := by
  induction h with
  | computed h => exact viscosity_of_computeBy h
  | @carried states upwind seg _ ih =>
      rw [carriedState]
      split
      · exact ih
      · rw [viscosityByPhase_forget, ← ih]
        rfl

/-- Splitting a whole by a share is splitting it into the part and what the part leaves. -/
theorem mul_split (whole share first second : Dual α) :
    whole * (share * first + (-share + (1 : α)) * second)
      = (whole - whole * share) * second + whole * share * first := by
  ext
  · simp only [Dual.re_mul, Dual.re_add, Dual.re_add_scalar, Dual.re_neg, Dual.re_sub]
    ring
  · simp only [Dual.eps_mul, Dual.eps_add, Dual.eps_add_scalar, Dual.eps_neg, Dual.eps_sub,
      Dual.re_mul, Dual.re_add, Dual.re_add_scalar, Dual.re_neg, Dual.re_sub]
    ring

/-- The cut is a share of the liquid, so the liquid need not be split at all. -/
theorem viscosityByCut_eq (s : FlowState α)
    (hliquid : (s.fractions.water + s.fractions.oil).re ≠ 0) :
    s.viscosityByCut = s.viscosityByPhase := by
  have hwater : (s.fractions.water + s.fractions.oil)
      * (s.fractions.water / (s.fractions.water + s.fractions.oil)) = s.fractions.water :=
    Dual.mul_div_cancel_left hliquid
  have hoil : s.fractions.water + s.fractions.oil - s.fractions.water = s.fractions.oil :=
    Dual.ext (add_sub_cancel_left _ _) (add_sub_cancel_left _ _)
  rw [viscosityByCut, mul_split, hwater, hoil, viscosityByPhase]

end Exact

end FlowState

/-! ## Drops -/

namespace SpiralDevice

variable [Transcendental α]

/-- The drop across a spiral device for a mixture of some viscosity. -/
def dropFor [Scalar α] (d : SpiralDevice α) (viscosity density massRate : Dual α) : Dual α :=
  let free := massRate / density * d.scaling
  let rate :=
    match d.maxRate with
    | some most => if most < Scalar.abs free.re then .const (signedLike most free.re) else free
    | none => free
  (density / d.density).pow 0.75 * (viscosity / d.viscosity).pow 0.25
    * rate * rate * (d.strength * dropSign rate.re)

theorem drop_eq [Scalar α] (d : SpiralDevice α) (upwind : FlowState α) (massRate : Dual α) :
    d.drop upwind massRate = d.dropFor (mixtureViscosity upwind) upwind.density massRate := rfl

/-- The threshold of the water cut is of no consequence. In a state of a well, computed for any fluid
    or carried over from another segment, with some liquid of whatever amount, both ways to the mixture
    viscosity lead to the one that the state holds, value and derivative, and so does the way that
    the device takes; with any of them the drop across any spiral device is the same. -/
theorem drop_by_either [ExactScalar α] {law : FluidLaw α} {u : Unknowns α} {upwind : FlowState α}
    (hproduced : upwind.Produced law u)
    (hliquid : (upwind.fractions.water + upwind.fractions.oil).re ≠ 0) :
    upwind.viscosityByPhase = upwind.viscosity ∧ upwind.viscosityByCut = upwind.viscosity ∧
      mixtureViscosity upwind = upwind.viscosity ∧
      ∀ (d : SpiralDevice α) (massRate : Dual α),
        d.dropFor upwind.viscosityByPhase upwind.density massRate = d.drop upwind massRate ∧
        d.dropFor upwind.viscosityByCut upwind.density massRate = d.drop upwind massRate := by
  have hphase : upwind.viscosityByPhase = upwind.viscosity := hproduced.viscosity_eq.symm
  have hcut : upwind.viscosityByCut = upwind.viscosity :=
    (upwind.viscosityByCut_eq hliquid).trans hphase
  have hmixture : mixtureViscosity upwind = upwind.viscosity := by
    rw [upwind.mixtureViscosity_eq, hphase, hcut, ite_self]
  refine ⟨hphase, hcut, hmixture, ?_⟩
  intro d massRate
  rw [drop_eq, hmixture, hphase, hcut]
  exact ⟨rfl, rfl⟩

/-- Unknowns of a well with all three phases: in one segment half of the liquid is water, and in the
    other one there is hardly any liquid. -/
def hardlyLiquid : Unknowns ℚ :=
  ⟨⟨.threePhase⟩, [[-3, 1 / 4, 1 / 2, 100], [2, 1 / 10 ^ 31, 1 - 3 / 10 ^ 31, 130]]⟩

/-- Water, an oil that is more viscous, and gas. -/
def threePhaseBlend : Fluid ℚ := .constant ⟨some ⟨1000, 1⟩, some ⟨800, 5⟩, some ⟨100, 1 / 50⟩⟩

/-- With hardly any liquid the phases are added up as they are; splitting the liquid would have led to
    the same, and likewise with plenty of it, taken over without derivatives. -/
theorem drop_by_either_hardlyLiquid :
    ∃ s s', FlowState.computeBy threePhaseBlend.law hardlyLiquid 1 1 = .ok s ∧
      FlowState.computeBy threePhaseBlend.law hardlyLiquid 0 2 = .ok s' ∧
      0 < (s.fractions.water + s.fractions.oil).re ∧
      (s.fractions.water + s.fractions.oil).re < leastLiquid ∧
      s.viscosityByCut = s.viscosity ∧ s.viscosity.eps = -4 ∧
      mixtureViscosity (carriedState (fun _ => s') 1 0) = .const (151 / 100) := by
  have hhardly : ((FlowState.computeBy threePhaseBlend.law hardlyLiquid 1 1).map fun s =>
      ((s.fractions.water + s.fractions.oil).re, s.viscosity.eps)) = .ok (3 / 10 ^ 31, -4) := by
    decide +kernel
  have hplenty : ((FlowState.computeBy threePhaseBlend.law hardlyLiquid 0 2).map fun s =>
      ((s.fractions.water + s.fractions.oil).re, s.viscosity.re)) = .ok (1 / 2, 151 / 100) := by
    decide +kernel
  cases hs : FlowState.computeBy threePhaseBlend.law hardlyLiquid 1 1 with
  | error e =>
      rw [hs] at hhardly
      cases hhardly
  | ok s =>
      cases hs' : FlowState.computeBy threePhaseBlend.law hardlyLiquid 0 2 with
      | error e =>
          rw [hs'] at hplenty
          cases hplenty
      | ok s' =>
          rw [hs] at hhardly
          rw [hs'] at hplenty
          obtain ⟨hliquid, hderivative⟩ := Prod.mk.inj (Except.ok.inj hhardly)
          obtain ⟨hliquid', hvalue⟩ := Prod.mk.inj (Except.ok.inj hplenty)
          have hpos : 0 < (s.fractions.water + s.fractions.oil).re := by
            rw [hliquid]
            decide +kernel
          have hpos' : (s'.fractions.water + s'.fractions.oil).re ≠ 0 := by
            rw [hliquid']
            decide +kernel
          have hcarried : (carriedState (fun _ => s') 1 0).Produced threePhaseBlend.law
              hardlyLiquid := .carried 1 (.computed hs')
          obtain ⟨_, hcut, _, _⟩ := drop_by_either (.computed hs) hpos.ne'
          obtain ⟨_, _, hmixture, _⟩ := drop_by_either hcarried hpos'
          refine ⟨s, s', rfl, rfl, hpos, ?_, hcut, hderivative, ?_⟩
          · rw [hliquid]
            decide +kernel
          · rw [hmixture]
            exact Dual.forget_eq hvalue rfl

end SpiralDevice

end ReservoirWells
