import ReservoirWells.Proofs.Segment.Runs

/-! # Seeding — values do not depend on what is differentiated

    The states of a well are computed once for every unknown, and so is every term of an equation;
    only the value for the first unknown is kept.  Nothing is lost: no operation on dual numbers
    looks at a derivative to find a value or to choose a formula.  This holds for rounded scalars
    as well, where a derivative may be infinite or not a number while the value is fine.

    * `Friction.re_loss_forget`, `Device.re_drop_forget` — the laws of pressure loss, value by value;
    * `FlowState.map_forget_compute` — states computed for two unknowns, or the same error twice;
    * `SegmentedWell.Assembled` — the terms of the pressure equations;
    * `SegmentedWell.Assembled.re_congr` — their values follow from the values of the states;
    * `SegmentedWell.values_of_seeding` — hence the value that is kept is the value for every
      unknown. -/

namespace ReservoirWells

variable {α : Type} [Scalar α]

/-! ## Laws of pressure loss -/

theorem re_mixtureViscosity_forget (upwind : FlowState α) :
    (mixtureViscosity upwind.forget).re = (mixtureViscosity upwind).re := by
  simp only [mixtureViscosity, Dual.re_add, apply_ite Dual.re]
  rfl

namespace Friction

variable (area diameter roughness : α) (massRate density viscosity : Dual α)

theorem re_reynolds_forget : (reynolds area diameter massRate.forget viscosity.forget).re
    = (reynolds area diameter massRate viscosity).re := by
  rw [reynolds, reynolds, Dual.re_abs_eq, Dual.re_abs_eq]
  rfl

theorem re_velocityHead_forget : (velocityHead area massRate.forget density.forget).re
    = (velocityHead area massRate density).re := rfl

variable [Transcendental α]

theorem re_haaland_congr {re re' : Dual α} (h : re.re = re'.re) :
    (haaland re diameter roughness).re = (haaland re' diameter roughness).re := by
  simp only [haaland, Dual.re_recip, Dual.re_mul_scalar, Dual.re_mul, Dual.re_log10,
    Dual.re_add_scalar, h]

/-- The regime of the flow is chosen by values. -/
theorem re_factor_forget : (factor area diameter massRate.forget roughness viscosity.forget).re
    = (factor area diameter massRate roughness viscosity).re := by
  have hre := re_reynolds_forget area diameter massRate viscosity
  simp only [factor, apply_ite Dual.re, Dual.re_recip, Dual.re_mul_scalar, Dual.re_add_scalar,
    Dual.re_sub_scalar, hre, re_haaland_congr diameter roughness hre]

theorem re_loss_forget (length : α) :
    (loss length diameter area roughness density.forget massRate.forget viscosity.forget).re
      = (loss length diameter area roughness density massRate viscosity).re := by
  simp only [loss, apply_ite Dual.re, Dual.re_div_eq_mul, Dual.re_mul, Dual.re_mul_scalar,
    re_reynolds_forget, re_factor_forget, Dual.forget_re]

end Friction

section Devices

variable [Transcendental α] (upwind : FlowState α) (massRate : Dual α)

/-- A rate that is clamped is clamped by its value, and to a value. -/
theorem SpiralDevice.re_drop_forget (d : SpiralDevice α) :
    (d.drop upwind.forget massRate.forget).re = (d.drop upwind massRate).re := by
  have hviscosity := re_mixtureViscosity_forget upwind
  obtain ⟨strength, density, viscosity, scaling, _ | most⟩ := d
  · simp only [SpiralDevice.drop, Dual.re_pow, Dual.re_mul, Dual.re_mul_scalar, Dual.re_div_scalar,
      hviscosity]
    rfl
  · simp only [SpiralDevice.drop, Dual.re_pow, Dual.re_mul, Dual.re_mul_scalar, Dual.re_div_scalar,
      hviscosity, apply_ite Dual.re]
    rfl

/-- A power of zero is found by the value of its base. -/
theorem AutonomousDevice.re_drop_forget (d : AutonomousDevice α) :
    (d.drop upwind.forget massRate.forget).re = (d.drop upwind massRate).re := by
  simp only [AutonomousDevice.drop, Phase.all, List.foldl_cons, List.foldl_nil, Dual.re_powAbs,
    Dual.re_div_eq_mul, Dual.re_add, Dual.re_mul, Dual.re_recip, Dual.re_mul_scalar,
    Dual.re_div_scalar]
  rfl

theorem Valve.re_drop_forget (v : Valve α) :
    (v.drop upwind.forget massRate.forget).re = (v.drop upwind massRate).re := by
  have hloss := Friction.re_loss_forget v.area v.diameter v.roughness massRate upwind.density
    upwind.viscosity v.length
  show ((Friction.loss _ _ _ _ _ _ _).re + _) * _ = ((Friction.loss _ _ _ _ _ _ _).re + _) * _
  rw [← hloss]
  rfl

/-- The value of the drop across a device follows from values, also when derivatives were cleared. -/
theorem Device.re_drop_forget (d : Device α) :
    (d.drop upwind.forget massRate.forget).re = (d.drop upwind massRate).re := by
  cases d with
  | pipe => rfl
  | spiral d => exact d.re_drop_forget upwind massRate
  | autonomous d => exact d.re_drop_forget upwind massRate
  | valve v => exact v.re_drop_forget upwind massRate

end Devices

/-! ## States -/

/-- The values of the unknowns do not depend on which of them is differentiated. -/
theorem Unknowns.forget_seed_congr (u : Unknowns α) (seg chosen chosen' : Nat) :
    (u.seed seg chosen).forget = (u.seed seg chosen').forget := by
  rw [seed, seed]
  generalize u.layout.impliedPhase = implied
  cases u.layout.waterSlot? <;> cases u.layout.gasSlot? <;> cases implied <;> rfl

namespace Fluid

/-- The density of a phase, or the error that there is none, follows from the value of the pressure. -/
theorem map_forget_density [Transcendental α] (f : Fluid α) (p : Phase) {x y : Dual α}
    (h : x.re = y.re) : (f.density p x).map Dual.forget = (f.density p y).map Dual.forget := by
  cases f with
  | constant phases => rfl
  | compressible phases =>
      rw [density, density]
      cases parameters (α := α) phases p with
      | error e => rfl
      | ok b =>
          have hrho : (((x - b.referencePressure) * b.compressibility).exp * b.referenceDensity).re
              = (((y - b.referencePressure) * b.compressibility).exp * b.referenceDensity).re := by
            simp only [Dual.re_mul_scalar, Dual.re_exp, Dual.re_sub_scalar, h]
          simp only [bind, Except.bind, hrho, h]
          split
          · rfl
          · exact congrArg Except.ok (Dual.forget_congr hrho)

end Fluid

namespace FlowState

/-- The value of a mixture follows from the values of fractions and properties. -/
theorem re_mixture_plain (fractions : PerPhase (Dual α)) {g : Phase × Dual α × Dual α → Dual α}
    (hg : ∀ y, (g y).re = (g (plainProperties y)).re)
    (properties : List (Phase × Dual α × Dual α)) {sum sum' : Dual α} (h : sum.re = sum'.re) :
    (properties.foldl (fun sum y => sum + fractions.get y.1 * g y) sum).re
      = ((properties.map plainProperties).foldl
          (fun sum y => sum + (fractions.map Dual.forget).get y.1 * g y) sum').re := by
  induction properties generalizing sum sum' with
  | nil => exact h
  | cons y rest ih =>
      refine ih ?_
      rw [Dual.re_add, Dual.re_add, Dual.re_mul, Dual.re_mul, h, hg, fractions.map_get]
      rfl

theorem forget_ofProperties_plain (x : SeededRow α) (properties : List (Phase × Dual α × Dual α)) :
    (ofProperties x properties).forget
      = (ofProperties x.forget (properties.map plainProperties)).forget := by
  have hdensity : (ofProperties x properties).density.re
      = (ofProperties x.forget (properties.map plainProperties)).density.re :=
    re_mixture_plain x.fractions (g := (·.2.1)) (fun _ => rfl) properties rfl
  have hviscosity : (ofProperties x properties).viscosity.re
      = (ofProperties x.forget (properties.map plainProperties)).viscosity.re :=
    re_mixture_plain x.fractions (g := (·.2.2)) (fun _ => rfl) properties rfl
  have hplain : (properties.map plainProperties).map plainProperties
      = properties.map plainProperties := by
    rw [List.map_map]
    rfl
  have hdensities : (ofProperties x properties).densities.map Dual.forget
      = (ofProperties x.forget (properties.map plainProperties)).densities.map Dual.forget := by
    refine (forget_collected (g := (·.2.1)) (fun _ => rfl) _ _).trans ?_
    refine .trans ?_ (forget_collected (g := (·.2.1)) (fun _ => rfl) _ _).symm
    rw [hplain]
  have hviscosities : (ofProperties x properties).viscosities.map Dual.forget
      = (ofProperties x.forget (properties.map plainProperties)).viscosities.map Dual.forget := by
    refine (forget_collected (g := (·.2.2)) (fun _ => rfl) _ _).trans ?_
    refine .trans ?_ (forget_collected (g := (·.2.2)) (fun _ => rfl) _ _).symm
    rw [hplain]
  have hmassRate : (ofProperties x properties).massRate.re
      = (ofProperties x.forget (properties.map plainProperties)).massRate.re :=
    congrArg (x.totalRate.re * ·) hdensity
  rw [forget, forget, hdensities, hviscosities, Dual.forget_congr hdensity, Dual.forget_congr hviscosity,
    Dual.forget_congr hmassRate]
  rfl

variable [Transcendental α]

/-- What a fluid gives at two pressures of one value is the same apart from derivatives. -/
theorem map_plain_propertiesAt (fluid : Fluid α) (phases : List Phase) {x y : Dual α}
    (h : x.re = y.re) :
    (propertiesAt fluid phases x).map (List.map plainProperties)
      = (propertiesAt fluid phases y).map (List.map plainProperties) := by
  have hplain : ∀ (p : Phase) (x : Dual α),
      Except.map plainProperties (do
        let density ← fluid.density p x
        let viscosity ← fluid.viscosity p
        return (p, density, viscosity))
        = (fluid.density p x).map Dual.forget >>= fun density =>
          (fluid.viscosity p).map fun viscosity => (p, density, viscosity.forget) := by
    intro p x
    cases fluid.density p x with
    | error e => rfl
    | ok density => cases fluid.viscosity p <;> rfl
  refine (map_mapM (fun _ => rfl) phases).trans (.symm (map_mapM (fun p => ?_) phases))
  rw [hplain, hplain, fluid.map_forget_density p h]

/-- States that are computed for two unknowns have the same values, and if one cannot be computed,
    neither can the other, for the same reason. -/
theorem map_forget_compute (fluid : Fluid α) (u : Unknowns α) (seg chosen chosen' : Nat) :
    (compute fluid u seg chosen).map forget = (compute fluid u seg chosen').map forget := by
  have hplain : ∀ chosen, (compute fluid u seg chosen).map forget
      = ((propertiesAt fluid u.layout.phases.toList (u.seed seg chosen).pressure).map
          (List.map plainProperties)).map
            fun properties => (ofProperties (u.seed seg chosen).forget properties).forget := by
    intro chosen
    rw [compute_eq]
    cases propertiesAt fluid u.layout.phases.toList (u.seed seg chosen).pressure with
    | error e => rfl
    | ok properties => exact congrArg Except.ok (forget_ofProperties_plain _ _)
  have hpressure : (u.seed seg chosen).pressure.re = (u.seed seg chosen').pressure.re := rfl
  rw [hplain, hplain, map_plain_propertiesAt fluid _ hpressure, u.forget_seed_congr seg chosen chosen']

end FlowState

/-- The states of a profile have the same values for every unknown. -/
theorem Profile.IsOf.forget_statesFor [Transcendental α] {q : Profile α} {t : SegmentTree α}
    {u : Unknowns α} {fluid : Fluid α} (h : q.IsOf t u fluid) {v v' : Nat} (hv : v < u.layout.size)
    (hv' : v' < u.layout.size) (i : Nat) :
    (q.statesFor v i).forget = (q.statesFor v' i).forget := by
  rcases Nat.lt_or_ge i t.size with hi | hi
  · have hcompute := FlowState.map_forget_compute fluid u i v v'
    rw [h.state_eq v hv i hi, h.state_eq v' hv' i hi] at hcompute
    exact Except.ok.inj hcompute
  · rw [h.still_eq v i hi hv, h.still_eq v' i hi hv']

/-! ## Terms -/

namespace SegmentedWell

variable [Transcendental α]

/-- The terms that pressure equations are assembled from. -/
inductive Assembled (w : SegmentedWell α) : (States α → Dual α) → Prop
  | pressure (seg : Nat) : w.Assembled fun states => (states seg).pressure
  | hydrostatic (seg : Nat) : w.Assembled (w.hydrostatic seg)
  | friction (segment : Segment α) (seg upwind : Nat) : w.Assembled (w.friction segment seg upwind)
  | head (area : α) (seg upwind : Nat) : w.Assembled (headOf area seg upwind)
  | drop (segment : Segment α) (seg upwind : Nat) : w.Assembled (deviceDrop segment seg upwind)
  | sub {first second : States α → Dual α} : w.Assembled first → w.Assembled second →
      w.Assembled fun states => first states - second states

namespace Assembled

variable {w : SegmentedWell α} {term : States α → Dual α}

/-- The value of a term is that for states without derivatives. -/
theorem re_forget (h : w.Assembled term) (states : States α) :
    (term fun i => (states i).forget).re = (term states).re := by
  induction h with
  | pressure seg => rfl
  | hydrostatic seg => rfl
  | friction segment seg upwind =>
      rw [SegmentedWell.friction, SegmentedWell.friction, apply_ite Dual.re, apply_ite Dual.re,
        ← forget_carriedState, Dual.re_mul_scalar, Dual.re_mul_scalar]
      exact if_congr Iff.rfl
        (congrArg (· * _) (Friction.re_loss_forget _ _ _ _ _ _ _)) rfl
  | head area seg upwind =>
      rw [headOf, headOf, ← forget_carriedState]
      rfl
  | drop segment seg upwind =>
      rw [deviceDrop, deviceDrop, ← forget_carriedState]
      exact segment.device.re_drop_forget _ _
  | sub _ _ ihfirst ihsecond => rw [Dual.re_sub, Dual.re_sub, ihfirst, ihsecond]

/-- The value of a term follows from the values of the states. -/
theorem re_congr (h : w.Assembled term) {states states' : States α}
    (hsame : ∀ i, (states i).forget = (states' i).forget) : (term states).re = (term states').re := by
  rw [← h.re_forget states, ← h.re_forget states', funext hsame]

end Assembled

/-- Seeding never changes a value. For any two unknowns the states of a segment have the same values
    or cannot be computed for the same reason, and the value that is kept of a term is its value for
    every unknown: values of terms and of the laws behind them follow from values alone. -/
theorem values_of_seeding (w : SegmentedWell α) (fluid : Fluid α) :
    (∀ seg chosen chosen', (FlowState.compute fluid w.unknowns seg chosen).map FlowState.forget
        = (FlowState.compute fluid w.unknowns seg chosen').map FlowState.forget) ∧
      (∀ q, Profile.compute w.tree w.unknowns fluid = .ok q → ∀ term, w.Assembled term →
        ∀ v < w.layout.size, (q.evaluate term).value = (term (q.statesFor v)).re) ∧
      (∀ term, w.Assembled term → ∀ states states' : States α,
        (∀ i, (states i).forget = (states' i).forget) → (term states).re = (term states').re) ∧
      (∀ (device : Device α) upwind massRate, (device.drop upwind massRate).re
        = (device.drop upwind.forget massRate.forget).re) ∧
      (∀ (length diameter area roughness : α) density massRate viscosity,
        (Friction.loss length diameter area roughness density massRate viscosity).re
          = (Friction.loss length diameter area roughness density.forget massRate.forget
              viscosity.forget).re) ∧
      ∀ (area : α) massRate density, (Friction.velocityHead area massRate density).re
        = (Friction.velocityHead area massRate.forget density.forget).re := by
  refine ⟨FlowState.map_forget_compute fluid w.unknowns, ?_, fun _ h _ _ => h.re_congr, ?_, ?_, ?_⟩
  · intro q hq term hterm v hv
    have hof := Profile.isOf_of_compute hq
    rw [Profile.evaluate_value hof.slots_pos]
    exact hterm.re_congr fun i => hof.forget_statesFor w.layout.size_pos hv i
  · intro device upwind massRate
    exact (device.re_drop_forget upwind massRate).symm
  · intro length diameter area roughness density massRate viscosity
    exact (Friction.re_loss_forget area diameter roughness massRate density viscosity length).symm
  · intro area massRate density
    exact (Friction.re_velocityHead_forget area massRate density).symm

/-- The well with the side branch, producing from all of its segments. -/
def producing : SegmentedWell ℚ :=
  { WellCall.sideBranch.1 with
    unknowns := ⟨⟨⟨true, false, false⟩⟩,
      [[-4 / 100, 100000], [-1 / 100, 443500], [-3 / 100, 329000], [-1 / 100, 381500]]⟩ }

/-- Friction in the side branch has one value, although only one of its derivatives is not zero. -/
theorem values_of_seeding_producing :
    let term := producing.friction (SegmentTree.sideBranch.pipe 3 (some 2) 1015 1040) 1 1
    ∃ q, Profile.compute producing.tree producing.unknowns WellCall.brine = .ok q ∧
      (q.evaluate term).value = 64000 ∧ (q.evaluate term).derivatives = [-6400000, 0] ∧
      (term (q.statesFor 1)).re = 64000 := by
  intro term
  have hentry : ((Profile.compute producing.tree producing.unknowns WellCall.brine).map fun q =>
      ((q.evaluate term).value, (q.evaluate term).derivatives)) = .ok (64000, [-6400000, 0]) := by
    decide +kernel
  cases hq : Profile.compute producing.tree producing.unknowns WellCall.brine with
  | error e =>
      rw [hq] at hentry
      cases hentry
  | ok q =>
      rw [hq] at hentry
      obtain ⟨hvalue, hderivatives⟩ := Prod.mk.inj (Except.ok.inj hentry)
      obtain ⟨_, hseeded, _⟩ := values_of_seeding producing WellCall.brine
      have hsame := hseeded q hq term (.friction _ 1 1) 1 (by decide)
      exact ⟨q, rfl, hvalue, hderivatives, hsame ▸ hvalue⟩

end SegmentedWell

end ReservoirWells
