import ReservoirWells.Proofs.Dual
import ReservoirWells.Segment.Assembly

/-! # Terms — what the terms of a pressure equation differentiate

    A term of an equation is evaluated for the states of all segments at once, and all of them carry
    derivatives.  Only those of one segment are meant: what a term takes over from another segment
    enters without derivatives.

    * `Friction.forget_loss`, `Device.forget_drop` — the laws of pressure loss keep no derivative
      when none goes in;
    * `TermOf` — a term that belongs to a segment in this sense, and has no derivative where the
      state of its segment has none (`TermOf.eps_eq_zero`);
    * `TermOf.hydrostatic`, `TermOf.friction`, `TermOf.headOf`, `TermOf.deviceDrop` — the terms of
      the pressure equations. -/

namespace ReservoirWells

variable {α : Type}

/-! ## States without derivatives -/

namespace PerPhase

variable [Scalar α]

@[simp] theorem map_forget_water (v : PerPhase (Dual α)) :
    (v.map Dual.forget).water = v.water.forget := rfl

@[simp] theorem map_forget_oil (v : PerPhase (Dual α)) :
    (v.map Dual.forget).oil = v.oil.forget := rfl

@[simp] theorem map_forget_gas (v : PerPhase (Dual α)) :
    (v.map Dual.forget).gas = v.gas.forget := rfl

theorem map_mk {β γ : Type} (f : β → γ) (water oil gas : β) :
    (⟨water, oil, gas⟩ : PerPhase β).map f = ⟨f water, f oil, f gas⟩ := rfl

theorem map_get {β γ : Type} (f : β → γ) (v : PerPhase β) (p : Phase) :
    (v.map f).get p = f (v.get p) := by
  cases p <;> rfl

theorem get_set {β : Type} (v : PerPhase β) (p p' : Phase) (b : β) :
    (v.set p b).get p' = if p = p' then b else v.get p' := by
  cases p <;> cases p' <;> rfl

theorem map_set {β γ : Type} (f : β → γ) (v : PerPhase β) (p : Phase) (b : β) :
    (v.set p b).map f = (v.map f).set p (f b) := by
  cases p <;> rfl

end PerPhase

namespace FlowState

variable [Scalar α]

@[simp] theorem forget_forget (s : FlowState α) : s.forget.forget = s.forget := rfl

@[simp] theorem forget_still : (still : FlowState α).forget = still := rfl

end FlowState

/-! ## Laws of pressure loss -/

section Laws

variable [ExactScalar α] [Transcendental α]

namespace Friction

variable (area diameter roughness : α) (massRate density viscosity : Dual α)

omit [Transcendental α] in
theorem forget_reynolds : (reynolds area diameter massRate viscosity).forget
    = reynolds area diameter massRate.forget viscosity.forget := by
  simp only [reynolds, Dual.forget_abs, Dual.forget_div, Dual.forget_mul_scalar]

theorem forget_haaland (re : Dual α) :
    (haaland re diameter roughness).forget = haaland re.forget diameter roughness := by
  simp only [haaland, Dual.forget_recip, Dual.forget_mul_scalar, Dual.forget_mul,
    Dual.forget_log10, Dual.forget_add_scalar]

theorem forget_factor : (factor area diameter massRate roughness viscosity).forget
    = factor area diameter massRate.forget roughness viscosity.forget := by
  simp only [factor, ← forget_reynolds, Dual.forget_re, Dual.forget_ite, Dual.forget_mul_scalar,
    Dual.forget_recip, forget_haaland, Dual.forget_add_scalar, Dual.forget_sub_scalar]

theorem forget_loss (length : α) :
    (loss length diameter area roughness density massRate viscosity).forget
      = loss length diameter area roughness density.forget massRate.forget viscosity.forget := by
  simp only [loss, ← forget_reynolds, Dual.forget_re, Dual.forget_ite, Dual.forget_zero,
    Dual.forget_div, Dual.forget_mul_scalar, Dual.forget_mul, forget_factor]

omit [Transcendental α] in
theorem forget_constrictionLoss (coefficient : α) :
    (constrictionLoss massRate density area coefficient).forget
      = constrictionLoss massRate.forget density.forget area coefficient := by
  simp only [constrictionLoss, Dual.forget_div, Dual.forget_mul, Dual.forget_mul_scalar]

omit [Transcendental α] in
theorem forget_velocityHead : (velocityHead area massRate density).forget
    = velocityHead area massRate.forget density.forget := by
  simp only [velocityHead, Dual.forget_div, Dual.forget_mul, Dual.forget_mul_scalar]

end Friction

variable (upwind : FlowState α) (massRate : Dual α)

omit [Transcendental α] in
theorem forget_mixtureViscosity :
    (mixtureViscosity upwind).forget = mixtureViscosity upwind.forget := by
  simp only [mixtureViscosity, FlowState.forget, PerPhase.map_forget_water,
    PerPhase.map_forget_oil, PerPhase.map_forget_gas, Dual.forget_add, Dual.forget_mul,
    Dual.forget_ite, Dual.forget_add_scalar, Dual.forget_neg, Dual.forget_div]
  rfl

theorem SpiralDevice.forget_drop (d : SpiralDevice α) :
    (d.drop upwind massRate).forget = d.drop upwind.forget massRate.forget := by
  have hfree : massRate.forget / upwind.forget.density * d.scaling
      = (massRate / upwind.density * d.scaling).forget := by
    rw [Dual.forget_mul_scalar, Dual.forget_div]
    rfl
  rw [SpiralDevice.drop, SpiralDevice.drop, hfree, ← forget_mixtureViscosity]
  generalize massRate / upwind.density * d.scaling = free
  obtain ⟨strength, density, viscosity, scaling, _ | most⟩ := d
  · simp only [Dual.forget_mul_scalar, Dual.forget_mul, Dual.forget_pow, Dual.forget_div_scalar]
    rfl
  · by_cases hlimit : most < Scalar.abs free.re
    · simp only [Dual.forget_re, hlimit, if_true, Dual.forget_mul_scalar, Dual.forget_mul,
        Dual.forget_pow, Dual.forget_div_scalar, Dual.forget_const]
      rfl
    · simp only [Dual.forget_re, hlimit, if_false, Dual.forget_mul_scalar, Dual.forget_mul,
        Dual.forget_pow, Dual.forget_div_scalar]
      rfl

/-- A property of a mixture in which every fraction counts with an exponent of its own. -/
def weighted (exponents : PerPhase α) (fractions property : PerPhase (Dual α)) : Dual α :=
  Phase.all.foldl
    (fun sum p => sum + (fractions.get p).powAbs (exponents.get p) * property.get p) 0

theorem forget_weighted (exponents : PerPhase α) (fractions property : PerPhase (Dual α)) :
    (weighted exponents fractions property).forget
      = weighted exponents (fractions.map Dual.forget) (property.map Dual.forget) := by
  simp only [weighted, Phase.all, List.foldl_cons, List.foldl_nil, PerPhase.map_get,
    Dual.forget_add, Dual.forget_mul, Dual.forget_powAbs, Dual.forget_zero]

theorem AutonomousDevice.forget_drop (d : AutonomousDevice α) :
    (d.drop upwind massRate).forget = d.drop upwind.forget massRate.forget := by
  have hdensity := forget_weighted d.densityExponents upwind.fractions upwind.densities
  have hviscosity := forget_weighted d.viscosityExponents upwind.fractions upwind.viscosities
  -- the drop reads the mixtures and the mass rate, and takes its sign from values
  have hdrop : ∀ density viscosity rate : Dual α,
      (density * density / d.density * (viscosity.recip * d.viscosity).powAbs d.viscosityExponent
          * (rate * d.scaling / density * -dropSign (rate * d.scaling / density).re).powAbs
              d.rateExponent
          * (d.strength * dropSign (rate * d.scaling / density).re)).forget
        = density.forget * density.forget / d.density
          * (viscosity.forget.recip * d.viscosity).powAbs d.viscosityExponent
          * (rate.forget * d.scaling / density.forget
              * -dropSign (rate.forget * d.scaling / density.forget).re).powAbs d.rateExponent
          * (d.strength * dropSign (rate.forget * d.scaling / density.forget).re) := by
    intro density viscosity rate
    simp only [Dual.forget_mul_scalar, Dual.forget_mul, Dual.forget_div_scalar, Dual.forget_div,
      Dual.forget_recip, Dual.forget_powAbs]
    rfl
  refine (hdrop (weighted d.densityExponents upwind.fractions upwind.densities)
    (weighted d.viscosityExponents upwind.fractions upwind.viscosities) massRate).trans ?_
  rw [hdensity, hviscosity]
  rfl

theorem Valve.forget_drop (v : Valve α) :
    (v.drop upwind massRate).forget = v.drop upwind.forget massRate.forget := by
  simp only [Valve.drop, Dual.forget_mul_scalar, Dual.forget_add, Friction.forget_loss,
    Friction.forget_constrictionLoss]
  rfl

/-- A drop across a device has no derivative when neither the upwind state nor the mass rate has. -/
theorem Device.forget_drop (d : Device α) :
    (d.drop upwind massRate).forget = d.drop upwind.forget massRate.forget := by
  cases d with
  | pipe => rfl
  | spiral d => exact d.forget_drop upwind massRate
  | autonomous d => exact d.forget_drop upwind massRate
  | valve v => exact v.forget_drop upwind massRate

end Laws

/-! ## Terms of a segment -/

section Carried

variable [Scalar α] {states states' : States α} {seg : Nat}

/-- What a segment takes over from its upwind segment is seen from its own state and from the values
    of all others. -/
theorem carriedState_congr (hself : states seg = states' seg)
    (hothers : ∀ i, (states i).forget = (states' i).forget) (upwind : Nat) :
    carriedState states seg upwind = carriedState states' seg upwind := by
  rw [carriedState, carriedState, hothers upwind]
  by_cases h : seg = upwind
  · rw [← h, hself]
  · rw [beq_false_of_ne h, if_neg Bool.false_ne_true, if_neg Bool.false_ne_true]

theorem forget_carriedState (states : States α) (seg upwind : Nat) :
    (carriedState states seg upwind).forget
      = carriedState (fun i => (states i).forget) seg upwind := by
  rw [carriedState, carriedState, apply_ite FlowState.forget, FlowState.forget_forget]

end Carried

/-- The term belongs to a segment: it reads the state of the segment, and of all others only what
    remains when derivatives are forgotten; and without derivatives going in, none comes out. -/
structure TermOf [Scalar α] (seg : Nat) (term : States α → Dual α) : Prop where
  reads : ∀ states states' : States α, states seg = states' seg →
    (∀ i, (states i).forget = (states' i).forget) → term states = term states'
  plain : ∀ states, (term states).forget = term fun i => (states i).forget

namespace TermOf

section Reads

variable [Scalar α] {seg : Nat} {term : States α → Dual α}

/-- The value does not depend on what is differentiated. -/
theorem re_congr (h : TermOf seg term) {states states' : States α}
    (hsame : ∀ i, (states i).forget = (states' i).forget) :
    (term states).re = (term states').re := by
  have hvalue : (term states).forget = (term states').forget := by
    rw [h.plain, h.plain, funext hsame]
  show (term states).forget.re = (term states').forget.re
  rw [hvalue]

/-- A term has no derivative with respect to what its segment does not depend on. -/
theorem eps_eq_zero (h : TermOf seg term) {states : States α}
    (hself : (states seg).forget = states seg) : (term states).eps = 0 := by
  rw [h.reads states (fun i => (states i).forget) hself.symm fun _ => rfl, ← h.plain]
  exact Dual.forget_eps (term states)

theorem pressure (seg : Nat) : TermOf seg fun states : States α => (states seg).pressure where
  reads := fun _ _ hself _ => congrArg FlowState.pressure hself
  plain := fun _ => rfl

end Reads

variable [ExactScalar α] {seg : Nat}

theorem sub {first second : States α → Dual α} (hfirst : TermOf seg first)
    (hsecond : TermOf seg second) : TermOf seg fun states => first states - second states where
  reads := by
    intro states states' hself hothers
    rw [hfirst.reads states states' hself hothers, hsecond.reads states states' hself hothers]
  plain := by
    intro states
    rw [Dual.forget_sub, hfirst.plain, hsecond.plain]

/-- The weight of the column is a term of its segment. -/
theorem hydrostatic (w : SegmentedWell α) (seg : Nat) : TermOf seg (w.hydrostatic seg) where
  reads := by
    intro states states' hself _
    rw [SegmentedWell.hydrostatic, SegmentedWell.hydrostatic, hself]
  plain := by
    intro states
    rw [SegmentedWell.hydrostatic, SegmentedWell.hydrostatic, Dual.forget_mul_scalar]
    rfl

/-- A velocity head is a term of the segment whose flow it is about. -/
theorem headOf (area : α) (seg upwind : Nat) :
    TermOf seg (SegmentedWell.headOf area seg upwind) where
  reads := by
    intro states states' hself hothers
    rw [SegmentedWell.headOf, SegmentedWell.headOf, hself, carriedState_congr hself hothers]
  plain := by
    intro states
    rw [SegmentedWell.headOf, SegmentedWell.headOf, Friction.forget_velocityHead,
      ← forget_carriedState]
    rfl

variable [Transcendental α]

/-- Friction is a term of its segment. -/
theorem friction (w : SegmentedWell α) (segment : Segment α) (seg upwind : Nat) :
    TermOf seg (w.friction segment seg upwind) where
  reads := by
    intro states states' hself hothers
    rw [SegmentedWell.friction, SegmentedWell.friction, hself, carriedState_congr hself hothers]
  plain := by
    intro states
    rw [SegmentedWell.friction, SegmentedWell.friction, Dual.forget_ite, Dual.forget_zero,
      Dual.forget_mul_scalar, Friction.forget_loss, ← forget_carriedState]
    rfl

/-- The drop across a device is a term of its segment. -/
theorem deviceDrop (segment : Segment α) (seg upwind : Nat) :
    TermOf seg (SegmentedWell.deviceDrop segment seg upwind) where
  reads := by
    intro states states' hself hothers
    rw [SegmentedWell.deviceDrop, SegmentedWell.deviceDrop, hself,
      carriedState_congr hself hothers]
  plain := by
    intro states
    rw [SegmentedWell.deviceDrop, SegmentedWell.deviceDrop, Device.forget_drop,
      ← forget_carriedState]
    rfl

end TermOf

end ReservoirWells
