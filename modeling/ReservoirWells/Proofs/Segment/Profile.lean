import ReservoirWells.Proofs.Fallible
import ReservoirWells.Proofs.Segment.Terms

/-! # Profiles — the states of a profile, unknown by unknown

    A profile holds the states of all segments once for every unknown.  What they hold apart from
    derivatives is the same every time, and a state that is not differentiated at all is what
    remains of any of them:

    * `FlowState.compute_plain` — the state of a segment for an unknown that it does not have;
    * `Profile.statesFor` — the states that are differentiated with respect to one unknown;
    * `Profile.isOf_of_compute` — these are the computed ones, for every unknown and segment;
    * `Profile.evaluate_value`, `Profile.evaluate_derivatives` — a term that is evaluated. -/

namespace ReservoirWells

variable {α : Type}

/-! ## Places of unknowns -/

namespace Layout

theorem rateSlot_lt_size (l : Layout) : rateSlot < l.size := Nat.succ_pos _

theorem pressureSlot_lt_size (l : Layout) : l.pressureSlot < l.size := Nat.lt_succ_self _

theorem size_pos (l : Layout) : 0 < l.size := l.rateSlot_lt_size

/-- The place of the water fraction is within the layout. -/
theorem waterSlot?_lt_size {l : Layout} {slot : Nat} (h : l.waterSlot? = some slot) :
    slot < l.size := by
  have hone : slot = 1 := by
    rw [waterSlot?] at h
    split at h
    · exact (Option.some.inj h).symm
    · cases h
  rw [size, pressureSlot, h, hone]
  simp only [Option.isSome_some, if_true]
  omega

/-- And so is the place of the gas fraction. -/
theorem gasSlot?_lt_size {l : Layout} {slot : Nat} (h : l.gasSlot? = some slot) :
    slot < l.size := by
  have hslot : slot = if l.waterSlot?.isSome then 2 else 1 := by
    rw [gasSlot?] at h
    split at h
    · exact (Option.some.inj h).symm
    · cases h
  rw [size, pressureSlot, h, hslot]
  simp only [Option.isSome_some, if_true]
  split <;> omega

end Layout

/-! ## One state -/

section States

variable [Scalar α]

/-- The unknowns of a segment without derivatives. -/
def SeededRow.forget (x : SeededRow α) : SeededRow α :=
  ⟨x.totalRate.forget, x.pressure.forget, x.fractions.map Dual.forget⟩

namespace FlowState

/-- Density and viscosity of some phases at a pressure. -/
def propertiesAt [Transcendental α] (fluid : Fluid α) (phases : List Phase) (pressure : Dual α) :
    Except (PropertyError α) (List (Phase × Dual α × Dual α)) :=
  phases.mapM fun p => do
    let density ← fluid.density p pressure
    let viscosity ← fluid.viscosity p
    return (p, density, viscosity)

/-- The state of a segment from its unknowns and the properties of the phases. -/
def ofProperties (x : SeededRow α) (properties : List (Phase × Dual α × Dual α)) :
    FlowState α :=
  let density := properties.foldl
    (fun sum (p, density, _) => sum + x.fractions.get p * density) (0 : Dual α)
  { pressure := x.pressure
    totalRate := x.totalRate
    fractions := x.fractions
    densities := properties.foldl (fun all (p, density, _) => all.set p density) (.const 0)
    viscosities := properties.foldl (fun all (p, _, viscosity) => all.set p viscosity) (.const 0)
    density
    viscosity := properties.foldl
      (fun sum (p, _, viscosity) => sum + x.fractions.get p * viscosity) (0 : Dual α)
    massRate := x.totalRate * density }

theorem compute_eq [Transcendental α] (fluid : Fluid α) (u : Unknowns α) (seg chosen : Nat) :
    compute fluid u seg chosen
      = (propertiesAt fluid u.layout.phases.toList (u.seed seg chosen).pressure).map
          (ofProperties (u.seed seg chosen)) := by
  show (propertiesAt fluid u.layout.phases.toList (u.seed seg chosen).pressure >>= fun properties =>
    .ok (ofProperties (u.seed seg chosen) properties)) = _
  cases propertiesAt fluid u.layout.phases.toList (u.seed seg chosen).pressure <;> rfl

/-- The pressure of a state is that of the unknowns. -/
theorem pressure_of_compute [Transcendental α] {fluid : Fluid α} {u : Unknowns α}
    {seg chosen : Nat} {s : FlowState α} (h : compute fluid u seg chosen = .ok s) :
    s.pressure = u.seeded seg chosen u.layout.pressureSlot := by
  rw [compute_eq] at h
  cases hp : propertiesAt fluid u.layout.phases.toList (u.seed seg chosen).pressure with
  | error e => rw [hp] at h; cases h
  | ok properties => rw [hp] at h; cases h; rfl

/-- The properties of a phase without derivatives. -/
def plainProperties (x : Phase × Dual α × Dual α) : Phase × Dual α × Dual α :=
  (x.1, x.2.1.forget, x.2.2.forget)

/-- A property of every phase. -/
theorem forget_collected {g : Phase × Dual α × Dual α → Dual α}
    (hg : ∀ y, (g y).forget = g (plainProperties y)) (properties : List (Phase × Dual α × Dual α))
    (all : PerPhase (Dual α)) :
    (properties.foldl (fun all y => all.set y.1 (g y)) all).map Dual.forget
      = (properties.map plainProperties).foldl (fun all y => all.set y.1 (g y))
          (all.map Dual.forget) := by
  induction properties generalizing all with
  | nil => rfl
  | cons y rest ih =>
      rw [List.foldl_cons, List.map_cons, List.foldl_cons, ih, PerPhase.map_set, hg]
      rfl

end FlowState

end States

/-! ## States without derivatives -/

section Plain

variable [ExactScalar α]

namespace Unknowns

/-- The fraction at a place, which a phase without such a place does not have. -/
def fraction (u : Unknowns α) (seg chosen : Nat) : Option Nat → Dual α
  | some slot => u.seeded seg chosen slot
  | none => 0

theorem seed_eq (u : Unknowns α) (seg chosen : Nat) : u.seed seg chosen =
    { totalRate := u.seeded seg chosen Layout.rateSlot
      pressure := u.seeded seg chosen u.layout.pressureSlot
      fractions := PerPhase.set
        ⟨u.fraction seg chosen u.layout.waterSlot?, 0, u.fraction seg chosen u.layout.gasSlot?⟩
        u.layout.impliedPhase (.const 1 - u.fraction seg chosen u.layout.waterSlot?
          - u.fraction seg chosen u.layout.gasSlot?) } := by
  rw [seed]
  cases u.layout.waterSlot? <;> cases u.layout.gasSlot? <;> rfl

/-- An unknown without derivative is seeded for a place outside the layout. -/
theorem forget_seeded (u : Unknowns α) (seg chosen : Nat) {slot : Nat} (h : slot < u.layout.size) :
    (u.seeded seg chosen slot).forget = u.seeded seg u.layout.size slot := by
  refine Dual.forget_eq rfl ?_
  show (if slot == u.layout.size then 1 else 0 : α) = 0
  rw [beq_false_of_ne h.ne, if_neg Bool.false_ne_true]

theorem forget_fraction (u : Unknowns α) (seg chosen : Nat) {slot? : Option Nat}
    (h : ∀ slot, slot? = some slot → slot < u.layout.size) :
    (u.fraction seg chosen slot?).forget = u.fraction seg u.layout.size slot? := by
  cases slot? with
  | none => rfl
  | some slot => exact u.forget_seeded seg chosen (h slot rfl)

/-- The values of the unknowns do not depend on which of them is differentiated. -/
theorem forget_seed (u : Unknowns α) (seg chosen : Nat) :
    (u.seed seg chosen).forget = u.seed seg u.layout.size := by
  have hwater := u.forget_fraction seg chosen fun _ => Layout.waterSlot?_lt_size
  have hgas := u.forget_fraction seg chosen fun _ => Layout.gasSlot?_lt_size
  rw [seed_eq, seed_eq, SeededRow.forget]
  simp only [u.forget_seeded seg chosen u.layout.rateSlot_lt_size,
    u.forget_seeded seg chosen u.layout.pressureSlot_lt_size, PerPhase.map_set, PerPhase.map_mk,
    Dual.forget_sub, Dual.forget_const, Dual.forget_zero, hwater, hgas]

end Unknowns

variable [Transcendental α]

namespace Fluid

/-- The density of a phase without derivative is the density at the pressure without derivative. -/
theorem forget_density (f : Fluid α) (p : Phase) (pressure : Dual α) :
    (f.density p pressure).map Dual.forget = f.density p pressure.forget := by
  cases f with
  | constant phases =>
      rw [density, density]
      cases parameters (α := α) phases p <;> rfl
  | compressible phases =>
      rw [density, density]
      cases parameters (α := α) phases p with
      | error e => rfl
      | ok b =>
          have hrho : (((pressure - b.referencePressure) * b.compressibility).exp
              * b.referenceDensity).forget
                = ((pressure.forget - b.referencePressure) * b.compressibility).exp
                  * b.referenceDensity := by
            simp only [Dual.forget_mul_scalar, Dual.forget_exp, Dual.forget_sub_scalar]
          simp only [bind, Except.bind, ← hrho, Dual.forget_re]
          split <;> rfl

omit [Transcendental α] in
theorem forget_viscosity (f : Fluid α) (p : Phase) :
    (f.viscosity p).map Dual.forget = f.viscosity p := by
  cases f with
  | constant phases =>
      rw [viscosity]
      cases parameters (α := α) phases p <;> rfl
  | compressible phases =>
      rw [viscosity]
      cases parameters (α := α) phases p <;> rfl

end Fluid

namespace FlowState

theorem forget_propertiesAt (fluid : Fluid α) (phases : List Phase) (pressure : Dual α) :
    (propertiesAt fluid phases pressure).map (List.map plainProperties)
      = propertiesAt fluid phases pressure.forget := by
  refine map_mapM (fun p => ?_) phases
  rw [← fluid.forget_density, ← fluid.forget_viscosity]
  cases fluid.density p pressure with
  | error e => rfl
  | ok density => cases fluid.viscosity p <;> rfl

omit [Transcendental α] in
/-- A sum over the phases, weighted by the fractions. -/
theorem forget_mixture (fractions : PerPhase (Dual α)) {g : Phase × Dual α × Dual α → Dual α}
    (hg : ∀ y, (g y).forget = g (plainProperties y)) (properties : List (Phase × Dual α × Dual α))
    (sum : Dual α) :
    (properties.foldl (fun sum y => sum + fractions.get y.1 * g y) sum).forget
      = (properties.map plainProperties).foldl
          (fun sum y => sum + (fractions.map Dual.forget).get y.1 * g y) sum.forget := by
  induction properties generalizing sum with
  | nil => rfl
  | cons y rest ih =>
      rw [List.foldl_cons, List.map_cons, List.foldl_cons, ih, Dual.forget_add, Dual.forget_mul, hg,
        ← fractions.map_get Dual.forget]
      rfl

omit [Transcendental α] in
theorem forget_ofProperties (x : SeededRow α) (properties : List (Phase × Dual α × Dual α)) :
    (ofProperties x properties).forget
      = ofProperties x.forget (properties.map plainProperties) := by
  have hdensity := forget_mixture x.fractions (g := (·.2.1)) (fun _ => rfl) properties 0
  have hviscosity := forget_mixture x.fractions (g := (·.2.2)) (fun _ => rfl) properties 0
  have hdensities := forget_collected (g := (·.2.1)) (fun _ => rfl) properties (.const 0)
  have hviscosities := forget_collected (g := (·.2.2)) (fun _ => rfl) properties (.const 0)
  rw [ofProperties, ofProperties, forget]
  simp only [Dual.forget_mul]
  rw [hdensity, hviscosity, hdensities, hviscosities]
  rfl

/-- A state without derivatives is the state for an unknown that no segment has. -/
theorem compute_plain (fluid : Fluid α) (u : Unknowns α) (seg chosen : Nat) :
    (compute fluid u seg chosen).map forget = compute fluid u seg u.layout.size := by
  have hpressure : (u.seed seg chosen).pressure.forget = (u.seed seg u.layout.size).pressure := by
    rw [← u.forget_seed seg chosen]
    rfl
  rw [compute_eq, compute_eq, ← hpressure, ← forget_propertiesAt, ← u.forget_seed seg chosen]
  cases propertiesAt fluid u.layout.phases.toList (u.seed seg chosen).pressure with
  | error e => rfl
  | ok properties => exact congrArg Except.ok (forget_ofProperties _ properties)

end FlowState

end Plain

/-! ## Profiles -/

namespace Profile

section Reading

variable [Scalar α]

/-- The states that are differentiated with respect to one unknown. -/
def statesFor (q : Profile α) (v : Nat) : States α := statesOf (q.slots[v]?.getD [])

/-- The profile holds what follows from the unknowns. -/
structure IsOf [Transcendental α] (q : Profile α) (t : SegmentTree α) (u : Unknowns α)
    (fluid : Fluid α) : Prop where
  slots_length : q.slots.length = u.layout.size
  upwind_eq : ∀ i < t.size, q.upwind i = upwindOf t u i
  state_eq : ∀ v < u.layout.size, ∀ i < t.size,
    FlowState.compute fluid u i v = .ok (q.statesFor v i)
  still_eq : ∀ v i, t.size ≤ i → v < u.layout.size → q.statesFor v i = .still

/-- States that are computed one by one are found in their places, and none beyond these. -/
theorem statesFor_of_mapM {state : Nat → Nat → Except (PropertyError α) (FlowState α)}
    (upwinds : List Nat) {slots : List (List (FlowState α))} {unknowns segments : Nat}
    (h : (List.range unknowns).mapM (fun v => (List.range segments).mapM fun i => state i v)
      = .ok slots) :
    slots.length = unknowns ∧ ∀ v < unknowns,
      (∀ i < segments, state i v = .ok ((Profile.mk upwinds slots).statesFor v i)) ∧
      ∀ i, segments ≤ i → (Profile.mk upwinds slots).statesFor v i = .still := by
  obtain ⟨hlen, hall⟩ := mapM_range h
  refine ⟨hlen, fun v hv => ?_⟩
  obtain ⟨slot, hget, hmap⟩ := hall v hv
  obtain ⟨hsize, hstates⟩ := mapM_range hmap
  rw [statesFor, hget, Option.getD_some]
  refine ⟨fun i hi => ?_, fun i hi => ?_⟩
  · obtain ⟨s, hs, hstate⟩ := hstates i hi
    rw [hstate, statesOf, hs]
    rfl
  · rw [statesOf, List.getElem?_eq_none (hsize ▸ hi)]
    rfl

/-- A computed profile does. -/
theorem isOf_of_compute [Transcendental α] {q : Profile α} {t : SegmentTree α} {u : Unknowns α}
    {fluid : Fluid α} (h : compute t u fluid = .ok q) : q.IsOf t u fluid := by
  obtain ⟨slots, hslots, hq⟩ := bind_eq_ok.mp h
  cases hq
  obtain ⟨hlen, hstates⟩ := statesFor_of_mapM _ hslots
  refine ⟨hlen, fun i hi => ?_, fun v hv => (hstates v hv).1, fun v i hi hv => (hstates v hv).2 i hi⟩
  show (((List.range t.size).map (upwindOf t u))[i]?).getD i = _
  rw [List.getElem?_map, List.getElem?_range hi]
  rfl

theorem IsOf.slots_pos [Transcendental α] {q : Profile α} {t : SegmentTree α} {u : Unknowns α}
    {fluid : Fluid α} (h : q.IsOf t u fluid) : 0 < q.slots.length := by
  rw [h.slots_length]
  exact u.layout.size_pos

theorem values_eq (q : Profile α) : q.values = q.statesFor 0 := by
  rw [values, statesFor, List.head?_eq_getElem?]

/-- The value of a term is that for the first unknown. -/
theorem evaluate_value {q : Profile α} (h : 0 < q.slots.length) (term : States α → Dual α) :
    (q.evaluate term).value = (term (q.statesFor 0)).re := by
  show (((q.slots.map fun slot => term (statesOf slot)).head?.map Dual.re).getD 0) = _
  rw [statesFor, List.head?_map, List.head?_eq_getElem?, List.getElem?_eq_getElem h]
  rfl

/-- The derivatives of a term are those for the unknowns one after the other. -/
theorem evaluate_derivatives {q : Profile α} (term : States α → Dual α) {v : Nat}
    (h : v < q.slots.length) :
    (q.evaluate term).derivatives.getD v 0 = (term (q.statesFor v)).eps := by
  show ((q.slots.map fun slot => term (statesOf slot)).map Dual.eps).getD v 0 = _
  rw [statesFor, List.getD_eq_getElem?_getD, List.getElem?_map, List.getElem?_map,
    List.getElem?_eq_getElem h]
  rfl

theorem length_derivatives (q : Profile α) (term : States α → Dual α) :
    (q.evaluate term).derivatives.length = q.slots.length := by
  show ((q.slots.map fun slot => term (statesOf slot)).map Dual.eps).length = _
  rw [List.length_map, List.length_map]

end Reading

section Values

variable [ExactScalar α] [Transcendental α] {q : Profile α} {t : SegmentTree α} {u : Unknowns α}
  {fluid : Fluid α}

/-- The pressure of a state is the unknown. -/
theorem IsOf.pressure_eq (h : q.IsOf t u fluid) {v i : Nat} (hv : v < u.layout.size)
    (hi : i < t.size) :
    (q.statesFor v i).pressure = u.seeded i v u.layout.pressureSlot :=
  FlowState.pressure_of_compute (h.state_eq v hv i hi)

/-- The state of a segment without derivatives. -/
theorem IsOf.compute_plain (h : q.IsOf t u fluid) {v i : Nat} (hv : v < u.layout.size)
    (hi : i < t.size) :
    FlowState.compute fluid u i u.layout.size = .ok (q.statesFor v i).forget := by
  rw [← FlowState.compute_plain fluid u i v, h.state_eq v hv i hi]
  rfl

end Values

end Profile

end ReservoirWells
