import Mathlib.Algebra.BigOperators.Ring.List
import Mathlib.Algebra.Order.BigOperators.Group.List
import Mathlib.Data.Finset.Max
import Mathlib.Tactic.Abel
import ReservoirWells.Proofs.Segment.Sessions

/-! # Mixtures — fractions that make up the whole

    The fractions of water and gas are unknowns in some layouts and not in others, and one phase is
    left with what remains of one.  Which phase that is, and which fractions have places of their
    own, is decided apart from each other; in every layout the three fractions make up one, with
    derivatives that make up zero, and a phase that is not active has none.

    So the density and the viscosity of a mixture are means of those of its phases, and a mass rate
    has the sign of the total rate:

    * `Unknowns.closed_seed` — fractions make up the whole;
    * `FlowState.isComputed` — what a computed state is made up of, for any fluid;
    * `amid_mean` — a mean lies between the smallest and the largest value;
    * `SegmentedWell.compute_mixtures` — the states of a well whose profile was computed. -/

namespace ReservoirWells

variable {α : Type}

/-! ## Fractions -/

/-- The three fractions make up one and keep doing so, and an inactive phase has none. -/
structure SeededRow.Closed [Scalar α] (x : SeededRow α) (phases : ActivePhases) : Prop where
  total : x.fractions.water + x.fractions.oil + x.fractions.gas = .const 1
  inactive : ∀ p, phases.isActive p = false → x.fractions.get p = 0

namespace Layout

/-- What the others leave goes to an active phase. -/
theorem isActive_impliedPhase {l : Layout} (h : 0 < l.components) :
    l.phases.isActive l.impliedPhase = true := by
  obtain ⟨⟨water, oil, gas⟩⟩ := l
  cases oil with
  | true => rfl
  | false =>
      cases gas with
      | true => rfl
      | false =>
          cases water with
          | true => rfl
          | false => exact absurd h (by decide)

/-- Water that gets what the others leave has no place of its own. -/
theorem waterSlot?_of_implied {l : Layout} (h : l.impliedPhase = .water) : l.waterSlot? = none := by
  obtain ⟨⟨water, oil, gas⟩⟩ := l
  cases oil with
  | true => cases h
  | false =>
      cases gas with
      | true => cases h
      | false => cases water <;> rfl

/-- Nor has gas that does. -/
theorem gasSlot?_of_implied {l : Layout} (h : l.impliedPhase = .gas) : l.gasSlot? = none := by
  obtain ⟨⟨water, oil, gas⟩⟩ := l
  cases oil with
  | true => cases h
  | false => exact if_neg (by rw [Bool.and_false]; exact Bool.false_ne_true)

/-- An inactive phase has no place of its own. -/
theorem waterSlot?_of_inactive {l : Layout} (h : l.phases.isActive .water = false) :
    l.waterSlot? = none := by
  rw [waterSlot?, show l.phases.water = false from h]
  rfl

theorem gasSlot?_of_inactive {l : Layout} (h : l.phases.isActive .gas = false) :
    l.gasSlot? = none := by
  rw [gasSlot?, show l.phases.gas = false from h]
  rfl

end Layout

namespace Unknowns

variable [ExactScalar α] (u : Unknowns α) (seg chosen : Nat)

/-- The fractions of a seeded row make up one, and their derivatives zero. -/
theorem total_seed : (u.seed seg chosen).fractions.water + (u.seed seg chosen).fractions.oil
    + (u.seed seg chosen).fractions.gas = .const 1 := by
  rw [seed_eq]
  generalize hwater : u.fraction seg chosen u.layout.waterSlot? = water
  generalize hgas : u.fraction seg chosen u.layout.gasSlot? = gas
  cases himplied : u.layout.impliedPhase with
  | water =>
      have hnone : water = 0 := by
        rw [← hwater, Layout.waterSlot?_of_implied himplied]
        rfl
      show .const 1 - water - gas + 0 + gas = .const 1
      rw [hnone]
      ext <;> simp
  | oil =>
      show water + (.const 1 - water - gas) + gas = .const 1
      ext
      · show water.re + (1 - water.re - gas.re) + gas.re = 1
        abel
      · show water.eps + (0 - water.eps - gas.eps) + gas.eps = 0
        abel
  | gas =>
      have hnone : gas = 0 := by
        rw [← hgas, Layout.gasSlot?_of_implied himplied]
        rfl
      show water + 0 + (.const 1 - water - gas) = .const 1
      rw [hnone]
      ext <;> simp

/-- Fractions make up the whole, in every layout and whatever is differentiated. -/
theorem closed_seed (h : 0 < u.layout.components) :
    (u.seed seg chosen).Closed u.layout.phases where
  total := u.total_seed seg chosen
  inactive := by
    intro p hp
    have hne : u.layout.impliedPhase ≠ p := by
      rintro rfl
      exact Bool.false_ne_true (hp.symm.trans (Layout.isActive_impliedPhase h))
    rw [seed_eq]
    show PerPhase.get (PerPhase.set _ _ _) p = 0
    rw [PerPhase.get_set, if_neg hne]
    cases p with
    | water =>
        show u.fraction seg chosen u.layout.waterSlot? = 0
        rw [Layout.waterSlot?_of_inactive hp]
        rfl
    | oil => rfl
    | gas =>
        show u.fraction seg chosen u.layout.gasSlot? = 0
        rw [Layout.gasSlot?_of_inactive hp]
        rfl

end Unknowns

/-! ## Properties of a computed state -/

namespace FlowState

section Properties

variable [Scalar α]

variable {f : Phase → Phase × Dual α × Dual α}

omit [Scalar α] in
/-- A property that is collected for some phases is read back for each of them. -/
theorem get_collected (hf : ∀ p, (f p).1 = p) (g : Phase × Dual α × Dual α → Dual α)
    (phases : List Phase) (all : PerPhase (Dual α)) {p : Phase}
    (h : p ∈ phases ∨ all.get p = g (f p)) :
    ((phases.map f).foldl (fun all y => all.set y.1 (g y)) all).get p = g (f p) := by
  induction phases generalizing all with
  | nil => exact h.resolve_left List.not_mem_nil
  | cons p' rest ih =>
      refine ih _ ?_
      rw [PerPhase.get_set, hf]
      by_cases hp : p' = p
      · rw [if_pos hp, hp]
        exact Or.inr rfl
      · rw [if_neg hp]
        refine h.imp_left fun hmem => ?_
        exact (List.mem_cons.mp hmem).resolve_left fun heq => hp heq.symm

/-- A mixture of properties is one of what was collected of them. -/
theorem mixture_collected (hf : ∀ p, (f p).1 = p) (g : Phase × Dual α × Dual α → Dual α)
    (phases : List Phase) (fractions property : PerPhase (Dual α))
    (h : ∀ p ∈ phases, property.get p = g (f p)) :
    (phases.map f).foldl (fun sum y => sum + fractions.get y.1 * g y) 0
      = phases.foldl (fun sum p => sum + fractions.get p * property.get p) 0 := by
  rw [List.foldl_map]
  refine List.foldl_ext _ _ _ fun sum p hp => ?_
  rw [hf, h p hp]

/-- A state whose properties are given phase by phase. -/
theorem ofProperties_map (x : SeededRow α) (phases : List Phase) (density viscosity : Phase → Dual α) :
    let s := ofProperties x (phases.map fun p => (p, density p, viscosity p))
    (∀ p ∈ phases, s.densities.get p = density p ∧ s.viscosities.get p = viscosity p) ∧
      s.density = phases.foldl (fun sum p => sum + s.fractions.get p * s.densities.get p) 0 ∧
      s.viscosity = phases.foldl (fun sum p => sum + s.fractions.get p * s.viscosities.get p) 0 := by
  intro s
  have hproperties : ∀ p ∈ phases,
      s.densities.get p = density p ∧ s.viscosities.get p = viscosity p := fun p hp =>
    ⟨get_collected (fun _ => rfl) (·.2.1) phases _ (Or.inl hp),
      get_collected (fun _ => rfl) (·.2.2) phases _ (Or.inl hp)⟩
  exact ⟨hproperties,
    mixture_collected (fun _ => rfl) (·.2.1) phases _ _ fun p hp => (hproperties p hp).1,
    mixture_collected (fun _ => rfl) (·.2.2) phases _ _ fun p hp => (hproperties p hp).2⟩

variable {law : FluidLaw α}

/-- What a fluid gives for some phases is given phase by phase. -/
theorem exists_properties {phases : List Phase} {pressure : Dual α}
    {properties : List (Phase × Dual α × Dual α)}
    (h : (phases.mapM fun p => do
      let density ← law.density p pressure
      let viscosity ← law.viscosity p pressure
      return (p, density, viscosity)) = .ok properties) :
    ∃ density viscosity : Phase → Dual α,
      (∀ p ∈ phases, law.density p pressure = .ok (density p) ∧
        law.viscosity p pressure = .ok (viscosity p)) ∧
      properties = phases.map fun p => (p, density p, viscosity p) := by
  let density p := (law.density p pressure).toOption.getD 0
  let viscosity p := (law.viscosity p pressure).toOption.getD 0
  refine ⟨density, viscosity, ?_⟩
  have hall := forall₂_of_mapM h
  clear h
  induction hall with
  | nil => exact ⟨fun _ hp => absurd hp List.not_mem_nil, rfl⟩
  | @cons p y rest ys hy _ ih =>
      obtain ⟨d, hd, hy⟩ := bind_eq_ok.mp hy
      obtain ⟨v, hv, hy⟩ := bind_eq_ok.mp hy
      obtain rfl := Except.ok.inj hy
      have hdensity : density p = d := getD_of_ok hd 0
      have hviscosity : viscosity p = v := getD_of_ok hv 0
      rw [List.forall_mem_cons, List.map_cons, hdensity, hviscosity, ← ih.2]
      exact ⟨⟨⟨hd, hv⟩, ih.1⟩, rfl⟩

/-- A computed state is made up of the unknowns and of the properties of the active phases at their
    pressure. -/
structure IsComputed (s : FlowState α) (law : FluidLaw α) (phases : List Phase) (x : SeededRow α) :
    Prop where
  pressure : s.pressure = x.pressure
  totalRate : s.totalRate = x.totalRate
  fractions : s.fractions = x.fractions
  properties : ∀ p ∈ phases, law.density p s.pressure = .ok (s.densities.get p) ∧
    law.viscosity p s.pressure = .ok (s.viscosities.get p)
  density : s.density = phases.foldl (fun sum p => sum + s.fractions.get p * s.densities.get p) 0
  viscosity : s.viscosity
    = phases.foldl (fun sum p => sum + s.fractions.get p * s.viscosities.get p) 0
  massRate : s.massRate = s.totalRate * s.density

theorem isComputed {u : Unknowns α} {seg chosen : Nat} {s : FlowState α}
    (h : computeBy law u seg chosen = .ok s) :
    s.IsComputed law u.layout.phases.toList (u.seed seg chosen) := by
  obtain ⟨properties, hproperties, hs⟩ := bind_eq_ok.mp h
  obtain ⟨density, viscosity, hvalues, rfl⟩ := exists_properties hproperties
  cases hs
  obtain ⟨hread, hdensity, hviscosity⟩ :=
    ofProperties_map (u.seed seg chosen) u.layout.phases.toList density viscosity
  refine ⟨rfl, rfl, rfl, ?_, hdensity, hviscosity, rfl⟩
  intro p hp
  rw [(hread p hp).1, (hread p hp).2]
  exact hvalues p hp

end Properties

end FlowState

/-! ## Means -/

section Means

variable [ExactScalar α]

/-- A scalar lies between the smallest and the largest value of some phases. -/
def Amid (phases : List Phase) (value : Phase → α) (x : α) : Prop :=
  ∃ least ∈ phases, ∃ most ∈ phases,
    (∀ p ∈ phases, value least ≤ value p ∧ value p ≤ value most) ∧ value least ≤ x ∧ x ≤ value most

/-- A mean lies between the smallest and the largest value. -/
theorem amid_mean {phases : List Phase} {weight : Phase → α} (hweight : ∀ p ∈ phases, 0 ≤ weight p)
    (htotal : (phases.map weight).sum = 1) (value : Phase → α) :
    Amid phases value (phases.map fun p => weight p * value p).sum := by
  have hnonempty : phases.toFinset.Nonempty := by
    refine List.toFinset_nonempty_iff phases |>.mpr ?_
    rintro rfl
    exact zero_ne_one htotal
  obtain ⟨least, hleast, hle⟩ := phases.toFinset.exists_min_image value hnonempty
  obtain ⟨most, hmost, hge⟩ := phases.toFinset.exists_max_image value hnonempty
  refine ⟨least, List.mem_toFinset.mp hleast, most, List.mem_toFinset.mp hmost, ?_, ?_, ?_⟩
  · intro p hp
    exact ⟨hle p (List.mem_toFinset.mpr hp), hge p (List.mem_toFinset.mpr hp)⟩
  · calc
      value least = (phases.map fun p => weight p * value least).sum := by
        rw [List.sum_map_mul_right, htotal, one_mul]
      _ ≤ (phases.map fun p => weight p * value p).sum := by
        refine List.sum_le_sum fun p hp => ?_
        exact mul_le_mul_of_nonneg_left (hle p (List.mem_toFinset.mpr hp)) (hweight p hp)
  · calc
      (phases.map fun p => weight p * value p).sum
          ≤ (phases.map fun p => weight p * value most).sum := by
        refine List.sum_le_sum fun p hp => ?_
        exact mul_le_mul_of_nonneg_left (hge p (List.mem_toFinset.mpr hp)) (hweight p hp)
      _ = value most := by rw [List.sum_map_mul_right, htotal, one_mul]

/-- The value of a mixture is the mean of the values of its phases. -/
theorem re_mixture (phases : List Phase) (fractions property : PerPhase (Dual α)) :
    (phases.foldl (fun sum p => sum + fractions.get p * property.get p) 0).re
      = (phases.map fun p => (fractions.get p).re * (property.get p).re).sum := by
  have hfold : ∀ (l : List Phase) (sum : Dual α),
      (l.foldl (fun sum p => sum + fractions.get p * property.get p) sum).re
        = sum.re + (l.map fun p => (fractions.get p).re * (property.get p).re).sum := by
    intro l
    induction l with
    | nil => exact fun sum => (add_zero sum.re).symm
    | cons p rest ih =>
        intro sum
        rw [List.foldl_cons, ih, List.map_cons, List.sum_cons, Dual.re_add, Dual.re_mul, add_assoc]
  exact (hfold phases 0).trans (zero_add _)

/-- The fractions of the active phases alone make up one. -/
theorem SeededRow.Closed.sum_active {x : SeededRow α} {phases : ActivePhases} (h : x.Closed phases) :
    (phases.toList.map fun p => (x.fractions.get p).re).sum = 1 := by
  rw [ActivePhases.toList, sum_map_filter_of_zero fun p _ hp => by rw [h.inactive p hp]; rfl]
  have htotal : x.fractions.water.re + x.fractions.oil.re + x.fractions.gas.re = 1 :=
    congrArg Dual.re h.total
  rw [← htotal, add_assoc]
  show x.fractions.water.re + (x.fractions.oil.re + (x.fractions.gas.re + 0)) = _
  rw [add_zero]

end Means

/-! ## States of a well -/

/-- A state as it should be: properties of the active phases at its pressure, a density and a
    viscosity that lie among them, and a mass rate with the sign of the total rate. -/
structure FlowState.IsMixture [ExactScalar α] (s : FlowState α) (law : FluidLaw α)
    (phases : List Phase) : Prop where
  properties : ∀ p ∈ phases, law.density p s.pressure = .ok (s.densities.get p) ∧
    law.viscosity p s.pressure = .ok (s.viscosities.get p)
  density : (∀ p, 0 ≤ (s.fractions.get p).re) →
    Amid phases (fun p => (s.densities.get p).re) s.density.re
  viscosity : (∀ p, 0 ≤ (s.fractions.get p).re) →
    Amid phases (fun p => (s.viscosities.get p).re) s.viscosity.re
  massRate : (∀ p, 0 ≤ (s.fractions.get p).re) → (∀ p ∈ phases, 0 < (s.densities.get p).re) →
    (0 < s.massRate.re ↔ 0 < s.totalRate.re) ∧ (s.massRate.re < 0 ↔ s.totalRate.re < 0)

section Wells

variable [ExactScalar α]

theorem FlowState.IsComputed.isMixture {s : FlowState α} {law : FluidLaw α} {phases : ActivePhases}
    {x : SeededRow α} (h : s.IsComputed law phases.toList x) (hclosed : x.Closed phases) :
    s.IsMixture law phases.toList := by
  have htotal : (phases.toList.map fun p => (s.fractions.get p).re).sum = 1 :=
    h.fractions ▸ hclosed.sum_active
  have hdensity : (∀ p, 0 ≤ (s.fractions.get p).re) →
      Amid phases.toList (fun p => (s.densities.get p).re) s.density.re := by
    intro hfractions
    rw [h.density, re_mixture]
    exact amid_mean (fun p _ => hfractions p) htotal _
  refine ⟨h.properties, hdensity, ?_, ?_⟩
  · intro hfractions
    rw [h.viscosity, re_mixture]
    exact amid_mean (fun p _ => hfractions p) htotal _
  · intro hfractions hpos
    obtain ⟨least, hleast, _, _, _, hle, _⟩ := hdensity hfractions
    have hdense : 0 < s.density.re := (hpos least hleast).trans_le hle
    rw [h.massRate, Dual.re_mul]
    exact ⟨mul_pos_iff_of_pos_right hdense,
      fun hneg => neg_of_mul_neg_left hneg hdense.le, fun hneg => mul_neg_of_neg_of_pos hneg hdense⟩

/-- In every layout with an active phase the seeded fractions make up one and their derivatives zero,
    and inactive phases have none. So once the profile of a well was computed, for any fluid, the
    density and the viscosity of every segment whose fractions are not negative lie between those of
    its phases, and its mass rate has the sign of its total rate. -/
theorem SegmentedWell.compute_mixtures (w : SegmentedWell α) (law : FluidLaw α)
    (hphases : 0 < w.layout.components) :
    (∀ seg chosen, (w.unknowns.seed seg chosen).Closed w.layout.phases) ∧
      ∀ w', w.computeBy law = .ok w' → ∃ q, w'.profile = some q ∧
        ∀ seg < w.tree.size, ∀ chosen < w.layout.size,
          (q.statesFor chosen seg).pressure = (w.unknowns.seed seg chosen).pressure ∧
          (q.statesFor chosen seg).totalRate = (w.unknowns.seed seg chosen).totalRate ∧
          (q.statesFor chosen seg).fractions = (w.unknowns.seed seg chosen).fractions ∧
          (q.statesFor chosen seg).IsMixture law w.layout.phases.toList := by
  have hclosed : ∀ seg chosen, (w.unknowns.seed seg chosen).Closed w.layout.phases :=
    fun seg chosen => w.unknowns.closed_seed seg chosen hphases
  refine ⟨hclosed, ?_⟩
  intro w' hw'
  rw [computeBy] at hw'
  cases hq : Profile.computeBy law w.tree w.unknowns with
  | error e =>
      rw [hq] at hw'
      cases hw'
  | ok q =>
      rw [hq] at hw'
      cases hw'
      obtain ⟨slots, hslots, hslots'⟩ := bind_eq_ok.mp hq
      cases hslots'
      refine ⟨_, rfl, ?_⟩
      intro seg hseg chosen hchosen
      obtain ⟨_, hstates⟩ := Profile.statesFor_of_mapM
        ((List.range w.tree.size).map (Profile.upwindOf w.tree w.unknowns)) hslots
      have hcomputed := FlowState.isComputed ((hstates chosen hchosen).1 seg hseg)
      exact ⟨hcomputed.pressure, hcomputed.totalRate, hcomputed.fractions,
        hcomputed.isMixture (hclosed seg chosen)⟩

end Wells

/-- Water and a lighter, more viscous oil. -/
def blend : Fluid ℚ := .constant ⟨some ⟨1000, 1⟩, some ⟨800, 5⟩, none⟩

/-- A well with water and oil that injects through its first branch and produces from all others. -/
def SegmentedWell.blended : SegmentedWell ℚ :=
  { make "B" SegmentTree.sideBranch ⟨true, true, false⟩ ⟨true, true, 10⟩ with
    unknowns := ⟨⟨⟨true, true, false⟩⟩,
      [[-3, 1 / 4, 100], [1, 1, 130], [-1, 1 / 2, 110], [-2, 0, 120]]⟩ }

/-- Half water and half oil: the mixture lies between the two, and a rate below zero is a mass rate
    below zero. -/
theorem SegmentedWell.compute_mixtures_blended : ∃ w' q, blended.compute blend = .ok w' ∧
    w'.profile = some q ∧ (blended.unknowns.seed 2 1).Closed ⟨true, true, false⟩ ∧
    (q.statesFor 1 2).massRate.re < 0 ∧
    Amid [.water, .oil] (fun p => ((q.statesFor 1 2).densities.get p).re) (q.statesFor 1 2).density.re ∧
    Amid [.water, .oil] (fun p => ((q.statesFor 1 2).viscosities.get p).re)
      (q.statesFor 1 2).viscosity.re := by
  obtain ⟨hclosed, hstates⟩ := compute_mixtures blended blend.law (by decide)
  have hok : (blended.compute blend).toBool = true := by decide +kernel
  cases hw' : blended.compute blend with
  | error e =>
      rw [hw'] at hok
      cases hok
  | ok w' =>
      obtain ⟨q, hq, hall⟩ := hstates w' ((blended.computeBy_law blend).trans hw')
      obtain ⟨_, hrate, hfractions, hmixture⟩ := hall 2 (by decide) 1 (by decide)
      have hnonneg : ∀ p, 0 ≤ ((q.statesFor 1 2).fractions.get p).re := by
        rw [hfractions]
        intro p
        cases p <;> decide +kernel
      have hpos : ∀ p ∈ [Phase.water, .oil], 0 < ((q.statesFor 1 2).densities.get p).re := by
        intro p hp
        have hdensity := (hmixture.properties p hp).1
        simp only [List.mem_cons, List.not_mem_nil, or_false] at hp
        rcases hp with rfl | rfl
        · rw [← Except.ok.inj (show Except.ok (Dual.const (1000 : ℚ)) = _ from hdensity)]
          decide +kernel
        · rw [← Except.ok.inj (show Except.ok (Dual.const (800 : ℚ)) = _ from hdensity)]
          decide +kernel
      have hneg : (q.statesFor 1 2).totalRate.re < 0 := by
        rw [hrate]
        decide +kernel
      exact ⟨w', q, rfl, hq, hclosed 2 1, (hmixture.massRate hnonneg hpos).2.mpr hneg,
        hmixture.density hnonneg, hmixture.viscosity hnonneg⟩

end ReservoirWells
