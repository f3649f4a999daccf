import Mathlib.Algebra.BigOperators.Group.List.Basic
import ReservoirWells.Proofs.Exact
import ReservoirWells.Proofs.Group.Blocks
import ReservoirWells.Proofs.Group.Correction

/-! # Totals — the check and the reinjection see the same production

    A check adds up whole blocks, well by well; reinjection adds up single entries of the flat lists,
    found by index.  When nothing is rounded both come to the same sum over the wells:

    * `Node.flowAt` — what a well contributes in a direction at one place of its block;
    * `Forest.flows_get` — the totals of a check are the sums of the contributions;
    * `Forest.producedAt_ok` — so is the production of a phase;
    * `Site.totals_of_met` — hence a check that finds nothing and the production of a subtree
      agree. -/

namespace ReservoirWells

variable {α : Type}

/-! ## Places of a triple -/

/-- The entry of a triple at a place; zero behind the third. -/
def Triple.get [Zero α] (t : Triple α) (place : Nat) : α := t.toList[place]?.getD 0

@[simp] theorem Triple.get_const_zero [Zero α] (place : Nat) :
    (Triple.const (0 : α)).get place = 0 := by
  rcases place with _ | _ | _ | place <;> rfl

/-- Blocks have three entries at most, and a block is found whole in its triple. -/
theorem Triple.get_ofBlock [Zero α] {block : List α} (h : block.length ≤ 3) (place : Nat) :
    (Triple.ofBlock block).get place = block[place]?.getD 0 := by
  rcases place with _ | _ | _ | place
  · rfl
  · rfl
  · rfl
  · rw [List.getElem?_eq_none (by omega : block.length ≤ place + 3)]
    rfl

/-- An entry of the stretch that belongs to a well is found in the flat list by index. -/
theorem getElem?_block (flows : List α) (index phases place : Nat) :
    ((flows.drop (index * phases)).take phases)[place]?
      = if place < phases then flows[index * phases + place]? else none := by
  rw [List.getElem?_take, List.getElem?_drop]

/-- What a well contributes to the flow in a direction at one place of its block. Injectors inject
    and all other wells produce; behind the last active phase nothing flows. -/
def Node.flowAt [Scalar α] (n : Node α) (d : Direction) (phases place : Nat) (flows : List α) : α :=
  if n.isInjector = (d == .injection) ∧ place < phases then
    match n.tableIndex with
    | .ok index => flows[index * phases + place]?.getD 0
    | .error _ => 0
  else 0

/-- The contributions of all wells of a forest. -/
def Forest.flowAt [ExactScalar α] (d : Direction) (phases place : Nat) (flows : List α)
    (f : Forest α) : α :=
  (f.wells.map fun w => w.2.flowAt d phases place flows).sum

variable [ExactScalar α]

theorem Triple.get_add (s t : Triple α) (place : Nat) :
    (s.zipWith (· + ·) t).get place = s.get place + t.get place := by
  rcases place with _ | _ | _ | place
  · rfl
  · rfl
  · rfl
  · exact (add_zero (0 : α)).symm

namespace FlowTotals

theorem reservoir_add_get (s t : FlowTotals α) (d : Direction) (place : Nat) :
    ((s + t).reservoir d).get place = (s.reservoir d).get place + (t.reservoir d).get place := by
  cases d with
  | production => exact Triple.get_add s.reservoirProduction t.reservoirProduction place
  | injection => exact Triple.get_add s.reservoirInjection t.reservoirInjection place

theorem surface_add_get (s t : FlowTotals α) (d : Direction) (place : Nat) :
    ((s + t).surface d).get place = (s.surface d).get place + (t.surface d).get place := by
  cases d with
  | production => exact Triple.get_add s.surfaceProduction t.surfaceProduction place
  | injection => exact Triple.get_add s.surfaceInjection t.surfaceInjection place

theorem zero_get (d : Direction) (place : Nat) :
    ((zero : FlowTotals α).reservoir d).get place = 0 ∧
      ((zero : FlowTotals α).surface d).get place = 0 := by
  cases d <;> exact ⟨Triple.get_const_zero place, Triple.get_const_zero place⟩

end FlowTotals

/-! ## What one well contributes -/

/-- The totals of a readable well are its contributions. -/
theorem Site.Readable.flows_get {s : Site α} {rates : RateTable α} {n : Node α}
    (h : s.Readable rates n) (d : Direction) (place : Nat) :
    let totals := n.flows s.hierarchy.phases rates
    (totals.reservoir d).get place
        = n.flowAt d s.hierarchy.phases.count place rates.reservoir ∧
      (totals.surface d).get place = n.flowAt d s.hierarchy.phases.count place rates.surface := by
  obtain ⟨index, _, b, hi, _, hb⟩ := h
  obtain ⟨hlen₁, hlen₂⟩ := RateTable.length_of_blocks hb
  obtain ⟨_, hr, hs⟩ := RateTable.blocks_eq_ok.mp hb
  have hthree := s.hierarchy.phases.count_le_three
  have hflows : n.flows s.hierarchy.phases rates = .ofWell n.isInjector b.1 b.2 := by
    rw [Node.flows, hi]
    simp only [Except.bind, hb]
  -- an entry of either block, and the rule by which the flat list is read
  have hentry : ∀ (flows block : List α), (flows.drop (index * s.hierarchy.phases.count)).take
        s.hierarchy.phases.count = block → block.length = s.hierarchy.phases.count →
      n.isInjector = (d == .injection) →
      (Triple.ofBlock block).get place = n.flowAt d s.hierarchy.phases.count place flows := by
    intro flows block hblock hlen hkind
    rw [Triple.get_ofBlock (by omega), ← hblock, getElem?_block, Node.flowAt, hi]
    by_cases hlt : place < s.hierarchy.phases.count
    · rw [if_pos hlt, if_pos ⟨hkind, hlt⟩]
    · rw [if_neg hlt, if_neg fun hboth => hlt hboth.2]
      rfl
  have hzero : ∀ flows : List α, n.isInjector ≠ (d == .injection) →
      (Triple.const (0 : α)).get place = n.flowAt d s.hierarchy.phases.count place flows := by
    intro flows hkind
    rw [Triple.get_const_zero, Node.flowAt, if_neg fun hboth => hkind hboth.1]
  show ((n.flows s.hierarchy.phases rates).reservoir d).get place = _ ∧
    ((n.flows s.hierarchy.phases rates).surface d).get place = _
  rw [hflows]
  cases hk : n.isInjector with
  | true =>
      cases d with
      | injection => exact ⟨hentry _ _ hr hlen₁ hk, hentry _ _ hs hlen₂ hk⟩
      | production => exact ⟨hzero _ (by rw [hk]; decide), hzero _ (by rw [hk]; decide)⟩
  | false =>
      cases d with
      | injection => exact ⟨hzero _ (by rw [hk]; decide), hzero _ (by rw [hk]; decide)⟩
      | production => exact ⟨hentry _ _ hr hlen₁ hk, hentry _ _ hs hlen₂ hk⟩

/-- The entry that a producer contributes is read without error when the list has it, and injectors
    contribute nothing to production. -/
theorem Node.producedAt_ok {n : Node α} {index phases place : Nat} {flows : List α}
    (hi : n.tableIndex = .ok index) (hlt : place < phases)
    (hlen : index * phases + phases ≤ flows.length) :
    n.producedAt phases place flows = .ok (n.flowAt .production phases place flows) := by
  rw [producedAt, flowAt]
  cases hk : n.isInjector with
  | true =>
      rw [if_pos rfl, if_neg fun hboth => by cases hboth.1]
  | false =>
      obtain ⟨x, hx⟩ : ∃ x, flows[index * phases + place]? = some x :=
        ⟨_, List.getElem?_eq_getElem (by omega)⟩
      rw [if_neg Bool.false_ne_true, if_pos ⟨rfl, hlt⟩, hi]
      show Rates.entry flows .phaseFlow (index * phases + place)
        = .ok (flows[index * phases + place]?.getD 0)
      rw [Rates.entry_eq_ok.mpr hx, hx]
      rfl

/-! ## Forests -/

namespace Forest

/-- The totals of a forest of readable wells are the sums of their contributions. -/
theorem flows_get {s : Site α} {rates : RateTable α} (d : Direction) (place : Nat) (f : Forest α)
    (hf : ∀ w ∈ f.wells, s.Readable rates w.2) (totals : FlowTotals α) :
    ((f.flows s.hierarchy.phases rates totals).reservoir d).get place
        = (totals.reservoir d).get place
          + f.flowAt d s.hierarchy.phases.count place rates.reservoir ∧
      ((f.flows s.hierarchy.phases rates totals).surface d).get place
        = (totals.surface d).get place
          + f.flowAt d s.hierarchy.phases.count place rates.surface := by
  induction f generalizing totals with
  | nil => exact ⟨(add_zero _).symm, (add_zero _).symm⟩
  | well id n next ih =>
      obtain ⟨hown₁, hown₂⟩ := (hf (id, n) (List.mem_cons_self ..)).flows_get d place
      obtain ⟨hnext₁, hnext₂⟩ := ih (fun w hw => hf w (List.mem_cons_of_mem _ hw))
        (totals + n.flows s.hierarchy.phases rates)
      simp only [flowAt, wells, List.map_cons, List.sum_cons] at hnext₁ hnext₂ ⊢
      rw [flows, hnext₁, hnext₂, FlowTotals.reservoir_add_get, FlowTotals.surface_add_get, hown₁,
        hown₂, add_assoc, add_assoc]
      exact ⟨rfl, rfl⟩
  | group id n below next ihb ihn =>
      obtain ⟨hbelow₁, hbelow₂⟩ := ihb (fun w hw => hf w (List.mem_append.mpr (Or.inl hw))) .zero
      obtain ⟨hnext₁, hnext₂⟩ := ihn (fun w hw => hf w (List.mem_append.mpr (Or.inr hw)))
        (totals + below.flows s.hierarchy.phases rates .zero)
      -- a group starts from nothing, so what it adds is what is below it
      rw [(FlowTotals.zero_get d place).1, zero_add] at hbelow₁
      rw [(FlowTotals.zero_get d place).2, zero_add] at hbelow₂
      simp only [flowAt, wells, List.map_append, List.sum_append] at *
      rw [flows, hnext₁, hnext₂, FlowTotals.reservoir_add_get, FlowTotals.surface_add_get, hbelow₁,
        hbelow₂, add_assoc, add_assoc]
      exact ⟨rfl, rfl⟩

/-- The production at one place of the blocks is the sum of the contributions when the list has them
    all. -/
theorem producedAt_ok {phases place : Nat} {flows : List α} (hlt : place < phases) (f : Forest α)
    (hf : ∀ w ∈ f.wells, ∃ index, w.2.tableIndex = .ok index ∧
      index * phases + phases ≤ flows.length) (sum : α) :
    f.producedAt phases place flows sum
      = .ok (sum + f.flowAt .production phases place flows) := by
  induction f generalizing sum with
  | nil => exact congrArg Except.ok (add_zero sum).symm
  | well id n next ih =>
      obtain ⟨index, hi, hlen⟩ := hf (id, n) (List.mem_cons_self ..)
      rw [producedAt, Node.producedAt_ok hi hlt hlen]
      refine (ih (fun w hw => hf w (List.mem_cons_of_mem _ hw)) _).trans ?_
      rw [flowAt, flowAt, wells, List.map_cons, List.sum_cons, add_assoc]
  | group id n below next ihb ihn =>
      rw [producedAt, ihb (fun w hw => hf w (List.mem_append.mpr (Or.inl hw))) 0]
      refine (ihn (fun w hw => hf w (List.mem_append.mpr (Or.inr hw))) _).trans ?_
      simp only [flowAt, wells, List.map_append, List.sum_append, zero_add]
      rw [add_assoc]

/-- Behind the last active phase nothing flows. -/
theorem flowAt_of_le (d : Direction) {phases place : Nat} (h : phases ≤ place) (flows : List α)
    (f : Forest α) : f.flowAt d phases place flows = 0 := by
  have hnone : ∀ n : Node α, n.flowAt d phases place flows = 0 := by
    intro n
    exact if_neg fun hboth => Nat.not_lt.mpr h hboth.2
  rw [flowAt]
  simp only [hnone]
  exact List.sum_map_zero

end Forest

/-! ## The check and the production of a subtree -/

deriving instance DecidableEq for Outcome

/-- The production of an active phase is the sum over the wells of the subtree when the list has all
    their blocks. -/
theorem Hierarchy.produced_ok {h : Hierarchy α} {id : Nat} {f : Forest α} {flows : List α}
    {p : Phase} {place : Nat} (hf : h.subtree id = .ok f)
    (hp : h.phases.position? p = some place)
    (hwells : ∀ w ∈ f.wells, ∃ index, w.2.tableIndex = .ok index ∧
      index * h.phases.count + h.phases.count ≤ flows.length) :
    h.produced id flows p = .ok (f.flowAt .production h.phases.count place flows) := by
  have hlt := ActivePhases.position?_lt_count hp
  rw [produced, ActivePhases.position_eq_ok.mpr hp, hf]
  refine (f.producedAt_ok hlt hwells 0).trans ?_
  rw [zero_add]

namespace Site

/-- In a subtree without violation every well is readable, so both ways of adding up go through. -/
theorem readable_of_met {s : Site α} {id : Nat} {rates : RateTable α} {totals : FlowTotals α}
    (h : (s.checkLimits id rates).2 = .ok (.met totals)) :
    ∃ f, s.hierarchy.subtree id = .ok f ∧ (∀ w ∈ f.wells, s.Readable rates w.2) ∧
      totals = f.flows s.hierarchy.phases rates .zero := by
  obtain ⟨hnone, htotals⟩ := firstViolation_of_met h
  rw [firstViolation] at hnone
  obtain ⟨f, hf, hnone⟩ := bind_eq_ok.mp hnone
  refine ⟨f, hf, readable_of_findSomeM? (Hierarchy.subtree_isPart hf) hnone, ?_⟩
  rw [htotals, Site.flows, hf]

/-- A well that is readable has full blocks in both lists. -/
theorem Readable.blocks {s : Site α} {rates : RateTable α} {n : Node α} (h : s.Readable rates n) :
    ∃ index, n.tableIndex = .ok index ∧
      index * s.hierarchy.phases.count + s.hierarchy.phases.count ≤ rates.reservoir.length ∧
      index * s.hierarchy.phases.count + s.hierarchy.phases.count ≤ rates.surface.length := by
  obtain ⟨index, _, b, hi, _, hb⟩ := h
  obtain ⟨⟨hr, hs⟩, _⟩ := RateTable.blocks_eq_ok.mp hb
  exact ⟨index, hi, hr, hs⟩

/-- When a check finds nothing, all wells of the subtree have their blocks, the totals are the sums of
    these blocks, and for every active phase the production of the subtree is the entry of the totals
    at the place of the phase, at either conditions. -/
theorem totals_of_met {s : Site α} {id : Nat} {rates : RateTable α} {totals : FlowTotals α}
    (h : (s.checkLimits id rates).2 = .ok (.met totals)) :
    ∃ f, s.hierarchy.subtree id = .ok f ∧
      (∀ w ∈ f.wells, ∃ index, w.2.tableIndex = .ok index ∧
        index * s.hierarchy.phases.count + s.hierarchy.phases.count ≤ rates.reservoir.length ∧
        index * s.hierarchy.phases.count + s.hierarchy.phases.count ≤ rates.surface.length) ∧
      (∀ d place,
        (totals.reservoir d).get place
            = f.flowAt d s.hierarchy.phases.count place rates.reservoir ∧
          (totals.surface d).get place
            = f.flowAt d s.hierarchy.phases.count place rates.surface) ∧
      (∀ d place, s.hierarchy.phases.count ≤ place →
        (totals.reservoir d).get place = 0 ∧ (totals.surface d).get place = 0) ∧
      ∀ p place, s.hierarchy.phases.position? p = some place →
        s.hierarchy.produced id rates.surface p
            = .ok ((totals.surface .production).get place) ∧
          s.hierarchy.produced id rates.reservoir p
            = .ok ((totals.reservoir .production).get place) := by
  obtain ⟨f, hf, hwells, rfl⟩ := readable_of_met h
  have hget : ∀ d place, _ := fun d place => f.flows_get d place hwells .zero
  simp only [FlowTotals.zero_get, zero_add] at hget
  refine ⟨f, hf, fun w hw => (hwells w hw).blocks, hget, ?_, ?_⟩
  · intro d place hle
    rw [(hget d place).1, (hget d place).2]
    exact ⟨Forest.flowAt_of_le d hle _ f, Forest.flowAt_of_le d hle _ f⟩
  · intro p place hp
    rw [(hget .production place).1, (hget .production place).2]
    constructor
    · refine Hierarchy.produced_ok hf hp fun w hw => ?_
      obtain ⟨index, hi, _, hs⟩ := (hwells w hw).blocks
      exact ⟨index, hi, hs⟩
    · refine Hierarchy.produced_ok hf hp fun w hw => ?_
      obtain ⟨index, hi, hr, _⟩ := (hwells w hw).blocks
      exact ⟨index, hi, hr⟩

/-- A field of water and oil: a producer in a group of its own, and an injector beside the group. -/
def waterflood : Site ℚ where
  hierarchy := {
    phases := ⟨true, true, false⟩
    nodes := [
      .make "FIELD" none ⟨1, one_pos⟩ .default .group,
      .make "NORTH" (some 0) ⟨1, one_pos⟩ .default .group,
      .make "P1" (some 1) ⟨1, one_pos⟩ (.producer .default) (.well ⟨some ⟨1, .producer⟩, none, true⟩),
      .make "I1" (some 0) ⟨1, one_pos⟩ (.injector .default)
        (.well ⟨some ⟨0, .injector⟩, none, true⟩)] }
  wells := [.ofControls "I1" .injector [.bhp 400], .ofControls "P1" .producer [.bhp 100]]

/-- Rates of the waterflood: the injector takes water, the producer gives water and oil. -/
def waterfloodRates : RateTable ℚ := ⟨[350, 150], [7, 0, -2, -3], [8, 0, -4, -5]⟩

/-- The producer is the second entry of the table, and the oil rate the second of its block. -/
theorem totals_of_met_waterflood :
    (waterflood.checkLimits 0 waterfloodRates).2
        = .ok (.met ⟨⟨7, 0, 0⟩, ⟨-2, -3, 0⟩, ⟨8, 0, 0⟩, ⟨-4, -5, 0⟩⟩) ∧
      waterflood.hierarchy.produced 0 waterfloodRates.surface .oil = .ok (-5) := by
  have hmet : (waterflood.checkLimits 0 waterfloodRates).2
      = .ok (.met ⟨⟨7, 0, 0⟩, ⟨-2, -3, 0⟩, ⟨8, 0, 0⟩, ⟨-4, -5, 0⟩⟩) := by decide +kernel
  obtain ⟨_, _, _, _, _, hproduced⟩ := totals_of_met hmet
  exact ⟨hmet, (hproduced .oil 1 rfl).1⟩

end Site

end ReservoirWells
