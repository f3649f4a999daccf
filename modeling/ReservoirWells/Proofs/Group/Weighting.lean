import ReservoirWells.Proofs.Group.Splitting
import ReservoirWells.Proofs.Group.Totals
import ReservoirWells.Proofs.Group.Calls

/-! # Weighting — what a group adds up after its target was shared out

    A group that shares a target out divides by the efficiency factor of every node on the way, since
    a well that is on half of the time has to flow twice as much.  When the group adds up what its
    wells flow, no factor is multiplied back.  So the wells may all do what they were told, and the
    group may still exceed its target:

    * `ActivePhases.rate_eq_sum` — the rate of a mode is a sum over places of the block;
    * `Forest.productionRate_flows` — so the rate of a forest is the sum of the rates of its wells;
    * `Site.comparedRate_after_rate` — after the procedure `rate` and with wells that obey, a group
      compares its target with the sum of the shares over their efficiency factors, and it keeps the
      target exactly when these shares do not add up to more than the whole;
    * `Site.not_forall_comparedRate_le` — a group that is on half of the time does not. -/

namespace ReservoirWells

variable {α : Type} [ExactScalar α]

/-! ## The rate of a mode -/

theorem Scalar.total_eq_sum (l : List α) : Scalar.total l = l.sum := List.sum_eq_foldl.symm

namespace ActivePhases

/-- The places of a block that a production mode adds up. -/
def places (a : ActivePhases) (m : ProductionMode) : List Nat :=
  if m = .resv then List.range a.count else (m.surfacePhases?.getD []).filterMap a.position?

/-- The surface rates of active phases are entries of the block. -/
theorem mapM_surfaceRate {a : ActivePhases} {surface : List α}
    (hlen : a.count ≤ surface.length) {phases : List Phase}
    (h : ∀ p ∈ phases, ∃ place, a.position p = .ok place) :
    phases.mapM (a.surfaceRate surface)
      = .ok ((phases.filterMap a.position?).map fun place => surface[place]?.getD 0) := by
  induction phases with
  | nil => rfl
  | cons p rest ih =>
      obtain ⟨place, hp⟩ := h p (List.mem_cons_self ..)
      have hplace := position_eq_ok.mp hp
      have hlt := position?_lt_count hplace
      obtain ⟨x, hx⟩ : ∃ x, surface[place]? = some x :=
        ⟨_, List.getElem?_eq_getElem (by omega)⟩
      have hown : a.surfaceRate surface p = .ok x := by
        rw [surfaceRate, hp]
        exact Rates.entry_eq_ok.mpr hx
      rw [List.mapM_cons, hown, ih fun q hq => h q (List.mem_cons_of_mem p hq),
        List.filterMap_cons_some hplace, List.map_cons, hx]
      rfl

/-- A supported production mode has, in full blocks, the sum over its places. -/
theorem rate_eq_sum {a : ActivePhases} {m : ProductionMode} (hm : a.Supports (.production m))
    {reservoir surface : List α} (hr : a.count ≤ reservoir.length)
    (hs : a.count ≤ surface.length) :
    a.rate reservoir surface (.production m) = .ok (((a.places m).map fun place =>
      (if m = .resv then reservoir else surface)[place]?.getD 0).sum) := by
  by_cases hresv : m = .resv
  · subst hresv
    have hblock : (List.range a.count).map (fun place => reservoir[place]?.getD 0)
        = reservoir.take a.count := by
      refine List.ext_getElem (by simpa using hr) fun i hi _ => ?_
      rw [List.length_map, List.length_range] at hi
      rw [List.getElem_map, List.getElem_range, List.getElem_take,
        List.getElem?_eq_getElem (by omega)]
      rfl
    rw [places, if_pos rfl, if_pos rfl, hblock, ← Scalar.total_eq_sum]
    show a.sumActive reservoir .reservoir = _
    rw [sumActive, Rates.slice_eq_ok.mpr ⟨by omega, rfl⟩]
    rfl
  · obtain ⟨phases, hphases, hactive⟩ := hm
    rw [ratePhases?_production hresv] at hphases
    rw [rate_production a _ _ hresv, places, if_neg hresv, if_neg hresv, hphases,
      ← Scalar.total_eq_sum]
    show (phases.mapM (a.surfaceRate surface)).map Scalar.total = _
    rw [mapM_surfaceRate hs hactive]
    rfl

end ActivePhases

/-! ## The rate of totals -/

namespace FlowTotals

/-- The production rate of totals in a mode. -/
def productionRate (t : FlowTotals α) (a : ActivePhases) (m : ProductionMode) : α :=
  ((a.places m).map fun place =>
    (if m = .resv then t.reservoir .production else t.surface .production).get place).sum

variable (a : ActivePhases) (m : ProductionMode)

theorem rate_eq_productionRate {a : ActivePhases} {m : ProductionMode}
    (hm : a.Supports (.production m)) (t : FlowTotals α) :
    a.rate (t.reservoir .production).toList (t.surface .production).toList (.production m)
      = .ok (t.productionRate a m) := by
  have hlen : ∀ block : Triple α, a.count ≤ block.toList.length := fun _ => a.count_le_three
  rw [ActivePhases.rate_eq_sum hm (hlen _) (hlen _), productionRate]
  split
  · rfl
  · rfl

theorem productionRate_add (s t : FlowTotals α) :
    (s + t).productionRate a m = s.productionRate a m + t.productionRate a m := by
  rw [productionRate, productionRate, productionRate, ← List.sum_map_add]
  refine congrArg List.sum (List.map_congr_left fun place _ => ?_)
  split
  · exact reservoir_add_get s t .production place
  · exact surface_add_get s t .production place

theorem productionRate_zero : (zero : FlowTotals α).productionRate a m = 0 := by
  rw [productionRate]
  refine List.sum_eq_zero fun x hx => ?_
  obtain ⟨place, _, rfl⟩ := List.mem_map.mp hx
  split
  · exact (zero_get .production place).1
  · exact (zero_get .production place).2

end FlowTotals

/-- The rate of a well in a mode, from its own blocks. -/
def Node.ownRate (n : Node α) (a : ActivePhases) (rates : RateTable α) (mode : Mode) :
    Except GroupError α := do
  let index ← n.tableIndex
  let (reservoir, surface) ← rates.blocks index a.count
  a.rate reservoir surface mode

/-- What a producer adds to the totals has the rate of the producer. -/
theorem Node.productionRate_flows {n : Node α} {a : ActivePhases} {rates : RateTable α}
    {m : ProductionMode} {x : α} (hn : n.isProducer = true)
    (hx : n.ownRate a rates (.production m) = .ok x) :
    (n.flows a rates).productionRate a m = x := by
  rw [ownRate] at hx
  obtain ⟨index, hi, hx⟩ := bind_eq_ok.mp hx
  obtain ⟨b, hb, hx⟩ := bind_eq_ok.mp hx
  replace hx : a.rate b.1 b.2 (.production m) = .ok x := hx
  obtain ⟨hr, hs⟩ := RateTable.length_of_blocks hb
  have hthree := a.count_le_three
  have hinjector : n.isInjector = false := by
    rw [isProducer, isKind, beq_iff_eq] at hn
    rw [isInjector, isKind, hn]
    rfl
  have hflows : n.flows a rates = .ofWell false b.1 b.2 := by
    rw [flows, hi, hinjector]
    simp only [Except.bind, hb]
  rw [ActivePhases.rate_eq_sum (ActivePhases.supports_of_rate hx) (Nat.le_of_eq hr.symm)
    (Nat.le_of_eq hs.symm)] at hx
  rw [hflows, ← Except.ok.inj hx, FlowTotals.productionRate]
  refine congrArg List.sum (List.map_congr_left fun place _ => ?_)
  split
  · exact Triple.get_ofBlock (by omega) place
  · exact Triple.get_ofBlock (by omega) place

namespace Forest

/-- The rate of a forest is the sum of the rates of its wells. -/
theorem productionRate_flows (a : ActivePhases) (rates : RateTable α) (m : ProductionMode)
    (f : Forest α) (totals : FlowTotals α) :
    (f.flows a rates totals).productionRate a m = totals.productionRate a m
      + (f.wells.map fun w => (w.2.flows a rates).productionRate a m).sum := by
  induction f generalizing totals with
  | nil => exact (add_zero _).symm
  | well id n next ih =>
      rw [flows, ih, wells, List.map_cons, List.sum_cons, FlowTotals.productionRate_add, add_assoc]
  | group id n below next ihb ihn =>
      rw [flows, ihn, FlowTotals.productionRate_add, ihb, FlowTotals.productionRate_zero, zero_add,
        wells, List.map_append, List.sum_append, add_assoc]

end Forest

/-! ## The rate that a group compares -/

namespace Site

/-- Orders keep the wells below a node, up to modes, flags and slots. -/
theorem wells_below_run (s : Site α) (l : List (Order α)) (id : Nat) :
    ((s.run l).1.hierarchy.below id).wells.map (fun w => (w.1, w.2.lasting))
      = (s.hierarchy.below id).wells.map fun w => (w.1, w.2.lasting) := by
  have hbelow := Hierarchy.below_eq_of_map (g := Node.lasting) (fun _ => rfl)
    Node.lasting_isGroup (s.run_lasting l).1 id
  rw [← Forest.wells_map, hbelow, Forest.wells_map]

/-- The rate that a group compares is the sum of the rates of the wells below it. -/
theorem comparedRate_eq_sum {s : Site α} {m : ProductionMode}
    (hm : s.hierarchy.phases.Supports (.production m)) (rates : RateTable α) (id : Nat) :
    s.comparedRate rates id (.production m) = .ok (((s.hierarchy.below id).wells.map fun w =>
      (w.2.flows s.hierarchy.phases rates).productionRate s.hierarchy.phases m).sum) := by
  refine (FlowTotals.rate_eq_productionRate hm _).trans ?_
  rw [Forest.productionRate_flows, FlowTotals.productionRate_zero, zero_add]

/-! ## Wells that obey -/

/-- A share of a target is at most the target when what is shared is at most the whole. -/
theorem abs_share_le_iff {t whole part : α} (ht : 0 ≤ t) (hwhole : 0 < whole) (hpart : 0 ≤ part) :
    |-(t / whole * part)| ≤ t ↔ t = 0 ∨ part ≤ whole := by
  have hshare : 0 ≤ t / whole * part := mul_nonneg (div_nonneg ht hwhole.le) hpart
  rw [abs_neg, abs_of_nonneg hshare, div_mul_eq_mul_div, div_le_iff₀ hwhole]
  rcases ht.eq_or_lt with rfl | hpos
  · simp
  · rw [mul_le_mul_iff_right₀ hpos, or_iff_right hpos.ne']

/-- The procedure `rate` answers an exceeded target by a push that goes through. -/
theorem checkLimits_of_rate {s : Site α} {root id : Nat} {rates : RateTable α} {n : Node α}
    {m : ProductionMode} {t : α}
    (h : s.firstViolation root rates = .ok (some (.target id (.production m) t)))
    (hn : s.hierarchy.node id = .ok n) (hprocedure : n.specs.production.procedure = .rate) :
    (s.pushTarget id (.production m) t false).2 = .ok () ∧
      s.checkLimits root rates = ((s.pushTarget id (.production m) t false).1, .ok .violated) := by
  have hcorrect : s.correct rates (.target id (.production m) t)
      = s.pushTarget id (.production m) t false := by
    rw [correct, hn]
    simp only [hprocedure]
  rw [← hcorrect]
  exact checkLimits_of_violation h

/-- What a producer is held to after a production target was pushed down: its part of the target, over
    the efficiency factors on the way. -/
theorem heldTarget_pushTarget {s : Site α} {id : Nat} {n : Node α} {m : ProductionMode} {t : α}
    (hn : s.hierarchy.node id = .ok n) (hg : n.isGroup = true)
    (hsep : s.SeparateOn ((s.hierarchy.below id).wells.map (·.1)))
    (htotal : 0 < (s.hierarchy.below id).guideTotal .production false 0)
    (hcontrolled : (Forest.group id n (s.hierarchy.below id) .nil).Controlled .production)
    (hrun : (s.pushTarget id (.production m) t false).2 = .ok ()) {w : Descent α}
    (hw : w ∈ (s.hierarchy.below id).descents [n]) (hkind : w.node.isProducer = true)
    (hpos : 0 < w.guideRate .production) :
    (s.pushTarget id (.production m) t false).1.heldTarget w.id
      = -(t / (s.hierarchy.below id).guideTotal .production false 0
          * (w.guideRate .production / w.efficiency)) := by
  have hsum : 0 < (s.hierarchy.below id).guideTotal (Mode.production m).direction false 0 := htotal
  replace hcontrolled : (Forest.group id n (s.hierarchy.below id) .nil).Controlled
    (Mode.production m).direction := hcontrolled
  obtain ⟨c, hc, hunder⟩ := pushTarget_installs hn hg hsep hsum hcontrolled hrun hw hkind hpos
  rw [hunder.heldTarget, target_of_groupControl hc]
  refine (w.target_production t ((s.hierarchy.below id).guideTotal .production false 0)).trans ?_
  ring

/-- Everything below a group takes part when the group shares a production target out. -/
structure TakesPart (s : Site α) (id : Nat) : Prop where
  producers : ∀ w ∈ (s.hierarchy.below id).wells,
    w.2.isProducer = true ∧ 0 < w.2.specs.guideRate .production
  separate : s.SeparateOn ((s.hierarchy.below id).wells.map (·.1))
  groups : ∀ g ∈ (s.hierarchy.below id).groups, g.2.specs.production.mode ≠ .none

/-- Where everything takes part and the group itself is controlled, every group is. -/
theorem TakesPart.controlled {s : Site α} {id : Nat} {n : Node α} (h : s.TakesPart id)
    (hmode : n.specs.production.mode ≠ .none) :
    (Forest.group id n (s.hierarchy.below id) .nil).Controlled .production := by
  have hcontrolled : ∀ k : Node α, k.specs.production.mode ≠ .none →
      k.specs.mode .production ≠ Direction.production.uncontrolled := by
    intro k hk heq
    exact hk (Mode.production.inj heq)
  exact Forest.controlled_group (hcontrolled n hmode) fun g hg => hcontrolled g.2 (h.groups g hg)

/-- Every well below a group flows what it is held to. -/
def Obeying (s : Site α) (rates : RateTable α) (id : Nat) (mode : Mode) : Prop :=
  ∀ w ∈ (s.hierarchy.below id).wells,
    w.2.ownRate s.hierarchy.phases rates mode = .ok (s.heldTarget w.1)

/-- With wells that obey, a group compares the sum of what the producers below it are held to; the
    wells may be looked up before or after any orders. -/
theorem comparedRate_of_obeying {s : Site α} {l : List (Order α)} {rates : RateTable α} {id : Nat}
    {m : ProductionMode} (hm : s.hierarchy.phases.Supports (.production m))
    (hproducers : ∀ w ∈ (s.hierarchy.below id).wells, w.2.isProducer = true)
    (hobey : (s.run l).1.Obeying rates id (.production m)) :
    (s.run l).1.comparedRate rates id (.production m)
      = .ok (((s.hierarchy.below id).wells.map fun w => (s.run l).1.heldTarget w.1).sum) := by
  have hwells := s.wells_below_run l id
  obtain ⟨_, hphases⟩ := s.run_lasting l
  generalize (s.run l).1 = after at hobey hwells hphases ⊢
  have hown : ∀ w ∈ (after.hierarchy.below id).wells,
      (w.2.flows after.hierarchy.phases rates).productionRate after.hierarchy.phases m
        = after.heldTarget w.1 := by
    intro w hw
    refine Node.productionRate_flows ?_ (hobey w hw)
    obtain ⟨v, hv, hsame⟩ := List.mem_map.mp (hwells ▸ List.mem_map_of_mem hw)
    have hlasting : v.2.lasting = w.2.lasting := congrArg Prod.snd hsame
    rw [Node.isProducer, ← w.2.lasting_isKind, ← hlasting, v.2.lasting_isKind]
    exact hproducers v hv
  have hheld := congrArg (List.map fun w => after.heldTarget w.1) hwells
  rw [List.map_map, List.map_map] at hheld
  rw [comparedRate_eq_sum (hphases ▸ hm), List.map_congr_left hown]
  exact congrArg (Except.ok ∘ List.sum) hheld

/-- A group that exceeds a target has a well below it, and so a guide rate. -/
theorem TakesPart.guideTotal_pos {s : Site α} {id : Nat} {rates : RateTable α} {m : ProductionMode}
    {t rate : α} (h : s.TakesPart id) (hrate : s.comparedRate rates id (.production m) = .ok rate)
    (ht : 0 ≤ t) (hlt : t < Scalar.abs rate) :
    0 < (s.hierarchy.below id).guideTotal .production false 0 := by
  have hsome : ∃ w, w ∈ (s.hierarchy.below id).wells := by
    refine List.exists_mem_of_ne_nil _ fun hnil => ?_
    rw [comparedRate_eq_sum (ActivePhases.supports_of_rate hrate), hnil] at hrate
    rw [← Except.ok.inj hrate, Scalar.abs_eq, List.map_nil, List.sum_nil, abs_zero] at hlt
    exact absurd ht (not_le.mpr hlt)
  obtain ⟨w, hw⟩ := hsome
  exact lt_of_lt_of_le (h.producers w hw).2 (Forest.guideRate_le_guideTotal .production hw)

/-- Where everything takes part, every well below is held to its part of a target, over the efficiency
    factors on the way. -/
theorem TakesPart.heldTarget {s : Site α} {id : Nat} {n : Node α} {m : ProductionMode} {t : α}
    (h : s.TakesPart id) (hn : s.hierarchy.node id = .ok n) (hg : n.isGroup = true)
    (hmode : n.specs.production.mode ≠ .none)
    (htotal : 0 < (s.hierarchy.below id).guideTotal .production false 0)
    (hrun : (s.pushTarget id (.production m) t false).2 = .ok ()) {w : Descent α}
    (hw : w ∈ (s.hierarchy.below id).descents [n]) :
    (s.pushTarget id (.production m) t false).1.heldTarget w.id
      = -(t / (s.hierarchy.below id).guideTotal .production false 0)
        * (w.guideRate .production / w.efficiency) := by
  have hwell : (w.id, w.node) ∈ (s.hierarchy.below id).wells := by
    rw [← (s.hierarchy.below id).descents_wells [n]]
    exact List.mem_map_of_mem hw
  obtain ⟨hkind, hguide⟩ := h.producers _ hwell
  rw [neg_mul]
  exact heldTarget_pushTarget hn hg h.separate htotal (h.controlled hmode) hrun hw hkind hguide

/-- A group with the procedure `rate` exceeds its production target, and everything below it takes
    part in the sharing. Once every well flows what it is held to, the group compares its target
    with the sum of the shares, each over the efficiency factors on the way. It keeps the target
    exactly when the target is zero or the guide rates, each over these factors, add up to no more
    than without. Weighted with the factors the rates add up to the target in any case. -/
theorem comparedRate_after_rate {s : Site α} {root id : Nat} {rates later : RateTable α}
    {n : Node α} {m : ProductionMode} {t : α}
    (h : s.firstViolation root rates = .ok (some (.target id (.production m) t)))
    (hn : s.hierarchy.node id = .ok n) (hprocedure : n.specs.production.procedure = .rate)
    (hmode : n.specs.production.mode ≠ .none) (hpart : s.TakesPart id)
    (hobey : (s.checkLimits root rates).1.Obeying later id (.production m)) :
    let after := (s.checkLimits root rates).1
    let ways := (s.hierarchy.below id).descents [n]
    let whole := (ways.map (·.guideRate .production)).sum
    let stretched := (ways.map fun w => w.guideRate .production / w.efficiency).sum
    (s.checkLimits root rates).2 = .ok .violated ∧
    (ways.map fun w => w.efficiency * after.heldTarget w.id).sum = -t ∧
    ∃ rate, after.comparedRate later id (.production m) = .ok rate ∧
      rate = -(t / whole * stretched) ∧
      (Scalar.abs rate ≤ t ↔ t = 0 ∨ stretched ≤ whole) := by
  intro after ways whole stretched
  obtain ⟨n', rate₀, hn', hg, htarget, hrate₀, hlt⟩ := exceeded_of_firstViolation h
  rw [hn] at hn'
  cases hn'
  -- the shares: the check is a push, and every well is on its way down
  obtain ⟨hpush, hcheck⟩ := checkLimits_of_rate h hn hprocedure
  have hafter : after = (s.pushTarget id (.production m) t false).1 := congrArg Prod.fst hcheck
  have hm : s.hierarchy.phases.Supports (.production m) := ActivePhases.supports_of_rate hrate₀
  have hwells : ways.map (fun w => (w.id, w.node)) = (s.hierarchy.below id).wells :=
    Forest.descents_wells _ [n]
  have hwhole : (s.hierarchy.below id).guideTotal .production false 0 = whole := by
    rw [Forest.guideTotal_eq, zero_add, ← hwells, List.map_map]
    rfl
  have hdefined : 0 ≤ t := Node.target_nonneg htarget
  have hpos : 0 < whole := hwhole ▸ hpart.guideTotal_pos hrate₀ hdefined hlt
  have hheld : ∀ w ∈ ways, after.heldTarget w.id
      = -(t / whole) * (w.guideRate .production / w.efficiency) := by
    intro w hw
    rw [hafter, ← hwhole]
    exact hpart.heldTarget hn hg hmode (hwhole ▸ hpos) hpush hw
  refine ⟨congrArg Prod.snd hcheck, ?_, -(t / whole * stretched), ?_, rfl, ?_⟩
  · have hweighted : ∀ w ∈ ways, w.efficiency * after.heldTarget w.id
        = -(t / whole) * w.guideRate .production := by
      intro w hw
      have heff : w.efficiency ≠ 0 := (pathEfficiency_pos w.path).ne'
      rw [hheld w hw]
      field_simp
    rw [List.map_congr_left hweighted, List.sum_map_mul_left, neg_mul, div_mul_cancel₀ t hpos.ne']
  · -- the check adds up what the wells are held to, without the factors
    rw [show (s.checkLimits root rates).1 = _ from hafter, pushTarget_group hn hg] at hobey
    rw [hafter, pushTarget_group hn hg, comparedRate_of_obeying hm
      (fun w hw => (hpart.producers w hw).1) hobey, ← pushTarget_group hn hg, ← hafter, ← hwells,
      List.map_map]
    refine congrArg Except.ok ((congrArg List.sum (List.map_congr_left hheld)).trans ?_)
    rw [List.sum_map_mul_left, neg_mul]
  · have hstretched : 0 ≤ stretched := by
      refine List.sum_nonneg fun x hx => ?_
      obtain ⟨w, _, rfl⟩ := List.mem_map.mp hx
      exact div_nonneg (w.node.specs.guideRate_nonneg .production) (pathEfficiency_pos w.path).le
    rw [Scalar.abs_eq]
    exact abs_share_le_iff hdefined hpos hstretched

/-- A field of two wells, one of them in a group that is on half of the time and may produce a
    hundred of oil. -/
def halfTimeCalls : List (Call ℚ) := [
  .enrol "P1" .producer [.bhp 100],
  .enrol "P2" .producer [.bhp 100, .surfaceRate (-10) ⟨0, 1, 0⟩],
  .addGroup "FIELD" none .one .default,
  .addGroup "NORTH" (some 0) .half
    (.producer { ProductionSpec.default with mode := .lrat, procedure := .rate, oil := some 100 }),
  .addWell "P1" (some 1) .one (.producer .default),
  .addWell "P2" (some 0) .one (.producer .default),
  .attach 2 0,
  .attach 3 1]

/-- The site of that field. -/
def halfTime : Site ℚ := (vacant ⟨true, true, false⟩).serve halfTimeCalls

/-- The group at the second place. -/
def halfTimeGroup : Node ℚ := halfTime.hierarchy.nodes.get ⟨1, by decide +kernel⟩

/-- Rates of oil in a field of two wells. -/
def oilRates (first second : ℚ) : RateTable ℚ :=
  ⟨[200, 200], [0, first, 0, second], [0, first, 0, second]⟩

theorem node_halfTime : halfTime.hierarchy.node 1 = .ok halfTimeGroup :=
  Hierarchy.node_eq_ok.mpr (List.getElem?_eq_getElem _)

theorem takesPart_halfTime : halfTime.TakesPart 1 where
  producers := by decide +kernel
  separate := (separate_of_nodup (by decide +kernel)).on _
  groups := by decide +kernel

/-- At three hundred the group exceeds its target. -/
theorem firstViolation_halfTime : halfTime.firstViolation 0 (oilRates (-300) 0)
    = .ok (some (.target 1 (.production .orat) 100)) := by
  decide +kernel

/-- From then on its well is to flow two hundred. -/
theorem obeying_halfTime : (halfTime.checkLimits 0 (oilRates (-300) 0)).1.Obeying
    (oilRates (-200) (-50)) 1 (.production .orat) := by
  unfold Obeying
  decide +kernel

/-- When the well flows these two hundred, the group compares two hundred with its hundred. -/
theorem comparedRate_after_rate_halfTime :
    halfTime.firstViolation 0 (oilRates (-300) 0)
        = .ok (some (.target 1 (.production .orat) 100)) ∧
      (halfTime.checkLimits 0 (oilRates (-300) 0)).1.Obeying (oilRates (-200) (-50)) 1
        (.production .orat) ∧
      ∃ rate, (halfTime.checkLimits 0 (oilRates (-300) 0)).1.comparedRate (oilRates (-200) (-50)) 1
          (.production .orat) = .ok rate ∧
        rate = -200 ∧ ¬ Scalar.abs rate ≤ 100 := by
  obtain ⟨_, _, rate, hrate, heq, hiff⟩ := comparedRate_after_rate firstViolation_halfTime
    node_halfTime (by decide +kernel) (by decide +kernel) takesPart_halfTime obeying_halfTime
  refine ⟨firstViolation_halfTime, obeying_halfTime, rate, hrate, heq.trans (by decide +kernel),
    fun hle => ?_⟩
  exact absurd (hiff.mp hle) (by decide +kernel)

/-- So a group may exceed its target although every well below it obeys the procedure `rate`. -/
theorem not_forall_comparedRate_le :
    ¬ ∀ (phases : ActivePhases) (calls : List (Call ℚ)) (root id : Nat) (rates later : RateTable ℚ)
      (n : Node ℚ) (m : ProductionMode) (t rate : ℚ),
      let s := (vacant phases).serve calls
      s.firstViolation root rates = .ok (some (.target id (.production m) t)) →
      s.hierarchy.node id = .ok n → n.specs.production.procedure = .rate →
      n.specs.production.mode ≠ .none → s.TakesPart id →
      (s.checkLimits root rates).1.Obeying later id (.production m) →
      (s.checkLimits root rates).1.comparedRate later id (.production m) = .ok rate →
      Scalar.abs rate ≤ t := by
  intro hall
  have hle := hall _ halfTimeCalls 0 1 (oilRates (-300) 0) (oilRates (-200) (-50)) halfTimeGroup
    .orat 100 (-200) firstViolation_halfTime node_halfTime (by decide +kernel) (by decide +kernel)
    takesPart_halfTime obeying_halfTime (by decide +kernel)
  exact absurd hle (by decide +kernel)

end Site

end ReservoirWells
