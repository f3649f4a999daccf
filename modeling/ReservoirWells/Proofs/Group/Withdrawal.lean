import ReservoirWells.Proofs.Ordered
import ReservoirWells.Proofs.Group.Calls
import ReservoirWells.Proofs.Group.Correction
import ReservoirWells.Proofs.Group.Installed

/-! # Withdrawal — the well that a group gives up

    A group whose production target is exceeded and whose procedure is `well` takes one well out of
    production, the largest one.  What is compared with the target is the flow of the producers;
    the largest well is looked for among all wells below the group, whichever way they flow:

    * `Forest.covers_worst` — the search finds a well that none exceeds;
    * `Site.exists_well_of_exceeded` — a group that exceeds a target has a well below it;
    * `Site.checkLimits_withdraws` — so a check that answers with the procedure `well` takes an
      attached well of the largest magnitude out of production, and a producer if every injector
      flows less than some producer;
    * `Site.not_forall_withdraws_producer` — otherwise an injector is shut in its place. -/

namespace ReservoirWells

variable {α : Type} [Scalar α]

/-! ## The largest well -/

namespace Forest

/-- The magnitude of a candidate is a number. -/
def Numbered (candidate : Option (Nat × α)) : Prop := ∀ c, candidate = some c → c.2 ≤ c.2

/-- A magnitude is at most that of the candidate. -/
def Tops (found : Option (Nat × α)) (x : α) : Prop := ∃ top, found = some top ∧ x ≤ top.2

/-- One candidate is at least as large as another. -/
def Covers (found candidate : Option (Nat × α)) : Prop := ∀ c, candidate = some c → Tops found c.2

theorem Numbered.covers {candidate : Option (Nat × α)} (h : Numbered candidate) :
    Covers candidate candidate := fun c hc => ⟨c, hc, h c hc⟩

theorem Numbered.worse {best candidate : Option (Nat × α)} (hb : Numbered best)
    (hc : Numbered candidate) : Numbered (worse best candidate) := by
  rcases worse_eq_or best candidate with heq | heq
  · rw [heq]
    exact hb
  · rw [heq]
    exact hc

variable [OrderedScalar α]

theorem Tops.trans {mid found : Option (Nat × α)} {x : α} (h : Tops mid x)
    (hmid : Covers found mid) : Tops found x := by
  obtain ⟨b, hb, hle⟩ := h
  obtain ⟨top, htop, hle'⟩ := hmid b hb
  exact ⟨top, htop, OrderedScalar.le_trans hle hle'⟩

theorem Covers.trans {mid found candidate : Option (Nat × α)} (h : Covers mid candidate)
    (hmid : Covers found mid) : Covers found candidate := fun c hc => (h c hc).trans hmid

/-- The larger of two candidates is at least as large as both. -/
theorem covers_worse {best candidate : Option (Nat × α)} (hb : Numbered best)
    (hc : Numbered candidate) :
    Covers (worse best candidate) best ∧ Covers (worse best candidate) candidate := by
  cases best with
  | none =>
      refine ⟨?_, hc.covers⟩
      intro b h
      cases h
  | some b =>
      cases candidate with
      | none =>
          refine ⟨hb.covers, ?_⟩
          intro c h
          cases h
      | some c =>
          have heq : worse (some b) (some c) = if b.2 < c.2 then some c else some b := rfl
          rw [heq]
          by_cases hlt : b.2 < c.2
          · rw [if_pos hlt]
            refine ⟨?_, hc.covers⟩
            rintro b' ⟨⟩
            exact ⟨c, rfl, (OrderedScalar.lt_iff.mp hlt).1⟩
          · rw [if_neg hlt]
            refine ⟨hb.covers, ?_⟩
            rintro c' ⟨⟩
            exact ⟨b, rfl, OrderedScalar.le_of_not_lt (hc c rfl) (hb b rfl) hlt⟩

/-- The search for the largest well finds one that is at least as large as what it started with and
    as every well of the forest, when all magnitudes are numbers. -/
theorem covers_worst {a : ActivePhases} {rates : RateTable α} {m : ProductionMode} {f : Forest α}
    (hf : ∀ w ∈ f.wells, ∀ x, w.2.magnitude a rates m = .ok x → x ≤ x)
    {best found : Option (Nat × α)} (hbest : Numbered best) (h : f.worst a rates m best = .ok found) :
    Covers found best ∧
      ∀ w ∈ f.wells, ∀ x, w.2.magnitude a rates m = .ok x → Tops found x := by
  induction f generalizing best found with
  | nil =>
      obtain rfl : best = found := Except.ok.inj h
      refine ⟨hbest.covers, ?_⟩
      intro w hw
      cases hw
  | well id n next ih =>
      rw [worst] at h
      obtain ⟨y, hy, h⟩ := bind_eq_ok.mp h
      have hown : Numbered (some (id, y)) := by
        rintro c ⟨⟩
        exact hf (id, n) (List.mem_cons_self ..) y hy
      obtain ⟨hold, hnew⟩ := covers_worse hbest hown
      obtain ⟨hstart, hnext⟩ :=
        ih (fun w hw => hf w (List.mem_cons_of_mem _ hw)) (hbest.worse hown) h
      refine ⟨hold.trans hstart, ?_⟩
      intro w hw x hx
      rcases List.mem_cons.mp hw with rfl | hw
      · obtain rfl : y = x := Except.ok.inj (hy.symm.trans hx)
        exact hnew.trans hstart _ rfl
      · exact hnext w hw x hx
  | group id n below next ihb ihn =>
      rw [worst] at h
      obtain ⟨candidate, hcandidate, h⟩ := bind_eq_ok.mp h
      have hbelow : ∀ w ∈ below.wells, ∀ x, w.2.magnitude a rates m = .ok x → x ≤ x :=
        fun w hw => hf w (List.mem_append.mpr (Or.inl hw))
      -- what a group puts forward is at least as large as its own wells
      obtain ⟨_, htop⟩ := ihb hbelow (fun c hc => by cases hc) hcandidate
      have hown : Numbered candidate := by
        rintro c rfl
        rcases worst_mem hcandidate with hnone | ⟨w, hw, x, hx, hsome⟩
        · cases hnone
        · obtain rfl : c = (w.1, x) := Option.some.inj hsome
          exact hbelow w hw x hx
      obtain ⟨hold, hnew⟩ := covers_worse hbest hown
      obtain ⟨hstart, hnext⟩ :=
        ihn (fun w hw => hf w (List.mem_append.mpr (Or.inr hw))) (hbest.worse hown) h
      refine ⟨hold.trans hstart, ?_⟩
      intro w hw x hx
      rcases List.mem_append.mp hw with hw | hw
      · exact (htop w hw x hx).trans (hnew.trans hstart)
      · exact hnext w hw x hx

end Forest

/-! ## A group without wells -/

section Rounded

variable [RoundedScalar α]

/-- Blocks of zeros have the rate zero in every mode that has a rate. -/
theorem ActivePhases.rate_of_zeros {a : ActivePhases} {reservoir surface : List α} {mode : Mode}
    {x : α} (hr : ∀ y ∈ reservoir, y = 0) (hs : ∀ y ∈ surface, y = 0)
    (h : a.rate reservoir surface mode = .ok x) : x = 0 := by
  have hsum : ∀ (block : List α) (kind : RateKind), (∀ y ∈ block, y = 0) →
      a.sumActive block kind = .ok x → x = 0 := by
    intro block kind hblock h
    rw [sumActive] at h
    cases hl : Rates.slice block kind 0 a.count with
    | error e => rw [hl] at h; cases h
    | ok l =>
        rw [hl] at h
        obtain ⟨_, rfl⟩ := Rates.slice_eq_ok.mp hl
        rw [← Except.ok.inj h]
        exact Scalar.total_of_zeros fun y hy => hblock y (List.mem_of_mem_drop (List.mem_of_mem_take hy))
  cases mode with
  | injection m =>
      cases m with
      | rate => exact hsum surface .surface hs h
      | resv => exact hsum reservoir .reservoir hr h
      | _ => cases h
  | production m =>
      by_cases hm : m = .resv
      · rw [hm] at h
        exact hsum reservoir .reservoir hr h
      · rw [rate_production a _ _ hm] at h
        cases hp : m.surfacePhases? with
        | none => rw [hp] at h; cases h
        | some phases =>
            rw [hp] at h
            cases hxs : phases.mapM (a.surfaceRate surface) with
            | error e => simp only [hxs] at h; cases h
            | ok xs =>
                simp only [hxs] at h
                rw [← Except.ok.inj h]
                refine Scalar.total_of_zeros (forall_of_mapM ?_ hxs)
                intro p _ y hy
                rw [surfaceRate] at hy
                obtain ⟨place, _, hy⟩ := bind_eq_ok.mp hy
                exact hs y (List.mem_of_getElem? (Rates.entry_eq_ok.mp hy))

/-- Without wells nothing flows. -/
theorem Forest.flows_of_wells_nil {f : Forest α} (hf : f.wells = []) (a : ActivePhases)
    (rates : RateTable α) : f.flows a rates .zero = .zero := by
  have hzero : (FlowTotals.zero : FlowTotals α) + .zero = .zero := by
    have hconst : (Triple.const (0 : α)).zipWith (· + ·) (.const 0) = .const 0 := by
      rw [Triple.zipWith, Triple.const]
      simp only [RoundedScalar.zero_add_zero]
    show FlowTotals.mk _ _ _ _ = _
    simp only [FlowTotals.zero, hconst]
  induction f with
  | nil => rfl
  | well id n next ih => cases hf
  | group id n below next ihb ihn =>
      obtain ⟨hbelow, hnext⟩ := List.append_eq_nil_iff.mp hf
      rw [flows, ihb hbelow, hzero]
      exact ihn hnext

/-- A group that exceeds a target has a well below it. -/
theorem Site.exists_well_of_exceeded {s : Site α} {rates : RateTable α} {id : Nat} {mode : Mode}
    {t rate : α} (hrate : s.comparedRate rates id mode = .ok rate) (ht : 0 ≤ t)
    (hlt : t < mode.direction.extent rate) : ∃ w, w ∈ (s.hierarchy.below id).wells := by
  refine List.exists_mem_of_ne_nil _ ?_
  intro hnil
  have hzeros : ∀ y ∈ (Triple.const (0 : α)).toList, y = 0 := by
    intro y hy
    simpa [Triple.const, Triple.toList] using hy
  rw [comparedRate, Forest.flows_of_wells_nil hnil] at hrate
  obtain rfl : rate = 0 := by
    cases hd : mode.direction with
    | production => exact ActivePhases.rate_of_zeros hzeros hzeros (hd ▸ hrate)
    | injection => exact ActivePhases.rate_of_zeros hzeros hzeros (hd ▸ hrate)
  have hextent : mode.direction.extent (0 : α) = 0 := by
    cases mode.direction with
    | production => exact Scalar.abs_zero
    | injection => rfl
  rw [hextent] at hlt
  exact OrderedScalar.not_lt_of_le ht hlt

end Rounded

/-! ## Out of production -/

/-- A well was taken out of production: it is stopped, or, if it is not to stop, open with a group
    control of rate zero. -/
def Site.OutOfProduction (s : Site α) (id : Nat) : Prop :=
  ∃ n link index w, s.hierarchy.node id = .ok n ∧ n.link? = some link ∧ n.tableIndex = .ok index ∧
    s.wells.well index = .ok w ∧
    if link.stopsWhenWithdrawn = true then w.controls.isOpen = false
    else w.controls.isOpen = true ∧ ∃ slot, link.groupSlot = some slot ∧
      w.controls.controls[slot]? = some (.surfaceRate 0 (.const 1))

namespace Site

theorem outOfProduction_of_withdraw {s t : Site α} {id : Nat} (h : s.withdraw id = .ok t) :
    t.OutOfProduction id := by
  obtain ⟨n, index, link, w, hn, hi, hl, hw, ⟨hstops, rfl⟩ | ⟨hstays, rfl⟩⟩ := withdraw_cases h
  · refine ⟨n, link, index, _, hn, hl, hi, WellTable.well_setControls_self hw _, ?_⟩
    rw [if_pos hstops]
    rfl
  · have hplace := w.controls.impose_getElem? link.groupSlot (.surfaceRate 0 (.const 1))
    have hlink : n.role = .well link := by
      cases hr : n.role with
      | group => rw [Node.link?, hr] at hl; cases hl
      | well link' =>
          rw [Node.link?, hr] at hl
          rw [Option.some.inj hl]
    refine ⟨_, { link with
      groupSlot := some (w.controls.impose link.groupSlot (.surfaceRate 0 (.const 1))).2 }, index, _,
      Hierarchy.node_modify_self hn _, ?_, ?_, WellTable.well_setControls_self hw _, ?_⟩
    · rw [Node.modifyLink, hlink]
      rfl
    · rw [Node.tableIndex_of_lasting (n.lasting_modifyLink _)]
      · exact hi
      · exact fun _ => rfl
    · rw [if_neg (by rw [hstays]; exact Bool.false_ne_true)]
      exact ⟨rfl, _, rfl, hplace⟩

/-- The procedure `well` answers an exceeded target by withdrawing the largest well. -/
theorem correct_well {s : Site α} {rates : RateTable α} {id : Nat} {n : Node α} {m : ProductionMode}
    (t : α) {found : Nat × α} (hn : s.hierarchy.node id = .ok n) (hg : n.isGroup = true)
    (hprocedure : n.specs.production.procedure = .well)
    (hfound : (s.hierarchy.below id).worst s.hierarchy.phases rates m none = .ok (some found)) :
    s.correct rates (.target id (.production m) t) = s.withdrawWell found.1 := by
  rw [correct, hn]
  simp only [hprocedure]
  rw [Hierarchy.worst_group hn hg, hfound]

/-- Withdrawing a well comes to the one order. -/
theorem withdrawWell_of_ok {s t : Site α} {id : Nat} (h : s.withdraw id = .ok t) :
    s.withdrawWell id = (t, .ok ()) := by
  show s.run [.withdraw id] = _
  rw [run, show s.obey (.withdraw id) = .ok t from h]
  rfl

end Site

/-! ## Which well goes -/

/-- Every injector of a forest flows less than some producer of it. -/
def Forest.ProducersLead (f : Forest α) (a : ActivePhases) (rates : RateTable α)
    (m : ProductionMode) : Prop :=
  ∀ w ∈ f.wells, w.2.isInjector = true → ∃ p ∈ f.wells, p.2.isProducer = true ∧
    ∃ x y, w.2.magnitude a rates m = .ok x ∧ p.2.magnitude a rates m = .ok y ∧ x < y

/-- An attached well is a producer or an injector. -/
theorem Node.isProducer_or_isInjector {n : Node α} {index : Nat} (h : n.tableIndex = .ok index) :
    n.isProducer = true ∨ n.isInjector = true := by
  rw [tableIndex] at h
  cases ha : n.attachment? with
  | none => rw [ha] at h; cases h
  | some a =>
      rw [isProducer, isInjector, isKind, isKind, ha]
      cases hk : a.kind with
      | producer => exact Or.inl (by rw [Option.map_some, hk]; rfl)
      | injector => exact Or.inr (by rw [Option.map_some, hk]; rfl)

namespace Site

variable [RoundedScalar α]

/-- A group with the procedure `well` exceeds a production target, and the magnitudes of all wells
    below it are numbers. Then the check takes one of these wells out of production: an attached
    one of the largest magnitude, producer or injector, and a producer if every injector flows
    less than some producer. -/
theorem checkLimits_withdraws {s : Site α} {root id : Nat} {rates : RateTable α} {n : Node α}
    {m : ProductionMode} {t : α}
    (h : s.firstViolation root rates = .ok (some (.target id (.production m) t)))
    (hn : s.hierarchy.node id = .ok n) (hprocedure : n.specs.production.procedure = .well)
    (hnumbers : ∀ w ∈ (s.hierarchy.below id).wells, ∀ x,
      w.2.magnitude s.hierarchy.phases rates m = .ok x → x ≤ x) :
    ∃ w ∈ (s.hierarchy.below id).wells, ∃ x,
      w.2.magnitude s.hierarchy.phases rates m = .ok x ∧
      (∀ v ∈ (s.hierarchy.below id).wells,
        ∃ y, v.2.magnitude s.hierarchy.phases rates m = .ok y ∧ y ≤ x) ∧
      (w.2.isProducer = true ∨ w.2.isInjector = true) ∧
      ((s.hierarchy.below id).ProducersLead s.hierarchy.phases rates m → w.2.isProducer = true) ∧
      s.checkLimits root rates = ((s.withdrawWell w.1).1, .ok .violated) ∧
      (s.checkLimits root rates).1.OutOfProduction w.1 := by
  obtain ⟨n', hn', hg, hgroup, hreadable⟩ := group_of_firstViolation h
  rw [hn] at hn'
  cases hn'
  obtain ⟨_, _, rate, heq, htarget, hrate, hlt⟩ := target_of_inspectGroup hgroup
  cases heq
  have hm := ActivePhases.supports_of_rate hrate
  -- the search finds a well, since a group without one exceeds nothing
  obtain ⟨found, hfound⟩ := Forest.worst_ok hm _ hreadable none
  obtain ⟨_, htops⟩ := Forest.covers_worst hnumbers (fun c hc => by cases hc) hfound
  obtain ⟨v, hv⟩ := exists_well_of_exceeded hrate (Node.target_nonneg htarget) hlt
  obtain ⟨y, hy⟩ := (hreadable v hv).magnitude_ok hm
  obtain ⟨_, hsome, _⟩ := htops v hv y hy
  rcases Forest.worst_mem hfound with hnone | ⟨w, hw, x, hx, rfl⟩
  · rw [hnone] at hsome
    cases hsome
  have hlargest : ∀ v ∈ (s.hierarchy.below id).wells,
      ∃ y, v.2.magnitude s.hierarchy.phases rates m = .ok y ∧ y ≤ x := by
    intro v hv
    obtain ⟨y, hy⟩ := (hreadable v hv).magnitude_ok hm
    obtain ⟨top, htop, hle⟩ := htops v hv y hy
    cases htop
    exact ⟨y, hy, hle⟩
  have hkind : w.2.isProducer = true ∨ w.2.isInjector = true := by
    obtain ⟨index, _, _, hi, _⟩ := hreadable w hw
    exact Node.isProducer_or_isInjector hi
  have hcheck : s.checkLimits root rates = ((s.withdrawWell w.1).1, .ok .violated) := by
    rw [(checkLimits_of_violation h).2, correct_well t hn hg hprocedure hfound]
  refine ⟨w, hw, x, hx, hlargest, hkind, ?_, hcheck, ?_⟩
  · intro hlead
    rcases hkind with hproducer | hinjector
    · exact hproducer
    · -- some producer would be larger than the largest well
      obtain ⟨p, hp, _, x', y, hx', hy, hxy⟩ := hlead w hw hinjector
      obtain rfl : x = x' := Except.ok.inj (hx.symm.trans hx')
      obtain ⟨y', hy', hle⟩ := hlargest p hp
      obtain rfl : y = y' := Except.ok.inj (hy.symm.trans hy')
      exact absurd hxy (OrderedScalar.not_lt_of_le hle)
  · obtain ⟨hnode, _⟩ := (s.hierarchy.below_isPart id).node_of_mem_wells hw
    obtain ⟨index, ha, hltlen⟩ := (hreadable w hw).attachedTo hnode
    obtain ⟨u, hu⟩ := withdraw_ok ha hltlen
    rw [hcheck, withdrawWell_of_ok hu]
    exact outOfProduction_of_withdraw hu

/-- A field of two producers and an injector that may produce a hundred of liquid, and gives up a well
    when it produces more. -/
def sharedFieldCalls : List (Call ℚ) := [
  .enrol "P1" .producer [.bhp 100],
  .enrol "P2" .producer [.bhp 100],
  .enrol "I1" .injector [.bhp 400],
  .addGroup "FIELD" none .one
    ⟨{ ProductionSpec.default with procedure := .well, liquid := some 100 }, .default⟩,
  .addWell "P1" (some 0) .one (.producer .default),
  .addWell "P2" (some 0) .one (.producer .default),
  .addWell "I1" (some 0) .one (.injector .default),
  .attach 1 0,
  .attach 2 1,
  .attach 3 2]

/-- The site of that field. -/
def sharedField : Site ℚ := (vacant ⟨true, true, false⟩).serve sharedFieldCalls

/-- The group of all wells. -/
def sharedFieldGroup : Node ℚ := sharedField.hierarchy.nodes.get ⟨0, by decide +kernel⟩

/-- The producers flow forty and eighty of oil, and the injector takes water. -/
def mixedRates (water : ℚ) : RateTable ℚ :=
  ⟨[200, 200, 300], [0, -40, 0, -80, water, 0], [0, -40, 0, -80, water, 0]⟩

theorem node_sharedField : sharedField.hierarchy.node 0 = .ok sharedFieldGroup :=
  Hierarchy.node_eq_ok.mpr (List.getElem?_eq_getElem _)

/-- With a small injector the larger producer goes. -/
theorem checkLimits_withdraws_sharedField :
    sharedField.firstViolation 0 (mixedRates 50)
        = .ok (some (.target 0 (.production .lrat) 100)) ∧
      sharedFieldGroup.specs.production.procedure = .well ∧
      ∃ w ∈ (sharedField.hierarchy.below 0).wells, w.1 = 2 ∧ w.2.isProducer = true ∧
        (sharedField.checkLimits 0 (mixedRates 50)).1.OutOfProduction w.1 := by
  have hviolation : sharedField.firstViolation 0 (mixedRates 50)
      = .ok (some (.target 0 (.production .lrat) 100)) := by decide +kernel
  have hprocedure : sharedFieldGroup.specs.production.procedure = .well := by decide +kernel
  obtain ⟨w, hw, x, hx, hlargest, _, hproducer, _, hout⟩ :=
    checkLimits_withdraws hviolation node_sharedField hprocedure fun _ _ x _ => le_refl x
  have hinjectors : ∀ w ∈ (sharedField.hierarchy.below 0).wells, w.2.isInjector = true →
      w.2.magnitude sharedField.hierarchy.phases (mixedRates 50) .lrat = .ok 50 := by decide +kernel
  obtain ⟨p, hp, hkind, heighty⟩ : ∃ p ∈ (sharedField.hierarchy.below 0).wells,
      p.2.isProducer = true ∧
        p.2.magnitude sharedField.hierarchy.phases (mixedRates 50) .lrat = .ok 80 := by
    decide +kernel
  refine ⟨hviolation, hprocedure, w, hw, ?_, hproducer ?_, hout⟩
  · have hothers : ∀ w ∈ (sharedField.hierarchy.below 0).wells, w.1 = 2 ∨ ∃ y ∈ [40, 50],
        w.2.magnitude sharedField.hierarchy.phases (mixedRates 50) .lrat = .ok y ∧ ¬ 80 ≤ y := by
      decide +kernel
    rcases hothers w hw with hid | ⟨y, _, hmagnitude, hsmaller⟩
    · exact hid
    · obtain ⟨z, hz, hle⟩ := hlargest p hp
      obtain rfl : 80 = z := Except.ok.inj (heighty.symm.trans hz)
      obtain rfl : y = x := Except.ok.inj (hmagnitude.symm.trans hx)
      exact absurd hle hsmaller
  · intro v hv hinjector
    exact ⟨p, hp, hkind, 50, 80, hinjectors v hv hinjector, heighty, by decide +kernel⟩

/-- So the well that is given up need not be a producer: an injector that flows more than every
    producer is shut, and the producers flow as before. -/
theorem not_forall_withdraws_producer :
    ¬ ∀ (phases : ActivePhases) (calls : List (Call ℚ)) (root id : Nat) (rates : RateTable ℚ)
      (n : Node ℚ) (m : ProductionMode) (t : ℚ),
      let s := (vacant phases).serve calls
      s.firstViolation root rates = .ok (some (.target id (.production m) t)) →
      s.hierarchy.node id = .ok n → n.specs.production.procedure = .well →
      ∃ w ∈ (s.hierarchy.below id).wells, w.2.isProducer = true ∧
        (∀ v ∈ (s.hierarchy.below id).wells, v.2.isProducer = true → ∃ x y,
          v.2.magnitude s.hierarchy.phases rates m = .ok x ∧
          w.2.magnitude s.hierarchy.phases rates m = .ok y ∧ x ≤ y) ∧
        s.checkLimits root rates = ((s.withdrawWell w.1).1, .ok .violated) := by
  intro hall
  obtain ⟨w, hw, hproducer, _, hcheck⟩ := hall _ sharedFieldCalls 0 0 (mixedRates 500)
    sharedFieldGroup .lrat 100 (by decide +kernel) node_sharedField (by decide +kernel)
  have hdiffers : ∀ w ∈ (sharedField.hierarchy.below 0).wells, w.2.isProducer = true →
      (sharedField.checkLimits 0 (mixedRates 500)).1.wells
        ≠ (sharedField.withdrawWell w.1).1.wells := by decide +kernel
  exact hdiffers w hw hproducer (congrArg (fun result => result.1.wells) hcheck)

end Site

end ReservoirWells
