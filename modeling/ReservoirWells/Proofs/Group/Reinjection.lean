import ReservoirWells.Proofs.Group.Routes
import ReservoirWells.Proofs.Group.Signs
import ReservoirWells.Proofs.Group.Withdrawal

/-! # Reinjection — what is produced goes back in, neither more nor less

    A group that injects again adds up what the producers below it flow, changes the sign, takes a
    fraction of it and shares that over the injectors below it.  The first level of the sharing
    counts the wells under group control only, the second one counts all of them but hands on by the
    former, and from the third on all wells count.  In exact arithmetic nothing is lost on the way:

    * `Forest.produced_eq_sum` — what a forest produces is the sum of what its producers do;
    * `Hierarchy.replacement_eq_sum` — the volume that a group injects again;
    * `Forest.sum_handed` — what arrives at the wells of a forest adds up to what was handed out;
    * `Site.reinject_conserves` — the targets of the injectors, each weighted with the time that the
      well flows, add up to the fraction of the volume. -/

namespace ReservoirWells

variable {α : Type}

/-! ## What is injected again -/

section Produced

variable [Scalar α]

/-- The mode in which a group injects again what is produced, and the fraction of it. -/
def InjectionSpec.replaces? (spec : InjectionSpec α) : Option (InjectionMode × α) :=
  match spec.mode with
  | .rein => some (.rate, spec.reinjection.val)
  | .vrep => some (.resv, spec.voidage.val)
  | _ => none

/-- What a producer contributes to the volume that is injected again: its surface rate of the injected
    phase, or its reservoir rates of all active phases. -/
def Node.contribution (w : Node α) (a : ActivePhases) (spec : InjectionSpec α)
    (rates : RateTable α) : Except GroupError α :=
  match spec.mode with
  | .rein => w.produced a rates.surface spec.phase
  | _ => w.productionRate a rates.reservoir .resv

/-- What a well produces of a phase; zero when that cannot be told. -/
def Node.flowOf (w : Node α) (a : ActivePhases) (flows : List α) (p : Phase) : α :=
  (w.produced a flows p).toOption.getD 0

theorem Node.flowOf_of_ok {w : Node α} {a : ActivePhases} {flows : List α} {p : Phase} {x : α}
    (hx : w.produced a flows p = .ok x) : w.flowOf a flows p = x := getD_of_ok hx 0

/-- A well whose production can be told is a producer, or it produces nothing. -/
theorem Node.flowOf_of_not_producer {w : Node α} {a : ActivePhases} {flows : List α} {p : Phase}
    {x : α} (hx : w.produced a flows p = .ok x) (hkind : w.isProducer = false) :
    w.flowOf a flows p = 0 := by
  rw [flowOf_of_ok hx]
  obtain ⟨place, _, hx⟩ := bind_eq_ok.mp hx
  rw [producedAt] at hx
  split at hx
  · exact (Except.ok.inj hx).symm
  · next hinjector =>
      obtain ⟨index, hi, _⟩ := bind_eq_ok.mp hx
      rcases isProducer_or_isInjector hi with hproducer | hother
      · rw [hkind] at hproducer
        cases hproducer
      · exact absurd hother hinjector

end Produced

variable [ExactScalar α]

namespace Forest

/-- What a forest produces at one place of the blocks is told for every well, and is their sum. -/
theorem producedAt_eq_sum {phases place : Nat} {flows : List α} {f : Forest α} {sum total : α}
    (h : f.producedAt phases place flows sum = .ok total) :
    ∃ own : Nat × Node α → α, (∀ w ∈ f.wells, w.2.producedAt phases place flows = .ok (own w)) ∧
      total = sum + (f.wells.map own).sum := by
  let own : Nat × Node α → α := fun w => (w.2.producedAt phases place flows).toOption.getD 0
  have hown : ∀ {w : Nat × Node α} {x : α}, w.2.producedAt phases place flows = .ok x →
      own w = x := fun hx => getD_of_ok hx 0
  refine ⟨own, ?_⟩
  induction f generalizing sum total with
  | nil =>
      refine ⟨fun w hw => (List.not_mem_nil hw).elim, ?_⟩
      rw [← Except.ok.inj h]
      exact (add_zero sum).symm
  | well id n next ih =>
      obtain ⟨x, hx, hrest⟩ := bind_eq_ok.mp h
      obtain ⟨hnext, htotal⟩ := ih hrest
      have hself : own (id, n) = x := hown hx
      refine ⟨fun w hw => ?_, ?_⟩
      · rcases List.mem_cons.mp hw with rfl | hin
        · rw [hself]
          exact hx
        · exact hnext w hin
      · rw [htotal, wells, List.map_cons, List.sum_cons, hself, add_assoc]
  | group id n below next ihb ihn =>
      obtain ⟨x, hx, hrest⟩ := bind_eq_ok.mp h
      obtain ⟨hbelow, hx⟩ := ihb hx
      obtain ⟨hnext, htotal⟩ := ihn hrest
      refine ⟨fun w hw => ?_, ?_⟩
      · rcases List.mem_append.mp hw with hin | hin
        · exact hbelow w hin
        · exact hnext w hin
      · rw [htotal, hx, zero_add, wells, List.map_append, List.sum_append, add_assoc]

/-- What a forest produces of a phase is told for every well, and is their sum. -/
theorem produced_eq_sum {f : Forest α} {a : ActivePhases} {flows : List α} {p : Phase} {total : α}
    (h : f.produced a flows p = .ok total) :
    (∀ w ∈ f.wells, w.2.produced a flows p = .ok (w.2.flowOf a flows p)) ∧
      total = (f.wells.map fun w => w.2.flowOf a flows p).sum := by
  obtain ⟨place, hplace, h⟩ := bind_eq_ok.mp h
  obtain ⟨own, hown, htotal⟩ := producedAt_eq_sum h
  have hproduced : ∀ w ∈ f.wells, w.2.produced a flows p = .ok (own w) := by
    intro w hw
    exact bind_eq_ok.mpr ⟨place, hplace, hown w hw⟩
  have hflow : ∀ w ∈ f.wells, w.2.flowOf a flows p = own w :=
    fun w hw => Node.flowOf_of_ok (hproduced w hw)
  refine ⟨fun w hw => ?_, ?_⟩
  · rw [hflow w hw]
    exact hproduced w hw
  · rw [htotal, zero_add, List.map_congr_left hflow]

/-- What a forest produces of several phases can be added up phase by phase or well by well. -/
theorem sum_produced {f : Forest α} {a : ActivePhases} {flows : List α} {phases : List Phase} :
    ∀ {totals : List α}, phases.mapM (f.produced a flows) = .ok totals →
      (∀ w ∈ f.wells, ∀ p ∈ phases, w.2.produced a flows p = .ok (w.2.flowOf a flows p)) ∧
      totals.sum = (f.wells.map fun w => (phases.map (w.2.flowOf a flows)).sum).sum := by
  induction phases with
  | nil =>
      intro totals h
      refine ⟨fun w _ p hp => (List.not_mem_nil hp).elim, ?_⟩
      rw [← Except.ok.inj h]
      exact List.sum_map_zero.symm
  | cons p rest ih =>
      intro totals h
      rw [List.mapM_cons] at h
      obtain ⟨x, hx, h⟩ := bind_eq_ok.mp h
      obtain ⟨xs, hxs, h⟩ := bind_eq_ok.mp h
      obtain ⟨hown, hsum⟩ := produced_eq_sum hx
      obtain ⟨hothers, hsums⟩ := ih hxs
      refine ⟨fun w hw => List.forall_mem_cons.mpr ⟨hown w hw, hothers w hw⟩, ?_⟩
      rw [← Except.ok.inj h, List.sum_cons, hsum, hsums, ← List.sum_map_add]
      simp only [List.map_cons, List.sum_cons]

end Forest

/-- The volume that a group injects again is what the producers contribute, with the other sign. -/
theorem Hierarchy.replacement_eq_sum {h : Hierarchy α} {n : Node α} {f : Forest α} (hf : f.IsPart h)
    {rates : RateTable α} {mode : InjectionMode} {fraction : α}
    (hmode : n.specs.injection.replaces? = some (mode, fraction))
    {found : Option (InjectionMode × α × α)} (hrep : h.replacement? n f rates = .ok found) :
    ∃ own : Nat × Node α → α,
      (∀ w ∈ f.wells, w.2.isProducer = true →
        w.2.contribution h.phases n.specs.injection rates = .ok (own w)) ∧
      found = some (mode, -((f.wells.filter fun w => w.2.isProducer).map own).sum, fraction) := by
  rw [replacement?] at hrep
  rw [InjectionSpec.replaces?] at hmode
  cases hm : n.specs.injection.mode with
  | rein =>
      rw [hm] at hmode hrep
      cases hmode
      obtain ⟨produced, hproduced, hrep⟩ := bind_eq_ok.mp hrep
      cases hrep
      obtain ⟨hown, hsum⟩ := Forest.produced_eq_sum hproduced
      refine ⟨fun w => w.2.flowOf h.phases rates.surface n.specs.injection.phase,
        fun w hw _ => ?_, ?_⟩
      · rw [Node.contribution, hm]
        exact hown w hw
      · rw [hsum, sum_map_filter_of_zero]
        exact fun w hw hkind => Node.flowOf_of_not_producer (hown w hw) hkind
  | vrep =>
      rw [hm] at hmode hrep
      cases hmode
      obtain ⟨produced, hproduced, hrep⟩ := bind_eq_ok.mp hrep
      cases hrep
      obtain ⟨hown, hsum⟩ := Forest.sum_produced hproduced
      refine ⟨fun w => (h.phases.toList.map (w.2.flowOf h.phases rates.reservoir)).sum,
        fun w hw _ => ?_, ?_⟩
      · have hwell := (hf.node_of_mem_wells hw).2
        rw [Node.contribution, hm]
        simp only [Node.productionRate, hwell, Bool.false_eq_true, if_false, beq_self_eq_true, if_true,
          mapM_of_forall (hown w hw)]
        exact congrArg Except.ok (Scalar.total_eq_sum _)
      · rw [Scalar.total_eq_sum, hsum, sum_map_filter_of_zero]
        intro w hw hkind
        refine List.sum_eq_zero fun x hx => ?_
        obtain ⟨p, hp, rfl⟩ := List.mem_map.mp hx
        exact Node.flowOf_of_not_producer (hown w hw p hp) hkind
  | _ => rw [hm] at hmode; cases hmode

/-! ## What arrives at the wells -/

/-- A group that follows hands on what it is handed when there is a guide rate to divide by. -/
theorem Hierarchy.handed_of_follows {h : Hierarchy α} {g : Nat × Node α}
    (hg : g.2.specs.injection.mode = .fld) (w : Node α) (onlyGroup shareGroup : Bool)
    (target : α → α) (groups : List (Nat × Node α)) :
    h.handed .injection w onlyGroup shareGroup target (g :: groups)
      = if Scalar.isZero ((h.below g.1).guideTotal .injection onlyGroup 0) then none
        else h.handed .injection w false onlyGroup (fun guide =>
          target ((h.below g.1).guideTotal .injection shareGroup 0) / g.2.efficiency.val
            * (guide / (h.below g.1).guideTotal .injection onlyGroup 0)) groups := by
  have htakes : g.2.declines .injection onlyGroup = false := by
    rw [Node.declines, show g.2.specs.mode .injection = .injection .fld from
      congrArg Mode.injection hg]
    cases onlyGroup <;> rfl
  rw [handed]
  simp only [htakes, Bool.false_or]
  rfl

/-- A well without a guide rate is handed nothing. -/
theorem Hierarchy.handed_of_no_guideRate {h : Hierarchy α} {d : Direction} {w : Node α}
    (hw : w.specs.guideRate d = 0) (groups : List (Nat × Node α)) :
    ∀ {onlyGroup shareGroup : Bool} {target : α → α} {x : α}, target 0 = 0 →
      h.handed d w onlyGroup shareGroup target groups = some x → x = 0 := by
  induction groups with
  | nil =>
      intro onlyGroup shareGroup target x htarget hx
      have hshare : w.share d shareGroup = 0 := by rw [Node.share, hw, ite_self]
      rw [handed] at hx
      split at hx
      · cases hx
      · rw [← Option.some.inj hx, hshare, htarget]
  | cons g rest ih =>
      intro onlyGroup shareGroup target x htarget hx
      rw [handed] at hx
      split at hx
      · cases hx
      · exact ih (by rw [zero_div, mul_zero]) hx

namespace Forest

variable {h : Hierarchy α} {f : Forest α}

/-- Where nothing is left to divide by, there was nothing to be handed either. -/
theorem guideTotal_eq_zero {d : Direction} {onlyGroup shareGroup : Bool}
    (hflags : onlyGroup = true → shareGroup = true) (hzero : f.guideTotal d onlyGroup 0 = 0) :
    f.guideTotal d shareGroup 0 = 0 := by
  cases onlyGroup with
  | true => rw [hflags rfl, hzero]
  | false =>
      cases shareGroup with
      | true =>
          exact le_antisymm ((f.guideTotal_true_le d).trans hzero.le) (f.guideTotal_nonneg d true)
      | false => exact hzero

/-- In a forest of followers an injection push hands out what the guide rates of the forest stand for,
    each share weighted with the time in which the groups above the well flow. The guide rates that
    the groups divide by may count more wells than those by which they are handed their share. -/
theorem sum_handed (hf : f.IsPart h) (hfollow : ∀ g ∈ f.groups, g.2.specs.injection.mode = .fld) :
    ∀ (onlyGroup shareGroup : Bool), (onlyGroup = true → shareGroup = true) →
      ∀ (above : List (Node α)) (unit : α) (target : α → α),
      (∀ guide, target guide = unit * guide / pathEfficiency above) →
      (f.routes.map fun r =>
        (h.handed .injection r.node onlyGroup shareGroup target r.groups).getD 0
          * pathEfficiency (above ++ r.groups.map (·.2))).sum
        = unit * f.guideTotal .injection shareGroup 0 := by
  induction f with
  | nil => intro _ _ _ above unit target _; exact (mul_zero unit).symm
  | well id n next ih =>
      intro onlyGroup shareGroup hflags above unit target htarget
      have hself : (h.handed .injection n onlyGroup shareGroup target []).getD 0
          * pathEfficiency (above ++ []) = unit * n.share .injection shareGroup := by
        rw [Hierarchy.handed, List.append_nil]
        split
        · next hskip =>
            -- a well that is passed over brings in nothing
            obtain ⟨hgroup, hind⟩ := Bool.and_eq_true_iff.mp hskip
            rw [Node.share, hflags hgroup, hind, Bool.true_and, if_pos rfl, mul_zero]
            exact zero_mul _
        · rw [Option.getD_some, htarget, div_mul_cancel₀ _ (pathEfficiency_pos above).ne']
      rw [routes, List.map_cons, List.sum_cons, guideTotal, guideTotal_add,
        ih hf.2.2 hfollow onlyGroup shareGroup hflags above unit target htarget, mul_add, zero_add]
      exact congrArg (· + _) hself
  | group id n below next ihb ihn =>
      intro onlyGroup shareGroup hflags above unit target htarget
      obtain ⟨_, _, hbelow, hpart, hnext⟩ := hf
      have hself : n.specs.injection.mode = .fld := hfollow (id, n) (List.mem_cons_self ..)
      have htotal : (Forest.group id n below next).guideTotal .injection shareGroup 0
          = below.guideTotal .injection shareGroup 0
            + next.guideTotal .injection shareGroup 0 := by
        rw [guideTotal, if_neg (by simp), next.guideTotal_add, zero_add]
      have hunder : (below.routes.map fun r =>
          (h.handed .injection r.node onlyGroup shareGroup target ((id, n) :: r.groups)).getD 0
            * pathEfficiency (above ++ n :: r.groups.map (·.2))).sum
          = unit * below.guideTotal .injection shareGroup 0 := by
        simp only [Hierarchy.handed_of_follows (g := (id, n)) hself, ← hbelow]
        by_cases hzero : below.guideTotal .injection onlyGroup 0 = 0
        · rw [guideTotal_eq_zero hflags hzero, mul_zero]
          refine List.sum_eq_zero fun x hx => ?_
          obtain ⟨r, _, rfl⟩ := List.mem_map.mp hx
          rw [if_pos ((Scalar.isZero_iff _).mpr hzero)]
          exact zero_mul _
        · have hgoes : ¬ Scalar.isZero (below.guideTotal .injection onlyGroup 0) = true :=
            mt (Scalar.isZero_iff _).mp hzero
          have hbelowSum := ihb hpart (fun g hg => hfollow g (List.mem_cons_of_mem _
              (List.mem_append.mpr (Or.inl hg)))) false onlyGroup
            (fun hfalse => (Bool.false_ne_true hfalse).elim) (above ++ [n])
            (unit * below.guideTotal .injection shareGroup 0
              / below.guideTotal .injection onlyGroup 0)
            (fun guide => target (below.guideTotal .injection shareGroup 0) / n.efficiency.val
              * (guide / below.guideTotal .injection onlyGroup 0))
            (fun guide => by rw [htarget, pathEfficiency_append]; field_simp)
          rw [div_mul_cancel₀ _ hzero] at hbelowSum
          rw [← hbelowSum]
          refine congrArg List.sum (List.map_congr_left fun r _ => ?_)
          rw [if_neg hgoes, List.append_cons]
      rw [routes, List.map_append, List.sum_append, List.map_map, htotal, mul_add, ← hunder,
        ← ihn hnext (fun g hg => hfollow g (List.mem_cons_of_mem _ (List.mem_append.mpr
          (Or.inr hg)))) onlyGroup shareGroup hflags above unit target htarget]
      rfl

end Forest

/-! ## Conservation -/

section Installed

variable {α : Type}

/-- The well that takes a group control by an order. -/
def Order.installed? : Order α → Option Nat
  | .install id _ => some id
  | _ => none

theorem Order.installed?_eq_some {o : Order α} {id : Nat} :
    o.installed? = some id ↔ ∃ c, o = .install id c := by
  cases o with
  | install j c =>
      constructor
      · intro heq
        cases heq
        exact ⟨c, rfl⟩
      · rintro ⟨d, heq⟩
        cases heq
        rfl
  | _ =>
      constructor
      · intro heq
        cases heq
      · rintro ⟨d, heq⟩
        cases heq

end Installed

namespace Site

variable {s : Site α} {id : Nat} {n : Node α} {rates : RateTable α}

/-- The wells whose group controls a call installs. -/
def installedBy (s : Site α) (c : Call α) : List Nat :=
  ((s.plan c).toOption.getD []).filterMap Order.installed?

/-- A group with a guide rate under group control that injects again what is produced, and does not
    fail, pushes the fraction of the volume down to the children under group control. -/
theorem plan_reinject (hn : s.hierarchy.node id = .ok n) (hg : n.isGroup = true)
    {mode : InjectionMode} {fraction : α}
    (hmode : n.specs.injection.replaces? = some (mode, fraction))
    (hpos : 0 < (s.hierarchy.below id).guideTotal .injection true 0)
    (hrun : (s.reinject id rates).2 = .ok ()) :
    ∃ (own : Nat × Node α → α) (target : α → α),
      (∀ w ∈ (s.hierarchy.below id).wells, w.2.isProducer = true →
        w.2.contribution s.hierarchy.phases n.specs.injection rates = .ok (own w)) ∧
      (∀ guide, target guide
        = fraction * -(((s.hierarchy.below id).wells.filter fun w => w.2.isProducer).map own).sum
          / (s.hierarchy.below id).guideTotal .injection true 0 * guide) ∧
      s.plan (.reinject id rates) = .ok ((s.hierarchy.below id).push s.hierarchy.phases
        (.injection mode) true true target) := by
  cases hplan : s.hierarchy.reinjectionPlan id rates with
  | error e => rw [reinject, hplan] at hrun; cases hrun
  | ok l =>
      obtain ⟨n', hn', hl⟩ := bind_eq_ok.mp hplan
      obtain rfl : n = n' := Except.ok.inj (hn.symm.trans hn')
      rw [hg, Bool.not_true, if_neg Bool.false_ne_true] at hl
      obtain ⟨found, hfound, hl⟩ := bind_eq_ok.mp hl
      obtain ⟨own, hown, rfl⟩ :=
        Hierarchy.replacement_eq_sum (s.hierarchy.below_isPart id) hmode hfound
      have hinject : l = (s.hierarchy.below id).inject s.hierarchy.phases mode
          (-(((s.hierarchy.below id).wells.filter fun w => w.2.isProducer).map own).sum) fraction :=
        (Except.ok.inj hl).symm
      rw [Forest.inject, Scalar.isZero_of_pos hpos, if_neg Bool.false_ne_true] at hinject
      refine ⟨own, _, hown, fun guide => ?_, hplan.trans (congrArg Except.ok hinject)⟩
      ring

/-- In a push with group control, below which the wells with a guide rate are injectors, a well whose
    group control the push installs is held to what arrives over its own efficiency factor. At any
    other well nothing arrives. -/
theorem handed_of_push (hsep : s.Separate) {mode : InjectionMode} {target : α → α}
    {l : List (Order α)}
    (hl : l = (s.hierarchy.below id).push s.hierarchy.phases (.injection mode) true true target)
    (htarget : target 0 = 0) (hwells : ∀ w ∈ (s.hierarchy.below id).wells,
      0 < w.2.specs.guideRate .injection → w.2.isInjector = true)
    (hrun : (s.run l).2 = .ok ()) {r : Route α} (hr : r ∈ (s.hierarchy.below id).routes) :
    (r.id ∈ l.filterMap Order.installed? → r.node.isInjector = true ∧ ∃ x c,
      s.hierarchy.handed .injection r.node true true target r.groups = some x ∧
      (s.run l).1.UnderControl r.id c ∧
      groupControl s.hierarchy.phases (.injection mode) c.target = .ok c ∧
      c.target = x / r.node.efficiency.val) ∧
    (r.id ∉ l.filterMap Order.installed? →
      (s.hierarchy.handed .injection r.node true true target r.groups).getD 0 = 0) := by
  have hpart := s.hierarchy.below_isPart id
  subst hl
  refine ⟨fun hmem => ?_, fun hnot => ?_⟩
  · obtain ⟨o, ho, hid⟩ := List.mem_filterMap.mp hmem
    obtain ⟨c, rfl⟩ := Order.installed?_eq_some.mp hid
    obtain ⟨r', hr', hplace, hkind, x, hx, hc⟩ := Forest.handed_of_install hpart ho
    obtain rfl := Forest.eq_of_mem_routes (s.hierarchy.nodup_postorder_below id).1 hr' hr hplace
    have hheld := target_of_groupControl hc
    exact ⟨hkind, x, c, hx, run_install (hsep.on _) ho (s.hierarchy.push_below_nodup id _ _ _ _ _)
      Forest.activate_notMem_push hrun, hheld ▸ hc, hheld⟩
  · cases hx : s.hierarchy.handed .injection r.node true true target r.groups with
    | none => rfl
    | some x =>
        cases hkind : r.node.isInjector with
        | true =>
            rcases Forest.install_of_handed s.hierarchy.phases (.injection mode) hpart hr hkind hx with
              ⟨c, _, hmem⟩ | ⟨e, hmem⟩
            · exact absurd (List.mem_filterMap.mpr ⟨_, hmem, Order.installed?_eq_some.mpr ⟨c, rfl⟩⟩)
                hnot
            · exact absurd hmem (refuse_notMem_of_run hrun e)
        | false =>
            have hguide : r.node.specs.guideRate .injection = 0 := by
              refine le_antisymm (not_lt.mp fun hpos => ?_) (r.node.specs.guideRate_nonneg .injection)
              have hinjector := hwells _ (Forest.mem_wells_of_mem_routes hr) hpos
              rw [hkind] at hinjector
              cases hinjector
            exact Hierarchy.handed_of_no_guideRate hguide r.groups htarget hx

/-- What such a push through followers holds the injectors to, each target weighted with the time that
    the injector flows, adds up to what the guide rate under group control stands for. -/
theorem sum_held_of_push (hsep : s.Separate) {mode : InjectionMode} {target : α → α} {unit : α}
    {l : List (Order α)}
    (hl : l = (s.hierarchy.below id).push s.hierarchy.phases (.injection mode) true true target)
    (htarget : ∀ guide, target guide = unit * guide)
    (hfollow : ∀ g ∈ (s.hierarchy.below id).groups, g.2.specs.injection.mode = .fld)
    (hwells : ∀ w ∈ (s.hierarchy.below id).wells,
      0 < w.2.specs.guideRate .injection → w.2.isInjector = true)
    (hrun : (s.run l).2 = .ok ()) :
    ((((s.hierarchy.below id).descents []).filter fun w =>
        decide (w.id ∈ l.filterMap Order.installed?)).map fun w =>
      w.efficiency * (s.run l).1.heldTarget w.id).sum
      = unit * (s.hierarchy.below id).guideTotal .injection true 0 := by
  have hhanded : ∀ r ∈ (s.hierarchy.below id).routes, _ := fun r hr =>
    handed_of_push hsep hl (by rw [htarget, mul_zero]) hwells hrun hr
  rw [← Forest.sum_handed (s.hierarchy.below_isPart id) hfollow true true (fun h => h) [] unit target
      (fun guide => by rw [htarget, show pathEfficiency ([] : List (Node α)) = 1 from rfl, div_one]),
    ← Forest.map_descent_routes, List.filter_map, List.map_map]
  refine Eq.trans (congrArg List.sum (List.map_congr_left fun r hr => ?_))
    (sum_map_filter_of_zero fun r hr hnot => ?_)
  · obtain ⟨hmem, hinstalled⟩ := List.mem_filter.mp hr
    obtain ⟨_, x, c, hx, hunder, _, hheld⟩ := (hhanded r hmem).1 (of_decide_eq_true hinstalled)
    have hself := r.node.efficiency.pos.ne'
    show pathEfficiency (r.groups.map (·.2) ++ [r.node]) * (s.run l).1.heldTarget r.id = _
    rw [hunder.heldTarget, hheld, hx, Option.getD_some, pathEfficiency_append, List.nil_append]
    field_simp
  · rw [(hhanded r hr).2 (of_decide_eq_false hnot), zero_mul]

/-- A group injects again what is produced, in a mode that replaces production and with a guide rate
    under group control; every group below it follows, every well below it with a guide rate is an
    injector, and nothing fails. Then the targets of the injectors whose group controls the call
    installs, each weighted with the efficiency factors of the nodes below the group on the way to
    the injector, add up to the fraction of what the producers below the group contribute, with the
    other sign. -/
theorem reinject_conserves (hsep : s.Separate) (hn : s.hierarchy.node id = .ok n)
    (hg : n.isGroup = true) {mode : InjectionMode} {fraction total : α}
    (hmode : n.specs.injection.replaces? = some (mode, fraction))
    (htotal : s.hierarchy.guideRate .injection id true = .ok total) (hpos : 0 < total)
    (hfollow : ∀ g ∈ (s.hierarchy.below id).groups, g.2.specs.injection.mode = .fld)
    (hwells : ∀ w ∈ (s.hierarchy.below id).wells,
      0 < w.2.specs.guideRate .injection → w.2.isInjector = true)
    (hrun : (s.reinject id rates).2 = .ok ()) :
    (∀ w ∈ (s.hierarchy.below id).descents [], w.id ∈ s.installedBy (.reinject id rates) →
      w.node.isInjector = true ∧ ∃ c, (s.reinject id rates).1.UnderControl w.id c ∧
        groupControl s.hierarchy.phases (.injection mode) c.target = .ok c) ∧
    ∃ own : Nat × Node α → α,
      (∀ w ∈ (s.hierarchy.below id).wells, w.2.isProducer = true →
        w.2.contribution s.hierarchy.phases n.specs.injection rates = .ok (own w)) ∧
      ((((s.hierarchy.below id).descents []).filter fun w =>
          decide (w.id ∈ s.installedBy (.reinject id rates))).map fun w =>
        w.efficiency * (s.reinject id rates).1.heldTarget w.id).sum
        = fraction * -(((s.hierarchy.below id).wells.filter fun w => w.2.isProducer).map own).sum := by
  obtain rfl : total = (s.hierarchy.below id).guideTotal .injection true 0 :=
    Except.ok.inj (htotal.symm.trans (Hierarchy.guideRate_group hn hg .injection true))
  obtain ⟨own, target, hown, htarget, hplan⟩ := plan_reinject hn hg hmode hpos hrun
  generalize hl : (s.hierarchy.below id).push s.hierarchy.phases (.injection mode) true true target
    = l at hplan
  have hcall : s.reinject id rates = s.run l := congrArg s.follow hplan
  have hinstalled : s.installedBy (.reinject id rates) = l.filterMap Order.installed? := by
    rw [installedBy, hplan]
    rfl
  rw [hcall] at hrun ⊢
  rw [hinstalled]
  refine ⟨fun w hw hmem => ?_, own, hown, ?_⟩
  · rw [← Forest.map_descent_routes] at hw
    obtain ⟨r, hr, rfl⟩ := List.mem_map.mp hw
    obtain ⟨hkind, x, c, _, hunder, hc, _⟩ :=
      (handed_of_push hsep hl.symm (by rw [htarget, mul_zero]) hwells hrun hr).1 hmem
    exact ⟨hkind, c, hunder, hc⟩
  · exact (sum_held_of_push hsep hl.symm htarget hfollow hwells hrun).trans
      (div_mul_cancel₀ _ hpos.ne')

/-- A field that injects half of the produced water again, into a well of its own and into a region that
    flows half of the time. In the innermost group one of the two wells is under individual
    control. -/
def waterCycleCalls : List (Call ℚ) := [
  .enrol "P1" .producer [.bhp 100],
  .enrol "P2" .producer [.bhp 100],
  .enrol "I1" .injector [.bhp 500],
  .enrol "I2" .injector [.bhp 500],
  .enrol "I3" .injector [.bhp 500],
  .enrol "I4" .injector [.bhp 500],
  .addGroup "FIELD" none .one ⟨.default,
    { InjectionSpec.default with mode := .rein, reinjection := ⟨1 / 2, by decide +kernel⟩ }⟩,
  .addWell "P1" (some 0) .one (.producer .default),
  .addWell "P2" (some 0) .one (.producer .default),
  .addWell "I1" (some 0) .one (.injector .default),
  .addGroup "EAST" (some 0) .half ⟨.default, { InjectionSpec.default with mode := .fld }⟩,
  .addWell "I2" (some 4) .one (.injector .default),
  .addGroup "DEEP" (some 4) .one ⟨.default, { InjectionSpec.default with mode := .fld }⟩,
  .addWell "I3" (some 6) .one (.injector .default),
  .addWell "I4" (some 6) .one (.injector .default),
  .attach 1 0,
  .attach 2 1,
  .attach 3 2,
  .attach 5 3,
  .attach 7 4,
  .attach 8 5,
  .edit 3 (.individual false),
  .edit 5 (.individual false),
  .edit 7 (.individual false)]

/-- The site of that field. -/
def waterCycle : Site ℚ := (vacant ⟨true, true, false⟩).serve waterCycleCalls

/-- The group of the whole field. -/
def waterCycleGroup : Node ℚ := waterCycle.hierarchy.nodes.get ⟨0, by decide +kernel⟩

/-- The two producers flow seventy and fifty of water, and some oil. -/
def waterRates : RateTable ℚ := ⟨[], [], [-70, -10, -50, -20]⟩

/-- All four injectors take a control, and sixty of the hundred and twenty go back in. -/
theorem reinject_conserves_waterCycle :
    waterCycle.Separate ∧ (waterCycle.reinject 0 waterRates).2 = .ok () ∧
      waterCycle.installedBy (.reinject 0 waterRates) = [3, 5, 7, 8] ∧
      ((((waterCycle.hierarchy.below 0).descents []).filter fun w =>
          decide (w.id ∈ waterCycle.installedBy (.reinject 0 waterRates))).map fun w =>
        w.efficiency * (waterCycle.reinject 0 waterRates).1.heldTarget w.id).sum = 60 := by
  have hsep : waterCycle.Separate := separate_of_nodup (by decide +kernel)
  have hn : waterCycle.hierarchy.node 0 = .ok waterCycleGroup :=
    Hierarchy.node_eq_ok.mpr (List.getElem?_eq_getElem _)
  have hmode : waterCycleGroup.specs.injection.replaces? = some (.rate, 1 / 2) := by decide +kernel
  have htotal : waterCycle.hierarchy.guideRate .injection 0 true = .ok 3 := by decide +kernel
  have hrun : (waterCycle.reinject 0 waterRates).2 = .ok () := by decide +kernel
  obtain ⟨_, own, hown, hsum⟩ := reinject_conserves hsep hn (by decide +kernel) hmode htotal
    (by decide) (by decide +kernel) (by decide +kernel) hrun
  -- what the producers contribute can be looked up
  have hflow : ∀ w ∈ (waterCycle.hierarchy.below 0).wells.filter fun w => w.2.isProducer,
      own w = (w.2.contribution waterCycle.hierarchy.phases waterCycleGroup.specs.injection
        waterRates).toOption.getD 0 := by
    intro w hw
    obtain ⟨hmem, hkind⟩ := List.mem_filter.mp hw
    rw [hown w hmem hkind]
    rfl
  refine ⟨hsep, hrun, by decide +kernel, hsum.trans ?_⟩
  rw [List.map_congr_left hflow]
  decide +kernel

end Site

end ReservoirWells
