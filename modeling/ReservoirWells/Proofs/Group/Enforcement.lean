import ReservoirWells.Proofs.Group.Splitting
import ReservoirWells.Proofs.Group.Calls
import ReservoirWells.Proofs.Group.Correction

/-! # Enforcement — what comes of an exceeded injection target

    A group that exceeds one of its injection targets pushes the target down and takes its mode, and
    from then on a check passes over the target, since it is the one in force.  But a push is left
    alone by a group that is not controlled, and nothing asks whether it was:

    * `Site.firstViolation_ne_of_mode` — the target in force is never found again;
    * `Site.checkLimits_enforces` — a controlled group imposes the target on every injector below
      with a guide rate, over the efficiency factors on the way; a group without control only
      takes the mode, and every well stays as it is;
    * `Site.not_forall_enforced` — so a limit may be passed over that no well was ever held to. -/

namespace ReservoirWells

variable {α : Type}

/-! ## The target in force -/

/-- The target of the mode in force is not looked at. -/
theorem Node.notMem_checkedTargets [Scalar α] {n : Node α} {mode : Mode}
    (h : n.specs.mode mode.direction = mode) : mode ∉ n.checkedTargets := by
  intro hmem
  have hother := (List.mem_filter.mp hmem).2
  rw [h, beq_self_eq_true, Bool.not_true] at hother
  cases hother

namespace Site

/-- No check finds the target of the mode in force exceeded. -/
theorem firstViolation_ne_of_mode [Scalar α] {s : Site α} {id : Nat} {n : Node α} {mode : Mode}
    (hn : s.hierarchy.node id = .ok n) (h : n.specs.mode mode.direction = mode) (root : Nat)
    (rates : RateTable α) (t : α) :
    s.firstViolation root rates ≠ .ok (some (.target id mode t)) := by
  intro hviolation
  obtain ⟨n', hn', _, hgroup, _⟩ := group_of_firstViolation hviolation
  rw [hn] at hn'
  cases hn'
  obtain ⟨checked, hchecked, hfound⟩ := exists_of_findSomeM? hgroup
  have hsame : checked = mode := by
    rw [Node.inspectTarget] at hfound
    obtain ⟨target, _, hfound⟩ := bind_eq_ok.mp hfound
    cases target with
    | none => cases hfound
    | some target =>
        obtain ⟨rate, _, hfound⟩ := bind_eq_ok.mp hfound
        have hsome := Except.ok.inj hfound
        split at hsome
        · cases hsome
          rfl
        · cases hsome
  exact Node.notMem_checkedTargets h (hsame ▸ hchecked)

/-! ## The push and the mode -/

/-- The answer to an exceeded injection target is a push that goes through, and then the mode. -/
theorem checkLimits_of_injection [Scalar α] {s : Site α} {root id : Nat} {rates : RateTable α}
    {m : InjectionMode} {t : α}
    (h : s.firstViolation root rates = .ok (some (.target id (.injection m) t))) :
    (s.pushTarget id (.injection m) t false).2 = .ok () ∧ s.checkLimits root rates
      = ((s.pushTarget id (.injection m) t false).1.adopted id (.injection m), .ok .violated) := by
  obtain ⟨hdone, hcheck⟩ := checkLimits_of_violation h
  rw [correct] at hdone hcheck
  generalize s.pushTarget id (.injection m) t false = pushed at hdone hcheck ⊢
  obtain ⟨after, _ | ⟨⟩⟩ := pushed
  · cases hdone
  · exact ⟨rfl, hcheck⟩

/-- A well stays under its control when another node takes a mode. -/
theorem UnderControl.adopted [Scalar α] {s : Site α} {id j : Nat} {c : Control α}
    (h : s.UnderControl j c) (hne : id ≠ j) (mode : Mode) : (s.adopted id mode).UnderControl j c := by
  obtain ⟨n, index, slot, w, hn, hrest⟩ := h
  exact ⟨n, index, slot, w, (s.hierarchy.node_modify_of_ne hne _).trans hn, hrest⟩

/-- A group without control leaves a target alone. -/
theorem pushTarget_of_uncontrolled [Scalar α] {s : Site α} {id : Nat} {n : Node α} {mode : Mode}
    (hn : s.hierarchy.node id = .ok n) (hg : n.isGroup = true)
    (hmode : n.specs.mode mode.direction = mode.direction.uncontrolled) (t : α) :
    s.pushTarget id mode t false = (s, .ok ()) := by
  have hdeclines : n.declines mode.direction false = true := by
    rw [Node.declines, hmode, beq_self_eq_true, Bool.true_or]
  have hnone : n.enforce id (s.hierarchy.below id) s.hierarchy.phases mode t = [] := by
    rw [Node.enforce, Forest.push, hdeclines, Bool.true_or, if_pos rfl]
    rfl
  rw [pushTarget_group hn hg, hnone]
  rfl

variable [ExactScalar α]

/-- What an injector is held to after a controlled group pushed an injection target down: its part of
    the target, over the efficiency factors on the way. -/
theorem underControl_pushTarget {s : Site α} {id : Nat} {n : Node α} {m : InjectionMode} {t total : α}
    (hn : s.hierarchy.node id = .ok n) (hg : n.isGroup = true) (hsep : s.Separate)
    (htotal : s.hierarchy.guideRate .injection id false = .ok total) (hpos : 0 < total)
    (hmode : n.specs.injection.mode ≠ .none)
    (hgroups : ∀ g ∈ (s.hierarchy.below id).groups, g.2.specs.injection.mode ≠ .none)
    (hrun : (s.pushTarget id (.injection m) t false).2 = .ok ()) {w : Descent α}
    (hw : w ∈ (s.hierarchy.below id).descents [n]) (hkind : w.node.isInjector = true)
    (hguide : 0 < w.guideRate .injection) :
    ∃ c, (s.pushTarget id (.injection m) t false).1.UnderControl w.id c ∧
      groupControl s.hierarchy.phases (.injection m) c.target = .ok c ∧
      c.target = t * w.guideRate .injection / total / w.efficiency := by
  obtain rfl : _ = total :=
    Except.ok.inj ((Hierarchy.guideRate_group hn hg .injection false).symm.trans htotal)
  have hcontrolled : ∀ g : Node α, g.specs.injection.mode ≠ .none →
      g.specs.mode .injection ≠ Direction.injection.uncontrolled := by
    intro g hne heq
    exact hne (Mode.injection.inj heq)
  have hall : (Forest.group id n (s.hierarchy.below id) .nil).Controlled (Mode.injection m).direction :=
    Forest.controlled_group (hcontrolled n hmode) fun g hg => hcontrolled g.2 (hgroups g hg)
  have hwhole : 0 < (s.hierarchy.below id).guideTotal (Mode.injection m).direction false 0 := hpos
  obtain ⟨c, hc, hunder⟩ :=
    pushTarget_installs hn hg (hsep.on _) hwhole hall hrun hw hkind hguide
  have htarget := target_of_groupControl hc
  exact ⟨c, hunder, htarget ▸ hc, htarget.trans (w.target_injection t _)⟩

/-- A group exceeds an injection target, and every group below it is controlled. The check answers
    it, the mode of the target is in force from then on, and no later check finds the target
    exceeded while it is. If the group itself was controlled, every injector below with a guide rate
    is then held to its part of the target, over the efficiency factors on the way. If it was not,
    the mode is all that changes. -/
theorem checkLimits_enforces {s : Site α} {root id : Nat} {rates : RateTable α} {n : Node α}
    {m : InjectionMode} {t total : α}
    (h : s.firstViolation root rates = .ok (some (.target id (.injection m) t)))
    (hn : s.hierarchy.node id = .ok n) (hsep : s.Separate)
    (htotal : s.hierarchy.guideRate .injection id false = .ok total) (hpos : 0 < total)
    (hgroups : ∀ g ∈ (s.hierarchy.below id).groups, g.2.specs.injection.mode ≠ .none) :
    let after := (s.checkLimits root rates).1
    (s.checkLimits root rates).2 = .ok .violated ∧
    (∃ n', after.hierarchy.node id = .ok n' ∧ n'.specs.injection.mode = m) ∧
    (∀ root' later t',
      after.firstViolation root' later ≠ .ok (some (.target id (.injection m) t'))) ∧
    (n.specs.injection.mode ≠ .none → ∀ w ∈ (s.hierarchy.below id).descents [n],
      w.node.isInjector = true → 0 < w.guideRate .injection →
        ∃ c, after.UnderControl w.id c ∧
          groupControl s.hierarchy.phases (.injection m) c.target = .ok c ∧
          c.target = t * w.guideRate .injection / total / w.efficiency) ∧
    (n.specs.injection.mode = .none → after = s.adopted id (.injection m)) := by
  intro after
  obtain ⟨n', hn', hg, _, _⟩ := group_of_firstViolation h
  rw [hn] at hn'
  cases hn'
  obtain ⟨hdone, hcheck⟩ := checkLimits_of_injection h
  have hafter : after = (s.pushTarget id (.injection m) t false).1.adopted id (.injection m) :=
    congrArg Prod.fst hcheck
  obtain ⟨k, hk, hmode⟩ : ∃ k, after.hierarchy.node id = .ok k ∧ k.specs.injection.mode = m := by
    have hlasting := (s.run_lasting
      (n.enforce id (s.hierarchy.below id) s.hierarchy.phases (.injection m) t)).1
    rw [← pushTarget_group hn hg] at hlasting
    obtain ⟨p, hp, _⟩ := Hierarchy.exists_node_of_map hlasting.symm hn
    rw [hafter]
    exact ⟨p.adopt (.injection m), Hierarchy.node_modify_self hp _, rfl⟩
  refine ⟨congrArg Prod.snd hcheck, ⟨k, hk, hmode⟩, ?_, ?_, ?_⟩
  · exact firstViolation_ne_of_mode hk (congrArg Mode.injection hmode)
  · intro hcontrol w hw hkind hguide
    obtain ⟨c, hunder, hc⟩ :=
      underControl_pushTarget hn hg hsep htotal hpos hcontrol hgroups hdone hw hkind hguide
    have hwell : (w.id, w.node) ∈ (s.hierarchy.below id).wells := by
      rw [← (s.hierarchy.below id).descents_wells [n]]
      exact List.mem_map_of_mem hw
    -- the mode goes to the group, which is not the well
    have hne : id ≠ w.id := by
      rintro rfl
      obtain ⟨hnode, hnot⟩ := (s.hierarchy.below_isPart w.id).node_of_mem_wells hwell
      obtain rfl : n = w.node := Except.ok.inj (hn.symm.trans hnode)
      exact Bool.false_ne_true (hnot.symm.trans hg)
    rw [hafter]
    exact ⟨c, hunder.adopted hne _, hc⟩
  · intro hnone
    have huncontrolled : n.specs.mode (Mode.injection m).direction
        = (Mode.injection m).direction.uncontrolled := congrArg Mode.injection hnone
    rw [hafter, pushTarget_of_uncontrolled hn hg huncontrolled]

/-- The specification of a group that may inject a hundred at surface conditions. -/
def floodSpecs (mode : InjectionMode) : Specs ℚ :=
  ⟨.default, { InjectionSpec.default with mode := mode, surface := some 100 }⟩

/-- Two injectors below such a group, one of them in a group that is on half of the time. -/
def floodCalls (mode : InjectionMode) : List (Call ℚ) := [
  .enrol "I1" .injector [.bhp 400],
  .enrol "I2" .injector [.bhp 400],
  .addGroup "INJ" none .one (floodSpecs mode),
  .addGroup "EAST" (some 0) .half ⟨.default, { InjectionSpec.default with mode := .fld }⟩,
  .addWell "I1" (some 0) .one (.injector .default),
  .addWell "I2" (some 1) .one (.injector .default),
  .attach 2 0,
  .attach 3 1]

/-- The site of that flood. -/
def flood (mode : InjectionMode) : Site ℚ := (vacant ⟨true, true, false⟩).serve (floodCalls mode)

/-- Each injector takes seventy-five of water. -/
def floodRates : RateTable ℚ := ⟨[300, 300], [75, 0, 75, 0], [75, 0, 75, 0]⟩

/-- The group of both injectors. -/
def floodGroup (mode : InjectionMode) : Node ℚ :=
  (flood mode).hierarchy.nodes.get ⟨0, by cases mode <;> decide +kernel⟩

theorem node_flood (mode : InjectionMode) :
    (flood mode).hierarchy.node 0 = .ok (floodGroup mode) :=
  Hierarchy.node_eq_ok.mpr (List.getElem?_eq_getElem _)

/-- Under the mode for the replaced volume the group is controlled: the wells are held to half of the
    limit each, the one that is on half of the time to twice as much. -/
theorem checkLimits_enforces_flood :
    (flood .vrep).firstViolation 0 floodRates = .ok (some (.target 0 (.injection .rate) 100)) ∧
      (flood .vrep).Separate ∧ (flood .vrep).hierarchy.guideRate .injection 0 false = .ok 2 ∧
      (∀ g ∈ ((flood .vrep).hierarchy.below 0).groups, g.2.specs.injection.mode ≠ .none) ∧
      (∃ c, ((flood .vrep).checkLimits 0 floodRates).1.UnderControl 2 c ∧ c.target = 50) ∧
      ∃ c, ((flood .vrep).checkLimits 0 floodRates).1.UnderControl 3 c ∧ c.target = 100 := by
  have hviolation : (flood .vrep).firstViolation 0 floodRates
      = .ok (some (.target 0 (.injection .rate) 100)) := by decide +kernel
  have hsep : (flood .vrep).Separate := separate_of_nodup (by decide +kernel)
  have htotal : (flood .vrep).hierarchy.guideRate .injection 0 false = .ok 2 := by decide +kernel
  have hgroups : ∀ g ∈ ((flood .vrep).hierarchy.below 0).groups,
      g.2.specs.injection.mode ≠ .none := by decide +kernel
  obtain ⟨_, _, _, hheld, _⟩ := checkLimits_enforces hviolation (node_flood .vrep) hsep htotal
    (by decide +kernel) hgroups
  obtain ⟨v, hv, hid, hkind, hguide, hshare⟩ :
      ∃ w ∈ ((flood .vrep).hierarchy.below 0).descents [floodGroup .vrep], w.id = 2 ∧
        w.node.isInjector = true ∧ 0 < w.guideRate .injection ∧
        100 * w.guideRate .injection / 2 / w.efficiency = 50 := by decide +kernel
  obtain ⟨v', hv', hid', hkind', hguide', hshare'⟩ :
      ∃ w ∈ ((flood .vrep).hierarchy.below 0).descents [floodGroup .vrep], w.id = 3 ∧
        w.node.isInjector = true ∧ 0 < w.guideRate .injection ∧
        100 * w.guideRate .injection / 2 / w.efficiency = 100 := by decide +kernel
  refine ⟨hviolation, hsep, htotal, hgroups, ?_, ?_⟩
  · obtain ⟨c, hunder, _, htarget⟩ := hheld (by decide +kernel) v hv hkind hguide
    exact ⟨c, hid ▸ hunder, htarget.trans hshare⟩
  · obtain ⟨c, hunder, _, htarget⟩ := hheld (by decide +kernel) v' hv' hkind' hguide'
    exact ⟨c, hid' ▸ hunder, htarget.trans hshare'⟩

/-- So an exceeded limit need not be imposed on any well: a group without control takes the mode, and
    its limit is passed over from then on. -/
theorem not_forall_enforced :
    ¬ ∀ (phases : ActivePhases) (calls : List (Call ℚ)) (root id : Nat) (rates : RateTable ℚ)
      (n : Node ℚ) (m : InjectionMode) (t total : ℚ),
      let s := (vacant phases).serve calls
      s.firstViolation root rates = .ok (some (.target id (.injection m) t)) →
      s.hierarchy.node id = .ok n → s.Separate →
      s.hierarchy.guideRate .injection id false = .ok total → 0 < total →
      (∀ g ∈ (s.hierarchy.below id).groups, g.2.specs.injection.mode ≠ .none) →
      ∀ w ∈ (s.hierarchy.below id).descents [n], w.node.isInjector = true →
        0 < w.guideRate .injection →
          ∃ c, (s.checkLimits root rates).1.UnderControl w.id c ∧
            c.target = t * w.guideRate .injection / total / w.efficiency := by
  intro hall
  obtain ⟨w, hw, hkind, hguide, hfree⟩ :
      ∃ w ∈ ((flood .none).hierarchy.below 0).descents [floodGroup .none],
        w.node.isInjector = true ∧ 0 < w.guideRate .injection ∧
        (((flood .none).checkLimits 0 floodRates).1.hierarchy.node w.id).map (·.individual)
          = .ok true := by decide +kernel
  obtain ⟨c, ⟨k, _, _, _, hk, hindividual, _⟩, _⟩ := hall _ (floodCalls .none) 0 0 floodRates _ .rate
    100 2 (by decide +kernel) (node_flood .none) (separate_of_nodup (by decide +kernel))
    (by decide +kernel) (by decide +kernel) (by decide +kernel) w hw hkind hguide
  -- no control was installed, so the well is still on its own
  replace hk : ((flood .none).checkLimits 0 floodRates).1.hierarchy.node w.id = .ok k := hk
  rw [hk] at hfree
  exact Bool.false_ne_true (hindividual.symm.trans (Except.ok.inj hfree))

end Site

end ReservoirWells
