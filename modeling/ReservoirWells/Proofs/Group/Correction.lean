import ReservoirWells.Proofs.Group.Inspection
import ReservoirWells.Proofs.Group.Push

/-! # Correction — a violation that was found is always answered

    A check of limits ends with an error, with the flows of the subtree, or with the answer to the
    first violation.  An answer pushes a target down, or looks for the largest well and takes it out
    of production, and each of these can fail on its own.  After a check it cannot: a group is
    looked at only when every well below it was looked at before without an event, so all of them
    are attached, are in the table and have their blocks, and the mode of the violation has a rate.

    * `Site.correct_ok` — the corrective action for the first violation goes through;
    * `Site.checkLimits_atomic` — a check that does not answer a violation changes nothing, and one
      that finds a violation never fails;
    * `Site.checkLimits_eq_checkInOrder` — a check is the first event in post-order, and the one
      corrective action that belongs to it. -/

namespace ReservoirWells

variable {α : Type} [Scalar α]

/-! ## What an inspection without event says -/

/-- The well is attached to an entry of the table, and its blocks can be read. -/
def Site.Readable (s : Site α) (rates : RateTable α) (n : Node α) : Prop :=
  ∃ index w b, n.tableIndex = .ok index ∧ s.wells.well index = .ok w ∧
    rates.blocks index s.hierarchy.phases.count = .ok b

namespace Site

/-- A well that was looked at without error is readable. -/
theorem readable_of_inspectWell {s : Site α} {rates : RateTable α} {n : Node α}
    {found : Option (Violation α)} (h : s.inspectWell rates n = .ok found) :
    s.Readable rates n := by
  obtain ⟨index, b, _, w, hi, hb, _, hw, _⟩ := inspectWell_cases h
  exact ⟨index, w, b, hi, hw, hb⟩

/-- A readable well is attached to an entry of the table. -/
theorem Readable.attachedTo {s : Site α} {rates : RateTable α} {id : Nat} {n : Node α}
    (h : s.Readable rates n) (hn : s.hierarchy.node id = .ok n) :
    ∃ index, s.AttachedTo id index ∧ index < s.wells.length := by
  obtain ⟨index, w, _, hi, hw, _⟩ := h
  exact ⟨index, ⟨n, hn, hi⟩, WellTable.lt_length_of_well hw⟩

/-- A readable well has a magnitude of rate in every supported mode. -/
theorem Readable.magnitude_ok {s : Site α} {rates : RateTable α} {n : Node α}
    (h : s.Readable rates n) {m : ProductionMode}
    (hm : s.hierarchy.phases.Supports (.production m)) :
    ∃ x, n.magnitude s.hierarchy.phases rates m = .ok x := by
  obtain ⟨index, _, b, hi, _, hb⟩ := h
  obtain ⟨hr, hs⟩ := RateTable.length_of_blocks hb
  obtain ⟨x, hx⟩ := ActivePhases.rate_ok hm (Nat.le_of_eq hr.symm) (Nat.le_of_eq hs.symm)
  exact ⟨Scalar.abs x, by simp only [Node.magnitude, hi, bind, Except.bind, hb, hx]; rfl⟩

end Site

/-! ## Where the first violation is -/

/-- A target that limits anything is at least zero. -/
theorem Node.target_nonneg {n : Node α} {mode : Mode} {t : α} (h : n.target mode = .ok (some t)) :
    0 ≤ t := by
  rw [target] at h
  cases hf : n.specs.targetField? mode with
  | none => rw [hf] at h; cases h
  | some field =>
      rw [hf] at h
      have hdefined : defined? field = some t := Except.ok.inj h
      rw [defined?, Option.filter_eq_some_iff] at hdefined
      exact of_decide_eq_true hdefined.2

namespace Site

/-- A part of the hierarchy without event has readable wells only. -/
theorem readable_of_findSomeM? {s : Site α} {rates : RateTable α} {f : Forest α}
    (hf : f.IsPart s.hierarchy) (h : f.postorder.findSomeM? (s.inspect rates) = .ok none) :
    ∀ w ∈ f.wells, s.Readable rates w.2 := by
  intro w hw
  obtain ⟨hn, hwell⟩ := hf.node_of_mem_wells hw
  have hnone := findSomeM?_eq_none h w.1 (Forest.mem_postorder_of_mem_wells hw)
  rw [inspect_well rates hn hwell] at hnone
  exact readable_of_inspectWell hnone

/-- The first violation of a part is one of a well, or of a group below which every well is
    readable. -/
theorem located_of_findSomeM? {s : Site α} {rates : RateTable α} {v : Violation α} {f : Forest α}
    (hf : f.IsPart s.hierarchy) (h : f.postorder.findSomeM? (s.inspect rates) = .ok (some v)) :
    (∃ n, s.inspectWell rates n = .ok (some v)) ∨
      ∃ id n, s.hierarchy.node id = .ok n ∧ n.isGroup = true ∧
        s.inspectGroup rates id n = .ok (some v) ∧
        ∀ w ∈ (s.hierarchy.below id).wells, s.Readable rates w.2 := by
  induction f with
  | nil => cases h
  | well id n next ih =>
      obtain ⟨hn, hwell, hnext⟩ := hf
      rw [Forest.postorder] at h
      cases hi : s.inspect rates id with
      | error e => rw [findSomeM?_cons_error hi] at h; cases h
      | ok found =>
          cases found with
          | some c =>
              rw [findSomeM?_cons_some hi] at h
              exact Or.inl ⟨n, (inspect_well rates hn hwell).symm.trans (hi.trans h)⟩
          | none =>
              rw [findSomeM?_cons_none hi] at h
              exact ih hnext h
  | group id n below next ihb ihn =>
      obtain ⟨hn, hgroup, hbelow, hpart, hnext⟩ := hf
      rw [Forest.postorder, findSomeM?_append] at h
      cases hb : below.postorder.findSomeM? (s.inspect rates) with
      | error e => rw [hb] at h; cases h
      | ok found =>
          rw [hb] at h
          cases found with
          | some c => exact ihb hpart (hb.trans h)
          | none =>
              replace h : (id :: next.postorder).findSomeM? (s.inspect rates) = .ok (some v) := h
              cases hi : s.inspect rates id with
              | error e => rw [findSomeM?_cons_error hi] at h; cases h
              | ok found =>
                  cases found with
                  | some c =>
                      -- by now everything below the group was looked at without event
                      rw [findSomeM?_cons_some hi] at h
                      refine Or.inr ⟨id, n, hn, hgroup, ?_, ?_⟩
                      · exact (inspect_group rates hn hgroup).symm.trans (hi.trans h)
                      · rw [← hbelow]
                        exact readable_of_findSomeM? hpart hb
                  | none =>
                      rw [findSomeM?_cons_none hi] at h
                      exact ihn hnext h

/-- A well breaks one of its controls. -/
theorem control_of_inspectWell {s : Site α} {rates : RateTable α} {n : Node α} {v : Violation α}
    (h : s.inspectWell rates n = .ok (some v)) : ∃ index place, v = .control index place := by
  obtain ⟨index, b, pressure, w, _, _, _, _, hfound⟩ := inspectWell_cases h
  obtain ⟨c, _, hc⟩ := exists_of_findSomeM? hfound
  cases hbroken : c.1.isBroken n.isProducer pressure b.1 b.2 with
  | error e => rw [hbroken] at hc; cases hc
  | ok broken =>
      rw [hbroken] at hc
      cases broken with
      | false => cases hc
      | true => exact ⟨index, c.2, (Option.some.inj (Except.ok.inj hc)).symm⟩

/-- A group breaks one of its targets: the target is defined, and what is below the group flows by
    more. -/
theorem target_of_inspectGroup {s : Site α} {rates : RateTable α} {id : Nat} {n : Node α}
    {v : Violation α} (h : s.inspectGroup rates id n = .ok (some v)) :
    ∃ mode target rate, v = .target id mode target ∧ n.target mode = .ok (some target) ∧
      s.comparedRate rates id mode = .ok rate ∧ target < mode.direction.extent rate := by
  obtain ⟨mode, _, hmode⟩ := exists_of_findSomeM? h
  rw [Node.inspectTarget] at hmode
  cases ht : n.target mode with
  | error e => rw [ht] at hmode; cases hmode
  | ok found =>
      cases found with
      | none => rw [ht] at hmode; cases hmode
      | some target =>
          simp only [ht, bind, Except.bind] at hmode
          split at hmode
          · cases hmode
          · rename_i rate hrate
            have hsome := Except.ok.inj hmode
            split at hsome
            · next hlt =>
                exact ⟨mode, target, rate, (Option.some.inj hsome).symm, ht, hrate, hlt⟩
            · cases hsome

/-! ## The largest well -/

end Site

namespace Forest

/-- The larger of two wells is one of them. -/
theorem worse_eq_or (best candidate : Option (Nat × α)) :
    worse best candidate = best ∨ worse best candidate = candidate := by
  cases best with
  | none => exact Or.inr rfl
  | some b =>
      cases candidate with
      | none => exact Or.inl rfl
      | some c =>
          show (if b.2 < c.2 then some c else some b) = some b ∨ _
          by_cases h : b.2 < c.2
          · exact Or.inr (if_pos h)
          · exact Or.inl (if_neg h)

/-- The search for the largest well finds what it started with, or one of the wells together with its
    magnitude. -/
theorem worst_mem {a : ActivePhases} {rates : RateTable α} {m : ProductionMode} {f : Forest α}
    {best found : Option (Nat × α)} (h : f.worst a rates m best = .ok found) :
    found = best ∨ ∃ w ∈ f.wells, ∃ x, w.2.magnitude a rates m = .ok x ∧ found = some (w.1, x) := by
  induction f generalizing best found with
  | nil => exact Or.inl (Except.ok.inj h).symm
  | well id n next ih =>
      rw [worst] at h
      obtain ⟨x, hx, h⟩ := bind_eq_ok.mp h
      rcases ih h with hstart | ⟨w, hw, hfound⟩
      · rcases worse_eq_or best (some (id, x)) with hold | hnew
        · exact Or.inl (hstart.trans hold)
        · exact Or.inr ⟨(id, n), List.mem_cons_self .., x, hx, hstart.trans hnew⟩
      · exact Or.inr ⟨w, List.mem_cons_of_mem _ hw, hfound⟩
  | group id n below next ihb ihn =>
      rw [worst] at h
      obtain ⟨candidate, hcandidate, h⟩ := bind_eq_ok.mp h
      rcases ihn h with hstart | ⟨w, hw, hfound⟩
      · rcases worse_eq_or best candidate with hold | hnew
        · exact Or.inl (hstart.trans hold)
        · rcases ihb hcandidate with hnone | ⟨w, hw, x, hx, hsome⟩
          · -- a group without wells puts nothing forward, which never replaces anything
            rw [hnone] at hstart
            cases best with
            | none => exact Or.inl hstart
            | some b => exact Or.inl hstart
          · exact Or.inr ⟨w, List.mem_append.mpr (Or.inl hw), x, hx,
              hstart.trans (hnew.trans hsome)⟩
      · exact Or.inr ⟨w, List.mem_append.mpr (Or.inr hw), hfound⟩

/-- Among readable wells the search for the largest one goes through. -/
theorem worst_ok {s : Site α} {rates : RateTable α} {m : ProductionMode}
    (hm : s.hierarchy.phases.Supports (.production m)) (f : Forest α)
    (hf : ∀ w ∈ f.wells, s.Readable rates w.2) (best : Option (Nat × α)) :
    ∃ found, f.worst s.hierarchy.phases rates m best = .ok found := by
  induction f generalizing best with
  | nil => exact ⟨best, rfl⟩
  | well id n next ih =>
      obtain ⟨x, hx⟩ := (hf (id, n) (List.mem_cons_self ..)).magnitude_ok hm
      rw [worst, hx]
      exact ih (fun w hw => hf w (List.mem_cons_of_mem _ hw)) _
  | group id n below next ihb ihn =>
      obtain ⟨candidate, hcandidate⟩ := ihb (fun w hw => hf w (List.mem_append.mpr (Or.inl hw))) none
      rw [worst, hcandidate]
      exact ihn (fun w hw => hf w (List.mem_append.mpr (Or.inr hw))) _

end Forest

/-- The largest well of a group is the largest one below it. -/
theorem Hierarchy.worst_group {h : Hierarchy α} {id : Nat} {n : Node α} (hn : h.node id = .ok n)
    (hg : n.isGroup = true) (rates : RateTable α) (m : ProductionMode) :
    h.worst id rates m = (h.below id).worst h.phases rates m none := by
  rw [worst, Hierarchy.subtree_group hn hg]
  show ((h.below id).worst h.phases rates m none >>= fun candidate =>
    Except.ok (Forest.worse none candidate)) = _
  cases (h.below id).worst h.phases rates m none with
  | error e => rfl
  | ok candidate => rfl

/-! ## Answering a violation -/

namespace Site

/-- A target is pushed down a group without error when every well below it is readable. -/
theorem run_enforce_ok {s : Site α} {rates : RateTable α} {id : Nat} {mode : Mode}
    (hmode : s.hierarchy.phases.Supports mode)
    (hwells : ∀ w ∈ (s.hierarchy.below id).wells, s.Readable rates w.2) (n : Node α) (target : α) :
    (s.run (n.enforce id (s.hierarchy.below id) s.hierarchy.phases mode target)).2 = .ok () := by
  apply run_push_ok hmode
  intro w hw
  have hbelow : w ∈ (s.hierarchy.below id).wells := by
    rwa [Forest.wells, Forest.wells, List.append_nil] at hw
  obtain ⟨hn, _⟩ := (s.hierarchy.below_isPart id).node_of_mem_wells hbelow
  exact (hwells w hbelow).attachedTo hn

/-- The answer to an exceeded target goes through when every well below the group is readable, and
    the orders of the assessment carry it out. -/
theorem correct_target_ok {s : Site α} {rates : RateTable α} {id : Nat} {n : Node α}
    (hn : s.hierarchy.node id = .ok n) (hg : n.isGroup = true) {mode : Mode}
    (hmode : s.hierarchy.phases.Supports mode)
    (hwells : ∀ w ∈ (s.hierarchy.below id).wells, s.Readable rates w.2) (target : α) :
    ∃ t orders, s.repair rates (.target id mode target) = .ok orders ∧
      s.run orders = (t, .ok ()) ∧ s.correct rates (.target id mode target) = (t, .ok ()) := by
  have hrun := run_enforce_ok hmode hwells n target
  have hpush := pushTarget_group hn hg mode target
  generalize horders : n.enforce id (s.hierarchy.below id) s.hierarchy.phases mode target = orders
    at hrun hpush
  obtain ⟨t, hdone⟩ : ∃ t, s.run orders = (t, .ok ()) := ⟨(s.run orders).1, Prod.ext rfl hrun⟩
  cases mode with
  | injection m =>
      have hrepair : s.repair rates (.target id (.injection m) target)
          = .ok (orders ++ [.adopt id (.injection m)]) := by
        rw [repair, hn, ← horders]
        rfl
      rw [correct, hpush, hdone]
      refine ⟨_, _, hrepair, ?_, rfl⟩
      rw [run_append, hdone]
      rfl
  | production m =>
      have hrepair : s.repair rates (.target id (.production m) target)
          = n.answer id (s.hierarchy.below id) s.hierarchy.phases rates (.production m) target := by
        rw [repair, hn]
        rfl
      simp only [hrepair, correct, hn, Node.answer, horders, hpush]
      cases hp : n.specs.production.procedure with
      | none => exact ⟨s, [], rfl, rfl, rfl⟩
      | rate => exact ⟨t, orders, rfl, hdone, hdone⟩
      | well =>
          obtain ⟨found, hfound⟩ := Forest.worst_ok hmode _ hwells none
          rw [Hierarchy.worst_group hn hg, hfound]
          rcases Forest.worst_mem hfound with rfl | ⟨w, hw, x, _, rfl⟩
          · exact ⟨s, [], rfl, rfl, rfl⟩
          · -- the largest well is one of those below, so it is attached and can be withdrawn
            obtain ⟨hnode, _⟩ := (s.hierarchy.below_isPart id).node_of_mem_wells hw
            obtain ⟨index, ha, hlt⟩ := (hwells w hw).attachedTo hnode
            obtain ⟨u, hu⟩ := withdraw_ok ha hlt
            have hwithdraw : s.run [.withdraw w.1] = (u, .ok ()) := by
              rw [run, show s.obey (.withdraw w.1) = .ok u from hu]
              rfl
            exact ⟨u, [.withdraw w.1], rfl, hwithdraw, hwithdraw⟩

/-- The corrective action for the first violation goes through, and the orders of the assessment
    carry it out. -/
theorem correct_ok {s : Site α} {id : Nat} {rates : RateTable α} {v : Violation α}
    (h : s.firstViolation id rates = .ok (some v)) :
    ∃ t orders, s.repair rates v = .ok orders ∧ s.run orders = (t, .ok ()) ∧
      s.correct rates v = (t, .ok ()) := by
  rw [firstViolation] at h
  obtain ⟨f, hf, hfound⟩ := bind_eq_ok.mp h
  rcases located_of_findSomeM? (Hierarchy.subtree_isPart hf) hfound with
    ⟨n, hwell⟩ | ⟨gid, n, hn, hg, hgroup, hwells⟩
  · obtain ⟨index, place, rfl⟩ := control_of_inspectWell hwell
    exact ⟨_, [.activate index place], rfl, rfl, rfl⟩
  · obtain ⟨mode, target, rate, rfl, _, hrate, _⟩ := target_of_inspectGroup hgroup
    exact correct_target_ok hn hg (ActivePhases.supports_of_rate hrate) hwells target

/-- A target that is the first violation was found in a group below which every well is readable. -/
theorem group_of_firstViolation {s : Site α} {root id : Nat} {rates : RateTable α} {mode : Mode}
    {target : α} (h : s.firstViolation root rates = .ok (some (.target id mode target))) :
    ∃ n, s.hierarchy.node id = .ok n ∧ n.isGroup = true ∧
      s.inspectGroup rates id n = .ok (some (.target id mode target)) ∧
      ∀ w ∈ (s.hierarchy.below id).wells, s.Readable rates w.2 := by
  rw [firstViolation] at h
  obtain ⟨f, hf, hfound⟩ := bind_eq_ok.mp h
  rcases located_of_findSomeM? (Hierarchy.subtree_isPart hf) hfound with
    ⟨n, hwell⟩ | ⟨gid, n, hn, hg, hgroup, hwells⟩
  · obtain ⟨index, place, heq⟩ := control_of_inspectWell hwell
    cases heq
  · obtain ⟨mode', target', rate, heq, _⟩ := target_of_inspectGroup hgroup
    cases heq
    exact ⟨n, hn, hg, hgroup, hwells⟩

/-- A target that is the first violation is one of a group, which exceeds it. -/
theorem exceeded_of_firstViolation {s : Site α} {root id : Nat} {rates : RateTable α} {mode : Mode}
    {target : α} (h : s.firstViolation root rates = .ok (some (.target id mode target))) :
    ∃ n rate, s.hierarchy.node id = .ok n ∧ n.isGroup = true ∧
      n.target mode = .ok (some target) ∧ s.comparedRate rates id mode = .ok rate ∧
      target < mode.direction.extent rate := by
  obtain ⟨n, hn, hg, hgroup, _⟩ := group_of_firstViolation h
  obtain ⟨mode', target', rate, heq, htarget, hrate, hlt⟩ := target_of_inspectGroup hgroup
  cases heq
  exact ⟨n, rate, hn, hg, htarget, hrate, hlt⟩

/-! ## The check -/

/-- The rates added up in the subtree of a node; nothing for a node that is not there. -/
def flows (s : Site α) (id : Nat) (rates : RateTable α) : FlowTotals α :=
  match s.hierarchy.subtree id with
  | .ok f => f.flows s.hierarchy.phases rates .zero
  | .error _ => .zero

/-- The check in two phases: first every node of the subtree is looked at, in post-order and on the
    site as it stands, and then the first event decides. An error changes nothing, a violation is
    answered by its corrective action. -/
def checkInOrder (s : Site α) (id : Nat) (rates : RateTable α) : Result α (Outcome α) :=
  match s.firstViolation id rates with
  | .error e => (s, .error e)
  | .ok none => (s, .ok (.met (s.flows id rates)))
  | .ok (some v) => ((s.correct rates v).1, .ok .violated)

/-- The assessment of a subtree, as the first event in post-order. -/
theorem assess_subtree (s : Site α) (id : Nat) (rates : RateTable α) :
    (s.hierarchy.subtree id).bind (·.assess s.hierarchy.phases s.wells rates .zero)
      = (s.firstViolation id rates).bind (s.finding rates (s.flows id rates)) := by
  rw [firstViolation, flows]
  cases hf : s.hierarchy.subtree id with
  | error e => rfl
  | ok f => exact assess_eq s rates f (Hierarchy.subtree_isPart hf) .zero

/-- A subtree in which nothing can be found out is left as it is. -/
theorem checkLimits_of_error {s : Site α} {id : Nat} {rates : RateTable α} {e : GroupError}
    (h : s.firstViolation id rates = .error e) : s.checkLimits id rates = (s, .error e) := by
  rw [checkLimits, assess_subtree, h]
  rfl

/-- A subtree without violation is left as it is, and the flows are added up. -/
theorem checkLimits_of_none {s : Site α} {id : Nat} {rates : RateTable α}
    (h : s.firstViolation id rates = .ok none) :
    s.checkLimits id rates = (s, .ok (.met (s.flows id rates))) := by
  rw [checkLimits, assess_subtree, h]
  rfl

/-- A violation is answered by its corrective action. -/
theorem checkLimits_of_violation {s : Site α} {id : Nat} {rates : RateTable α} {v : Violation α}
    (h : s.firstViolation id rates = .ok (some v)) :
    (s.correct rates v).2 = .ok () ∧
      s.checkLimits id rates = ((s.correct rates v).1, .ok .violated) := by
  obtain ⟨t, orders, hrepair, hrun, hcorrect⟩ := correct_ok h
  rw [hcorrect]
  refine ⟨rfl, ?_⟩
  rw [checkLimits, assess_subtree, h]
  simp only [Except.bind, finding, hrepair, Except.map, hrun]

/-- The flows of a subtree are the result only when nothing in it breaks a limit. -/
theorem firstViolation_of_met {s : Site α} {id : Nat} {rates : RateTable α} {totals : FlowTotals α}
    (h : (s.checkLimits id rates).2 = .ok (.met totals)) :
    s.firstViolation id rates = .ok none ∧ totals = s.flows id rates := by
  cases hv : s.firstViolation id rates with
  | error e => rw [checkLimits_of_error hv] at h; cases h
  | ok found =>
      cases found with
      | none =>
          rw [checkLimits_of_none hv] at h
          cases h
          exact ⟨rfl, rfl⟩
      | some v => rw [(checkLimits_of_violation hv).2] at h; cases h

/-- A check that ends with an error or with the flows of the subtree leaves the site as it was, and
    one that finds a violation answers it without fail. -/
theorem checkLimits_atomic (s : Site α) (id : Nat) (rates : RateTable α) :
    (∀ e, (s.checkLimits id rates).2 = .error e → (s.checkLimits id rates).1 = s) ∧
    (∀ totals, (s.checkLimits id rates).2 = .ok (.met totals) → (s.checkLimits id rates).1 = s) ∧
    ∀ v, s.firstViolation id rates = .ok (some v) →
      (s.correct rates v).2 = .ok () ∧
        s.checkLimits id rates = ((s.correct rates v).1, .ok .violated) := by
  refine ⟨?_, ?_, fun v hv => checkLimits_of_violation hv⟩
  · intro e he
    cases h : s.firstViolation id rates with
    | error e' => rw [checkLimits_of_error h]
    | ok found =>
        cases found with
        | none => rw [checkLimits_of_none h]
        | some v => rw [(checkLimits_of_violation h).2] at he; cases he
  · intro totals htotals
    rw [checkLimits_of_none (firstViolation_of_met htotals).1]

/-- A check comes to looking at the nodes of the subtree in post-order on the site as it stands, and
    to the one corrective action that answers the first violation. -/
theorem checkLimits_eq_checkInOrder (s : Site α) (id : Nat) (rates : RateTable α) :
    s.checkLimits id rates = s.checkInOrder id rates := by
  rw [checkInOrder]
  cases h : s.firstViolation id rates with
  | error e => exact checkLimits_of_error h
  | ok found =>
      cases found with
      | none => exact checkLimits_of_none h
      | some v => exact (checkLimits_of_violation h).2

end Site
end ReservoirWells
